import RasterScript.Diagnostic
import RasterScript.Json

/-! Messages as a JSON document. -/
namespace RasterScript

def Diagnostic.toJson (text : String) (d : Diagnostic) : Json :=
  let p := Text.position text d.span.start
  .record
    [("code", (d.code.map Json.ofText).getD .null), ("level", .ofText d.level.name),
     ("line", .ofNat p.line), ("column", .ofNat p.column), ("message", .ofText d.message)]

def Report.document (r : Report) : String :=
  (Json.array (r.entries.map (Diagnostic.toJson r.text))).pretty ++ "\n"

end RasterScript
