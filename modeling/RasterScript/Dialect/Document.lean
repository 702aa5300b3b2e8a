import RasterScript.Dialect
import RasterScript.Json.Read

/-! Dialects as JSON documents. -/
namespace RasterScript.Dialect

def toJson (d : Dialect) : Json := .ofText d.name

/-- A dialect is its name, or an object whose only member has that name and no value. -/
def ofJson? : Json → Option Dialect
  | .string raw => (Json.textOf? raw).bind ofName?
  | .object [(raw, .null)] => (Json.textOf? raw).bind ofName?
  | _ => none

def read (text : String) : Option Dialect := (Json.read text).bind ofJson?

end RasterScript.Dialect
