import RasterScript.Dialect
import RasterScript.Digest
import RasterScript.Json

/-! What identifies the input of a compile. -/
namespace RasterScript

def version : String := "0.3.1"

/-- A script's fingerprint and the dialect that it is read in. -/
structure Provenance where
  scriptHash : List UInt8
  dialect : Dialect
deriving DecidableEq, Repr

namespace Provenance

/-- The digest covers the name of the dialect, a newline, and the text. -/
def ofText (text : String) (dialect : Dialect) : Provenance where
  scriptHash := Digest.sha256 (dialect.name ++ "\n" ++ text).toUTF8.toList
  dialect := dialect

def hashText (p : Provenance) : String := Digest.hex p.scriptHash

def document (p : Provenance) : String :=
  (Json.record
    [("script_hash", .ofText p.hashText), ("dialect", .ofText p.dialect.name),
     ("compiler_version", .ofText version)]).pretty ++ "\n"

end Provenance

end RasterScript
