import RasterScript.CommandLine

/-! Commands in a folder that is kept in memory. It holds files only, so a path into another folder
leads nowhere. -/
namespace RasterScript.CommandLine

abbrev Folder := List (String × ByteArray)

namespace Folder

def missing : String := "No such file or directory (os error 2)"

def read (f : Folder) : Files := fun path =>
  match f.lookup path with
  | some bytes => .ok bytes
  | none => .error missing

def write (f : Folder) (path : String) (bytes : ByteArray) : Except String Folder :=
  if path.contains '/' then .error missing
  else .ok ((path, bytes) :: f.filter fun entry => entry.1 ≠ path)

/-- Answer the words of a command line, and write what is to be written. -/
def respond (f : Folder) (words : List String) : Response × Folder :=
  let r := CommandLine.respond f.read words
  match r.path, r.output with
  | some path, some text =>
    match f.write path text.toUTF8 with
    | .ok f => ({ r with output := none }, f)
    | .error reason => (r.unwritten path reason, f)
  | _, _ => (r, f)

end Folder

end RasterScript.CommandLine
