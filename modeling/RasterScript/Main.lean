import RasterScript.CommandLine

/-! The program: files are read and written here, and all else is decided by the command line. -/
open RasterScript CommandLine

namespace RasterScript.Main

def reason : IO.Error → String
  | .noFileOrDirectory _ code details
  | .permissionDenied _ code details
  | .inappropriateType _ code details
  | .invalidArgument _ code details => s!"{details} (os error {code})"
  | e => toString e

def readInput (path : String) : IO (String × Except String ByteArray) := do
  try return (path, .ok (← IO.FS.readBinFile path))
  catch e => return (path, .error (reason e))

def deliver (r : Response) : IO Response := do
  match r.path, r.output with
  | some path, some text =>
    try
      IO.FS.writeFile path text
      return r
    catch e => return r.unwritten path (reason e)
  | none, some text =>
    (← IO.getStdout).putStr text
    return r
  | _, none => return r

end RasterScript.Main

/-- The times that are shown are those of the whole command. -/
def main (words : List String) : IO UInt32 := do
  let start ← IO.monoMsNow
  let files ← (inputs words).mapM RasterScript.Main.readInput
  let r ← RasterScript.Main.deliver
    (respond (fun path => (files.lookup path).getD (.error "not read")) words)
  let time := (← IO.monoMsNow) - start
  (← IO.getStderr).putStr (r.errorText s!"{time}.0")
  return UInt32.ofNat r.exit
