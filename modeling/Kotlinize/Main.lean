import Kotlinize.CommandLine

/-!
# The program

Reads the files that the arguments name, and writes the response to them.
-/

namespace Kotlinize

/-- Why the system refused to read a file. -/
def ReadFault.ofError : IO.Error → ReadFault
  | .noFileOrDirectory .. => .missing
  | .permissionDenied .. => .refused "Permission denied" 13
  | .inappropriateType .. => .refused "Is a directory" 21
  | e => .refused (toString e) 5

/-- Reads a file as text. -/
def readSource (path : String) : IO (Except ReadFault String) := do
  try
    return decodeFile (← IO.FS.readBinFile path)
  catch e =>
    return .error (.ofError e)

/-- Answers the request of the arguments. -/
def run (args : List String) : IO UInt32 := do
  let request := Request.ofArgs args
  let contents ← request.paths.mapM fun path => return (path, ← readSource path)
  let response := request.answer fun path => (contents.lookup path).getD (.error .missing)
  (← IO.getStderr).putStr response.err
  (← IO.getStdout).putStr response.out
  return response.exitCode.toUInt32

end Kotlinize

/-- The program. -/
def main (args : List String) : IO UInt32 := Kotlinize.run args
