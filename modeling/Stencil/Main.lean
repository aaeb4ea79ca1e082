import Stencil.CommandLine.Run

/-!
# The program

Reads files and standard input for a run, writes what it leaves behind, and exits.
-/

namespace Stencil

/-- Why a file cannot be read, by the error of the system. A directory can be opened, so
it fails at reading and with a number of its own. -/
def fileError : IO.Error → CommandLine.FileError
  | .noFileOrDirectory .. => .notFound
  | .inappropriateType _ 21 _ => .isDirectory
  | .inappropriateType .. => .notDirectory
  | .permissionDenied .. => .denied
  | .userError _ => .notText
  | e => .other (toString e)

def readFile (path : String) : IO (Except CommandLine.FileError String) := do
  try
    return .ok (← IO.FS.readFile path)
  catch e =>
    return .error (fileError e)

def processSources : CommandLine.Sources IO :=
  ⟨readFile, do (← IO.getStdin).readToEnd⟩

end Stencil

def main (arguments : List String) : IO UInt32 := do
  let outcome ← Stencil.CommandLine.run Stencil.processSources arguments
  IO.eprint outcome.notes
  IO.print outcome.output
  return outcome.code
