import StackLang.Cli.Command

/-!
# The program

The command line over the terminal and the file system.
-/

namespace StackLang

/-- The text of a failed file operation. -/
def fileErrorText : IO.Error → String
  | .noFileOrDirectory _ code details | .permissionDenied (some _) code details
  | .inappropriateType (some _) code details | .invalidArgument (some _) code details =>
    s!"{details} (os error {code})"
  | e => toString e

/-- Standard output and error, and the files of the system. -/
def terminal : Cli.Console IO where
  print bytes := do
    let out ← IO.getStdout
    out.write bytes
    out.flush
  complain text := IO.eprint text
  load path := do
    match ← (IO.FS.readBinFile path).toBaseIO with
    | .ok bytes => return .ok bytes
    | .error e => return .error (fileErrorText e)
  save path bytes := do
    match ← (IO.FS.writeBinFile path bytes).toBaseIO with
    | .ok () => return .ok ()
    | .error e => return .error (fileErrorText e)

end StackLang

def main (args : List String) : IO UInt32 := do
  let code ← StackLang.terminal.run args
  return code.toUInt32
