import Flatword.Command.Run

/-!
# The command line
-/

namespace Flatword.Command

/-- Why an access to a file failed, in words. -/
def reasonOf : IO.Error → String
  | .noFileOrDirectory _ code details | .permissionDenied (some _) code details
  | .inappropriateType (some _) code details | .invalidArgument (some _) code details
  | .alreadyExists (some _) code details | .interrupted _ code details =>
    s!"{details} (os error {code})"
  | .userError _ => "stream did not contain valid UTF-8"
  | error => toString error

/-- The files of the machine. -/
def diskFiles : Files IO where
  read path := do
    try
      return .ok (← IO.FS.readFile path)
    catch e =>
      return .error (reasonOf e)
  write path text := do
    try
      IO.FS.writeFile path text
      return .ok ()
    catch e =>
      return .error (reasonOf e)

end Flatword.Command

def main (args : List String) : IO UInt32 := do
  let outcome ← Flatword.Command.run Flatword.Command.diskFiles args
  IO.eprint outcome.stderr
  IO.print outcome.stdout
  return outcome.status
