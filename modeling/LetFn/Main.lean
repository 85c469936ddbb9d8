import LetFn.CommandLine

/-!
# The program

Reads the file that the command line names and passes on what the run leaves behind.
-/

namespace LetFn

/-- Why the system could not read a file. -/
def refusal : IO.Error → Unreadable
  | .noFileOrDirectory _ _ _ => .missing
  | .inappropriateType _ 20 _ => .notDirectory
  | .inappropriateType _ _ _ => .directory
  | .invalidArgument _ 36 _ => .nameTooLong
  | .permissionDenied _ code details => .other (details ++ " (os error " ++ toString code ++ ")")
  | e => .other (toString e)

/-- The text of a file, or the reason why it cannot be read. -/
def readSource (file : String) : IO (Except Unreadable String) := do
  try
    let bytes ← IO.FS.readBinFile file
    return match String.fromUTF8? bytes with
      | some text => .ok text
      | none => .error .notText
  catch e => return .error (refusal e)

end LetFn

def main (arguments : List String) : IO UInt32 := do
  let outcome ← LetFn.CommandLine.run LetFn.readSource arguments
  (← IO.getStdout).putStr outcome.stdout
  (← IO.getStderr).putStr outcome.stderr
  return if outcome.success then 0 else 1
