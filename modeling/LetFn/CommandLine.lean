import LetFn.Check.Analyze
import LetFn.Error.Render
import LetFn.Folder
import LetFn.Options
import LetFn.Tree.Print

/-!
# The command line

One run of the program: it reads a file, shows what it was asked to show on the way, and ends with the typed tree or
with a picture of the error. What was shown before an error stays.
-/

namespace LetFn.CommandLine

/-- What a run leaves behind. -/
structure Outcome where
  success : Bool
  stdout : String := ""
  stderr : String := ""
deriving DecidableEq, Repr

/-- Why a program is refused. -/
def explain (file source : String) : Failure → String
  | .error e => (e.diagnostic? file source).getD (Error.tooWide ++ "\n")
  | .fault f => f.message ++ "\n"
  | .unfinished => "the grammar goes in circles\n"

/-- What the run shows, and the typed tree unless the program is refused. -/
def compile (o : Options) (source : String) : String × Except Failure String :=
  match tokenize source with
  | .error e => ("", .error (.error e))
  | .ok tokens =>
    let shown := if o.dumpTokens then String.join (tokens.map fun t => t.text ++ "\n") else ""
    match parse tokens source.utf8ByteSize with
    | .error f => (shown, .error f)
    | .ok tree =>
      let shown := if o.dumpTree then shown ++ tree.print ++ "\n" else shown
      match Check.typeCheck o.mode tree with
      | .error e => (shown, .error (.error e))
      | .ok (tree, ctx) => (shown, .ok (tree.printTyped ctx))

/-- A run over the text of a file, or over the reason why it cannot be read. -/
def runOn (o : Options) : Except Unreadable String → Outcome
  | .error u => { success := false, stderr := "Failed to read `" ++ o.file ++ "`: " ++ u.message ++ "\n" }
  | .ok source =>
    match compile o source with
    | (shown, .ok tree) => { success := true, stdout := shown ++ tree ++ "\n" }
    | (shown, .error f) => { success := false, stdout := shown, stderr := explain o.file source f }

/-- A run with the given arguments; `read` gives the text of a file. -/
def run {m : Type → Type} [Monad m] (read : String → m (Except Unreadable String)) (arguments : List String) :
    m Outcome :=
  match Options.ofArguments arguments with
  | .error problem => pure { success := false, stderr := problem.message ++ "\n" }
  | .ok o => do return runOn o (← read o.file)

end LetFn.CommandLine
