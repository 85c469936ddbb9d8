import LetFn.Check.Materialize

/-!
# Options

The arguments of the command line: one file and some flags, in any order.
-/

namespace LetFn

structure Options where
  file : String
  mode : Mode := .nominal
  /-- Show the tokens before the tree is built. -/
  dumpTokens : Bool := false
  /-- Show the tree before it is checked. -/
  dumpTree : Bool := false
deriving DecidableEq, Repr

namespace Options

/-- What is wrong with a list of arguments. -/
inductive Problem where
  | missingFile
  | unknownFlag (flag : String)
  | extraFile (file : String)
deriving DecidableEq, Repr

def Problem.message : Problem → String
  | missingFile => "usage: frontend <file> [--dump-tokens] [--dump-ast] [--infer]"
  | unknownFlag flag => "unknown flag `" ++ flag ++ "`"
  | extraFile file => "unexpected extra input file `" ++ file ++ "`"

/-- Reads one more argument; whatever begins with two dashes is a flag. -/
def step (file : Option String) (o : Options) (argument : String) : Except Problem (Option String × Options) :=
  if argument = "--dump-tokens" then .ok (file, { o with dumpTokens := true })
  else if argument = "--dump-ast" then .ok (file, { o with dumpTree := true })
  else if argument = "--infer" then .ok (file, { o with mode := .unification })
  else if ['-', '-'] <+: argument.toList then .error (.unknownFlag argument)
  else if file.isSome then .error (.extraFile argument)
  else .ok (some argument, o)

def ofArguments (arguments : List String) : Except Problem Options := do
  let (file, o) ← arguments.foldlM (fun (file, o) argument => step file o argument) (none, { file := "" })
  match file with
  | some file => return { o with file }
  | none => throw .missingFile

end Options

end LetFn
