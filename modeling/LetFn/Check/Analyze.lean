import LetFn.Check.Arithmetic
import LetFn.Check.Assignment
import LetFn.Check.Calls
import LetFn.Grammar.Parse

/-!
# The whole check

`Check.typeCheck` takes a tree through all steps of the check, `analyze` a source from its text on. The result is the
tree with a scope and a type on its nodes, and the context that these refer to.
-/

namespace LetFn

namespace Check

/-- Puts in place of every type variable what it leads to, in the scopes and on the tree. -/
def substitute (ctx : Context) (n : Node) : Node × Context :=
  let ctx := ctx.resolveSymbols
  (n.mapType (·.map ctx.resolve), ctx)

/-- Variables are substituted only where there are any. -/
def settle (mode : Mode) (ctx : Context) (n : Node) : Node × Context :=
  match mode with
  | .nominal => (n, ctx)
  | .unification => substitute ctx n

def typeCheck (mode : Mode) (n : Node) : Except Error (Node × Context) := do
  let (n, ctx) := scopes .new n
  let ctx ← signatures ctx n
  let (n, ctx) ← materialize mode ctx n
  let (n, ctx) := settle mode ctx n
  let n ← arithmetic ctx n
  let n ← assignment mode ctx n
  let n ← calls ctx n
  return (n, ctx)

end Check

/-- Reads and checks a source. -/
def analyze (source : String) (mode : Mode) : Except Failure (Node × Context) := do
  let n ← parseSource source
  Check.typeCheck mode n

end LetFn
