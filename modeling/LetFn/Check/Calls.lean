import LetFn.Check.Materialize
import LetFn.Tree.Revise

/-!
# Calls

A call has as many arguments as its function has parameters, and every argument has to widen to the type of its
parameter, which it then gets. An error points at the declaration of the function or of the parameter, if the function
is called by its name.
-/

namespace LetFn.Check

/-- Where the function of a call is declared and where its parameters are. -/
structure Declaration where
  name : Span
  params : List Span

/-- The declaration of the function that a call names; a function that is no name stands for itself. -/
def declaration (ctx : Context) (callee : Node) : Declaration :=
  match callee.identifier?.bind (ctx.lookup callee.scopeId) with
  | some (_, ⟨_, _, span, .function params _⟩) => ⟨span, params⟩
  | _ => ⟨callee.span, []⟩

/-- Gives the arguments from number `index` on the types of their parameters. -/
def passArguments (ctx : Context) (decl : Declaration) (index : Nat) :
    List Node → List TypeId → Except Error (List Node)
  | x :: xs, t :: ts => do
    if !ctx.coerces x.typeId t then
      throw ⟨.argumentMismatch (index + 1) (ctx.display t) (ctx.display x.typeId), x.span,
        some (decl.params.getD index decl.name)⟩
    let xs ← passArguments ctx decl (index + 1) xs ts
    return { x with type := some t } :: xs
  | xs, _ => return xs

/-- The rule for one node whose parts are done. -/
def callRule (ctx : Context) (n : Node) : Except Error Node :=
  match n.form with
  | .functionCall callee arguments =>
    match ctx.type callee.typeId with
    | .function params _ => do
      let decl := declaration ctx callee
      if arguments.length ≠ params.length then
        throw ⟨.arityMismatch params.length arguments.length, n.span, some decl.name⟩
      let arguments ← passArguments ctx decl 0 arguments params
      return { n with form := .functionCall callee arguments }
    | _ => return n
  | _ => return n

def calls (ctx : Context) (n : Node) : Except Error Node := n.revise (callRule ctx)

end LetFn.Check
