import LetFn.Check.Materialize
import LetFn.Tree.Revise

/-!
# Assignment

Both sides of `=` have to have the same type. The initializer of a variable has to widen to the declared type, which it
then gets; with unification the variable is settled already. The body of a function has to widen to the type that the
function returns, unless that is `void`.
-/

namespace LetFn.Check

/-- The rule for one node whose parts are done. -/
def assignmentRule (mode : Mode) (ctx : Context) (n : Node) : Except Error Node :=
  match n.form with
  | .infixOp operator left right =>
    if operator.kind = .assignment ∧ left.typeId ≠ right.typeId then
      throw ⟨.assignmentMismatch (ctx.display left.typeId) (ctx.display right.typeId), right.span, some left.span⟩
    else return n
  | .variableDef name type (some initializer) =>
    if mode = .unification then return n
    else if !ctx.coerces initializer.typeId type.typeId then
      throw ⟨.noCommonAncestor (ctx.display type.typeId) (ctx.display initializer.typeId), initializer.span,
        some name.span⟩
    else return { n with form := .variableDef name type (some { initializer with type := some type.typeId }) }
  | .functionDef _ _ result (some body) =>
    if ctx.type result.typeId ≠ .void ∧ !ctx.coerces body.typeId result.typeId then
      throw ⟨.returnTypeMismatch (ctx.display result.typeId) (ctx.display body.typeId), body.span, some result.span⟩
    else return n
  | _ => return n

def assignment (mode : Mode) (ctx : Context) (n : Node) : Except Error Node := n.revise (assignmentRule mode ctx)

end LetFn.Check
