import LetFn.Check.Materialize
import LetFn.Tree.Revise

/-!
# Arithmetic

The operands of arithmetic have to be numbers, and so has the operand of every prefix operator. An arithmetic
expression and both its operands get the higher of the operands' types; a sign and a block take on the type that their
operand and their value have then.
-/

namespace LetFn.Check

def nonNumeric (ctx : Context) (side : Side) (operand expression : Node) : Error :=
  ⟨.nonNumericOperand side (ctx.display operand.typeId), operand.span, some expression.span⟩

/-- The rule for one node whose parts are done. -/
def arithmeticRule (ctx : Context) (n : Node) : Except Error Node :=
  match n.form with
  | .infixOp operator left right =>
    if !operator.kind.isArithmetic then return n
    else if !ctx.isNumeric left.typeId then throw (nonNumeric ctx .left left n)
    else if !ctx.isNumeric right.typeId then throw (nonNumeric ctx .right right n)
    else
      match ctx.promote left.typeId right.typeId with
      | none => return n
      | some t =>
        let form := .infixOp operator { left with type := some t } { right with type := some t }
        return { n with type := some t, form }
  | .prefixOp operator operand =>
    if !ctx.isNumeric operand.typeId then throw (nonNumeric ctx .right operand n)
    else if operator.kind = .dash then return { n with type := some operand.typeId }
    else return n
  | .block _ (some trailing) => return { n with type := trailing.type }
  | _ => return n

def arithmetic (ctx : Context) (n : Node) : Except Error Node := n.revise (arithmeticRule ctx)

end LetFn.Check
