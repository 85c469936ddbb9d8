import LetFn.Check.Signatures
import LetFn.Types.Unify

/-!
# First types

Every expression gets a first type, from its leaves upwards, and variables, parameters and functions are declared on
the way. A name is looked up at the moment the walk comes to it, so a variable is known from behind its own initializer
on. The names and type expressions of definitions are typed by the definition and never looked up as expressions.
-/

namespace LetFn

/-- How a variable gets its type. -/
inductive Mode where
  /-- It has the declared type. -/
  | nominal
  /-- It has a type variable, unified with the declared type and with the type of the initializer. -/
  | unification
deriving DecidableEq, Repr

/-- The noted type; a node without a note counts as having no value. -/
def Node.typeId (n : Node) : TypeId := n.type.getD .void

namespace Check

/-- The type of a leaf; a token that is no expression leaves the note as it was. -/
def leafType (ctx : Context) (s : ScopeId) (token : Token) (span : Span) (noted : Option TypeId) :
    Except Error (Option TypeId) :=
  match token.kind with
  | .integer => return some .int
  | .float => return some .float
  | .string => return some .string
  | .identifier => do
    let symbol ← ctx.resolveSymbol s (token.identifier?.getD "") span
    return some symbol.type
  | _ => return noted

/-- The first type of a prefix operator over its operand: truth values are integers. -/
def prefixType (operator : Token) (operand : Node) : TypeId :=
  if operator.kind = .not then .int else operand.typeId

/-- The first type of an infix operator: truth values are integers, all else has the type of the left operand. -/
def infixType (operator : Token) (left : Node) : TypeId :=
  if operator.kind.isComparison || operator.kind.isLogical then .int else left.typeId

/-- A block has the type of its value. -/
def blockType (trailing : Option Node) : TypeId := (trailing.map Node.typeId).getD .void

/-- A call has the type that its function returns. -/
def callType (ctx : Context) (callee : Node) : Except Error TypeId :=
  let t := ctx.resolve callee.typeId
  match ctx.type t with
  | .function _ result => return result
  | _ => throw ⟨.notCallable (ctx.display t), callee.span, none⟩

/-- The type of a declared variable. What the initializer's type leads to is unified, not that type itself, so that
only the new type variable is raised. -/
def variableType (mode : Mode) (ctx : Context) (declared : TypeId) (span : Span) (initializer : Option Node) :
    Except Error (TypeId × Context) :=
  match mode with
  | .nominal => return (declared, ctx)
  | .unification => do
    let (t, ctx) := ctx.fresh
    let (_, ctx) ← ctx.unify t declared span
    match initializer with
    | none => return (t, ctx)
    | some x =>
      let (_, ctx) ← ctx.unify t (ctx.resolve x.typeId) x.span
      return (t, ctx)

/-- Declares the parameters of a function and notes their types on their names and type expressions. -/
def declareParams (ctx : Context) : List (Param Node) → List TypeId → Except Error (List (Param Node) × Context)
  | ⟨name, type⟩ :: ps, t :: ts => do
    let ctx ← ctx.declare name.scopeId
      { name := name.identifier?.getD "", type := t, span := name.span, kind := .parameter }
    let (ps, ctx) ← declareParams ctx ps ts
    return (⟨{ name with type := some t }, { type with type := some t }⟩ :: ps, ctx)
  | ps, _ => return (ps, ctx)

section

variable (mode : Mode)

mutual

def materialize (ctx : Context) : Node → Except Error (Node × Context)
  | ⟨span, scope, type, .literal token⟩ => do
    let type ← leafType ctx (scope.getD .root) token span type
    return (⟨span, scope, type, .literal token⟩, ctx)
  | ⟨span, scope, _, .prefixOp operator operand⟩ => do
    let (operand, ctx) ← materialize ctx operand
    return (⟨span, scope, some (prefixType operator operand), .prefixOp operator operand⟩, ctx)
  | ⟨span, scope, _, .infixOp operator left right⟩ => do
    let (left, ctx) ← materialize ctx left
    let (right, ctx) ← materialize ctx right
    return (⟨span, scope, some (infixType operator left), .infixOp operator left right⟩, ctx)
  | ⟨span, scope, _, .statement inner⟩ => do
    let (inner, ctx) ← materialize ctx inner
    return (⟨span, scope, some .void, .statement inner⟩, ctx)
  | ⟨span, scope, _, .block items trailing⟩ => do
    let (items, ctx) ← materializeList ctx items
    let (trailing, ctx) ← materializeOption ctx trailing
    return (⟨span, scope, some (blockType trailing), .block items trailing⟩, ctx)
  | ⟨span, scope, _, .functionDef name params result body⟩ => do
    let (sig, ctx) ← declareFunction ctx (scope.getD .root) name params result body
    let (params, ctx) ← declareParams ctx params sig.params
    let (body, ctx) ← materializeOption ctx body
    let result := { result with type := some sig.result }
    return (⟨span, scope, some .void, .functionDef name params result body⟩, ctx)
  | ⟨span, scope, _, .functionCall callee arguments⟩ => do
    let (callee, ctx) ← materialize ctx callee
    let (arguments, ctx) ← materializeList ctx arguments
    let t ← callType ctx callee
    return (⟨span, scope, some t, .functionCall callee arguments⟩, ctx)
  | ⟨span, scope, _, .variableDef name type initializer⟩ => do
    let declared ← typeNamedBy type
    let (initializer, ctx) ← materializeOption ctx initializer
    let (t, ctx) ← variableType mode ctx declared type.span initializer
    let ctx ← ctx.declare (scope.getD .root)
      { name := name.identifier?.getD "", type := t, span := name.span, kind := .variable }
    let name := { name with type := some t }
    let type := { type with type := some declared }
    return (⟨span, scope, some .void, .variableDef name type initializer⟩, ctx)
  | ⟨span, scope, _, .root items⟩ => do
    let (items, ctx) ← materializeList ctx items
    return (⟨span, scope, some .void, .root items⟩, ctx)

def materializeList (ctx : Context) : List Node → Except Error (List Node × Context)
  | [] => return ([], ctx)
  | x :: xs => do
    let (x, ctx) ← materialize ctx x
    let (xs, ctx) ← materializeList ctx xs
    return (x :: xs, ctx)

def materializeOption (ctx : Context) : Option Node → Except Error (Option Node × Context)
  | none => return (none, ctx)
  | some x => do
    let (x, ctx) ← materialize ctx x
    return (some x, ctx)

end

end

end Check

end LetFn
