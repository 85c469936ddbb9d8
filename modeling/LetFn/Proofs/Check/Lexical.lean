import LetFn.Check.Materialize
import LetFn.Proofs.Tree.Parts

/-!
# Lexical scoping

`Lexical.resolve` is the reference for what names mean: it goes through a tree as the checker does, with a stack of
frames and nothing else. A level of the program, which is a block or the parameters and the body of a function together,
has a frame that holds its functions from the beginning; a parameter is bound on entry, a variable behind its
initializer.

`Check.materializeLogged` gives first types with declared types only, and keeps a log of the types that it gives to
identifiers.

Main fact: `result_materializeLogged` (apart from the log it does what `materialize` does).
-/

namespace LetFn

/-- An identifier in an expression, with the type of what it means. -/
structure Use where
  span : Span
  name : String
  type : Option Ty
deriving DecidableEq, Repr

mutual

/-- The identifiers in the expressions of a tree, in the order in which the checker comes to them. -/
def Node.names : Node → List Node
  | ⟨span, scope, type, .literal token⟩ =>
    if token.kind = .identifier then [⟨span, scope, type, .literal token⟩] else []
  | ⟨_, _, _, .prefixOp _ operand⟩ => operand.names
  | ⟨_, _, _, .infixOp _ left right⟩ => left.names ++ right.names
  | ⟨_, _, _, .statement inner⟩ => inner.names
  | ⟨_, _, _, .block items trailing⟩ => namesList items ++ namesOption trailing
  | ⟨_, _, _, .functionDef _ _ _ body⟩ => namesOption body
  | ⟨_, _, _, .functionCall callee arguments⟩ => callee.names ++ namesList arguments
  | ⟨_, _, _, .variableDef _ _ initializer⟩ => namesOption initializer
  | ⟨_, _, _, .root items⟩ => namesList items

def Node.namesList : List Node → List Node
  | [] => []
  | x :: xs => x.names ++ namesList xs

def Node.namesOption : Option Node → List Node
  | none => []
  | some x => x.names

end

/-- The use of a name that is noted on an identifier. -/
def Node.use (ctx : Context) (n : Node) : Use := ⟨n.span, n.identifier?.getD "", n.type.map ctx.type⟩

namespace Lexical

open Check (signature typeNamedBy)

/-- The names of one level of the program, the latest first. -/
abbrev Frame := List (String × Ty)

/-- The innermost binding of a name. -/
def lookup (env : List Frame) (name : String) : Option Ty := env.findSome? (·.lookup name)

/-- Binds a name in the innermost frame. -/
def bind (env : List Frame) (name : String) (t : Ty) : List Frame :=
  match env with
  | [] => []
  | frame :: outer => ((name, t) :: frame) :: outer

/-- Binds a name to the type that a type expression names. -/
def bindNamed (env : List Frame) (name type : Node) : List Frame :=
  match typeNamedBy type with
  | .ok t => bind env (name.identifier?.getD "") (Context.new.type t)
  | .error _ => env

def bindParams (env : List Frame) (params : List (Param Node)) : List Frame :=
  params.foldl (fun env p => bindNamed env p.name p.type) env

/-- The function that a definition binds. -/
def function (name : Token) (params : List (Param Node)) (result : Node) : Frame :=
  match signature params result with
  | .ok sig => [(name.identifier?.getD "", .function sig.params sig.result)]
  | .error _ => []

mutual

/-- The functions that are defined right at the level of an expression. -/
def hoisted : Node → Frame
  | ⟨_, _, _, .functionDef name params result _⟩ => function name params result
  | ⟨_, _, _, .prefixOp _ operand⟩ => hoisted operand
  | ⟨_, _, _, .infixOp _ left right⟩ => hoisted left ++ hoisted right
  | ⟨_, _, _, .statement inner⟩ => hoisted inner
  | ⟨_, _, _, .functionCall callee arguments⟩ => hoisted callee ++ hoistedList arguments
  | ⟨_, _, _, .variableDef _ _ initializer⟩ => hoistedOption initializer
  | ⟨_, _, _, .root items⟩ => hoistedList items
  | ⟨_, _, _, .literal _⟩ => []
  | ⟨_, _, _, .block _ _⟩ => []

def hoistedList : List Node → Frame
  | [] => []
  | x :: xs => hoisted x ++ hoistedList xs

def hoistedOption : Option Node → Frame
  | none => []
  | some x => hoisted x

end

/-- The frame that a function's parameters and body begin with. -/
def hoistedBody : Option Node → Frame
  | some ⟨_, _, _, .block items trailing⟩ => hoistedList items ++ hoistedOption trailing
  | _ => []

mutual

/-- The uses of names in a tree, and the frames behind it. -/
def resolve (env : List Frame) : Node → List Use × List Frame
  | ⟨span, _, _, .literal token⟩ =>
    let name := token.identifier?.getD ""
    (if token.kind = .identifier then [⟨span, name, lookup env name⟩] else [], env)
  | ⟨_, _, _, .prefixOp _ operand⟩ => resolve env operand
  | ⟨_, _, _, .infixOp _ left right⟩ =>
    let (uses, env) := resolve env left
    let (uses', env) := resolve env right
    (uses ++ uses', env)
  | ⟨_, _, _, .statement inner⟩ => resolve env inner
  | ⟨_, _, _, .block items trailing⟩ =>
    let (uses, env) := resolveList ((hoistedList items ++ hoistedOption trailing) :: env) items
    let (uses', env) := resolveOption env trailing
    (uses ++ uses', env.tail)
  | ⟨_, _, _, .functionDef _ params _ body⟩ =>
    let (uses, env) := resolveBody (bindParams (hoistedBody body :: env) params) body
    (uses, env.tail)
  | ⟨_, _, _, .functionCall callee arguments⟩ =>
    let (uses, env) := resolve env callee
    let (uses', env) := resolveList env arguments
    (uses ++ uses', env)
  | ⟨_, _, _, .variableDef name type initializer⟩ =>
    let (uses, env) := resolveOption env initializer
    (uses, bindNamed env name type)
  | ⟨_, _, _, .root items⟩ => resolveList env items

def resolveList (env : List Frame) : List Node → List Use × List Frame
  | [] => ([], env)
  | x :: xs =>
    let (uses, env) := resolve env x
    let (uses', env) := resolveList env xs
    (uses ++ uses', env)

def resolveOption (env : List Frame) : Option Node → List Use × List Frame
  | none => ([], env)
  | some x => resolve env x

/-- The body of a function has no frame of its own. -/
def resolveBody (env : List Frame) : Option Node → List Use × List Frame
  | some ⟨_, _, _, .block items trailing⟩ =>
    let (uses, env) := resolveList env items
    let (uses', env) := resolveOption env trailing
    (uses ++ uses', env)
  | _ => ([], env)

end

/-- The uses of names in a program. -/
def uses (n : Node) : List Use := (resolve [hoisted n] n).1

end Lexical

namespace Check

/-! ## first types with a log -/

/-- A step of the checker, with a log of the uses of names that it has typed. -/
def Logged (α : Type) : Type := List Use × Except Error α

namespace Logged

def log {α : Type} (x : Logged α) : List Use := x.1

def result {α : Type} (x : Logged α) : Except Error α := x.2

/-- A step that types no name. -/
def lift {α : Type} (x : Except Error α) : Logged α := ([], x)

def note (uses : List Use) : Logged Unit := (uses, .ok ())

instance : Monad Logged where
  pure a := ([], .ok a)
  bind x f :=
    match x.2 with
    | .ok a => (x.1 ++ (f a).1, (f a).2)
    | .error e => (x.1, .error e)

section

variable {α β : Type}

@[simp] theorem result_lift (x : Except Error α) : (lift x).result = x := rfl

@[simp] theorem result_note (uses : List Use) : (note uses).result = .ok () := rfl

@[simp] theorem result_pure (a : α) : (pure a : Logged α).result = .ok a := rfl

@[simp] theorem result_bind (x : Logged α) (f : α → Logged β) :
    (x >>= f).result = x.result >>= fun a => (f a).result := by
  obtain ⟨log, r⟩ := x
  cases r <;> rfl

end

end Logged

mutual

/-- First types, with a log of the types that are noted on the identifiers of expressions. -/
def materializeLogged (ctx : Context) : Node → Logged (Node × Context)
  | ⟨span, scope, type, .literal token⟩ => do
    let type ← .lift (leafType ctx (scope.getD .root) token span type)
    .note (if token.kind = .identifier then [⟨span, token.identifier?.getD "", type.map ctx.type⟩] else [])
    return (⟨span, scope, type, .literal token⟩, ctx)
  | ⟨span, scope, _, .prefixOp operator operand⟩ => do
    let (operand, ctx) ← materializeLogged ctx operand
    return (⟨span, scope, some (prefixType operator operand), .prefixOp operator operand⟩, ctx)
  | ⟨span, scope, _, .infixOp operator left right⟩ => do
    let (left, ctx) ← materializeLogged ctx left
    let (right, ctx) ← materializeLogged ctx right
    return (⟨span, scope, some (infixType operator left), .infixOp operator left right⟩, ctx)
  | ⟨span, scope, _, .statement inner⟩ => do
    let (inner, ctx) ← materializeLogged ctx inner
    return (⟨span, scope, some .void, .statement inner⟩, ctx)
  | ⟨span, scope, _, .block items trailing⟩ => do
    let (items, ctx) ← materializeLoggedList ctx items
    let (trailing, ctx) ← materializeLoggedOption ctx trailing
    return (⟨span, scope, some (blockType trailing), .block items trailing⟩, ctx)
  | ⟨span, scope, _, .functionDef name params result body⟩ => do
    let (sig, ctx) ← .lift (declareFunction ctx (scope.getD .root) name params result body)
    let (params, ctx) ← .lift (declareParams ctx params sig.params)
    let (body, ctx) ← materializeLoggedOption ctx body
    let result := { result with type := some sig.result }
    return (⟨span, scope, some .void, .functionDef name params result body⟩, ctx)
  | ⟨span, scope, _, .functionCall callee arguments⟩ => do
    let (callee, ctx) ← materializeLogged ctx callee
    let (arguments, ctx) ← materializeLoggedList ctx arguments
    let t ← .lift (callType ctx callee)
    return (⟨span, scope, some t, .functionCall callee arguments⟩, ctx)
  | ⟨span, scope, _, .variableDef name type initializer⟩ => do
    let declared ← .lift (typeNamedBy type)
    let (initializer, ctx) ← materializeLoggedOption ctx initializer
    let ctx ← .lift (ctx.declare (scope.getD .root)
      { name := name.identifier?.getD "", type := declared, span := name.span, kind := .variable })
    let name := { name with type := some declared }
    let type := { type with type := some declared }
    return (⟨span, scope, some .void, .variableDef name type initializer⟩, ctx)
  | ⟨span, scope, _, .root items⟩ => do
    let (items, ctx) ← materializeLoggedList ctx items
    return (⟨span, scope, some .void, .root items⟩, ctx)

def materializeLoggedList (ctx : Context) : List Node → Logged (List Node × Context)
  | [] => return ([], ctx)
  | x :: xs => do
    let (x, ctx) ← materializeLogged ctx x
    let (xs, ctx) ← materializeLoggedList ctx xs
    return (x :: xs, ctx)

def materializeLoggedOption (ctx : Context) : Option Node → Logged (Option Node × Context)
  | none => return (none, ctx)
  | some x => do
    let (x, ctx) ← materializeLogged ctx x
    return (some x, ctx)

end

mutual

/-- Apart from the log, first types are given as without it. -/
theorem result_materializeLogged (ctx : Context) :
    ∀ n : Node, (materializeLogged ctx n).result = materialize .nominal ctx n
  | ⟨span, scope, type, .literal token⟩ => by
    simp only [materializeLogged, materialize, Logged.result_bind, Logged.result_lift, Logged.result_note,
      Logged.result_pure]
    rfl
  | ⟨span, scope, type, .prefixOp operator operand⟩ => by
    simp only [materializeLogged, materialize, Logged.result_bind, result_materializeLogged ctx operand]
    rfl
  | ⟨span, scope, type, .infixOp operator left right⟩ => by
    simp only [materializeLogged, materialize, Logged.result_bind, result_materializeLogged _ left,
      result_materializeLogged _ right]
    rfl
  | ⟨span, scope, type, .statement inner⟩ => by
    simp only [materializeLogged, materialize, Logged.result_bind, result_materializeLogged ctx inner]
    rfl
  | ⟨span, scope, type, .block items trailing⟩ => by
    simp only [materializeLogged, materialize, Logged.result_bind, result_materializeLoggedList _ items,
      result_materializeLoggedOption _ trailing]
    rfl
  | ⟨span, scope, type, .functionDef name params result body⟩ => by
    simp only [materializeLogged, materialize, Logged.result_bind, Logged.result_lift,
      result_materializeLoggedOption _ body]
    rfl
  | ⟨span, scope, type, .functionCall callee arguments⟩ => by
    simp only [materializeLogged, materialize, Logged.result_bind, Logged.result_lift,
      result_materializeLogged _ callee, result_materializeLoggedList _ arguments]
    rfl
  | ⟨span, scope, noted, .variableDef name type initializer⟩ => by
    simp only [materializeLogged, materialize, Logged.result_bind, Logged.result_lift,
      result_materializeLoggedOption _ initializer, variableType]
    rfl
  | ⟨span, scope, type, .root items⟩ => by
    simp only [materializeLogged, materialize, Logged.result_bind, result_materializeLoggedList ctx items]
    rfl

theorem result_materializeLoggedList (ctx : Context) :
    ∀ xs : List Node, (materializeLoggedList ctx xs).result = materializeList .nominal ctx xs
  | [] => rfl
  | x :: xs => by
    simp only [materializeLoggedList, materializeList, Logged.result_bind, result_materializeLogged _ x,
      result_materializeLoggedList _ xs]
    rfl

theorem result_materializeLoggedOption (ctx : Context) :
    ∀ x : Option Node, (materializeLoggedOption ctx x).result = materializeOption .nominal ctx x
  | none => rfl
  | some x => by
    simp only [materializeLoggedOption, materializeOption, Logged.result_bind, result_materializeLogged _ x]
    rfl

end

end Check

end LetFn
