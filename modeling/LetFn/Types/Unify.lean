import LetFn.Types.Context

/-!
# Type variables

A type variable is a hole in the table of types that may come to stand for another type. `resolve` follows holes until
it comes to a type or to a hole that stands for nothing yet; `unify` makes two types the same by filling holes. Two
numeric types unify to the higher one, and the holes that led to the lower one are raised.
-/

namespace LetFn.Context

/-- A new type variable, which stands for nothing. -/
def fresh (ctx : Context) : TypeId × Context :=
  let v : VarId := ⟨ctx.bindings.length⟩
  { ctx with bindings := ctx.bindings ++ [none] }.intern (.hole v)

/-- What a type variable stands for. -/
def binding? (ctx : Context) (v : VarId) : Option TypeId := ctx.bindings.getD v.index none

/-- Lets a type variable stand for a type. -/
def fill (ctx : Context) (v : VarId) (t : TypeId) : Context :=
  { ctx with bindings := ctx.bindings.set v.index (some t) }

/-- Follows at most `fuel` holes. -/
def resolveWithin (ctx : Context) : Nat → TypeId → TypeId
  | 0, t => t
  | fuel + 1, t =>
    match ctx.type t with
    | .hole v =>
      match ctx.binding? v with
      | some next => ctx.resolveWithin fuel next
      | none => t
    | _ => t

/-- Follows holes to their end. No chain passes a variable twice, so their number bounds it. -/
def resolve (ctx : Context) (t : TypeId) : TypeId := ctx.resolveWithin ctx.bindings.length t

/-- The last hole on the way from a type, following at most `fuel` of them. -/
def lastHoleWithin (ctx : Context) (fuel : Nat) (t : TypeId) : Option VarId :=
  match ctx.type t with
  | .hole v =>
    match fuel with
    | 0 => some v
    | fuel + 1 => ((ctx.binding? v).bind (ctx.lastHoleWithin fuel)).or (some v)
  | _ => none

/-- The variable at which the chain from a type ends. -/
def lastHole? (ctx : Context) (t : TypeId) : Option VarId := ctx.lastHoleWithin ctx.bindings.length t

/-- Lets the last hole on the way from `a` stand for `t`, if there is a hole. -/
def raise (ctx : Context) (a t : TypeId) : Context :=
  match ctx.lastHole? a with
  | some v => ctx.fill v t
  | none => ctx

/-- Makes two types the same and returns what they became. -/
def unify (ctx : Context) (a b : TypeId) (span : Span) : Except Error (TypeId × Context) :=
  let endA := ctx.resolve a
  let endB := ctx.resolve b
  if endA = endB then .ok (endA, ctx)
  else
    match ctx.type endA, ctx.type endB with
    | .hole v, _ => .ok (endB, ctx.fill v endB)
    | _, .hole v => .ok (endA, ctx.fill v endA)
    | _, _ =>
      match ctx.promote endA endB with
      | some t => .ok (t, (ctx.raise a t).raise b t)
      | none => .error ⟨.noCommonAncestor (ctx.display endA) (ctx.display endB), span, none⟩

/-- Gives every symbol the type that its own type leads to. -/
def resolveSymbols (ctx : Context) : Context :=
  { ctx with
    scopes := ctx.scopes.map fun s =>
      { s with symbols := s.symbols.map fun symbol => { symbol with type := ctx.resolve symbol.type } } }

end LetFn.Context
