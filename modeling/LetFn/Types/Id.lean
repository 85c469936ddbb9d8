/-!
# Numbers of scopes and types

Scopes and types are numbered in the order in which they are made, and a tree refers to them by number.
-/

namespace LetFn

structure ScopeId where
  index : Nat
deriving DecidableEq, Repr

/-- The scope around the whole program. -/
def ScopeId.root : ScopeId := ⟨0⟩

structure TypeId where
  index : Nat
deriving DecidableEq, Repr

/-- The number of a type variable among the type variables. -/
structure VarId where
  index : Nat
deriving DecidableEq, Repr

end LetFn
