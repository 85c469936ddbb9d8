import LetFn.Types.Id

/-!
# Types

A type of a value, of a function or of nothing, or a type variable that stands for one that is not known yet. The
parts of a function type are given by number. The numeric types form a chain, ordered by `Rank`: integers before
floats, within each the type of literals before the sized types, and those by their bits.

Main facts: `Rank.le_antisymm`, `Rank.le_total`.
-/

namespace LetFn

inductive Ty where
  | void
  | string
  /-- The type of integer literals, an integer whose size is not decided. -/
  | int
  | sizedInt (bits : Nat)
  /-- The type of float literals, a float whose size is not decided. -/
  | float
  | sizedFloat (bits : Nat)
  | function (params : List TypeId) (result : TypeId)
  | hole (v : VarId)
deriving DecidableEq, Repr

/-- A place in the chain of numeric types. -/
structure Rank where
  /-- Zero for integers, one for floats. -/
  family : Nat
  /-- Zero for the type of literals, one for sized types. -/
  sized : Nat
  bits : Nat
deriving DecidableEq, Repr

namespace Rank

instance : LE Rank where
  le a b :=
    a.family < b.family ∨ a.family = b.family ∧ (a.sized < b.sized ∨ a.sized = b.sized ∧ a.bits ≤ b.bits)

theorem le_def {a b : Rank} : a ≤ b ↔
    a.family < b.family ∨ a.family = b.family ∧ (a.sized < b.sized ∨ a.sized = b.sized ∧ a.bits ≤ b.bits) :=
  Iff.rfl

instance (a b : Rank) : Decidable (a ≤ b) := decidable_of_iff' _ le_def

theorem le_refl (a : Rank) : a ≤ a := by simp [le_def]

theorem le_trans {a b c : Rank} (h : a ≤ b) (h' : b ≤ c) : a ≤ c := by
  rw [le_def] at *
  omega

theorem le_total (a b : Rank) : a ≤ b ∨ b ≤ a := by
  rw [le_def, le_def]
  omega

theorem le_antisymm {a b : Rank} (h : a ≤ b) (h' : b ≤ a) : a = b := by
  obtain ⟨_, _, _⟩ := a
  obtain ⟨_, _, _⟩ := b
  simp only [le_def] at h h'
  simp only [mk.injEq]
  omega

end Rank

namespace Ty

def rank? : Ty → Option Rank
  | int => some ⟨0, 0, 0⟩
  | sizedInt bits => some ⟨0, 1, bits⟩
  | float => some ⟨1, 0, 0⟩
  | sizedFloat bits => some ⟨1, 1, bits⟩
  | _ => none

def isNumeric (t : Ty) : Bool := t.rank?.isSome

def isHole : Ty → Bool
  | hole _ => true
  | _ => false

/-- The types that have names in a source. They are made first, so each one's number is its place here. -/
def builtins : List (String × Ty) :=
  [("void", void), ("string", string), ("int", int), ("float", float), ("i8", sizedInt 8), ("i16", sizedInt 16),
    ("i32", sizedInt 32), ("i64", sizedInt 64), ("f32", sizedFloat 32), ("f64", sizedFloat 64)]

end Ty

namespace TypeId

/-- The number of a built-in type. -/
def named? (name : String) : Option TypeId := (Ty.builtins.findIdx? (·.1 = name)).map (⟨·⟩)

def void : TypeId := ⟨0⟩
def string : TypeId := ⟨1⟩
def int : TypeId := ⟨2⟩
def float : TypeId := ⟨3⟩

end TypeId

end LetFn
