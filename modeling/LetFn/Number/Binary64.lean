/-!
# Binary floating-point numbers

A `Binary64` is a double in the interchange format: sign, eleven bits of exponent, 52 bits of fraction. A finite
one has the magnitude `m · 2^e`, given by `significand` and `exponent`. `ofRatio` rounds a quotient of naturals to
the nearest double, a half to the even significand, in exact arithmetic; beyond the range it gives infinity.
-/

namespace LetFn

structure Binary64 where
  bits : UInt64
deriving DecidableEq, Repr, Inhabited

namespace Binary64

def negative (x : Binary64) : Bool := Nat.pow 2 63 ≤ x.bits.toNat

/-- The eleven exponent bits. -/
def exponentField (x : Binary64) : Nat := x.bits.toNat / Nat.pow 2 52 % Nat.pow 2 11

/-- The 52 fraction bits. -/
def fraction (x : Binary64) : Nat := x.bits.toNat % Nat.pow 2 52

def isFinite (x : Binary64) : Bool := x.exponentField ≠ Nat.pow 2 11 - 1

def isNaN (x : Binary64) : Bool := x.exponentField = Nat.pow 2 11 - 1 && x.fraction ≠ 0

/-- The `m` of the magnitude `m · 2^e`: the fraction with the leading one that a normal number leaves out. -/
def significand (x : Binary64) : Nat := if x.exponentField = 0 then x.fraction else Nat.pow 2 52 + x.fraction

/-- The `e` of the magnitude `m · 2^e`. -/
def exponent (x : Binary64) : Int := (max 1 x.exponentField : Nat) - 1075

/-- The magnitude of a finite number as a quotient of naturals. -/
def ratio (x : Binary64) : Nat × Nat :=
  (x.significand * Nat.pow 2 x.exponent.toNat, Nat.pow 2 (-x.exponent).toNat)

/-- A finite number without a fractional part. -/
def isWhole (x : Binary64) : Bool := x.isFinite && x.ratio.1 % x.ratio.2 = 0

def infinity : Binary64 := ⟨0x7FF0000000000000⟩

/-! ## rounding -/

/-- The quotient rounded to the nearest natural, a half to the even one. -/
def divNearest (num den : Nat) : Nat :=
  let q := num / den
  let twice := 2 * (num % den)
  if twice < den ∨ twice = den ∧ q % 2 = 0 then q else q + 1

/-- The exponent `l` with `2^l ≤ num / den < 2^(l+1)`. -/
def floorLog2 (num den : Nat) : Int :=
  let l : Int := num.log2 - den.log2
  if den * Nat.pow 2 l.toNat ≤ num * Nat.pow 2 (-l).toNat then l else l - 1

/-- The double `m · 2^e` for `m ≤ 2^53` and `-1074 ≤ e`, where `2^52 ≤ m` unless `e = -1074`. The exponent field
counts from `-1074` once the leading one of `m` is added into it, which also carries `m = 2^53` over. -/
def encode (m : Nat) (e : Int) : Binary64 :=
  let bits := (e + 1074).toNat * Nat.pow 2 52 + m
  if infinity.bits.toNat ≤ bits then infinity else ⟨bits.toUInt64⟩

/-- The nearest double to `num / den`. -/
def ofRatio (num den : Nat) : Binary64 :=
  if num = 0 then ⟨0⟩
  else
    let e := max (-1074) (floorLog2 num den - 52)
    encode (divNearest (num * Nat.pow 2 (-e).toNat) (den * Nat.pow 2 e.toNat)) e

end Binary64

end LetFn
