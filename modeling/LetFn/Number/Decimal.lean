import LetFn.Number.Binary64

/-!
# Decimal numbers

A `Decimal` is a coefficient scaled by a power of ten. It is written in positional notation, never with an
exponent, and read as the nearest double.
-/

namespace LetFn

/-- The number `coefficient · 10^scale`. -/
structure Decimal where
  coefficient : Nat
  scale : Int
deriving DecidableEq, Repr

namespace Decimal

/-- The number that digits before and after a point stand for. -/
def ofDigits (whole fraction : List Char) : Decimal :=
  ⟨Nat.ofDigitChars 10 (whole ++ fraction) 0, -fraction.length⟩

/-- The value as a quotient of naturals. -/
def ratio (d : Decimal) : Nat × Nat := (d.coefficient * Nat.pow 10 d.scale.toNat, Nat.pow 10 (-d.scale).toNat)

def toBinary64 (d : Decimal) : Binary64 := Binary64.ofRatio d.ratio.1 d.ratio.2

/-- The same number without zeros at the end of its coefficient. -/
def trim (coefficient : Nat) (scale : Int) : Decimal :=
  if coefficient ≠ 0 ∧ coefficient % 10 = 0 then trim (coefficient / 10) (scale + 1) else ⟨coefficient, scale⟩
termination_by coefficient
decreasing_by omega

/-- Positional notation; a number below one has a zero before its point. -/
def positional (d : Decimal) : List Char :=
  let digits := Nat.toDigits 10 d.coefficient
  let places := (-d.scale).toNat
  if places = 0 then digits ++ List.replicate d.scale.toNat '0'
  else if places < digits.length then
    digits.take (digits.length - places) ++ '.' :: digits.drop (digits.length - places)
  else '0' :: '.' :: (List.replicate (places - digits.length) '0' ++ digits)

end Decimal

end LetFn
