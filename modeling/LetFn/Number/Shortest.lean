import LetFn.Number.Decimal

/-!
# The text of a double

A whole number is written with all its digits and `.0`, any other finite number with the fewest digits that
read back as the same number. Of several such numbers the nearest is taken, and of two equally near the larger.

Main fact: `shortestFrom_reads_back`.
-/

namespace LetFn.Binary64

/-- The exponent `k` with `10^(k-1) ≤ num / den < 10^k`. -/
def decimalPoint (num den : Nat) : Int :=
  let k : Int := (Nat.toDigits 10 num).length - (Nat.toDigits 10 den).length
  if den * Nat.pow 10 k.toNat ≤ num * Nat.pow 10 (-k).toNat then k + 1 else k

/-- The two neighbours of `num / den` on the grid of multiples of `10^scale`, the nearer one first and, where they are
equally near, the larger. -/
def neighbours (num den : Nat) (scale : Int) : List Decimal :=
  let n := num * Nat.pow 10 (-scale).toNat
  let d := den * Nat.pow 10 scale.toNat
  let below := Decimal.trim (n / d) scale
  let above := Decimal.trim (n / d + 1) scale
  if 2 * (n % d) < d then [below, above] else [above, below]

/-- All digits of `m · 2^e`, which are finitely many since two divides ten. -/
def exactDecimal (x : Binary64) : Decimal :=
  let places := (-x.exponent).toNat
  ⟨x.ratio.1 * Nat.pow 5 places, -places⟩

/-- The first number that reads back as `x` on the grids of `digits`, `digits + 1`, … significant digits. -/
def shortestFrom (x : Binary64) (point : Int) : Nat → Nat → Decimal
  | 0, _ => x.exactDecimal
  | fuel + 1, digits =>
    match (neighbours x.ratio.1 x.ratio.2 (point - digits)).find? (·.toBinary64 = x) with
    | some d => d
    | none => shortestFrom x point fuel (digits + 1)

theorem shortestFrom_reads_back {x : Binary64} (h : x.exactDecimal.toBinary64 = x) (point : Int)
    (fuel digits : Nat) :
    (x.shortestFrom point fuel digits).toBinary64 = x := by
  induction fuel generalizing digits with
  | zero => exact h
  | succ fuel ih =>
    unfold shortestFrom
    split
    · next d hd => simpa using List.find?_some hd
    · exact ih _

/-- The magnitude with the fewest digits; seventeen always suffice. -/
def shortest (x : Binary64) : Decimal :=
  let magnitude : Binary64 := ⟨(x.bits.toNat % Nat.pow 2 63).toUInt64⟩
  magnitude.shortestFrom (decimalPoint x.ratio.1 x.ratio.2) 17 1

/-- The text of a number; one that is not finite has a name instead of digits. -/
def text (x : Binary64) : String :=
  let sign := if x.negative then "-" else ""
  if x.isNaN then "NaN"
  else if !x.isFinite then sign ++ "inf"
  else if x.isWhole then sign ++ toString (x.ratio.1 / x.ratio.2) ++ ".0"
  else sign ++ String.ofList x.shortest.positional

end LetFn.Binary64
