/-!
# Spans

A `Span` is a range of byte offsets into the source. Spans are made from left to right: `Span.of?` refuses
a range that ends before it starts, `Span.extend` refuses to reach back over text it already covers, and
both say so with a `Span.Fault`.

Main facts: `of?_eq_ok_iff`, `extend_eq_ok_iff`.
-/

namespace LetFn

structure Span where
  start : Nat
  stop : Nat
deriving DecidableEq, Repr, Inhabited

namespace Span

/-- The empty span at an offset, where the end of the tokens stands. -/
def point (offset : Nat) : Span := ⟨offset, offset⟩

def text (s : Span) : String := toString s.start ++ ".." ++ toString s.stop

/-- What goes wrong when spans are put together out of order. -/
inductive Fault where
  | reversed (start stop : Nat)
  | overlapping (first second : Span)
deriving DecidableEq, Repr

def Fault.message : Fault → String
  | .reversed start stop => "span start " ++ toString start ++ " is after end " ++ toString stop
  | .overlapping first second => "cannot extend " ++ first.text ++ " with earlier span " ++ second.text

/-- The span from `start` to `stop`. -/
def of? (start stop : Nat) : Except Fault Span :=
  if start ≤ stop then .ok ⟨start, stop⟩ else .error (.reversed start stop)

/-- The span from the start of `a` to the end of `b`, which must not begin before `a` ends. -/
def extend (a b : Span) : Except Fault Span :=
  if a.stop ≤ b.start then .ok ⟨a.start, b.stop⟩ else .error (.overlapping a b)

theorem of?_eq_ok_iff {start stop : Nat} {s : Span} :
    of? start stop = .ok s ↔ start ≤ stop ∧ s = ⟨start, stop⟩ := by
  by_cases h : start ≤ stop <;> simp [of?, h, eq_comm]

theorem extend_eq_ok_iff {a b s : Span} : a.extend b = .ok s ↔ a.stop ≤ b.start ∧ s = ⟨a.start, b.stop⟩ := by
  by_cases h : a.stop ≤ b.start <;> simp [extend, h, eq_comm]

end Span

end LetFn
