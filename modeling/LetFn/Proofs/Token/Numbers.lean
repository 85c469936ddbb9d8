import LetFn.Proofs.Number.Range
import LetFn.Proofs.Token.Partition

/-!
# Numbers of a source

An integer token holds exactly what its digits say, and an integer beyond the range of its type is an error at its
digits. A float has no such bound: one beyond the range is read as infinity, and the scanner goes on behind it.

* `Comes place cs place' cs'` — the scanner comes from one place to another without an error on the way;
* `Fault place cs e` — `e` is the error in what stands first in `cs`;
* `NumbersRead source` — what the numbers of the source are read as, and when it has an error.

Main facts: `scan_eq_error_iff`, `numbers_read`.
-/

namespace LetFn

open Source (utf8Length)

/-! ## the first error -/

/-- Every match between the two places is read. -/
inductive Comes : Nat → List Char → Nat → List Char → Prop where
  | here {place cs} : Comes place cs place cs
  | next {place cs p taken rest token place' cs'} (first : Pattern.first? cs = some (p, taken, rest))
      (read : p.read? taken ⟨place, place + utf8Length taken⟩ = .ok token)
      (more : Comes (place + utf8Length taken) rest place' cs') : Comes place cs place' cs'

/-- What stands first is no token, or an integer that is too large. -/
inductive Fault (place : Nat) : List Char → Error → Prop where
  | unrecognised {c cs} (first : Pattern.first? (c :: cs) = none) :
      Fault place (c :: cs) ⟨.unrecognisedToken c.toString, ⟨place, place + c.utf8Size⟩, none⟩
  | outOfRange {cs digits rest} (first : Pattern.first? cs = some (.integer, digits, rest))
      (large : Pattern.maxInteger < Nat.ofDigitChars 10 digits 0) :
      Fault place cs ⟨.numberOutOfRange (String.ofList digits), ⟨place, place + utf8Length digits⟩, none⟩

theorem Comes.trans {i j k : Nat} {cs ds es : List Char} (h : Comes i cs j ds) (h' : Comes j ds k es) :
    Comes i cs k es := by
  induction h with
  | here => exact h'
  | next first read _ ih => exact .next first read (ih h')

/-- Only integers are refused when they are read. -/
theorem Pattern.read?_eq_error {p : Pattern} {taken : List Char} {span : Span} {e : Error}
    (h : p.read? taken span = .error e) :
    p = .integer ∧ maxInteger < Nat.ofDigitChars 10 taken 0 ∧
      e = ⟨.numberOutOfRange (String.ofList taken), span, none⟩ := by
  cases p with
  | integer =>
    simp only [read?] at h
    split at h
    · cases h
    · next hlarge => exact ⟨rfl, Nat.not_le.1 hlarge, (Except.error.inj h).symm⟩
  | name =>
    simp only [read?] at h
    split at h <;> cases h
  | _ => cases h

theorem fault_of_scan {place : Nat} {cs : List Char} {e : Error} (h : scan place cs = .error e) :
    ∃ place' cs', Comes place cs place' cs' ∧ Fault place' cs' e := by
  fun_induction scan place cs with
  | case1 => cases h
  | case2 place c cs hfirst =>
    obtain rfl := Except.error.inj h
    exact ⟨place, c :: cs, .here, .unrecognised hfirst⟩
  | case3 place c cs p taken rest hfirst _ stop =>
    rename_i ih
    cases hread : p.read? taken ⟨place, stop⟩ with
    | error e' =>
      obtain rfl : e' = e := by simpa [hread, bind, Except.bind] using h
      obtain ⟨rfl, hlarge, rfl⟩ := Pattern.read?_eq_error hread
      exact ⟨place, c :: cs, .here, .outOfRange hfirst hlarge⟩
    | ok token =>
      have hrest : scan stop rest = .error e := by
        cases hscan : scan stop rest with
        | error e' => simpa [hread, hscan, bind, Except.bind] using h
        | ok ts => simp [hread, hscan, bind, Except.bind, pure, Except.pure] at h
      obtain ⟨place', cs', hcomes, hfault⟩ := ih hrest
      exact ⟨place', cs', .next hfirst hread hcomes, hfault⟩

theorem scan_of_fault {place : Nat} {cs : List Char} {e : Error} (h : Fault place cs e) : scan place cs = .error e := by
  cases h with
  | @unrecognised c cs hfirst =>
    rw [scan]
    split
    · rfl
    · next hsome => cases hfirst.symm.trans hsome
  | outOfRange hfirst hlarge =>
    rw [scan_eq hfirst, Pattern.read?, if_neg (Nat.not_le.2 hlarge)]
    rfl

/-- **The first fault that the scanner comes to is the error.** -/
theorem scan_eq_error_iff {place : Nat} {cs : List Char} {e : Error} :
    scan place cs = .error e ↔ ∃ place' cs', Comes place cs place' cs' ∧ Fault place' cs' e := by
  constructor
  · exact fault_of_scan
  · rintro ⟨place', cs', hcomes, hfault⟩
    induction hcomes with
    | here => exact scan_of_fault hfault
    | next first read _ ih =>
      rw [scan_eq first, read, ih hfault]
      rfl

/-! ## the values of numbers -/

namespace Token

/-- The token holds the number that its digits in the source stand for, which is in range. -/
def HoldsInteger (source : String) (t : Token) : Prop :=
  ∃ digits rest, t.span.Marks source.toList digits rest ∧ IsDigits digits ∧
    Nat.ofDigitChars 10 digits 0 ≤ Pattern.maxInteger ∧ t.value = some (.int (Nat.ofDigitChars 10 digits 0))

/-- The token holds the nearest double to the number in the source, which is infinity from the limit on. -/
def HoldsFloat (source : String) (t : Token) : Prop :=
  ∃ whole fraction rest x, t.span.Marks source.toList (whole ++ '.' :: fraction) rest ∧ IsDigits whole ∧
    IsDigits fraction ∧ t.value = some (.float x) ∧ x = (Decimal.ofDigits whole fraction).toBinary64 ∧
    (x.isFinite = true ↔ Nat.ofDigitChars 10 (whole ++ fraction) 0 < Binary64.limit * 10 ^ fraction.length) ∧
    (x.isFinite = false → x = .infinity)

section

variable {value : Option Value} {span : Span} {text : List Char}

theorem Spells.integer (h : Spells ⟨.integer, value, span⟩ text) :
    IsDigits text ∧ Nat.ofDigitChars 10 text 0 ≤ Pattern.maxInteger ∧
      value = some (.int (Nat.ofDigitChars 10 text 0)) := by
  rcases value with _ | _ | n | _
  · simp_all [Spells, Grammar.primaryKinds]
  · exact h.elim
  · obtain ⟨hdigits, rfl, hle⟩ := h
    exact ⟨hdigits, Int.ofNat_le.1 hle, rfl⟩
  · exact h.elim

theorem Spells.float (h : Spells ⟨.float, value, span⟩ text) :
    ∃ x whole fraction, value = some (.float x) ∧ text = whole ++ '.' :: fraction ∧ IsDigits whole ∧
      IsDigits fraction ∧ x = (Decimal.ofDigits whole fraction).toBinary64 := by
  rcases value with _ | _ | _ | x
  · simp_all [Spells, Grammar.primaryKinds]
  · exact h.elim
  · exact h.elim
  · obtain ⟨whole, fraction, htext, hw, hf, hx⟩ := h
    exact ⟨x, whole, fraction, rfl, htext, hw, hf, hx⟩

end

end Token

theorem isFinite_toBinary64_iff (whole fraction : List Char) :
    (Decimal.ofDigits whole fraction).toBinary64.isFinite = true ↔
      Nat.ofDigitChars 10 (whole ++ fraction) 0 < Binary64.limit * 10 ^ fraction.length := by
  have hnum : (Decimal.ofDigits whole fraction).ratio.1 = Nat.ofDigitChars 10 (whole ++ fraction) 0 := by
    simp [Decimal.ratio, Decimal.ofDigits]
  have hden : (Decimal.ofDigits whole fraction).ratio.2 = 10 ^ fraction.length := by
    simp [Decimal.ratio, Decimal.ofDigits]
  rw [Decimal.toBinary64, hnum, hden]
  exact Binary64.isFinite_ofRatio_iff (by positivity)

/-- Every token but the last one stands in the source. -/
theorem exists_text_of_mem {source : String} {tokens : List Token} (h : tokenize source = .ok tokens) {t : Token}
    (ht : t ∈ tokens) (hk : t.kind ≠ .eof) : ∃ text rest, t.span.Marks source.toList text rest ∧ t.Spells text := by
  obtain ⟨body, rfl, hbody⟩ := (tokenize_partitions h).covered
  rcases List.mem_append.1 ht with ht | ht
  · obtain ⟨text, rest, hmarks, -, hspells⟩ := hbody t ht
    exact ⟨text, rest, hmarks, hspells⟩
  · obtain rfl := List.mem_singleton.1 ht
    exact absurd rfl hk

/-- What the numbers of a source are read as, and when it has an error. -/
structure NumbersRead (source : String) : Prop where
  integer : ∀ tokens, tokenize source = .ok tokens → ∀ t ∈ tokens, t.kind = .integer → t.HoldsInteger source
  float : ∀ tokens, tokenize source = .ok tokens → ∀ t ∈ tokens, t.kind = .float → t.HoldsFloat source
  /-- An integer beyond the range is an error that spans it, unless there is one before it. -/
  error : ∀ e, tokenize source = .error e ↔ ∃ place cs, Comes 0 source.toList place cs ∧ Fault place cs e
  /-- No float is an error: the scanner goes on behind it. -/
  onward : ∀ place cs taken rest, Comes 0 source.toList place cs → Pattern.first? cs = some (.float, taken, rest) →
    Comes 0 source.toList (place + utf8Length taken) rest

/-- **Integers are exact and reported where they are too large; floats are rounded**, those beyond the range to
infinity. -/
theorem numbers_read (source : String) : NumbersRead source := by
  refine ⟨?_, ?_, fun e => scan_eq_error_iff, ?_⟩
  · rintro tokens h ⟨kind, value, span⟩ ht rfl
    obtain ⟨text, rest, hmarks, hspells⟩ := exists_text_of_mem h ht nofun
    obtain ⟨hdigits, hle, rfl⟩ := hspells.integer
    exact ⟨text, rest, hmarks, hdigits, hle, rfl⟩
  · rintro tokens h ⟨kind, value, span⟩ ht rfl
    obtain ⟨text, rest, hmarks, hspells⟩ := exists_text_of_mem h ht nofun
    obtain ⟨x, whole, fraction, rfl, rfl, hw, hf, rfl⟩ := hspells.float
    refine ⟨whole, fraction, rest, _, hmarks, hw, hf, rfl, rfl, isFinite_toBinary64_iff whole fraction, ?_⟩
    exact (Binary64.unsigned_ofRatio _ _).eq_infinity
  · intro place cs taken rest hcomes hfirst
    exact hcomes.trans (.next hfirst rfl .here)

/-- A one with 309 zeros is beyond the range of floats. -/
theorem infinite_number_read :
    tokenize (String.ofList ('1' :: List.replicate 309 '0' ++ ['.', '0'])) =
      .ok [⟨.float, some (.float .infinity), ⟨0, 312⟩⟩, .eof 312] := by
  have hfirst : Pattern.first? ('1' :: List.replicate 309 '0' ++ ['.', '0']) =
      some (.float, '1' :: List.replicate 309 '0' ++ ['.', '0'], []) := by
    have hwhole : IsDigits ('1' :: List.replicate 309 '0') := ⟨nofun, List.all_eq_true.1 (by decide +kernel)⟩
    have hfraction : IsDigits ['0'] := ⟨nofun, List.all_eq_true.1 (by decide)⟩
    have hend : Pattern.Delimited [] := by simp [Pattern.Delimited]
    simpa only [List.append_nil] using Pattern.first?_float hwhole hfraction hend
  have hread : Pattern.float.read? ('1' :: List.replicate 309 '0' ++ ['.', '0']) ⟨0, 312⟩ =
      .ok (some ⟨.float, some (.float .infinity), ⟨0, 312⟩⟩) := by
    decide +kernel
  have hlength : 0 + utf8Length ('1' :: List.replicate 309 '0' ++ ['.', '0']) = 312 := by decide +kernel
  rw [tokenize, String.toList_ofList, scan_eq hfirst, hlength, hread, scan]
  rfl

end LetFn
