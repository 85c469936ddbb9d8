import LetFn.Proofs.Grammar.Shape
import LetFn.Proofs.Number.Exact
import Mathlib.Data.List.TakeWhile

/-!
# Spellings

A token that the scanner makes is written as its lexeme, and the scanner reads that lexeme again, whatever stands behind
it as long as that does not go on with the token. An infinite number is written by its name and read as an identifier.

* `Piece` — what a token is apart from its place; `Token.face t` is that, `Token.piece t` what its lexeme is read as;
* `Token.Spelled t` — the value of `t` is one that its kind can have;
* `Scans cs ps` — the text `cs` is cut into tokens that are the pieces `ps`.

Main facts: `spelled_of_tokenize`, `Scans.lexeme`, `Scans.mark`.
-/

namespace LetFn

/-- A token without its place. -/
structure Piece where
  kind : Kind
  value : Option Value := none
deriving DecidableEq, Repr

namespace Token

/-- The token as it is. -/
def face (t : Token) : Piece := ⟨t.kind, t.value⟩

/-- What the lexeme of a token is read as. -/
def piece (t : Token) : Piece :=
  if t.value = some (.float .infinity) then ⟨.identifier, some (.str "inf")⟩ else t.face

/-- A lexeme that was read is read as the same piece again. -/
theorem piece_eq_of_face {t u : Token} (h : t.face = u.piece) : t.piece = u.piece := by
  have hv : t.value ≠ some (.float .infinity) := by
    have := congrArg Piece.value h
    unfold piece at this
    split at this
    · rw [show t.value = _ from this]
      simp
    · next hu => rwa [show t.value = u.value from this]
  rw [← h, piece, if_neg hv]

end Token

/-! ## values that tokens have -/

/-- A name: its first character is no digit. -/
def IsWord (cs : List Char) : Prop :=
  ∃ c rest, cs = c :: rest ∧ Pattern.isNameStart c = true ∧ ∀ d ∈ rest, Pattern.isNamePart d = true

namespace Token

/-- The value is one that the scanner gives to a token of this kind. -/
def Spelled (t : Token) : Prop :=
  match t.kind, t.value with
  | .identifier, some (.str name) => IsWord name.toList ∧ Kind.keyword? name = none
  | .integer, some (.int n) => ∃ m : Nat, n = m ∧ m ≤ Pattern.maxInteger
  | .float, some (.float x) => x.Unsigned
  | .string, some (.str text) => '"' ∉ text.toList
  | kind, none => kind ∉ Grammar.primaryKinds
  | _, _ => False

theorem Spelled.none_of_kind {t : Token} (h : t.Spelled) (hk : t.kind ∉ Grammar.primaryKinds) : t.value = none := by
  obtain ⟨kind, value, span⟩ := t
  cases value with
  | none => rfl
  | some v => cases kind <;> simp_all [Spelled, Grammar.primaryKinds]

section

variable {value : Option Value} {span : Span}

theorem Spelled.identifier (h : Spelled ⟨.identifier, value, span⟩) :
    ∃ name, value = some (.str name) ∧ IsWord name.toList ∧ Kind.keyword? name = none := by
  rcases value with _ | _ | _ | _ <;> simp_all [Spelled, Grammar.primaryKinds]

theorem Spelled.integer (h : Spelled ⟨.integer, value, span⟩) :
    ∃ m : Nat, value = some (.int m) ∧ m ≤ Pattern.maxInteger := by
  rcases value with _ | _ | n | _ <;> simp_all [Spelled, Grammar.primaryKinds]

theorem Spelled.float (h : Spelled ⟨.float, value, span⟩) : ∃ x, value = some (.float x) ∧ x.Unsigned := by
  rcases value with _ | _ | _ | _ <;> simp_all [Spelled, Grammar.primaryKinds]

theorem Spelled.string (h : Spelled ⟨.string, value, span⟩) : ∃ text, value = some (.str text) ∧ '"' ∉ text.toList := by
  rcases value with _ | _ | _ | _ <;> simp_all [Spelled, Grammar.primaryKinds]

end

theorem lexeme_integer (m : Nat) (span : Span) :
    (Token.mk .integer (some (.int m)) span).lexeme.toList = Nat.toDigits 10 m := Nat.toList_repr

end Token

theorem Literal.not_mem_decode {cs : List Char} (h : '"' ∉ cs) : '"' ∉ decode cs := by
  fun_induction decode cs with
  | case1 => simp
  | case2 d cs c hc ih =>
    have : '"' ≠ c := by
      rintro rfl
      unfold escaped? at hc
      split at hc <;> simp at hc
    simp_all
  | case3 d cs hd ih => simp_all
  | case4 c cs hc ih => simp_all

theorem Literal.not_mem_encode {cs : List Char} (h : '"' ∉ cs) : '"' ∉ encode cs := by
  simp only [encode, List.mem_flatMap, not_exists, not_and]
  intro c hc
  have : '"' ≠ c := fun heq => h (heq ▸ hc)
  unfold encodeChar
  split <;> simp_all

theorem isWord_of_name {cs taken rest : List Char} (h : Pattern.name.split? cs = some (taken, rest)) : IsWord taken := by
  cases cs with
  | nil => simp [Pattern.split?] at h
  | cons c cs =>
    simp only [Pattern.split?] at h
    split at h
    · next hc =>
      obtain ⟨rfl, -⟩ := Prod.mk.inj (Option.some.inj h)
      exact ⟨c, _, rfl, hc, fun d hd => List.mem_takeWhile_imp hd⟩
    · simp at h

theorem exists_of_string {cs taken rest : List Char} (h : Pattern.string.split? cs = some (taken, rest)) :
    ∃ body, taken = '"' :: body ++ ['"'] ∧ '"' ∉ body := by
  cases cs with
  | nil => simp [Pattern.split?] at h
  | cons c cs =>
    by_cases hc : c = '"'
    · subst hc
      simp only [Pattern.split?] at h
      split at h
      · simp at h
      · next q _ hdrop =>
        obtain ⟨rfl, -⟩ := Prod.mk.inj (Option.some.inj h)
        have hquote := List.head?_dropWhile_not (fun c => decide (c ≠ '"')) cs
        rw [hdrop] at hquote
        obtain rfl : q = '"' := by simpa using hquote
        exact ⟨_, rfl, fun hmem => by simpa using List.mem_takeWhile_imp hmem⟩
    · simp [Pattern.split?, hc] at h

theorem not_primary_of_mark {k : Kind} (h : Pattern.mark k ∈ Pattern.table) : k ∉ Grammar.primaryKinds := by
  revert h
  cases k <;> decide

theorem mem_table_of_first? {cs taken rest : List Char} {p : Pattern} (h : Pattern.first? cs = some (p, taken, rest)) :
    p ∈ Pattern.table := by
  obtain ⟨q, hmem, hq⟩ := List.exists_of_findSome?_eq_some h
  obtain ⟨_, -, heq⟩ := Option.map_eq_some_iff.1 hq
  exact (Prod.mk.inj heq).1 ▸ hmem

theorem spelled_of_read? {cs taken rest : List Char} {p : Pattern} {span : Span} {t : Token}
    (h : Pattern.first? cs = some (p, taken, rest)) (ht : p.read? taken span = .ok (some t)) : t.Spelled := by
  have hsplit := Pattern.split?_of_first? h
  have htable := mem_table_of_first? h
  cases p with
  | name =>
    simp only [Pattern.read?] at ht
    split at ht
    · next kind hkind =>
      obtain rfl := Option.some.inj (Except.ok.inj ht)
      have := List.mem_of_find?_eq_some hkind
      simp only [Kind.keywords, List.mem_cons, List.not_mem_nil, or_false] at this
      rcases this with rfl | rfl <;> simp [Token.Spelled, Grammar.primaryKinds]
    · next hnone =>
      obtain rfl := Option.some.inj (Except.ok.inj ht)
      exact ⟨by rw [String.toList_ofList]; exact isWord_of_name hsplit, hnone⟩
  | float =>
    obtain rfl := Option.some.inj (Except.ok.inj ht)
    exact Binary64.unsigned_ofRatio _ _
  | integer =>
    simp only [Pattern.read?] at ht
    split at ht
    · next hle =>
      obtain rfl := Option.some.inj (Except.ok.inj ht)
      exact ⟨_, rfl, hle⟩
    · simp at ht
  | string =>
    obtain rfl := Option.some.inj (Except.ok.inj ht)
    simp only [Token.Spelled, String.toList_ofList]
    obtain ⟨body, rfl, hbody⟩ := exists_of_string hsplit
    exact Literal.not_mem_decode (by simpa using hbody)
  | mark kind =>
    obtain rfl := Option.some.inj (Except.ok.inj ht)
    have := not_primary_of_mark htable
    cases kind <;> simp_all [Token.Spelled]
  | blank => simp [Pattern.read?] at ht
  | comment => simp [Pattern.read?] at ht

/-- The tokens of a source are spelled. -/
theorem spelled_of_scan {offset : Nat} {cs : List Char} {tokens : List Token} (h : scan offset cs = .ok tokens) :
    ∀ t ∈ tokens, t.Spelled := by
  fun_induction scan offset cs generalizing tokens with
  | case1 offset =>
    obtain rfl := Except.ok.inj h
    simp [Token.eof, Token.Spelled, Grammar.primaryKinds]
  | case2 => simp at h
  | case3 offset c cs p taken rest hfirst _ stop =>
    rename_i ih
    simp only [bind_eq_ok, pure, Except.pure, Except.ok.injEq] at h
    obtain ⟨token, htoken, others, hothers, rfl⟩ := h
    intro t ht
    rcases List.mem_append.1 ht with ht | ht
    · obtain rfl := Option.mem_toList.1 ht
      exact spelled_of_read? hfirst htoken
    · exact ih hothers t ht

/-! ## places -/

/-- The tokens stand one behind the other, from an offset on. -/
def InOrder (offset : Nat) : List Token → Prop
  | [] => True
  | t :: ts => offset ≤ t.span.start ∧ t.span.start ≤ t.span.stop ∧ InOrder t.span.stop ts

theorem InOrder.mono {m n : Nat} {ts : List Token} (h : InOrder n ts) (hmn : m ≤ n) : InOrder m ts := by
  cases ts with
  | nil => trivial
  | cons t ts => exact ⟨Nat.le_trans hmn h.1, h.2⟩

theorem scan_inOrder {offset : Nat} {cs : List Char} {tokens : List Token} (h : scan offset cs = .ok tokens) :
    InOrder offset tokens := by
  fun_induction scan offset cs generalizing tokens with
  | case1 offset =>
    obtain rfl := Except.ok.inj h
    exact ⟨Nat.le_refl _, Nat.le_refl _, trivial⟩
  | case2 => simp at h
  | case3 offset c cs p taken rest hfirst _ stop =>
    rename_i ih
    simp only [bind_eq_ok, pure, Except.pure, Except.ok.injEq] at h
    obtain ⟨token, htoken, others, hothers, rfl⟩ := h
    have hstop : offset ≤ stop := Nat.le_add_right _ _
    cases token with
    | none => exact (ih hothers).mono hstop
    | some token =>
      have hspan := Pattern.span_of_read? htoken
      refine ⟨?_, ?_, ?_⟩ <;> rw [hspan]
      · exact hstop
      · exact ih hothers

/-! ## which pattern matches -/

theorem toNat_of_isNameStart {c : Char} (h : Pattern.isNameStart c = true) : 65 ≤ c.toNat ∧ c.toNat ≤ 122 := by
  have halpha : c.isAlpha = (decide (c.val ≥ 'A'.val ∧ c.val ≤ 'Z'.val) || c.val ≥ 'a'.val && c.val ≤ 'z'.val) := rfl
  simp only [Pattern.isNameStart, halpha, Bool.or_eq_true, Bool.and_eq_true, decide_eq_true_eq, beq_iff_eq,
    ge_iff_le, UInt32.le_iff_toNat_le] at h
  rcases h with (⟨h₁, h₂⟩ | ⟨h₁, h₂⟩) | rfl
  · exact ⟨h₁, Nat.le_trans h₂ (by decide)⟩
  · exact ⟨Nat.le_trans (by decide) h₁, h₂⟩
  · decide

theorem toNat_of_isDigit {c : Char} (h : c.isDigit = true) : 48 ≤ c.toNat ∧ c.toNat ≤ 57 := by
  simp only [Char.isDigit, Bool.and_eq_true, decide_eq_true_eq, ge_iff_le, UInt32.le_iff_toNat_le] at h
  exact h

theorem isNameStart_of_isDigit {c : Char} (h : c.isDigit = true) : Pattern.isNameStart c = false := by
  refine Bool.eq_false_iff.2 fun hname => ?_
  have := toNat_of_isDigit h
  have := toNat_of_isNameStart hname
  omega

theorem toNat_of_isBlank {c : Char} (h : Text.isBlank c = true) : c.toNat < 48 ∨ 122 < c.toNat := by
  simp [Text.isBlank, Text.blankRanges] at h
  omega

namespace Pattern
theorem findSome?_eq_some {α β : Type} [DecidableEq α] {f : α → Option β} {a : α} {b : β} {xs : List α} (ha : a ∈ xs)
    (hbefore : ∀ x ∈ xs.takeWhile (· ≠ a), f x = none) (h : f a = some b) : xs.findSome? f = some b := by
  induction xs with
  | nil => exact absurd ha List.not_mem_nil
  | cons x xs ih =>
    by_cases hx : x = a
    · rw [List.findSome?_cons, hx, h]
    · rw [List.takeWhile_cons_of_pos (by simpa using hx)] at hbefore
      rw [List.findSome?_cons, hbefore x List.mem_cons_self]
      exact ih (List.mem_of_ne_of_mem (Ne.symm hx) ha) fun y hy => hbefore y (List.mem_cons_of_mem _ hy)

theorem first?_eq {p : Pattern} {cs taken rest : List Char} (hp : p ∈ table)
    (hbefore : ∀ q ∈ table.takeWhile (· ≠ p), q.split? cs = none) (h : p.split? cs = some (taken, rest)) :
    first? cs = some (p, taken, rest) :=
  findSome?_eq_some hp (fun q hq => by rw [hbefore q hq]; rfl) (by rw [h]; rfl)

/-- The marks that a further character may turn into something else. -/
def growing : List Kind := [.assignment, .not, .less, .greater, .dash, .slash]

/-- The text does not begin with a character that goes on with a mark. -/
def Clear (cs : List Char) : Prop := ∀ c ∈ cs.head?, c ∉ ['=', '>', '/']

theorem first?_mark {k : Kind} {rest : List Char} (hk : mark k ∈ table) (h : k ∈ growing → Clear rest) :
    first? (k.symbol.toList ++ rest) = some (mark k, k.symbol.toList, rest) := by
  by_cases hg : k ∈ growing
  · have hclear := h hg
    obtain _ | ⟨c, rest⟩ := rest
    · simp only [growing, List.mem_cons, List.not_mem_nil, or_false] at hg
      rcases hg with rfl | rfl | rfl | rfl | rfl | rfl <;> rfl
    · have hc := hclear c rfl
      simp only [List.mem_cons, List.not_mem_nil, or_false, not_or] at hc
      have hmark : ∀ {k : Kind} {d e : Char}, e ≠ c → k.symbol.toList = [d, e] →
          (mark k).split? (d :: c :: rest) = none := fun hne hk => if_neg (by simp [hk, hne])
      have hcomment : comment.split? ('/' :: c :: rest) = none := by
        unfold split?
        split <;> simp_all
      simp only [growing, List.mem_cons, List.not_mem_nil, or_false] at hg
      rcases hg with rfl | rfl | rfl | rfl | rfl | rfl
      all_goals
        refine first?_eq hk ?_ rfl
        simp only [table, List.takeWhile_cons, ne_eq, reduceCtorEq, not_false_eq_true, decide_true, if_true, mark.injEq,
          not_true_eq_false, decide_false, Bool.false_eq_true, if_false, List.forall_mem_cons, List.not_mem_nil,
          IsEmpty.forall_iff, implies_true, and_true]
        and_intros <;>
          first | rfl | exact hcomment | exact hmark (Ne.symm hc.1) rfl | exact hmark (Ne.symm hc.2.1) rfl
  · cases k with
    | _ => first | rfl | exact absurd hk (by decide) | exact absurd (by decide) hg
section

variable {rest : List Char}

/-- What may stand behind a name or a literal. -/
def Delimited (cs : List Char) : Prop := ∀ c ∈ cs.head?, c ∈ [' ', '\n', ';', ')', '(', ',', ':']

theorem Delimited.stops {p : Char → Bool} (h : Delimited rest)
    (hp : [' ', '\n', ';', ')', '(', ',', ':'].any p = false) : ∀ c ∈ rest.head?, p c = false :=
  fun c hc => Bool.eq_false_iff.2 fun hpc => absurd (List.any_eq_true.2 ⟨c, h c hc, hpc⟩) (Bool.eq_false_iff.1 hp)

theorem span_append {p : Char → Bool} {cs : List Char} (hcs : ∀ c ∈ cs, p c = true)
    (hrest : ∀ c ∈ rest.head?, p c = false) :
    (cs ++ rest).takeWhile p = cs ∧ (cs ++ rest).dropWhile p = rest := by
  rw [List.takeWhile_append_of_pos hcs, List.dropWhile_append_of_pos hcs]
  cases rest with
  | nil => simp
  | cons c rest =>
    have := hrest c rfl
    simp [this]

theorem run?_append {p : Char → Bool} {cs : List Char} (hne : cs ≠ []) (hcs : ∀ c ∈ cs, p c = true)
    (hrest : ∀ c ∈ rest.head?, p c = false) : run? p (cs ++ rest) = some (cs, rest) := by
  obtain ⟨htake, hdrop⟩ := span_append hcs hrest
  rw [run?, htake, hdrop, if_neg (by simpa using hne)]

theorem first?_name {word : List Char} (hword : IsWord word) (h : Delimited rest) :
    first? (word ++ rest) = some (name, word, rest) := by
  obtain ⟨c, cs, rfl, hc, hcs⟩ := hword
  obtain ⟨htake, hdrop⟩ := span_append hcs (h.stops (p := isNamePart) (by decide))
  refine first?_eq (by decide) (by simp [table]) ?_
  rw [List.cons_append, split?, if_pos hc, htake, hdrop]

theorem name_of_digits {digits : List Char} (hd : IsDigits digits) : name.split? (digits ++ rest) = none := by
  obtain ⟨hne, hd⟩ := hd
  obtain ⟨c, cs, rfl⟩ := List.exists_cons_of_ne_nil hne
  rw [List.cons_append, split?, isNameStart_of_isDigit (hd c List.mem_cons_self)]
  rfl

theorem first?_float {whole fraction : List Char} (hw : IsDigits whole) (hf : IsDigits fraction) (h : Delimited rest) :
    first? (whole ++ '.' :: fraction ++ rest) = some (float, whole ++ '.' :: fraction, rest) := by
  have hdot : ∀ c ∈ ('.' :: (fraction ++ rest)).head?, c.isDigit = false := by simp
  refine first?_eq (by decide) ?_ ?_
  · rintro q hq
    obtain rfl : q = name := by simpa [table, List.takeWhile_cons] using hq
    rw [List.append_assoc]
    exact name_of_digits hw
  · rw [List.append_assoc, List.cons_append, split?, run?_append hw.1 hw.2 hdot]
    simp only [run?_append hf.1 hf.2 (h.stops (p := Char.isDigit) (by decide)), Option.map_some]

theorem first?_integer {digits : List Char} (hd : IsDigits digits) (h : Delimited rest) :
    first? (digits ++ rest) = some (integer, digits, rest) := by
  have hrun := run?_append hd.1 hd.2 (h.stops (p := Char.isDigit) (by decide))
  refine first?_eq (by decide) ?_ (by rw [split?, hrun])
  rintro q hq
  obtain rfl | rfl : q = name ∨ q = float := by simpa [table, List.takeWhile_cons] using hq
  · exact name_of_digits hd
  · rw [split?, hrun]
    split
    · next heq =>
      obtain ⟨-, rfl⟩ := Prod.mk.inj (Option.some.inj heq)
      exact absurd (h '.' rfl) (by decide)
    · rfl

theorem first?_string {body : List Char} (hbody : '"' ∉ body) :
    first? ('"' :: body ++ '"' :: rest) = some (string, '"' :: body ++ ['"'], rest) := by
  have hpos : ∀ c ∈ body, decide (c ≠ '"') = true := fun c hc => decide_eq_true fun heq => hbody (heq ▸ hc)
  have hquote : ∀ c ∈ ('"' :: rest).head?, decide (c ≠ '"') = false := by simp
  obtain ⟨htake, hdrop⟩ := span_append hpos hquote
  refine first?_eq (by decide) ?_ ?_
  · rintro q hq
    obtain rfl | rfl | rfl | rfl : q = name ∨ q = float ∨ q = integer ∨ q = blank := by
      simpa [table, List.takeWhile_cons] using hq
    all_goals rfl
  · rw [List.cons_append, split?, hdrop, htake]

theorem first?_blank {c : Char} (hc : Text.isBlank c = true) :
    first? (c :: rest) = some (blank, c :: rest.takeWhile Text.isBlank, rest.dropWhile Text.isBlank) := by
  have hout := toNat_of_isBlank hc
  have hname : isNameStart c = false := Bool.eq_false_iff.2 fun h => by
    have := toNat_of_isNameStart h
    omega
  have hdigit : c.isDigit = false := Bool.eq_false_iff.2 fun h => by
    have := toNat_of_isDigit h
    omega
  refine first?_eq (by decide) ?_ (by simp [split?, run?, hc])
  rintro q hq
  obtain rfl | rfl | rfl : q = name ∨ q = float ∨ q = integer := by simpa [table, List.takeWhile_cons] using hq
  · simp [split?, hname]
  · simp [split?, run?, hdigit]
  · simp [split?, run?, hdigit]

end

end Pattern

/-! ## texts and the pieces they are cut into -/

/-- The text is cut into tokens that are these pieces. -/
def Scans (cs : List Char) (ps : List Piece) : Prop :=
  ∀ offset, ∃ ts, scan offset cs = .ok ts ∧ ts.map Token.face = ps

theorem scan_eq {offset : Nat} {cs taken rest : List Char} {p : Pattern}
    (h : Pattern.first? cs = some (p, taken, rest)) : scan offset cs = (do
      let token ← p.read? taken ⟨offset, offset + Source.utf8Length taken⟩
      let tokens ← scan (offset + Source.utf8Length taken) rest
      return token.toList ++ tokens) := by
  cases cs with
  | nil =>
    have := Pattern.length_lt_of_split? (Pattern.split?_of_first? h)
    simp at this
  | cons c cs =>
    rw [scan]
    split
    · next hnone => simp [hnone] at h
    · next hsome =>
      obtain ⟨rfl, rfl, rfl⟩ : _ ∧ _ ∧ _ := by simpa [h] using hsome
      rfl

namespace Scans

variable {rest : List Char} {ps : List Piece}

theorem nil : Scans [] [⟨.eof, none⟩] := fun offset => ⟨[.eof offset], by rw [scan], rfl⟩

theorem of_first? {cs taken : List Char} {p : Pattern} {q : Piece} (h : Pattern.first? cs = some (p, taken, rest))
    (hread : ∀ span, ∃ t, p.read? taken span = .ok (some t) ∧ t.face = q) (hs : Scans rest ps) :
    Scans cs (q :: ps) := by
  intro offset
  obtain ⟨t, ht, rfl⟩ := hread ⟨offset, offset + Source.utf8Length taken⟩
  obtain ⟨ts, hts, rfl⟩ := hs (offset + Source.utf8Length taken)
  refine ⟨t :: ts, ?_, rfl⟩
  simp only [scan_eq h, bind_eq_ok, pure, Except.pure, Except.ok.injEq]
  exact ⟨_, ht, _, hts, rfl⟩

theorem scan_blank {offset : Nat} {c : Char} (hc : Text.isBlank c = true) : scan offset (c :: rest) =
    scan (offset + Source.utf8Length (c :: rest.takeWhile Text.isBlank)) (rest.dropWhile Text.isBlank) := by
  rw [scan_eq (Pattern.first?_blank hc)]
  simp only [Pattern.read?]
  generalize scan _ (rest.dropWhile Text.isBlank) = r
  cases r <;> rfl

/-- Blanks between tokens do not matter, however many there are. -/
theorem blank {c : Char} (hc : Text.isBlank c = true) (hs : Scans rest ps) : Scans (c :: rest) ps := by
  intro offset
  obtain ⟨ts, hts, rfl⟩ := hs (offset + c.utf8Size)
  refine ⟨ts, ?_, rfl⟩
  rw [scan_blank hc, ← hts]
  cases rest with
  | nil => simp
  | cons d rest =>
    by_cases hd : Text.isBlank d = true
    · rw [scan_blank hd, List.takeWhile_cons_of_pos hd, List.dropWhile_cons_of_pos hd]
      simp only [Source.utf8Length_cons, Nat.add_assoc]
    · rw [List.takeWhile_cons_of_neg hd, List.dropWhile_cons_of_neg hd]
      simp

theorem mark {k : Kind} (hk : Pattern.mark k ∈ Pattern.table) (h : k ∈ Pattern.growing → Pattern.Clear rest)
    (hs : Scans rest ps) : Scans (k.symbol.toList ++ rest) (⟨k, none⟩ :: ps) :=
  hs.of_first? (Pattern.first?_mark hk h) fun span => ⟨⟨k, none, span⟩, rfl, rfl⟩

theorem name {cs : List Char} (hword : IsWord cs) (hk : Kind.keyword? (String.ofList cs) = none)
    (h : Pattern.Delimited rest) (hs : Scans rest ps) :
    Scans (cs ++ rest) (⟨.identifier, some (.str (String.ofList cs))⟩ :: ps) := by
  refine hs.of_first? (Pattern.first?_name hword h) fun span => ?_
  simp only [Pattern.read?, hk]
  exact ⟨_, rfl, rfl⟩

theorem keyword {k : Kind} (hk : k ∈ Kind.keywords) (h : Pattern.Delimited rest) (hs : Scans rest ps) :
    Scans (k.symbol.toList ++ rest) (⟨k, none⟩ :: ps) := by
  have hword : IsWord k.symbol.toList ∧ Kind.keyword? k.symbol = some k := by
    simp only [Kind.keywords, List.mem_cons, List.not_mem_nil, or_false] at hk
    rcases hk with rfl | rfl <;> exact ⟨⟨_, _, rfl, by decide, List.all_eq_true.1 (by decide)⟩, by decide⟩
  refine hs.of_first? (Pattern.first?_name hword.1 h) fun span => ?_
  simp only [Pattern.read?, String.ofList_toList, hword.2]
  exact ⟨_, rfl, rfl⟩

theorem float {x : Binary64} (hx : x.Unsigned) (h : Pattern.Delimited rest) (hs : Scans rest ps) (span : Span) :
    Scans (x.text.toList ++ rest) (Token.piece ⟨.float, some (.float x), span⟩ :: ps) := by
  by_cases hfinite : x.isFinite = true
  · obtain ⟨whole, fraction, htext, hw, hf, hread⟩ := Binary64.exists_text hx hfinite
    rw [htext]
    have hx : x ≠ .infinity := fun heq => absurd (heq ▸ hfinite) (by decide)
    refine hs.of_first? (Pattern.first?_float hw hf h) fun span' =>
      ⟨⟨.float, some (.float x), span'⟩, ?_, by simp [Token.piece, Token.face, hx]⟩
    have hdot : ∀ c ∈ ('.' :: fraction).head?, c.isDigit = false := by simp
    obtain ⟨htake, -⟩ := Pattern.span_append hw.2 hdot
    simp [Pattern.read?, htake, hread]
  · obtain rfl := hx.eq_infinity (by simpa using hfinite)
    rw [Binary64.text_infinity]
    exact hs.name ⟨_, _, rfl, by decide, List.all_eq_true.1 (by decide)⟩ (by decide) h

/-- **The lexeme of a token is read as its piece.** -/
theorem lexeme {t : Token} (ht : t.Spelled) (hk : t.kind ∈ Grammar.primaryKinds) (h : Pattern.Delimited rest)
    (hs : Scans rest ps) : Scans (t.lexeme.toList ++ rest) (t.piece :: ps) := by
  obtain ⟨kind, value, span⟩ := t
  simp only [Grammar.primaryKinds, List.mem_cons, List.not_mem_nil, or_false] at hk
  rcases hk with rfl | rfl | rfl | rfl
  · obtain ⟨name, rfl, hword, hkey⟩ := ht.identifier
    have := hs.name hword (by simpa using hkey) h
    simpa [Token.lexeme, Token.piece, Token.face, Value.text] using this
  · obtain ⟨m, rfl, hm⟩ := ht.integer
    rw [Token.lexeme_integer]
    refine hs.of_first? (Pattern.first?_integer (isDigits_toDigits m) h) fun span' =>
      ⟨⟨.integer, some (.int m), span'⟩, ?_, rfl⟩
    simp [Pattern.read?, hm]
  · obtain ⟨x, rfl, hx⟩ := ht.float
    exact hs.float hx h span
  · obtain ⟨text, rfl, htext⟩ := ht.string
    have hfirst : Pattern.first? ((Token.lexeme ⟨.string, some (.str text), span⟩).toList ++ rest) =
        some (.string, '"' :: Literal.encode text.toList ++ ['"'], rest) := by
      simpa [Token.lexeme] using Pattern.first?_string (Literal.not_mem_encode htext)
    refine hs.of_first? hfirst fun span' => ⟨⟨.string, some (.str text), span'⟩, ?_, rfl⟩
    simp [Pattern.read?, Literal.decode_encode]

end Scans

end LetFn
