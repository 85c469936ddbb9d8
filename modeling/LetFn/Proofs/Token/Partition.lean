import LetFn.Proofs.Token.Spelling

/-!
# A source and its tokens

A source that is cut into tokens is covered by them but for white space and comments, every token is determined by the
text it covers, and wherever the scanner comes to, no pattern matches more than the one that it chooses.

* `Span.Marks source s text rest` — `text` stands at the span `s` in the source, in front of `rest`;
* `Skipped gap rest` — `gap` is white space and comments, and stands in front of `rest`;
* `Token.Spells t text` — `text` is a spelling of the token `t`;
* `Reached source cs` — the scanner comes to `cs` on its way through the source;
* `Partition offset cs tokens` — skipped texts and spellings of the tokens make up the text `cs`.

Main facts: `prefix_of_first?` (the longest match is chosen), `tokenize_partitions`.
-/

namespace LetFn

open Source (utf8Length)

/-! ## offsets -/

theorem size_utf8Encode (cs : List Char) : cs.utf8Encode.size = utf8Length cs := by
  induction cs with
  | nil => rfl
  | cons c cs ih =>
    have hc : [c].utf8Encode.size = c.utf8Size := by
      rw [← String.toByteArray_singleton, String.size_toByteArray, String.utf8ByteSize_singleton]
    rw [List.utf8Encode_cons, ByteArray.size_append, ih, hc, Source.utf8Length_cons]

theorem utf8ByteSize_eq (s : String) : s.utf8ByteSize = utf8Length s.toList := by
  rw [← size_utf8Encode, String.utf8Encode_toList, String.size_toByteArray]

theorem utf8Length_le_of_prefix {cs ds : List Char} (h : cs <+: ds) : utf8Length cs ≤ utf8Length ds := by
  obtain ⟨es, rfl⟩ := h
  rw [Source.utf8Length_append]
  exact Nat.le_add_right _ _

/-- The text stands at the span, which so begins and ends between characters, and `rest` stands behind it. -/
def Span.Marks (source : List Char) (s : Span) (text rest : List Char) : Prop :=
  ∃ before, source = before ++ text ++ rest ∧ s.start = utf8Length before ∧ s.stop = utf8Length (before ++ text)

/-! ## what stands between tokens -/

/-- White space and comments; a comment runs to the end of its line. -/
inductive Skipped : List Char → List Char → Prop where
  | nil {rest} : Skipped [] rest
  | blank {c gap rest} (h : Text.isBlank c = true) (more : Skipped gap rest) : Skipped (c :: gap) rest
  | comment {body gap rest} (oneLine : '\n' ∉ body) (ends : ∀ c ∈ (gap ++ rest).head?, c = '\n')
      (more : Skipped gap rest) : Skipped ('/' :: '/' :: body ++ gap) rest

theorem Skipped.blanks {cs gap rest : List Char} (h : ∀ c ∈ cs, Text.isBlank c = true) (more : Skipped gap rest) :
    Skipped (cs ++ gap) rest := by
  induction cs with
  | nil => exact more
  | cons c cs ih => exact .blank (h c List.mem_cons_self) (ih fun d hd => h d (List.mem_cons_of_mem _ hd))

/-! ## what a token is spelled like -/

/-- The text is a spelling of the token: its symbol, its name, digits of its value or a quoted text with escapes. -/
def Token.Spells (t : Token) (text : List Char) : Prop :=
  match t.kind, t.value with
  | .identifier, some (.str name) => text = name.toList ∧ IsWord text ∧ Kind.keyword? name = none
  | .integer, some (.int n) => IsDigits text ∧ n = Nat.ofDigitChars 10 text 0 ∧ n ≤ Pattern.maxInteger
  | .float, some (.float x) => ∃ whole fraction, text = whole ++ '.' :: fraction ∧ IsDigits whole ∧ IsDigits fraction ∧
      x = (Decimal.ofDigits whole fraction).toBinary64
  | .string, some (.str value) => ∃ body, text = '"' :: body ++ ['"'] ∧ '"' ∉ body ∧
      value = String.ofList (Literal.decode body)
  | kind, none => kind ≠ .eof ∧ kind ∉ Grammar.primaryKinds ∧ text = kind.symbol.toList
  | _, _ => False

namespace Pattern

theorem run?_eq_some {p : Char → Bool} {cs taken rest : List Char} (h : run? p cs = some (taken, rest)) :
    taken = cs.takeWhile p ∧ rest = cs.dropWhile p := by
  unfold run? at h
  split at h
  · exact absurd h nofun
  · obtain ⟨rfl, rfl⟩ := Prod.mk.inj (Option.some.inj h)
    exact ⟨rfl, rfl⟩

theorem isDigits_of_run? {cs taken rest : List Char} (h : run? Char.isDigit cs = some (taken, rest)) :
    IsDigits taken :=
  ⟨(append_of_run? h).2, fun _ hc => List.mem_takeWhile_imp ((run?_eq_some h).1 ▸ hc)⟩

theorem float_eq_some {cs taken rest : List Char} (h : float.split? cs = some (taken, rest)) :
    ∃ whole fraction, taken = whole ++ '.' :: fraction ∧ IsDigits whole ∧ IsDigits fraction ∧
      whole = cs.takeWhile Char.isDigit := by
  simp only [split?] at h
  split at h
  · next whole behind hwhole =>
    obtain ⟨⟨fraction, rest'⟩, hfraction, heq⟩ := Option.map_eq_some_iff.1 h
    obtain ⟨rfl, rfl⟩ := Prod.mk.inj heq
    exact ⟨whole, fraction, rfl, isDigits_of_run? hwhole, isDigits_of_run? hfraction, (run?_eq_some hwhole).1⟩
  · cases h

theorem comment_eq_some {cs taken rest : List Char} (h : comment.split? cs = some (taken, rest)) :
    ∃ body, taken = '/' :: '/' :: body ∧ '\n' ∉ body ∧ ∀ c ∈ rest.head?, c = '\n' := by
  unfold split? at h
  split at h <;> simp_all only [reduceCtorEq]
  obtain ⟨rfl, rfl⟩ := Prod.mk.inj (Option.some.inj h)
  refine ⟨_, rfl, fun hmem => by simpa using List.mem_takeWhile_imp hmem, fun c hc => ?_⟩
  have hends := List.head?_dropWhile_not (fun c => decide (c ≠ '\n')) ‹List Char›
  rw [Option.mem_def.1 hc] at hends
  simpa using hends

end Pattern

/-- What a match is read as is spelled like the match. -/
theorem spells_of_read? {cs taken rest : List Char} {p : Pattern} {span : Span} {t : Token} (hp : p ∈ Pattern.table)
    (hsplit : p.split? cs = some (taken, rest)) (ht : p.read? taken span = .ok (some t)) : t.Spells taken := by
  cases p with
  | name =>
    simp only [Pattern.read?] at ht
    split at ht
    · next kind hkind =>
      obtain rfl := Option.some.inj (Except.ok.inj ht)
      have hsymbol : kind.symbol = String.ofList taken := by simpa using List.find?_some hkind
      have hkeyword := List.mem_of_find?_eq_some hkind
      have htaken : taken = kind.symbol.toList := by rw [hsymbol, String.toList_ofList]
      simp only [Kind.keywords, List.mem_cons, List.not_mem_nil, or_false] at hkeyword
      rcases hkeyword with rfl | rfl <;> exact ⟨by rintro ⟨⟩, by simp [Grammar.primaryKinds], htaken⟩
    · next hnone =>
      obtain rfl := Option.some.inj (Except.ok.inj ht)
      exact ⟨by rw [String.toList_ofList], isWord_of_name hsplit, hnone⟩
  | float =>
    obtain rfl := Option.some.inj (Except.ok.inj ht)
    obtain ⟨whole, fraction, rfl, hw, hf, -⟩ := Pattern.float_eq_some hsplit
    have hdot : ∀ c ∈ ('.' :: fraction).head?, c.isDigit = false := by simp
    obtain ⟨htake, -⟩ := Pattern.span_append hw.2 hdot
    exact ⟨whole, fraction, rfl, hw, hf, by simp [htake]⟩
  | integer =>
    simp only [Pattern.read?] at ht
    split at ht
    · next hle =>
      obtain rfl := Option.some.inj (Except.ok.inj ht)
      exact ⟨Pattern.isDigits_of_run? hsplit, rfl, Int.ofNat_le.2 hle⟩
    · cases ht
  | string =>
    obtain rfl := Option.some.inj (Except.ok.inj ht)
    obtain ⟨body, rfl, hbody⟩ := exists_of_string hsplit
    exact ⟨body, rfl, hbody, by simp⟩
  | mark kind =>
    obtain rfl := Option.some.inj (Except.ok.inj ht)
    have hprimary := not_primary_of_mark hp
    have heof : kind ≠ .eof := by
      rintro rfl
      exact absurd hp (by decide)
    simp only [Pattern.split?] at hsplit
    split at hsplit
    · obtain ⟨rfl, -⟩ := Prod.mk.inj (Option.some.inj hsplit)
      cases kind <;> exact ⟨heof, hprimary, rfl⟩
    · cases hsplit
  | blank => exact absurd ht (by simp [Pattern.read?])
  | comment => exact absurd ht (by simp [Pattern.read?])

/-- What is read off no token is skipped. -/
theorem skipped_of_read? {cs taken rest gap behind : List Char} {p : Pattern} {span : Span}
    (hsplit : p.split? cs = some (taken, rest)) (hread : p.read? taken span = .ok none) (hrest : rest = gap ++ behind)
    (more : Skipped gap behind) : Skipped (taken ++ gap) behind := by
  cases p with
  | blank =>
    obtain ⟨rfl, -⟩ := Pattern.run?_eq_some hsplit
    exact more.blanks fun _ hc => List.mem_takeWhile_imp hc
  | comment =>
    obtain ⟨body, rfl, hbody, hends⟩ := Pattern.comment_eq_some hsplit
    exact .comment hbody (hrest ▸ hends) more
  | name =>
    simp only [Pattern.read?] at hread
    split at hread <;> simp at hread
  | integer =>
    simp only [Pattern.read?] at hread
    split at hread <;> simp at hread
  | float => simp [Pattern.read?] at hread
  | string => simp [Pattern.read?] at hread
  | mark kind => simp [Pattern.read?] at hread

/-! ## the longest match is chosen -/

namespace Pattern

/-- A match begins with such a character. -/
def Begins : Pattern → Char → Prop
  | name, c => isNameStart c = true
  | float, c | integer, c => c.isDigit = true
  | blank, c => Text.isBlank c = true
  | string, c => c = '"'
  | comment, c => c = '/'
  | mark kind, c => kind.symbol.toList.head? = some c

/-- Patterns of one family may match texts that begin with the same character. -/
def family : Pattern → Nat
  | name => 0
  | float | integer => 1
  | blank => 2
  | string => 3
  | comment | mark _ => 4

theorem begins_of_split? {p : Pattern} {c : Char} {cs taken rest : List Char}
    (h : p.split? (c :: cs) = some (taken, rest)) : p.Begins c := by
  have hrun : ∀ {q : Char → Bool} {xs ys : List Char}, run? q (c :: cs) = some (xs, ys) → q c = true := by
    intro q xs ys h
    obtain ⟨heq, -⟩ := run?_eq_some h
    by_contra hc
    rw [List.takeWhile_cons_of_neg hc] at heq
    exact (append_of_run? h).2 heq
  cases p with
  | name =>
    simp only [split?] at h
    split at h
    · assumption
    · cases h
  | float =>
    simp only [split?] at h
    split at h
    · next hw => exact hrun hw
    · cases h
  | integer => exact hrun h
  | blank => exact hrun h
  | string =>
    obtain ⟨body, rfl, -⟩ := exists_of_string h
    exact ((List.cons.inj (append_of_split? h).1).1).symm
  | comment =>
    obtain ⟨body, rfl, -⟩ := comment_eq_some h
    exact ((List.cons.inj (append_of_split? h).1).1).symm
  | mark kind =>
    simp only [split?] at h
    split at h
    · next hprefix =>
      obtain ⟨d, ds, hsymbol⟩ := List.exists_cons_of_ne_nil (symbol_ne_nil kind)
      rw [hsymbol] at hprefix
      obtain ⟨rfl, -⟩ := List.cons_prefix_cons.1 hprefix
      simp [Begins, hsymbol]
    · cases h

/-- The family of the patterns whose matches begin with a character. -/
def familyOf (c : Char) : Nat :=
  if isNameStart c then 0 else if c.isDigit then 1 else if Text.isBlank c then 2 else if c = '"' then 3 else 4

theorem familyOf_of_begins {p : Pattern} {c : Char} (hp : p ∈ table) (h : p.Begins c) : familyOf c = p.family := by
  cases p with
  | name => exact if_pos h
  | float | integer =>
    have hdigit : c.isDigit = true := h
    simp [familyOf, family, isNameStart_of_isDigit hdigit, hdigit]
  | blank =>
    have hblank : Text.isBlank c = true := h
    have hout := toNat_of_isBlank hblank
    have hname : isNameStart c = false := Bool.eq_false_iff.2 fun h => by
      have := toNat_of_isNameStart h
      omega
    have hdigit : c.isDigit = false := Bool.eq_false_iff.2 fun h => by
      have := toNat_of_isDigit h
      omega
    simp [familyOf, family, hname, hdigit, hblank]
  | string =>
    obtain rfl := h
    decide
  | comment =>
    obtain rfl := h
    decide
  | mark kind =>
    have hmarks : ∀ kind ∈ Kind.all, mark kind ∈ table → kind.symbol.toList.head?.all (familyOf · = 4) := by decide
    have hmark := hmarks kind (Kind.mem_all kind) hp
    rw [show kind.symbol.toList.head? = some c from h] at hmark
    exact of_decide_eq_true hmark

/-- Patterns before the chosen one do not match. -/
theorem none_of_first? {cs taken rest : List Char} {p q : Pattern} (h : first? cs = some (p, taken, rest))
    (hq : q ∈ table.takeWhile (· ≠ p)) : q.split? cs = none := by
  have hbefore : ∀ {ps : List Pattern}, ps.findSome? (fun p => (p.split? cs).map (p, ·)) = some (p, taken, rest) →
      q ∈ ps.takeWhile (· ≠ p) → q.split? cs = none := by
    intro ps
    induction ps with
    | nil => exact fun _ hq => absurd hq List.not_mem_nil
    | cons r ps ih =>
      intro hfind hmem
      rw [List.findSome?_cons] at hfind
      cases hr : r.split? cs with
      | none =>
        rw [hr] at hfind
        by_cases hrp : r = p
        · rw [List.takeWhile_cons_of_neg (by simpa using hrp)] at hmem
          exact absurd hmem List.not_mem_nil
        · rw [List.takeWhile_cons_of_pos (by simpa using hrp)] at hmem
          rcases List.mem_cons.1 hmem with rfl | hmem
          · exact hr
          · exact ih hfind hmem
      | some found =>
        rw [hr] at hfind
        obtain rfl : r = p := (Prod.mk.inj (Option.some.inj hfind)).1
        rw [List.takeWhile_cons_of_neg (by simp)] at hmem
        exact absurd hmem List.not_mem_nil
  exact hbefore h hq

theorem mark_eq_some {k : Kind} {cs taken rest : List Char} (h : (mark k).split? cs = some (taken, rest)) :
    taken = k.symbol.toList := by
  simp only [split?] at h
  split at h
  · exact ((Prod.mk.inj (Option.some.inj h)).1).symm
  · cases h

/-- A mark that begins another one stands behind it in the table. -/
theorem mark_before {k l : Kind} (hk : mark k ∈ table) (hl : mark l ∈ table) (hne : k ≠ l)
    (h : k.symbol.toList <+: l.symbol.toList) : mark l ∈ table.takeWhile (· ≠ mark k) := by
  have hall : ∀ k ∈ Kind.all, ∀ l ∈ Kind.all, mark k ∈ table → mark l ∈ table → k ≠ l →
      k.symbol.toList <+: l.symbol.toList → mark l ∈ table.takeWhile (· ≠ mark k) := by decide +kernel
  exact hall k (Kind.mem_all k) l (Kind.mem_all l) hk hl hne h

/-- Comments stand before all marks, and no mark is longer than what a comment begins with. -/
theorem comment_before {k : Kind} (hk : mark k ∈ table) :
    comment ∈ table.takeWhile (· ≠ mark k) ∧ k.symbol.toList.length ≤ 2 := by
  have hall : ∀ k ∈ Kind.all, mark k ∈ table →
      comment ∈ table.takeWhile (· ≠ mark k) ∧ k.symbol.toList.length ≤ 2 := by decide +kernel
  exact hall k (Kind.mem_all k) hk

/-- Only numbers, and marks and comments, share their first characters with another pattern. -/
theorem rivals {p q : Pattern} (h : p.family = q.family) (hne : q ≠ p) :
    p = float ∧ q = integer ∨ p = integer ∧ q = float ∨ (∃ k, p = comment ∧ q = mark k) ∨
      (∃ k, p = mark k ∧ q = comment) ∨ ∃ k l, p = mark k ∧ q = mark l := by
  cases p <;> cases q <;> simp_all [family]

/-- **The longest match is chosen**: whatever another pattern matches, the chosen match begins with it. -/
theorem prefix_of_first? {cs taken rest taken' rest' : List Char} {p q : Pattern}
    (h : first? cs = some (p, taken, rest)) (hq : q ∈ table) (h' : q.split? cs = some (taken', rest')) :
    taken' <+: taken := by
  have hsplit := split?_of_first? h
  have hp := mem_table_of_first? h
  obtain ⟨happend, hne⟩ := append_of_split? hsplit
  have htaken : taken <+: cs := ⟨rest, happend⟩
  have htaken' : taken' <+: cs := ⟨rest', (append_of_split? h').1⟩
  have hbefore : q ∉ table.takeWhile (· ≠ p) := fun hmem => by
    rw [none_of_first? h hmem] at h'
    exact absurd h' nofun
  have hfamily : p.family = q.family := by
    obtain ⟨c, ds, rfl⟩ := List.exists_cons_of_ne_nil hne
    rw [List.cons_append] at happend
    subst happend
    rw [← familyOf_of_begins hp (begins_of_split? hsplit), ← familyOf_of_begins hq (begins_of_split? h')]
  by_cases heq : q = p
  · subst heq
    obtain ⟨rfl, -⟩ := Prod.mk.inj (Option.some.inj (hsplit.symm.trans h'))
    exact List.prefix_refl _
  · rcases rivals hfamily heq with ⟨rfl, rfl⟩ | ⟨rfl, rfl⟩ | ⟨k, rfl, rfl⟩ | ⟨k, rfl, rfl⟩ | ⟨k, l, rfl, rfl⟩
    · obtain ⟨whole, fraction, rfl, -, -, rfl⟩ := float_eq_some hsplit
      obtain ⟨rfl, -⟩ := run?_eq_some h'
      exact List.prefix_append _ _
    · exact absurd (by decide) hbefore
    · obtain ⟨body, rfl, -⟩ := comment_eq_some hsplit
      obtain rfl := mark_eq_some h'
      refine List.prefix_of_prefix_length_le htaken' htaken (Nat.le_trans (comment_before hq).2 ?_)
      simp
    · exact absurd (comment_before hp).1 hbefore
    · obtain rfl := mark_eq_some hsplit
      obtain rfl := mark_eq_some h'
      rcases Nat.le_total l.symbol.toList.length k.symbol.toList.length with hle | hle
      · exact List.prefix_of_prefix_length_le htaken' htaken hle
      · have hkl := List.prefix_of_prefix_length_le htaken htaken' hle
        have hne : k ≠ l := fun hkl => heq (by rw [hkl])
        exact absurd (mark_before hp hq hne hkl) hbefore

end Pattern

/-! ## the scanner on its way -/

/-- The scanner comes to the source itself and to what is left behind every match. -/
inductive Reached (source : List Char) : List Char → Prop where
  | start : Reached source source
  | next {cs taken rest : List Char} {p : Pattern} (h : Reached source cs)
      (first : Pattern.first? cs = some (p, taken, rest)) : Reached source rest

/-- A source that is cut into tokens is cut from wherever the scanner comes to. -/
theorem Reached.scans {source cs : List Char} {offset : Nat} {tokens : List Token} (h : Reached source cs)
    (hs : scan offset source = .ok tokens) : ∃ place ts, scan place cs = .ok ts := by
  induction h with
  | start => exact ⟨offset, tokens, hs⟩
  | next _ first ih =>
    obtain ⟨place, ts, hts⟩ := ih
    rw [scan_eq first] at hts
    simp only [bind_eq_ok] at hts
    obtain ⟨token, -, others, hothers, -⟩ := hts
    exact ⟨_, others, hothers⟩

/-- A pattern matches there, and none matches more. -/
def Munches (cs : List Char) : Prop :=
  ∃ p taken rest, Pattern.first? cs = some (p, taken, rest) ∧
    ∀ q ∈ Pattern.table, ∀ taken' rest', q.split? cs = some (taken', rest') → utf8Length taken' ≤ utf8Length taken

theorem munches_of_reached {source cs : List Char} {offset : Nat} {tokens : List Token} (h : Reached source cs)
    (hs : scan offset source = .ok tokens) (hne : cs ≠ []) : Munches cs := by
  obtain ⟨place, ts, hts⟩ := h.scans hs
  cases hfirst : Pattern.first? cs with
  | none =>
    obtain ⟨c, ds, rfl⟩ := List.exists_cons_of_ne_nil hne
    rw [scan] at hts
    split at hts
    · cases hts
    · next hsome => cases hfirst.symm.trans hsome
  | some found =>
    obtain ⟨p, taken, rest⟩ := found
    exact ⟨p, taken, rest, hfirst, fun q hq taken' rest' h' =>
      utf8Length_le_of_prefix (Pattern.prefix_of_first? hfirst hq h')⟩

/-- Skipped texts and spellings of the tokens make up a text that begins at an offset; the last token stands at its
end. -/
inductive Partition : Nat → List Char → List Token → Prop where
  | done {offset gap} (skipped : Skipped gap []) : Partition offset gap [.eof (offset + utf8Length gap)]
  | token {offset gap text rest t ts} (skipped : Skipped gap (text ++ rest)) (spelled : t.Spells text)
      (nonempty : text ≠ []) (start : t.span.start = offset + utf8Length gap)
      (stop : t.span.stop = offset + utf8Length gap + utf8Length text) (more : Partition t.span.stop rest ts) :
      Partition offset (gap ++ (text ++ rest)) (t :: ts)

/-- More may be skipped in front. -/
theorem Partition.skip {offset : Nat} {taken rest : List Char} {tokens : List Token}
    (h : Partition (offset + utf8Length taken) rest tokens)
    (hs : ∀ {gap behind}, rest = gap ++ behind → Skipped gap behind → Skipped (taken ++ gap) behind) :
    Partition offset (taken ++ rest) tokens := by
  cases h with
  | done skipped =>
    have := @Partition.done offset _ (hs (List.append_nil rest).symm skipped)
    rwa [Source.utf8Length_append, ← Nat.add_assoc] at this
  | token skipped spelled nonempty start stop more =>
    rw [← List.append_assoc]
    refine .token (hs rfl skipped) spelled nonempty ?_ ?_ more <;> rw [Source.utf8Length_append, ← Nat.add_assoc]
    · exact start
    · exact stop

theorem partition_of_scan {offset : Nat} {cs : List Char} {tokens : List Token} (h : scan offset cs = .ok tokens) :
    Partition offset cs tokens := by
  fun_induction scan offset cs generalizing tokens with
  | case1 offset =>
    obtain rfl := Except.ok.inj h
    exact .done .nil
  | case2 => cases h
  | case3 offset c cs p taken rest hfirst _ stop =>
    rename_i ih
    simp only [bind_eq_ok, pure, Except.pure, Except.ok.injEq] at h
    obtain ⟨token, htoken, others, hothers, rfl⟩ := h
    have hsplit := Pattern.split?_of_first? hfirst
    obtain ⟨happend, hne⟩ := Pattern.append_of_split? hsplit
    have hrest := ih hothers
    rw [← happend]
    cases token with
    | none => exact hrest.skip fun hgap more => skipped_of_read? hsplit htoken hgap more
    | some t =>
      have hspan := Pattern.span_of_read? htoken
      have hspells := spells_of_read? (mem_table_of_first? hfirst) hsplit htoken
      refine @Partition.token offset [] taken rest t others .nil hspells hne ?_ ?_ ?_ <;> rw [hspan]
      · rfl
      · rfl
      · exact hrest

/-! ## what the partition says about spans -/

/-- Between two spans is nothing but what is skipped. -/
def Gap (source : List Char) (a b : Span) : Prop :=
  ∃ gap rest, Span.Marks source ⟨a.stop, b.start⟩ gap rest ∧ Skipped gap rest

section

variable {offset : Nat} {cs : List Char} {tokens : List Token}

theorem Partition.from_offset (h : Partition offset cs tokens) :
    ∀ t ∈ tokens, offset ≤ t.span.start ∧ t.span.start ≤ t.span.stop := by
  induction h with
  | done =>
    intro t ht
    obtain rfl := List.mem_singleton.1 ht
    exact ⟨Nat.le_add_right _ _, Nat.le_refl _⟩
  | token _ _ _ start stop _ ih =>
    intro t ht
    rcases List.mem_cons.1 ht with rfl | ht
    · omega
    · have := ih t ht
      omega

theorem Partition.increasing (h : Partition offset cs tokens) :
    tokens.Pairwise fun a b => a.span.start < b.span.start ∧ a.span.stop ≤ b.span.start := by
  induction h with
  | done => exact List.pairwise_singleton _ _
  | token _ _ nonempty start stop more ih =>
    refine List.pairwise_cons.2 ⟨fun t ht => ?_, ih⟩
    have := more.from_offset t ht
    have := utf8Length_pos nonempty
    omega

theorem Partition.spelled (h : Partition offset cs tokens) (before : List Char) (hbefore : offset = utf8Length before) :
    ∃ body, tokens = body ++ [.eof (offset + utf8Length cs)] ∧ ∀ t ∈ body, ∃ text rest,
      t.span.Marks (before ++ cs) text rest ∧ t.span.start < t.span.stop ∧ t.Spells text := by
  induction h generalizing before with
  | done => exact ⟨[], rfl, fun _ ht => absurd ht List.not_mem_nil⟩
  | @token offset gap text rest t ts _ spelled nonempty start stop more ih =>
    obtain ⟨body, rfl, hbody⟩ := ih (before ++ gap ++ text) (by simp [stop, hbefore, Nat.add_assoc])
    have hpos := utf8Length_pos nonempty
    refine ⟨t :: body, ?_, fun u hu => ?_⟩
    · simp [stop, Nat.add_assoc]
    · rcases List.mem_cons.1 hu with rfl | hu
      · exact ⟨text, rest, ⟨before ++ gap, by simp, by simp [start, hbefore], by simp [stop, hbefore, Nat.add_assoc]⟩,
          by omega, spelled⟩
      · obtain ⟨text', rest', hmarks, hrest⟩ := hbody u hu
        exact ⟨text', rest', by simpa using hmarks, hrest⟩

theorem Partition.gaps (h : Partition offset cs tokens) (before : List Char) (hbefore : offset = utf8Length before)
    {first : Span} (hfirst : first.stop = offset) : (first :: tokens.map (·.span)).IsChain (Gap (before ++ cs)) := by
  induction h generalizing before first with
  | @done offset gap skipped =>
    refine List.isChain_pair.2 ⟨gap, [], ⟨before, by simp, by simp [hfirst, hbefore], ?_⟩, skipped⟩
    simp [Token.eof, Span.point, hbefore]
  | @token offset gap text rest t ts skipped _ _ start stop more ih =>
    refine List.isChain_cons_cons.2 ⟨⟨gap, text ++ rest, ⟨before, by simp, by simp [hfirst, hbefore], ?_⟩, skipped⟩, ?_⟩
    · simp [start, hbefore]
    · have := ih (before ++ gap ++ text) (by simp [stop, hbefore, Nat.add_assoc]) rfl
      simpa using this

end

/-- How a source and its tokens hang together. -/
structure Partitioned (source : String) (tokens : List Token) : Prop where
  /-- The last token is the end of the source. Each other one covers a stretch of the source that is not empty, and the
  text there determines it. -/
  covered : ∃ body, tokens = body ++ [.eof source.utf8ByteSize] ∧ ∀ t ∈ body, ∃ text rest,
    t.span.Marks source.toList text rest ∧ t.span.start < t.span.stop ∧ t.Spells text
  increasing : tokens.Pairwise fun a b => a.span.start < b.span.start ∧ a.span.stop ≤ b.span.start
  /-- Nothing but skipped text stands in front of the first token and between neighbours. -/
  gaps : (Span.point 0 :: tokens.map (·.span)).IsChain (Gap source.toList)
  munches : ∀ cs, Reached source.toList cs → cs ≠ [] → Munches cs

/-- **The tokens of a source partition it by maximal munch.** -/
theorem tokenize_partitions {source : String} {tokens : List Token} (h : tokenize source = .ok tokens) :
    Partitioned source tokens := by
  have hpartition := partition_of_scan h
  refine ⟨?_, hpartition.increasing, ?_, fun cs hcs hne => munches_of_reached hcs h hne⟩
  · simpa [utf8ByteSize_eq] using hpartition.spelled [] rfl
  · simpa using hpartition.gaps [] rfl (show (Span.point 0).stop = 0 from rfl)

/-- Adjacent marks, a number that goes on behind its point, a comment of characters of two bytes and a name that begins
with a keyword. -/
theorem tokenize_partitions_comment : ∃ tokens, tokenize "x<=1.5//\u00e9\n\u00a0fnx" = .ok tokens ∧
    tokens.map (·.kind) = [.identifier, .lessEquals, .float, .identifier, .eof] ∧
    Partitioned "x<=1.5//\u00e9\n\u00a0fnx" tokens := by
  have hscan : Yields (fun tokens => tokens.map (·.kind) = [.identifier, .lessEquals, .float, .identifier, .eof])
      (tokenize "x<=1.5//\u00e9\n\u00a0fnx") := by
    decide +kernel
  obtain ⟨tokens, h, hkinds⟩ := yields_iff.1 hscan
  exact ⟨tokens, h, hkinds, tokenize_partitions h⟩

end LetFn
