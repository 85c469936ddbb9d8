import LetFn.Proofs.Grammar.Ending
import LetFn.Proofs.Grammar.Shape

/-!
# Items in parentheses

An item that begins with a block or a function definition ends where that closes, so that what follows it may be an item
of its own. The parser tells such an item by the shape of what it has read first, and parentheses leave a shape as it
is. So a block in parentheses ends its item as well: `({ f })(1)` is two items, where `({ f } = g)(1)` is one call.

* `Enclosed n ts us` — the tokens begin with a block or a function definition in parentheses, and `us` stand behind it;
* `GoesOn k` — a token of this kind makes another expression of the one before it, other than a semicolon.

Main facts: `Enclosed.of_reads`, `Enclosed.item`, `item_eq_expression_iff`.
-/

namespace LetFn.Grammar

variable {n left : Node} {ts us : List Token} {least : Power} {e : Token} {fuel : Nat}

/-- A block or a function definition in parentheses, with its tokens and those behind it. -/
inductive Enclosed : Node → List Token → List Token → Prop where
  | once {o c : Token} {n : Node} {span ts us} (opener : o.kind = .openParen)
      (first : front ts = .openCurly ∨ front ts = .fnWord) (inner : Reads (.opening n) ts (c :: us))
      (closer : c.kind = .closeParen) (span_eq : o.span.extend c.span = .ok span) :
      Enclosed { n with span } (o :: ts) us
  | again {o c : Token} {n : Node} {span ts us} (opener : o.kind = .openParen) (inner : Enclosed n ts (c :: us))
      (closer : c.kind = .closeParen) (span_eq : o.span.extend c.span = .ok span) :
      Enclosed { n with span } (o :: ts) us

/-- A token of this kind extends an expression, and does not only end it. -/
def GoesOn (k : Kind) : Prop := k ≠ .semicolon ∧ (standard.infixRule? k).isSome

instance (k : Kind) : Decidable (GoesOn k) := inferInstanceAs (Decidable (_ ∧ _))

/-! ## the shape of what is read -/

/-- A function definition is the only thing that begins with `fn`. -/
theorem Reads.tag_of_fnWord (h : Reads (.opening n) ts us) (hts : front ts = .fnWord) : n.tag = .functionDef := by
  cases h with
  | prototype => rfl
  | definition => rfl
  | primary kind =>
    rw [front_cons] at hts
    rw [hts] at kind
    exact absurd kind (by decide)
  | _ => simp_all

/-- Whatever extends an expression leaves neither a block nor a function definition. -/
theorem Reads.eq_of_extensions (h : Reads (.extensions least left n) ts us)
    (hn : n.tag = .block ∨ n.tag = .functionDef) : n = left ∧ us = ts := by
  generalize hφ : Phrase.extensions least left n = φ at h
  induction h generalizing left with
  | stop =>
    cases hφ
    exact ⟨rfl, rfl⟩
  | statement =>
    cases hφ
    exact absurd hn nofun
  | binary _ _ _ _ _ _ ih =>
    cases hφ
    obtain ⟨rfl, -⟩ := ih rfl
    exact absurd hn nofun
  | assignment _ _ _ _ _ _ ih =>
    cases hφ
    obtain ⟨rfl, -⟩ := ih rfl
    exact absurd hn nofun
  | call _ _ _ _ _ _ ih =>
    cases hφ
    obtain ⟨rfl, -⟩ := ih rfl
    exact absurd hn nofun
  | _ => cases hφ

/-- An expression that is a block or a function definition is read by its first rule alone. -/
theorem Reads.opening_of_expression (h : Reads (.expression least n) ts us)
    (hn : n.tag = .block ∨ n.tag = .functionDef) : Reads (.opening n) ts us := by
  cases h with
  | expression start more =>
    obtain ⟨rfl, rfl⟩ := more.eq_of_extensions hn
    exact start

/-- **Where a block or a function definition is read off other tokens, it stands in parentheses.** -/
theorem Enclosed.of_reads (h : Reads (.opening n) ts us) (hn : n.tag = .block ∨ n.tag = .functionDef)
    (hblock : front ts ≠ .openCurly) (hdef : front ts ≠ .fnWord) : Enclosed n ts us := by
  induction hlength : ts.length using Nat.strongRecOn generalizing n ts us with
  | ind length ih =>
    cases h with
    | @grouping o c x span ts _ opener inner closer span_eq =>
      have hinner := inner.opening_of_expression hn
      by_cases hfirst : front ts = .openCurly ∨ front ts = .fnWord
      · exact .once opener hfirst hinner closer span_eq
      · obtain ⟨hblock, hdef⟩ := not_or.1 hfirst
        exact .again opener (ih ts.length (hlength ▸ Nat.lt_succ_self _) hinner hn hblock hdef rfl) closer span_eq
    | block opener => exact absurd opener hblock
    | prototype fnWord => exact absurd fnWord hdef
    | definition fnWord => exact absurd fnWord hdef
    | _ => exact absurd hn nofun

theorem stops_closeParen {c : Token} (hc : c.kind = .closeParen) : Stops least (c :: us) := by
  intro power rule hrule
  rw [front_cons, hc] at hrule
  exact absurd hrule nofun

theorem Enclosed.reads (h : Enclosed n ts us) :
    Reads (.opening n) ts us ∧ (n.tag = .block ∨ n.tag = .functionDef) ∧ front ts = .openParen := by
  induction h with
  | once opener first inner closer span_eq =>
    have htag := first.imp (fun h => inner.tag_of_openCurly rfl h) inner.tag_of_fnWord
    exact ⟨.grouping opener (.expression inner (.stop (stops_closeParen closer))) closer span_eq, htag, opener⟩
  | again opener _ closer span_eq ih =>
    obtain ⟨inner, htag, -⟩ := ih
    exact ⟨.grouping opener (.expression inner (.stop (stops_closeParen closer))) closer span_eq, htag, opener⟩

/-! ## runs -/

/-- An expression is extended only by taking tokens. -/
theorem Reads.stops_or_shorter (h : Reads (.extensions least left n) ts us) :
    Stops least ts ∨ us.length < ts.length := by
  cases h with
  | stop stops => exact .inl stops
  | statement => exact .inr (Nat.lt_succ_self _)
  | binary _ _ right _ more =>
    have := right.length_add_le
    have := more.length_add_le
    exact .inr (by simp only [Phrase.least, List.length_cons] at *; omega)
  | assignment _ _ right _ more =>
    have := right.length_add_le
    have := more.length_add_le
    exact .inr (by simp only [Phrase.least, List.length_cons] at *; omega)
  | call _ inner _ _ more =>
    have := inner.length_add_le
    have := more.length_add_le
    exact .inr (by simp only [Phrase.least, List.length_cons] at *; omega)

/-- At the lowest power an expression goes on where a token goes on with it. -/
theorem extensions_ne (he : e.kind = .eof) (h : GoesOn (front us)) :
    standard.extensions fuel .lowest n ⟨us, e⟩ ≠ .ok (n, ⟨us, e⟩) := by
  intro hsame
  obtain ⟨-, hreads⟩ := (Sound.all fuel).extensions (c := ⟨us, e⟩) he hsame
  obtain ⟨⟨power, rule⟩, hrule⟩ := Option.isSome_iff_exists.1 h.2
  rcases hreads.stops_or_shorter with hstops | hlt
  · exact absurd (hstops power rule hrule) (Nat.not_lt_zero _)
  · exact absurd hlt (Nat.lt_irrefl _)

theorem stops_of_not_goesOn (h : ¬ GoesOn (front us)) (hsemi : front us ≠ .semicolon) : Stops least us := by
  intro power rule hrule
  exact absurd ⟨hsemi, Option.isSome_of_eq_some hrule⟩ h

section

variable (he : e.kind = .eof) (hf : 16 * ts.length + 2 ≤ fuel)

include he hf

theorem Enclosed.opening (h : Enclosed n ts us) : standard.opening fuel ⟨ts, e⟩ = .ok (n, ⟨us, e⟩) := by
  obtain ⟨hreads, -, -⟩ := h.reads
  obtain ⟨f, rfl⟩ : ∃ f, fuel = f + 1 := ⟨fuel - 1, by omega⟩
  exact opening_eq_ok he (hreads.runs he (by simp only [Phrase.depth]; omega))

/-- An expression goes on from a block in parentheses. -/
theorem Enclosed.expression (h : Enclosed n ts us) :
    standard.expression (fuel + 1) .lowest ⟨ts, e⟩ = standard.extensions fuel .lowest n ⟨us, e⟩ := by
  rw [Grammar.expression, h.opening he hf]
  rfl

/-- An item ends behind a block in parentheses, as it does behind a block, but for a semicolon. -/
theorem Enclosed.item (h : Enclosed n ts us) : standard.item (fuel + 1) ⟨ts, e⟩ =
    if front us = .semicolon then standard.extensions fuel .lowest n ⟨us, e⟩ else .ok (n, ⟨us, e⟩) := by
  obtain ⟨-, htag, -⟩ := h.reads
  rw [Grammar.item, h.opening he hf]
  simp only [bind, Except.bind, Cursor.kind_mk he]
  by_cases hsemi : front us = .semicolon
  · rw [if_pos hsemi, if_neg fun h => h.2 hsemi]
  · rw [if_neg hsemi, if_pos ⟨htag, hsemi⟩]
    rfl

end

/-- Items that begin otherwise are expressions. -/
theorem item_eq_expression (he : e.kind = .eof) (hblock : front ts ≠ .openCurly) (hdef : front ts ≠ .fnWord)
    (hnone : ∀ n us, ¬ Enclosed n ts us) :
    standard.item (fuel + 1) ⟨ts, e⟩ = standard.expression (fuel + 1) .lowest ⟨ts, e⟩ := by
  unfold Grammar.item Grammar.expression
  cases hopening : standard.opening fuel ⟨ts, e⟩ with
  | error f => rfl
  | ok r =>
    obtain ⟨n, us, e'⟩ := r
    obtain ⟨-, hreads⟩ := (Sound.all fuel).opening (c := ⟨ts, e⟩) he hopening
    have htag : ¬ (n.tag = .block ∨ n.tag = .functionDef) := fun hn =>
      hnone n us (.of_reads hreads hn hblock hdef)
    exact if_neg fun h => htag h.1

/-- **An item is read as an expression is**, unless it begins with a block or a function definition: with one of its
own, or with one in parentheses behind which an expression would go on. That one is the whole item then, and the
expression goes on from it. Neither comes to the bound on the depth of calls. -/
theorem item_eq_expression_iff {length : Nat} (hblock : front ts ≠ .openCurly) (hdef : front ts ≠ .fnWord)
    (hf : 16 * ts.length + 3 ≤ fuel + 1) :
    (standard.item (fuel + 1) ⟨ts, .eof length⟩ ≠ .error .unfinished ∧
      standard.expression (fuel + 1) .lowest ⟨ts, .eof length⟩ ≠ .error .unfinished) ∧
    (standard.item (fuel + 1) ⟨ts, .eof length⟩ = standard.expression (fuel + 1) .lowest ⟨ts, .eof length⟩ ↔
      ∀ n us, Enclosed n ts us → ¬ GoesOn (front us)) ∧
    ∀ n us, Enclosed n ts us → GoesOn (front us) →
      standard.item (fuel + 1) ⟨ts, .eof length⟩ = .ok (n, ⟨us, .eof length⟩) ∧
      standard.expression (fuel + 1) .lowest ⟨ts, .eof length⟩ =
        standard.extensions fuel .lowest n ⟨us, .eof length⟩ := by
  have he : (Token.eof length).kind = .eof := rfl
  have hm : ([] : List Token).headD (.eof length) = .eof length := rfl
  have hblind := Blind.all he hm (fuel + 1) (fuel + 1)
  have hbound : 16 * ts.length + 3 ≤ min (fuel + 1) (fuel + 1) := by omega
  have hf' : 16 * ts.length + 2 ≤ fuel := by omega
  refine ⟨⟨(hblind.item hbound).ne_unfinished, (hblind.expression hbound).ne_unfinished⟩,
    ⟨fun hsame n us h hgo => ?_, fun hends => ?_⟩, fun n us h hgo => ?_⟩
  · rw [h.item he hf', h.expression he hf', if_neg hgo.1] at hsame
    exact extensions_ne he hgo hsame.symm
  · by_cases hex : ∃ n us, Enclosed n ts us
    · obtain ⟨n, us, h⟩ := hex
      rw [h.item he hf', h.expression he hf']
      split
      · rfl
      · next hsemi => exact (extensions_stop he (by omega) (stops_of_not_goesOn (hends n us h) hsemi)).symm
    · exact item_eq_expression he hblock hdef fun n us h => hex ⟨n, us, h⟩
  · rw [h.item he hf', h.expression he hf', if_neg hgo.1]
    exact ⟨rfl, rfl⟩

/-- Of `({ f })(1)` the item is the block alone, while the expression is the call. -/
theorem enclosed_block_ends_item :
    let ts : List Token := [(.openParen, none), (.openCurly, none), (.identifier, some (.str "f")), (.closeCurly, none),
      (.closeParen, none), (.openParen, none), (.integer, some (.int 1)), (.closeParen, none), (.eof, none)].mapIdx
        fun i (kind, value) => ⟨kind, value, ⟨i, i + 1⟩⟩
    front ts ≠ .openCurly ∧ front ts ≠ .fnWord ∧ (∃ n us, Enclosed n ts us ∧ GoesOn (front us)) ∧
      standard.item 200 ⟨ts, .eof 9⟩ ≠ standard.expression 200 .lowest ⟨ts, .eof 9⟩ := by
  intro ts
  have hblock : front ts ≠ .openCurly := nofun
  have hdef : front ts ≠ .fnWord := nofun
  have hopening : Yields (fun r => r.1.tag = .block ∧ r.2.kind = .openParen) (standard.opening 199 ⟨ts, .eof 9⟩) := by
    decide +kernel
  obtain ⟨⟨n, c⟩, hn, htag, hkind⟩ := yields_iff.1 hopening
  obtain ⟨heof, hreads⟩ := (Sound.all 199).opening (c := ⟨ts, .eof 9⟩) rfl hn
  have henclosed : Enclosed n ts c.rest := .of_reads hreads (.inl htag) hblock hdef
  have hgoes : GoesOn (front c.rest) := by
    rw [← Cursor.kind_eq_front (heof ▸ rfl), hkind]
    decide
  refine ⟨hblock, hdef, ⟨n, c.rest, henclosed, hgoes⟩, fun hsame => ?_⟩
  exact (item_eq_expression_iff hblock hdef (by decide)).2.1.1 hsame n c.rest henclosed hgoes

end LetFn.Grammar
