import LetFn.Proofs.Grammar.Running

/-!
# The end of the tokens

A token list may end with the end of the source or stop short of it: a cursor behind the last token stands at the end
of the source anyway. It makes no difference, since no rule takes the end and nothing is read behind it. Two runs are
compared, one before some tokens and one before the same tokens with more of them behind. They go in step through every
function of the parser, whether it succeeds or fails, as long as the tokens behind begin with the end.

The second run may also go deeper. As both bounds on the depth of calls are large enough for the tokens before the end,
neither run comes to its bound, and the runs cannot be told apart by them.

* `Cursor.before c more` — the cursor with more tokens behind those that are left;
* `InStep e more length x y` — two runs with one outcome, which left fewer than `length` tokens before the end;
* `Blind e more fuel fuel'` — the functions of the parser go in step within two bounds.

Main facts: `Blind.all`, `blind_items`, `parse_ne_unfinished` (the bound that a parse begins with is never reached),
`parse_append_eof`.
-/

namespace LetFn

namespace Cursor

/-- The cursor with more tokens behind those that are left. -/
def before (c : Cursor) (more : List Token) : Cursor := ⟨c.rest ++ more, c.eof⟩

section

variable {e : Token} {more ts : List Token}

/-- What stands at the cursor is the same if the tokens behind begin with the end. -/
theorem current_append (hm : more.headD e = e) : (⟨ts ++ more, e⟩ : Cursor).current = (⟨ts, e⟩ : Cursor).current := by
  cases ts with
  | nil => exact hm
  | cons t us => rfl

end

end Cursor

namespace Grammar

/-- Behind the last token the end goes on. -/
theorem front_append {e : Token} {more ts : List Token} (he : e.kind = .eof) (hm : more.headD e = e) :
    front (ts ++ more) = front ts := by
  rw [← Cursor.kind_mk he, ← Cursor.kind_mk he, Cursor.kind, Cursor.current_append hm, Cursor.kind]

/-! ## runs in step -/

section

variable {α β : Type} {e : Token} {more : List Token} {length length' : Nat}

/-- Both runs fail in the same way, and not because they went too deep, or both give the same result and leave the same
tokens, fewer than `length` of them, the second run with more tokens behind them. -/
def InStep (e : Token) (more : List Token) (length : Nat) (x y : Except Failure (α × Cursor)) : Prop :=
  match x with
  | .ok (a, c) => c.eof = e ∧ c.rest.length < length ∧ y = .ok (a, c.before more)
  | .error f => f ≠ .unfinished ∧ y = .error f

theorem InStep.ne_unfinished {x y : Except Failure (α × Cursor)} (h : InStep e more length x y) :
    x ≠ .error .unfinished := by
  rintro rfl
  exact h.1 rfl

theorem InStep.bind {x y : Except Failure (α × Cursor)} {f g : α × Cursor → Except Failure (β × Cursor)}
    (h : InStep e more length x y)
    (hf : ∀ a ts, ts.length < length → InStep e more length' (f (a, ⟨ts, e⟩)) (g (a, ⟨ts ++ more, e⟩))) :
    InStep e more length' (x >>= f) (y >>= g) := by
  cases x with
  | error failure =>
    obtain ⟨hne, rfl⟩ := h
    exact ⟨hne, rfl⟩
  | ok r =>
    obtain ⟨a, ts, eof⟩ := r
    obtain ⟨rfl, hlt, rfl⟩ := h
    exact hf a ts hlt

/-- What follows may end without a cursor. -/
theorem InStep.bind_eq {x y : Except Failure (α × Cursor)} {f g : α × Cursor → Except Failure β}
    (h : InStep e more length x y)
    (hf : ∀ a ts, ts.length < length →
      f (a, ⟨ts, e⟩) ≠ .error .unfinished ∧ g (a, ⟨ts ++ more, e⟩) = f (a, ⟨ts, e⟩)) :
    (x >>= f) ≠ .error .unfinished ∧ (y >>= g) = (x >>= f) := by
  cases x with
  | error failure =>
    obtain ⟨hne, rfl⟩ := h
    exact ⟨fun heq => hne (Except.error.inj heq), rfl⟩
  | ok r =>
    obtain ⟨a, ts, eof⟩ := r
    obtain ⟨rfl, hlt, rfl⟩ := h
    exact hf a ts hlt

/-- Spans are put together without a look at the tokens. -/
theorem InStep.extend {a b : Span} {f g : Span → Except Failure (β × Cursor)}
    (hf : ∀ span, InStep e more length (f span) (g span)) :
    InStep e more length (liftM (a.extend b) >>= f) (liftM (a.extend b) >>= g) := by
  cases a.extend b with
  | error fault => exact ⟨nofun, rfl⟩
  | ok span => exact hf span

theorem InStep.mono {x y : Except Failure (α × Cursor)} (h : InStep e more length x y) (hle : length ≤ length') :
    InStep e more length' x y := by
  cases x with
  | error failure => exact h
  | ok r =>
    obtain ⟨heof, hlt, hy⟩ := h
    exact ⟨heof, Nat.lt_of_lt_of_le hlt hle, hy⟩

theorem inStep_pure {a : α} {ts : List Token} (h : ts.length < length) :
    InStep e more length (pure (a, ⟨ts, e⟩)) (pure (a, ⟨ts ++ more, e⟩)) := ⟨rfl, h, rfl⟩

theorem inStep_throw {error : Error} :
    InStep (α := α) e more length (throw (.error error)) (throw (.error error)) := ⟨nofun, rfl⟩

/-- In step the second run is the first one with more tokens behind what is left. -/
theorem InStep.eq_map {x y : Except Failure (α × Cursor)} (h : InStep e more length x y) :
    y = x.map fun r => (r.1, r.2.before more) := by
  cases x with
  | error failure => exact h.2
  | ok r => exact h.2.2

variable {ts : List Token} {k : Kind}

/-- A token that is taken is not the end. -/
theorem exists_cons_of_front (hk : k ≠ .eof) (h : front ts = k) : ∃ t us, ts = t :: us ∧ t.kind = k := by
  cases ts with
  | nil => exact absurd h.symm hk
  | cons t us => exact ⟨t, us, rfl, h⟩

theorem inStep_expect (he : e.kind = .eof) (hm : more.headD e = e) (hk : k ≠ .eof) :
    InStep e more ts.length (liftM ((⟨ts, e⟩ : Cursor).expect k)) (liftM ((⟨ts ++ more, e⟩ : Cursor).expect k)) := by
  unfold Cursor.expect Cursor.unexpected
  rw [Cursor.kind_mk he, Cursor.kind_mk he, front_append he hm, Cursor.current_append hm]
  by_cases h : front ts = k
  · obtain ⟨t, us, rfl, -⟩ := exists_cons_of_front hk h
    rw [if_pos h, if_pos h]
    exact inStep_pure (Nat.lt_succ_self _)
  · rw [if_neg h, if_neg h]
    exact inStep_throw

theorem inStep_expectDetailed (he : e.kind = .eof) (hm : more.headD e = e) (hk : k ≠ .eof) {m : String} :
    InStep e more ts.length (liftM ((⟨ts, e⟩ : Cursor).expectDetailed k m))
      (liftM ((⟨ts ++ more, e⟩ : Cursor).expectDetailed k m)) := by
  unfold Cursor.expectDetailed Cursor.unexpectedDetailed
  rw [Cursor.kind_mk he, Cursor.kind_mk he, front_append he hm, Cursor.current_append hm]
  by_cases h : front ts = k
  · obtain ⟨t, us, rfl, -⟩ := exists_cons_of_front hk h
    rw [if_pos h, if_pos h]
    exact inStep_pure (Nat.lt_succ_self _)
  · rw [if_neg h, if_neg h]
    exact inStep_throw

end

/-! ## the functions of the parser -/

/-- Within two bounds that suffice for the tokens before the end, the functions of the parser go in step. What takes a
token before it ends leaves fewer tokens. -/
structure Blind (e : Token) (more : List Token) (fuel fuel' : Nat) : Prop where
  expression : ∀ {least ts}, 16 * ts.length + 3 ≤ min fuel fuel' → InStep e more ts.length
    (standard.expression fuel least ⟨ts, e⟩) (standard.expression fuel' least ⟨ts ++ more, e⟩)
  item : ∀ {ts}, 16 * ts.length + 3 ≤ min fuel fuel' → InStep e more ts.length
    (standard.item fuel ⟨ts, e⟩) (standard.item fuel' ⟨ts ++ more, e⟩)
  opening : ∀ {ts}, 16 * ts.length + 2 ≤ min fuel fuel' → InStep e more ts.length
    (standard.opening fuel ⟨ts, e⟩) (standard.opening fuel' ⟨ts ++ more, e⟩)
  extensions : ∀ {least left ts}, 16 * ts.length + 1 ≤ min fuel fuel' → InStep e more (ts.length + 1)
    (standard.extensions fuel least left ⟨ts, e⟩) (standard.extensions fuel' least left ⟨ts ++ more, e⟩)
  apply : ∀ {rule ts}, standard.prefixRule? (front ts) = some rule → 16 * ts.length + 1 ≤ min fuel fuel' →
    InStep e more ts.length (standard.apply fuel rule ⟨ts, e⟩) (standard.apply fuel' rule ⟨ts ++ more, e⟩)
  extend : ∀ {rule power left ts}, standard.infixRule? (front ts) = some (power, rule) →
    16 * ts.length ≤ min fuel fuel' → InStep e more ts.length
    (standard.extend fuel rule power left ⟨ts, e⟩) (standard.extend fuel' rule power left ⟨ts ++ more, e⟩)
  blockItems : ∀ {ts}, 16 * ts.length + 4 ≤ min fuel fuel' → InStep e more (ts.length + 1)
    (standard.blockItems fuel ⟨ts, e⟩) (standard.blockItems fuel' ⟨ts ++ more, e⟩)
  arguments : ∀ {ts}, 16 * ts.length + 4 ≤ min fuel fuel' → InStep e more (ts.length + 1)
    (standard.arguments fuel ⟨ts, e⟩) (standard.arguments fuel' ⟨ts ++ more, e⟩)
  parameters : ∀ {ts}, 16 * ts.length + 1 ≤ min fuel fuel' → InStep e more (ts.length + 1)
    (standard.parameters fuel ⟨ts, e⟩) (standard.parameters fuel' ⟨ts ++ more, e⟩)

section

variable {e : Token} {more ts : List Token} {fuel fuel' : Nat}

/-- A rule that goes on with an expression stands before a token. -/
theorem exists_cons_of_infixRule? {power : Power} {rule : InfixRule}
    (h : standard.infixRule? (front ts) = some (power, rule)) : ∃ t us, ts = t :: us := by
  cases ts with
  | nil => exact absurd h nofun
  | cons t us => exact ⟨t, us, rfl⟩

/-- The bounds leave no room for a call that is not followed. -/
theorem blind_zero (h : min fuel fuel' = 0) : Blind e more fuel fuel' where
  expression hf := by omega
  item hf := by omega
  opening hf := by omega
  extensions hf := by omega
  apply _ hf := by omega
  extend hrule hf := by
    obtain ⟨t, us, rfl⟩ := exists_cons_of_infixRule? hrule
    rw [List.length_cons] at hf
    omega
  blockItems hf := by omega
  arguments hf := by omega
  parameters hf := by omega

variable (he : e.kind = .eof) (hm : more.headD e = e)

include he hm

/-- A type is one token, in the standard grammar. -/
theorem inStep_typeExpression (hf : 2 ≤ min fuel fuel') : InStep e more ts.length
    (standard.typeExpression fuel ⟨ts, e⟩) (standard.typeExpression fuel' ⟨ts ++ more, e⟩) := by
  obtain ⟨f, rfl⟩ : ∃ f, fuel = f + 2 := ⟨fuel - 2, by omega⟩
  obtain ⟨f', rfl⟩ : ∃ f, fuel' = f + 2 := ⟨fuel' - 2, by omega⟩
  unfold Grammar.typeExpression Cursor.unexpectedDetailed
  rw [Cursor.kind_mk he, Cursor.kind_mk he, front_append he hm, Cursor.current_append hm]
  split
  · next rule hrule =>
    obtain ⟨-, rfl⟩ := typeRule?_eq_some_iff.1 hrule
    simp only [Grammar.apply]
    refine (inStep_expect he hm (by decide)).bind ?_
    intro t us hlt
    exact inStep_pure hlt
  · exact inStep_throw

variable (ih : Blind e more fuel fuel')

include ih

omit he hm in
theorem Blind.expression_succ {least : Power} (hf : 16 * ts.length + 3 ≤ min (fuel + 1) (fuel' + 1)) :
    InStep e more ts.length (standard.expression (fuel + 1) least ⟨ts, e⟩)
      (standard.expression (fuel' + 1) least ⟨ts ++ more, e⟩) := by
  simp only [Grammar.expression]
  refine (ih.opening (by omega)).bind ?_
  intro left us hlt
  exact (ih.extensions (by omega)).mono hlt

theorem Blind.item_succ (hf : 16 * ts.length + 3 ≤ min (fuel + 1) (fuel' + 1)) :
    InStep e more ts.length (standard.item (fuel + 1) ⟨ts, e⟩) (standard.item (fuel' + 1) ⟨ts ++ more, e⟩) := by
  simp only [Grammar.item]
  refine (ih.opening (by omega)).bind ?_
  intro left us hlt
  simp only [Cursor.kind_mk he, front_append he hm]
  split
  · exact inStep_pure hlt
  · exact (ih.extensions (by omega)).mono hlt

theorem Blind.opening_succ (hf : 16 * ts.length + 2 ≤ min (fuel + 1) (fuel' + 1)) :
    InStep e more ts.length (standard.opening (fuel + 1) ⟨ts, e⟩) (standard.opening (fuel' + 1) ⟨ts ++ more, e⟩) := by
  simp only [Grammar.opening, Cursor.kind_mk he, front_append he hm, Cursor.current_append hm]
  split
  · next rule hrule => exact ih.apply hrule (by omega)
  · exact inStep_throw

theorem Blind.extensions_succ {least : Power} {left : Node} (hf : 16 * ts.length + 1 ≤ min (fuel + 1) (fuel' + 1)) :
    InStep e more (ts.length + 1) (standard.extensions (fuel + 1) least left ⟨ts, e⟩)
      (standard.extensions (fuel' + 1) least left ⟨ts ++ more, e⟩) := by
  simp only [Grammar.extensions, Cursor.kind_mk he, front_append he hm]
  split
  · exact inStep_pure (Nat.lt_succ_self _)
  · next power rule hrule =>
    split
    · exact inStep_pure (Nat.lt_succ_self _)
    · refine (ih.extend hrule (by omega)).bind ?_
      intro left us hlt
      dsimp only
      split
      · exact inStep_pure (by omega)
      · exact (ih.extensions (by omega)).mono (by omega)

omit he hm in
/-- An infix operator and its right operand. -/
theorem Blind.operation {least : Power} {operator : Token} {left : Node} {us : List Token}
    (hf : 16 * us.length + 3 ≤ min fuel fuel') : InStep e more us.length
      (do
        let (right, c) ← standard.expression fuel least ⟨us, e⟩
        let span ← left.span.extend right.span
        return (({ span, form := .infixOp operator left right } : Node), c))
      (do
        let (right, c) ← standard.expression fuel' least ⟨us ++ more, e⟩
        let span ← left.span.extend right.span
        return (({ span, form := .infixOp operator left right } : Node), c)) := by
  refine (ih.expression hf).bind ?_
  intro right vs hlt
  refine .extend ?_
  intro span
  exact inStep_pure hlt

theorem Blind.extend_succ {rule : InfixRule} {power : Power} {left : Node}
    (hrule : standard.infixRule? (front ts) = some (power, rule))
    (hf : 16 * ts.length ≤ min (fuel + 1) (fuel' + 1)) :
    InStep e more ts.length (standard.extend (fuel + 1) rule power left ⟨ts, e⟩)
      (standard.extend (fuel' + 1) rule power left ⟨ts ++ more, e⟩) := by
  obtain ⟨t, us, rfl⟩ := exists_cons_of_infixRule? hrule
  rw [List.length_cons] at hf ⊢
  cases rule with
  | binary =>
    have hbound : 16 * us.length + 3 ≤ min fuel fuel' := by omega
    exact (ih.operation hbound).mono (Nat.le_succ _)
  | assignment =>
    have hbound : 16 * us.length + 3 ≤ min fuel fuel' := by omega
    exact (ih.operation hbound).mono (Nat.le_succ _)
  | call =>
    simp only [Grammar.extend]
    have hbound : 16 * us.length + 4 ≤ min fuel fuel' := by omega
    refine (ih.arguments hbound).bind ?_
    intro arguments vs hvs
    refine (inStep_expect he hm (by decide)).bind ?_
    intro closer ws hws
    refine .extend ?_
    intro span
    exact inStep_pure (by omega)
  | statement =>
    simp only [Grammar.extend]
    refine .extend ?_
    intro span
    exact inStep_pure (Nat.lt_succ_self _)

theorem Blind.blockItems_succ (hf : 16 * ts.length + 4 ≤ min (fuel + 1) (fuel' + 1)) :
    InStep e more (ts.length + 1) (standard.blockItems (fuel + 1) ⟨ts, e⟩)
      (standard.blockItems (fuel' + 1) ⟨ts ++ more, e⟩) := by
  simp only [Grammar.blockItems, Cursor.hasTokens, Cursor.unexpected, Cursor.kind_mk he, front_append he hm,
    Cursor.current_append hm]
  split
  · exact inStep_pure (Nat.lt_succ_self _)
  · split
    · exact inStep_throw
    · refine (ih.item (by omega)).bind ?_
      intro first us hus
      refine (ih.blockItems (by omega)).bind ?_
      intro others vs hvs
      exact inStep_pure (by omega)

theorem Blind.arguments_succ (hf : 16 * ts.length + 4 ≤ min (fuel + 1) (fuel' + 1)) :
    InStep e more (ts.length + 1) (standard.arguments (fuel + 1) ⟨ts, e⟩)
      (standard.arguments (fuel' + 1) ⟨ts ++ more, e⟩) := by
  simp only [Grammar.arguments, Cursor.hasTokens, Cursor.unexpected, Cursor.kind_mk he, front_append he hm,
    Cursor.current_append hm]
  split
  · exact inStep_pure (Nat.lt_succ_self _)
  · split
    · exact inStep_throw
    · refine (ih.expression (by omega)).bind ?_
      intro first us hus
      simp only [Cursor.kind_mk he, front_append he hm, Cursor.current_append hm]
      split
      · next hcomma =>
        obtain ⟨t, vs, rfl, -⟩ := exists_cons_of_front (by decide) hcomma
        rw [List.length_cons] at hus
        have hbound : 16 * vs.length + 4 ≤ min fuel fuel' := by omega
        refine (ih.arguments hbound).bind ?_
        intro others ws hws
        exact inStep_pure (by omega)
      · exact inStep_pure (by omega)
      · exact inStep_throw

theorem Blind.parameters_succ (hf : 16 * ts.length + 1 ≤ min (fuel + 1) (fuel' + 1)) :
    InStep e more (ts.length + 1) (standard.parameters (fuel + 1) ⟨ts, e⟩)
      (standard.parameters (fuel' + 1) ⟨ts ++ more, e⟩) := by
  simp only [Grammar.parameters, Cursor.kind_mk he, front_append he hm]
  split
  · exact inStep_pure (Nat.lt_succ_self _)
  · refine (inStep_expectDetailed he hm (by decide)).bind ?_
    intro name us hus
    refine (inStep_expect he hm (by decide)).bind ?_
    intro colon vs hvs
    refine (inStep_typeExpression he hm (by omega)).bind ?_
    intro type ws hws
    simp only [Cursor.kind_mk he, front_append he hm]
    split
    · next hcomma =>
      obtain ⟨t, xs, rfl, -⟩ := exists_cons_of_front (by decide) hcomma
      rw [List.length_cons] at hws
      have hbound : 16 * xs.length + 1 ≤ min fuel fuel' := by omega
      refine (ih.parameters hbound).bind ?_
      intro others ys hys
      exact inStep_pure (by omega)
    · exact inStep_pure (by omega)

theorem Blind.apply_block (hf : 16 * ts.length + 1 ≤ min (fuel + 1) (fuel' + 1)) :
    InStep e more ts.length (standard.apply (fuel + 1) .block ⟨ts, e⟩)
      (standard.apply (fuel' + 1) .block ⟨ts ++ more, e⟩) := by
  simp only [Grammar.apply]
  refine (inStep_expect he hm (by decide)).bind ?_
  intro opener us hus
  refine (ih.blockItems (by omega)).bind ?_
  intro items vs hvs
  refine (inStep_expect he hm (by decide)).bind ?_
  intro closer ws hws
  refine .extend ?_
  intro span
  exact inStep_pure (by omega)

theorem Blind.apply_functionDef (hf : 16 * ts.length + 1 ≤ min (fuel + 1) (fuel' + 1)) :
    InStep e more ts.length (standard.apply (fuel + 1) .functionDef ⟨ts, e⟩)
      (standard.apply (fuel' + 1) .functionDef ⟨ts ++ more, e⟩) := by
  simp only [Grammar.apply]
  refine (inStep_expect he hm (by decide)).bind ?_
  intro word us hus
  refine (inStep_expectDetailed he hm (by decide)).bind ?_
  intro name vs hvs
  refine (inStep_expect he hm (by decide)).bind ?_
  intro opener ws hws
  refine (ih.parameters (by omega)).bind ?_
  intro params xs hxs
  refine (inStep_expect he hm (by decide)).bind ?_
  intro closer ys hys
  refine (inStep_expect he hm (by decide)).bind ?_
  intro arrow zs hzs
  refine (inStep_typeExpression he hm (by omega)).bind ?_
  intro result rs hrs
  simp only [Cursor.kind_mk he, front_append he hm]
  split
  · next hbrace =>
    refine (ih.apply (by rw [hbrace]; rfl) (by omega)).bind ?_
    intro body ss hss
    refine .extend ?_
    intro span
    exact inStep_pure (by omega)
  · refine .extend ?_
    intro span
    exact inStep_pure (by omega)

theorem Blind.apply_variableDef (hf : 16 * ts.length + 1 ≤ min (fuel + 1) (fuel' + 1)) :
    InStep e more ts.length (standard.apply (fuel + 1) .variableDef ⟨ts, e⟩)
      (standard.apply (fuel' + 1) .variableDef ⟨ts ++ more, e⟩) := by
  simp only [Grammar.apply]
  refine (inStep_expect he hm (by decide)).bind ?_
  intro word us hus
  refine (inStep_expectDetailed he hm (by decide)).bind ?_
  intro name vs hvs
  refine (inStep_expectDetailed he hm (by decide)).bind ?_
  intro colon ws hws
  refine (inStep_typeExpression he hm (by omega)).bind ?_
  intro type xs hxs
  simp only [Cursor.kind_mk he, front_append he hm]
  split
  · next hequals =>
    obtain ⟨t, ys, rfl, -⟩ := exists_cons_of_front (by decide) hequals
    rw [List.length_cons] at hxs
    have hbound : 16 * ys.length + 3 ≤ min fuel fuel' := by omega
    refine (ih.expression hbound).bind ?_
    intro initializer zs hzs
    refine .extend ?_
    intro span
    exact inStep_pure (by omega)
  · refine .extend ?_
    intro span
    exact inStep_pure (by omega)

/-- The rules that begin with any token of their kind take it before all else. -/
theorem Blind.apply_succ {rule : PrefixRule} (hrule : standard.prefixRule? (front ts) = some rule)
    (hf : 16 * ts.length + 1 ≤ min (fuel + 1) (fuel' + 1)) :
    InStep e more ts.length (standard.apply (fuel + 1) rule ⟨ts, e⟩)
      (standard.apply (fuel' + 1) rule ⟨ts ++ more, e⟩) := by
  obtain _ | ⟨t, us⟩ := ts
  · exact absurd hrule nofun
  rcases prefixRule?_eq_some_iff.1 hrule with ⟨-, rfl⟩ | ⟨-, rfl⟩ | ⟨-, rfl⟩ | ⟨-, rfl⟩ | ⟨-, rfl⟩ | ⟨-, rfl⟩
  · simp only [Grammar.apply, Cursor.unexpected, Cursor.kind_mk he, front_append he hm, Cursor.current_append hm]
    split
    case h_5 => exact inStep_throw
    all_goals exact inStep_pure (Nat.lt_succ_self _)
  · simp only [Grammar.apply, Cursor.current_append hm]
    rw [List.length_cons] at hf ⊢
    have hbound : 16 * us.length + 3 ≤ min fuel fuel' := by omega
    refine (ih.expression hbound).bind ?_
    intro operand vs hvs
    refine .extend ?_
    intro span
    exact inStep_pure (by omega)
  · simp only [Grammar.apply, Cursor.current_append hm]
    rw [List.length_cons] at hf ⊢
    have hbound : 16 * us.length + 3 ≤ min fuel fuel' := by omega
    refine (ih.expression hbound).bind ?_
    intro inner vs hvs
    refine (inStep_expectDetailed he hm (by decide)).bind ?_
    intro closer ws hws
    refine .extend ?_
    intro span
    exact inStep_pure (by omega)
  · exact ih.apply_block he hm hf
  · exact ih.apply_functionDef he hm hf
  · exact ih.apply_variableDef he hm hf

omit ih

/-- **Nothing that stands behind the end is read**, whatever the bounds on the depth of calls are, if both suffice. -/
theorem Blind.all : ∀ fuel fuel', Blind e more fuel fuel'
  | 0, _ => blind_zero (Nat.zero_min _)
  | _ + 1, 0 => blind_zero (Nat.min_zero _)
  | fuel + 1, fuel' + 1 =>
    have ih := Blind.all fuel fuel'
    { expression := ih.expression_succ
      item := ih.item_succ he hm
      opening := ih.opening_succ he hm
      extensions := ih.extensions_succ he hm
      apply := ih.apply_succ he hm
      extend := ih.extend_succ he hm
      blockItems := ih.blockItems_succ he hm
      arguments := ih.arguments_succ he hm
      parameters := ih.parameters_succ he hm }

/-- The items of a program are those before the end, and no bound keeps them from being read. -/
theorem blind_items (hf : 16 * ts.length + 4 ≤ min fuel fuel') :
    standard.items fuel ⟨ts, e⟩ ≠ .error .unfinished ∧
      standard.items fuel' ⟨ts ++ more, e⟩ = standard.items fuel ⟨ts, e⟩ := by
  induction fuel generalizing fuel' ts with
  | zero => omega
  | succ fuel ih =>
    obtain ⟨f', rfl⟩ : ∃ f, fuel' = f + 1 := ⟨fuel' - 1, by omega⟩
    unfold Grammar.items Cursor.hasTokens
    rw [Cursor.kind_mk he, Cursor.kind_mk he, front_append he hm]
    split
    · refine ((Blind.all he hm fuel f').item (by omega)).bind_eq ?_
      intro first us hus
      have hbound : 16 * us.length + 4 ≤ min fuel f' := by omega
      obtain ⟨hne, heq⟩ := ih hbound
      refine ⟨?_, ?_⟩
      · rw [ne_eq, bind_eq_error]
        rintro (herror | ⟨others, -, hpure⟩)
        · exact hne herror
        · cases hpure
      · dsimp only
        rw [heq]
    · refine ⟨?_, rfl⟩
      rintro ⟨⟩

end

end Grammar

/-- **The parser comes to an end by itself**: whatever the tokens are, the bound on the depth of calls is not reached. -/
theorem parse_ne_unfinished (tokens : List Token) (length : Nat) : parse tokens length ≠ .error .unfinished := by
  have he : (Token.eof length).kind = .eof := rfl
  have hm : ([] : List Token).headD (.eof length) = .eof length := rfl
  have hbound : 16 * tokens.length + 4 ≤ min (Cursor.start tokens length).fuel (Cursor.start tokens length).fuel := by
    simp only [Cursor.fuel, Cursor.start]
    omega
  unfold parse
  rw [ne_eq, bind_eq_error]
  rintro (herror | ⟨items, -, hpure⟩)
  · exact (Grammar.blind_items he hm hbound).1 herror
  · cases hpure

/-- **The end of the tokens may be written or left out.** Neither the end nor what stands behind it has a part in the
outcome, be it a tree or an error, and every item that is read leaves them where they are. -/
theorem parse_append_eof (tokens rest : List Token) (length : Nat) :
    parse (tokens ++ .eof length :: rest) length = parse tokens length ∧ parse tokens length ≠ .error .unfinished ∧
      ∀ ts, let c := Cursor.start ts length
        Grammar.standard.item c.fuel c ≠ .error .unfinished ∧
        Grammar.standard.item c.fuel (c.before (.eof length :: rest)) =
          (Grammar.standard.item c.fuel c).map fun r => (r.1, r.2.before (.eof length :: rest)) := by
  have he : (Token.eof length).kind = .eof := rfl
  have hm : (Token.eof length :: rest).headD (.eof length) = .eof length := rfl
  refine ⟨?_, parse_ne_unfinished tokens length, ?_⟩
  · unfold parse
    have hbound : 16 * tokens.length + 4 ≤
        min (Cursor.start tokens length).fuel (Cursor.start (tokens ++ .eof length :: rest) length).fuel := by
      simp only [Cursor.fuel, Cursor.start, List.length_append]
      omega
    have hitems := (Grammar.blind_items he hm hbound).2
    simp only [Cursor.start] at hitems ⊢
    rw [hitems]
  · intro ts c
    have hbound : 16 * ts.length + 3 ≤ min c.fuel c.fuel := by
      simp only [c, Cursor.fuel, Cursor.start]
      omega
    have hitem := (Grammar.Blind.all he hm c.fuel c.fuel).item hbound
    exact ⟨hitem.ne_unfinished, hitem.eq_map⟩

end LetFn
