import LetFn.Proofs.Grammar.Reading

/-!
# Readings are found

The parser returns every reading, within the bound on the depth of its calls that it sets itself. So there is at most
one reading of a program, and the parser fails where there is none.

Main facts: `Reads.runs`, `parse_eq_ok_iff`, `Reads.items_unique`.
-/

namespace LetFn

namespace Cursor

theorem kind_mk {ts : List Token} {e : Token} (he : e.kind = .eof) : (⟨ts, e⟩ : Cursor).kind = front ts :=
  kind_eq_front he

theorem expect_mk {t e : Token} {ts : List Token} {k : Kind} (h : t.kind = k) :
    (⟨t :: ts, e⟩ : Cursor).expect k = .ok (t, ⟨ts, e⟩) := if_pos h

theorem expectDetailed_mk {t e : Token} {ts : List Token} {k : Kind} {m : String} (h : t.kind = k) :
    (⟨t :: ts, e⟩ : Cursor).expectDetailed k m = .ok (t, ⟨ts, e⟩) := if_pos h

end Cursor

namespace Grammar

/-! ## readings take tokens -/

/-- How many tokens a phrase takes at least. -/
def Phrase.least : Phrase → Nat
  | .expression _ _ | .item _ | .opening _ => 1
  | _ => 0

theorem Reads.length_add_le {φ : Phrase} {ts us : List Token} (h : Reads φ ts us) :
    us.length + φ.least ≤ ts.length := by
  induction h <;> simp only [Phrase.least, List.length_cons] at * <;> omega

theorem Power.not_highest_lt (p : Power) : ¬ Power.highest < p := by cases p <;> decide

/-! ## the parser finds them -/

/-- The depth of calls that suffices for a phrase that is read off so many tokens. -/
def Phrase.depth : Phrase → Nat → Nat
  | .opening _, length | .extensions _ _ _, length | .parameters _, length => 16 * length + 1
  | .expression _ _, length | .item _, length => 16 * length + 3
  | .items _ _, length | .arguments _, length => 16 * length + 4

/-- The functions of the parser return the phrase at this bound; `e` stands behind the tokens. -/
def Phrase.Run (fuel : Nat) (e : Token) (ts us : List Token) : Phrase → Prop
  | .expression least n => standard.expression fuel least ⟨ts, e⟩ = .ok (n, ⟨us, e⟩)
  | .item n => standard.item fuel ⟨ts, e⟩ = .ok (n, ⟨us, e⟩)
  | .opening n =>
    ∃ rule, standard.prefixRule? (front ts) = some rule ∧ standard.apply fuel rule ⟨ts, e⟩ = .ok (n, ⟨us, e⟩)
  | .extensions least left n => standard.extensions fuel least left ⟨ts, e⟩ = .ok (n, ⟨us, e⟩)
  | .items close ns =>
    (close = .closeCurly → standard.blockItems fuel ⟨ts, e⟩ = .ok (ns, ⟨us, e⟩)) ∧
      (close = .eof → standard.items fuel ⟨ts, e⟩ = .ok ns)
  | .arguments ns => standard.arguments fuel ⟨ts, e⟩ = .ok (ns, ⟨us, e⟩)
  | .parameters ps => standard.parameters fuel ⟨ts, e⟩ = .ok (ps, ⟨us, e⟩)

section

variable {e : Token} {fuel : Nat}

theorem opening_eq_ok {n : Node} {ts us : List Token} (he : e.kind = .eof)
    (h : (Phrase.opening n).Run fuel e ts us) : standard.opening (fuel + 1) ⟨ts, e⟩ = .ok (n, ⟨us, e⟩) := by
  obtain ⟨rule, hrule, h⟩ := h
  unfold Grammar.opening
  rw [Cursor.kind_mk he, hrule]
  exact h

/-! ### expressions and items -/

section

variable {x n : Node} {ts us vs : List Token}

theorem run_expression {least : Power} (he : e.kind = .eof) (hx : (Phrase.opening x).Run fuel e ts us)
    (hn : (Phrase.extensions least x n).Run (fuel + 1) e us vs) :
    (Phrase.expression least n).Run (fuel + 2) e ts vs := by
  simp only [Phrase.Run, Grammar.expression, bind_eq_ok, Prod.exists]
  exact ⟨_, _, opening_eq_ok he hx, hn⟩

theorem run_closedItem (he : e.kind = .eof) (hx : (Phrase.opening x).Run fuel e ts us) (closed : Closes x us) :
    (Phrase.item x).Run (fuel + 2) e ts us := by
  simp only [Phrase.Run, Grammar.item, bind_eq_ok, Prod.exists]
  refine ⟨_, _, opening_eq_ok he hx, ?_⟩
  rw [Cursor.kind_mk he]
  exact if_pos closed

theorem run_openItem (he : e.kind = .eof) (hx : (Phrase.opening x).Run fuel e ts us) (opened : ¬ Closes x us)
    (hn : (Phrase.extensions .lowest x n).Run (fuel + 1) e us vs) : (Phrase.item n).Run (fuel + 2) e ts vs := by
  simp only [Phrase.Run, Grammar.item, bind_eq_ok, Prod.exists]
  refine ⟨_, _, opening_eq_ok he hx, ?_⟩
  rw [Cursor.kind_mk he]
  exact (if_neg opened).trans hn

end

/-! ### what the rule for the first token makes -/

section

variable {x : Node} {t o c : Token} {span : Span} {ts us vs : List Token}

theorem run_primary {t : Token} {ts : List Token} (h : t.kind ∈ primaryKinds) (hf : 1 ≤ fuel) :
    (Phrase.opening (.leaf t)).Run fuel e (t :: ts) ts := by
  obtain ⟨f, rfl⟩ : ∃ f, fuel = f + 1 := ⟨fuel - 1, by omega⟩
  refine ⟨.primary, prefixRule?_eq_some_iff.2 (.inl ⟨h, rfl⟩), ?_⟩
  have hkind : (⟨t :: ts, e⟩ : Cursor).kind = t.kind := rfl
  simp only [primaryKinds, List.mem_cons, List.not_mem_nil, or_false] at h
  simp only [Grammar.apply, hkind]
  rcases h with h | h | h | h <;> rw [h] <;> rfl

theorem run_operator (kind : t.kind = .dash ∨ t.kind = .not) (hx : (Phrase.expression .highest x).Run fuel e ts us)
    (span_eq : t.span.extend x.span = .ok span) :
    (Phrase.opening { span, form := .prefixOp t x }).Run (fuel + 1) e (t :: ts) us := by
  refine ⟨.operator, prefixRule?_eq_some_iff.2 (.inr (.inl ⟨kind, rfl⟩)), ?_⟩
  simp only [Grammar.apply, bind_eq_ok, Prod.exists, liftFault_eq_ok]
  exact ⟨_, _, hx, _, span_eq, rfl⟩

theorem run_grouping (opener : o.kind = .openParen) (hx : (Phrase.expression .lowest x).Run fuel e ts (c :: us))
    (closer : c.kind = .closeParen) (span_eq : o.span.extend c.span = .ok span) :
    (Phrase.opening { x with span }).Run (fuel + 1) e (o :: ts) us := by
  refine ⟨.grouping, prefixRule?_eq_some_iff.2 (.inr (.inr (.inl ⟨opener, rfl⟩))), ?_⟩
  simp only [Grammar.apply, bind_eq_ok, Prod.exists, liftFault_eq_ok, liftError_eq_ok]
  exact ⟨_, _, hx, _, _, Cursor.expectDetailed_mk closer, _, span_eq, rfl⟩

theorem run_block {xs : List Node} (opener : o.kind = .openCurly)
    (hxs : (Phrase.items .closeCurly xs).Run fuel e ts (c :: us)) (closer : c.kind = .closeCurly)
    (span_eq : o.span.extend c.span = .ok span) :
    (Phrase.opening { span, form := .ofItems xs }).Run (fuel + 1) e (o :: ts) us := by
  refine ⟨.block, by rw [front_cons, opener]; rfl, ?_⟩
  simp only [Grammar.apply, bind_eq_ok, Prod.exists, liftFault_eq_ok, liftError_eq_ok]
  exact ⟨_, _, Cursor.expect_mk opener, _, _, hxs.1 rfl, _, _, Cursor.expect_mk closer, _, span_eq, rfl⟩

theorem typeExpression_mk {t : Token} {ts : List Token} (h : t.kind = .identifier) (hf : 2 ≤ fuel) :
    standard.typeExpression fuel ⟨t :: ts, e⟩ = .ok (.leaf t, ⟨ts, e⟩) := by
  obtain ⟨f, rfl⟩ : ∃ f, fuel = f + 2 := ⟨fuel - 2, by omega⟩
  have hkind : (⟨t :: ts, e⟩ : Cursor).kind = .identifier := h
  unfold Grammar.typeExpression
  rw [hkind]
  simp only [standard, Grammar.apply, bind_eq_ok, Prod.exists, liftError_eq_ok]
  exact ⟨t, ⟨ts, e⟩, Cursor.expect_mk h, rfl⟩

/-- A function definition is read in one way up to its result, and then the token behind that decides. -/
theorem apply_functionDef {word name arrow result : Token} {ps : List (Param Node)} {r : Node × Cursor}
    (he : e.kind = .eof) (hf : 2 ≤ fuel) (fnWord : word.kind = .fnWord) (identifier : name.kind = .identifier)
    (opener : o.kind = .openParen) (hps : (Phrase.parameters ps).Run fuel e ts (c :: arrow :: result :: us))
    (closer : c.kind = .closeParen) (arrow_kind : arrow.kind = .arrow) (result_kind : result.kind = .identifier)
    (hend : (if front us = .openCurly then do
        let (body, c) ← standard.apply fuel .block ⟨us, e⟩
        let span ← word.span.extend body.span
        return ({ span, form := .functionDef name ps (.leaf result) (some body) }, c)
      else do
        let span ← word.span.extend result.span
        return ({ span, form := .functionDef name ps (.leaf result) none }, ⟨us, e⟩)) = (.ok r : Except Failure _)) :
    standard.apply (fuel + 1) .functionDef ⟨word :: name :: o :: ts, e⟩ = .ok r := by
  simp only [Grammar.apply, bind_eq_ok, Prod.exists, liftError_eq_ok]
  refine ⟨_, _, Cursor.expect_mk fnWord, _, _, Cursor.expectDetailed_mk identifier, _, _, Cursor.expect_mk opener,
    _, _, hps, _, _, Cursor.expect_mk closer, _, _, Cursor.expect_mk arrow_kind,
    _, _, typeExpression_mk result_kind hf, ?_⟩
  rw [Cursor.kind_mk he]
  exact hend

theorem run_prototype {word name arrow result : Token} {ps : List (Param Node)} (he : e.kind = .eof) (hf : 2 ≤ fuel)
    (fnWord : word.kind = .fnWord) (identifier : name.kind = .identifier) (opener : o.kind = .openParen)
    (hps : (Phrase.parameters ps).Run fuel e ts (c :: arrow :: result :: us)) (closer : c.kind = .closeParen)
    (arrow_kind : arrow.kind = .arrow) (result_kind : result.kind = .identifier) (bare : front us ≠ .openCurly)
    (span_eq : word.span.extend result.span = .ok span) :
    (Phrase.opening { span, form := .functionDef name ps (.leaf result) none }).Run (fuel + 1) e
      (word :: name :: o :: ts) us := by
  refine ⟨.functionDef, by rw [front_cons, fnWord]; rfl,
    apply_functionDef he hf fnWord identifier opener hps closer arrow_kind result_kind ?_⟩
  rw [if_neg bare]
  simp only [bind_eq_ok, liftFault_eq_ok]
  exact ⟨_, span_eq, rfl⟩

theorem run_definition {word name arrow result : Token} {ps : List (Param Node)} {body : Node} (he : e.kind = .eof)
    (hf : 2 ≤ fuel) (fnWord : word.kind = .fnWord) (identifier : name.kind = .identifier) (opener : o.kind = .openParen)
    (hps : (Phrase.parameters ps).Run fuel e ts (c :: arrow :: result :: us)) (closer : c.kind = .closeParen)
    (arrow_kind : arrow.kind = .arrow) (result_kind : result.kind = .identifier) (braced : front us = .openCurly)
    (hbody : (Phrase.opening body).Run fuel e us vs) (span_eq : word.span.extend body.span = .ok span) :
    (Phrase.opening { span, form := .functionDef name ps (.leaf result) (some body) }).Run (fuel + 1) e
      (word :: name :: o :: ts) vs := by
  refine ⟨.functionDef, by rw [front_cons, fnWord]; rfl,
    apply_functionDef he hf fnWord identifier opener hps closer arrow_kind result_kind ?_⟩
  obtain ⟨rule, hrule, hbody⟩ := hbody
  obtain rfl : PrefixRule.block = rule := by
    rw [braced] at hrule
    exact Option.some.inj hrule
  rw [if_pos braced]
  simp only [bind_eq_ok, Prod.exists, liftFault_eq_ok]
  exact ⟨_, _, hbody, _, span_eq, rfl⟩

/-- A variable definition is read in one way up to its type, and then the token behind that decides. -/
theorem apply_variableDef {word name colon type : Token} {r : Node × Cursor} (he : e.kind = .eof) (hf : 2 ≤ fuel)
    (letWord : word.kind = .letWord) (identifier : name.kind = .identifier) (colon_kind : colon.kind = .colon)
    (type_kind : type.kind = .identifier)
    (hend : (if front us = .assignment then do
        let (initializer, c) ← standard.expression fuel .assignment (⟨us, e⟩ : Cursor).next
        let span ← word.span.extend initializer.span
        return ({ span, form := .variableDef (.leaf name) (.leaf type) (some initializer) }, c)
      else do
        let span ← word.span.extend type.span
        return ({ span, form := .variableDef (.leaf name) (.leaf type) none }, ⟨us, e⟩)) =
          (.ok r : Except Failure _)) :
    standard.apply (fuel + 1) .variableDef ⟨word :: name :: colon :: type :: us, e⟩ = .ok r := by
  simp only [Grammar.apply, bind_eq_ok, Prod.exists, liftError_eq_ok]
  refine ⟨_, _, Cursor.expect_mk letWord, _, _, Cursor.expectDetailed_mk identifier,
    _, _, Cursor.expectDetailed_mk colon_kind, _, _, typeExpression_mk type_kind hf, ?_⟩
  rw [Cursor.kind_mk he]
  exact hend

theorem run_declaration {word name colon type : Token} (he : e.kind = .eof) (hf : 2 ≤ fuel)
    (letWord : word.kind = .letWord) (identifier : name.kind = .identifier) (colon_kind : colon.kind = .colon)
    (type_kind : type.kind = .identifier) (bare : front us ≠ .assignment)
    (span_eq : word.span.extend type.span = .ok span) :
    (Phrase.opening { span, form := .variableDef (.leaf name) (.leaf type) none }).Run (fuel + 1) e
      (word :: name :: colon :: type :: us) us := by
  refine ⟨.variableDef, by rw [front_cons, letWord]; rfl,
    apply_variableDef he hf letWord identifier colon_kind type_kind ?_⟩
  rw [if_neg bare]
  simp only [bind_eq_ok, liftFault_eq_ok]
  exact ⟨_, span_eq, rfl⟩

theorem run_initialization {word name colon type equals : Token} (he : e.kind = .eof) (hf : 2 ≤ fuel)
    (letWord : word.kind = .letWord) (identifier : name.kind = .identifier) (colon_kind : colon.kind = .colon)
    (type_kind : type.kind = .identifier) (assignment : equals.kind = .assignment)
    (hx : (Phrase.expression .assignment x).Run fuel e us vs) (span_eq : word.span.extend x.span = .ok span) :
    (Phrase.opening { span, form := .variableDef (.leaf name) (.leaf type) (some x) }).Run (fuel + 1) e
      (word :: name :: colon :: type :: equals :: us) vs := by
  refine ⟨.variableDef, by rw [front_cons, letWord]; rfl,
    apply_variableDef he hf letWord identifier colon_kind type_kind ?_⟩
  rw [if_pos (show front (equals :: us) = .assignment from assignment)]
  simp only [bind_eq_ok, Prod.exists, liftFault_eq_ok]
  exact ⟨_, _, hx, _, span_eq, rfl⟩

end

/-! ### what goes on with an expression -/

section

variable {least : Power} {left n : Node} {t : Token} {span : Span} {ts us vs : List Token}

/-- One extension, and then the rest of them. -/
theorem extensions_eq_ok {power : Power} {rule : InfixRule} {m : Node}
    (hrule : standard.infixRule? t.kind = some (power, rule)) (hstrong : ¬ power < least)
    (h : standard.extend fuel rule power left ⟨t :: ts, e⟩ = .ok (m, ⟨us, e⟩))
    (hm : m.tag = .statement ∧ m = n ∧ us = vs ∨
      m.tag ≠ .statement ∧ standard.extensions fuel least m ⟨us, e⟩ = .ok (n, ⟨vs, e⟩)) :
    standard.extensions (fuel + 1) least left ⟨t :: ts, e⟩ = .ok (n, ⟨vs, e⟩) := by
  have hkind : (⟨t :: ts, e⟩ : Cursor).kind = t.kind := rfl
  unfold Grammar.extensions
  rw [hkind, hrule]
  simp only [hstrong, if_false, bind_eq_ok, Prod.exists]
  refine ⟨m, _, h, ?_⟩
  rcases hm with ⟨htag, rfl, rfl⟩ | ⟨htag, hm⟩
  · rw [if_pos htag]
    rfl
  · rw [if_neg htag]
    exact hm

theorem extensions_stop (he : e.kind = .eof) (hf : 1 ≤ fuel) (h : Stops least ts) :
    standard.extensions fuel least n ⟨ts, e⟩ = .ok (n, ⟨ts, e⟩) := by
  obtain ⟨f, rfl⟩ : ∃ f, fuel = f + 1 := ⟨fuel - 1, by omega⟩
  unfold Grammar.extensions
  rw [Cursor.kind_mk he]
  cases hrule : standard.infixRule? (front ts) with
  | none => rfl
  | some p =>
    obtain ⟨power, rule⟩ := p
    simp only [h power rule hrule, if_true]
    rfl

theorem run_binary {power : Power} {r : Node} (rule : standard.infixRule? t.kind = some (power, .binary))
    (strong : ¬ power < least) (hr : (Phrase.expression power.next r).Run fuel e ts us)
    (span_eq : left.span.extend r.span = .ok span)
    (hn : (Phrase.extensions least { span, form := .infixOp t left r } n).Run (fuel + 1) e us vs) :
    (Phrase.extensions least left n).Run (fuel + 2) e (t :: ts) vs := by
  refine extensions_eq_ok rule strong ?_ (.inr ⟨by rintro ⟨⟩, hn⟩)
  simp only [Grammar.extend, bind_eq_ok, Prod.exists, liftFault_eq_ok]
  exact ⟨_, _, hr, _, span_eq, rfl⟩

theorem run_assignment {r : Node} (kind : t.kind = .assignment) (strong : ¬ Power.assignment < least)
    (hr : (Phrase.expression .assignment r).Run fuel e ts us) (span_eq : left.span.extend r.span = .ok span)
    (hn : (Phrase.extensions least { span, form := .infixOp t left r } n).Run (fuel + 1) e us vs) :
    (Phrase.extensions least left n).Run (fuel + 2) e (t :: ts) vs := by
  refine extensions_eq_ok (infixRule?_eq_assignment_iff.2 ⟨kind, rfl⟩) strong ?_ (.inr ⟨by rintro ⟨⟩, hn⟩)
  simp only [Grammar.extend, bind_eq_ok, Prod.exists, liftFault_eq_ok]
  exact ⟨_, _, hr, _, span_eq, rfl⟩

theorem run_call {c : Token} {xs : List Node} (opener : t.kind = .openParen)
    (hxs : (Phrase.arguments xs).Run fuel e ts (c :: us)) (closer : c.kind = .closeParen)
    (span_eq : left.span.extend c.span = .ok span)
    (hn : (Phrase.extensions least { span, form := .functionCall left xs } n).Run (fuel + 1) e us vs) :
    (Phrase.extensions least left n).Run (fuel + 2) e (t :: ts) vs := by
  refine extensions_eq_ok (infixRule?_eq_call_iff.2 ⟨opener, rfl⟩) (Power.not_highest_lt _) ?_
    (.inr ⟨by rintro ⟨⟩, hn⟩)
  simp only [Grammar.extend, bind_eq_ok, Prod.exists, liftFault_eq_ok, liftError_eq_ok]
  exact ⟨_, _, hxs, _, _, Cursor.expect_mk closer, _, span_eq, rfl⟩

theorem run_statement (kind : t.kind = .semicolon) (strong : ¬ Power.statement < least)
    (span_eq : left.span.extend t.span = .ok span) :
    (Phrase.extensions least left { span, form := .statement left }).Run (fuel + 2) e (t :: ts) ts := by
  refine extensions_eq_ok (infixRule?_eq_statement_iff.2 ⟨kind, rfl⟩) strong ?_ (.inl ⟨rfl, rfl, rfl⟩)
  simp only [Grammar.extend, bind_eq_ok, liftFault_eq_ok]
  exact ⟨_, span_eq, rfl⟩

end

/-! ### lists -/

section

variable {x : Node} {xs : List Node} {ts us vs : List Token}

theorem run_noItems {close : Kind} (he : e.kind = .eof) (closed : front ts = close) :
    (Phrase.items close []).Run (fuel + 1) e ts ts := by
  constructor
  · rintro rfl
    unfold Grammar.blockItems
    rw [Cursor.kind_mk he, if_pos closed]
    rfl
  · rintro rfl
    unfold Grammar.items
    rw [Cursor.hasTokens, Cursor.kind_mk he, closed]
    rfl

theorem run_moreItems {close : Kind} (he : e.kind = .eof) (opened : front ts ≠ close) (left : front ts ≠ .eof)
    (hx : (Phrase.item x).Run fuel e ts us) (hxs : (Phrase.items close xs).Run fuel e us vs) :
    (Phrase.items close (x :: xs)).Run (fuel + 1) e ts vs := by
  constructor
  · intro hclose
    unfold Grammar.blockItems
    rw [Cursor.hasTokens, Cursor.kind_mk he, if_neg (hclose ▸ opened)]
    simp only [left, ne_eq, not_false_eq_true, decide_true, Bool.not_true, Bool.false_eq_true, if_false, bind_eq_ok,
      Prod.exists]
    exact ⟨_, _, hx, _, _, hxs.1 hclose, rfl⟩
  · intro hclose
    unfold Grammar.items
    rw [Cursor.hasTokens, Cursor.kind_mk he]
    simp only [left, ne_eq, not_false_eq_true, decide_true, if_true, bind_eq_ok, Prod.exists]
    exact ⟨_, _, hx, _, hxs.2 hclose, rfl⟩

theorem run_noArguments (he : e.kind = .eof) (closed : front ts = .closeParen) :
    (Phrase.arguments []).Run (fuel + 1) e ts ts := by
  simp only [Phrase.Run, Grammar.arguments, Cursor.kind_mk he, closed, if_true]
  rfl

theorem run_lastArgument (he : e.kind = .eof) (opened : front ts ≠ .closeParen) (left : front ts ≠ .eof)
    (hx : (Phrase.expression .assignment x).Run fuel e ts us) (closed : front us = .closeParen) :
    (Phrase.arguments [x]).Run (fuel + 1) e ts us := by
  simp only [Phrase.Run, Grammar.arguments, Cursor.hasTokens, Cursor.kind_mk he, opened, left, ne_eq,
    not_false_eq_true, decide_true, Bool.not_true, Bool.false_eq_true, if_false, bind_eq_ok, Prod.exists]
  refine ⟨_, _, hx, ?_⟩
  rw [Cursor.kind_mk he, closed]
  rfl

theorem run_moreArguments {comma : Token} (he : e.kind = .eof) (opened : front ts ≠ .closeParen)
    (left : front ts ≠ .eof) (hx : (Phrase.expression .assignment x).Run fuel e ts (comma :: us))
    (comma_kind : comma.kind = .comma) (hxs : (Phrase.arguments xs).Run fuel e us vs) :
    (Phrase.arguments (x :: xs)).Run (fuel + 1) e ts vs := by
  simp only [Phrase.Run, Grammar.arguments, Cursor.hasTokens, Cursor.kind_mk he, opened, left, ne_eq,
    not_false_eq_true, decide_true, Bool.not_true, Bool.false_eq_true, if_false, bind_eq_ok, Prod.exists]
  refine ⟨_, _, hx, ?_⟩
  rw [Cursor.kind_mk he, front_cons, comma_kind]
  simp only [bind_eq_ok, Prod.exists]
  exact ⟨_, _, hxs, rfl⟩

theorem run_noParameters (he : e.kind = .eof) (closed : front ts = .closeParen) :
    (Phrase.parameters []).Run (fuel + 1) e ts ts := by
  simp only [Phrase.Run, Grammar.parameters, Cursor.kind_mk he, closed, if_true]
  rfl

/-- Behind a parameter the token decides whether another one may follow. -/
theorem parameters_eq_ok {name colon type : Token} {r : List (Param Node) × Cursor} (he : e.kind = .eof)
    (hf : 2 ≤ fuel) (identifier : name.kind = .identifier) (colon_kind : colon.kind = .colon)
    (type_kind : type.kind = .identifier)
    (hend : (if front us = .comma then do
        let (others, c) ← standard.parameters fuel (⟨us, e⟩ : Cursor).next
        return (⟨.leaf name, .leaf type⟩ :: others, c)
      else return ([⟨.leaf name, .leaf type⟩], ⟨us, e⟩)) = (.ok r : Except Failure _)) :
    standard.parameters (fuel + 1) ⟨name :: colon :: type :: us, e⟩ = .ok r := by
  simp only [Grammar.parameters, Cursor.kind_mk he, front_cons, identifier, reduceCtorEq, if_false,
    bind_eq_ok, Prod.exists, liftError_eq_ok]
  refine ⟨_, _, Cursor.expectDetailed_mk identifier, _, _, Cursor.expect_mk colon_kind,
    _, _, typeExpression_mk type_kind hf, ?_⟩
  rw [Cursor.kind_mk he]
  exact hend

theorem run_lastParameter {name colon type : Token} (he : e.kind = .eof) (hf : 2 ≤ fuel)
    (identifier : name.kind = .identifier) (colon_kind : colon.kind = .colon) (type_kind : type.kind = .identifier)
    (last : front us ≠ .comma) :
    (Phrase.parameters [⟨.leaf name, .leaf type⟩]).Run (fuel + 1) e (name :: colon :: type :: us) us := by
  refine parameters_eq_ok he hf identifier colon_kind type_kind ?_
  rw [if_neg last]
  rfl

theorem run_moreParameters {name colon type comma : Token} {ps : List (Param Node)} (he : e.kind = .eof)
    (hf : 2 ≤ fuel) (identifier : name.kind = .identifier) (colon_kind : colon.kind = .colon)
    (type_kind : type.kind = .identifier) (comma_kind : comma.kind = .comma)
    (hps : (Phrase.parameters ps).Run fuel e us vs) :
    (Phrase.parameters (⟨.leaf name, .leaf type⟩ :: ps)).Run (fuel + 1) e
      (name :: colon :: type :: comma :: us) vs := by
  refine parameters_eq_ok he hf identifier colon_kind type_kind ?_
  rw [front_cons, if_pos comma_kind]
  simp only [bind_eq_ok, Prod.exists]
  exact ⟨_, _, hps, rfl⟩

end

end

/-- **Every reading is found** within a bound on the depth of calls that grows with the number of tokens. -/
theorem Reads.runs {φ : Phrase} {ts us : List Token} (h : Reads φ ts us) {e : Token} (he : e.kind = .eof)
    {fuel : Nat} (hf : φ.depth ts.length ≤ fuel) : φ.Run fuel e ts us := by
  -- every case leaves its rule enough depth: what stands behind a phrase is no longer than what it was read off
  induction h generalizing fuel with
  | expression start more ihs ihm =>
    have := start.length_add_le
    simp only [Phrase.depth, Phrase.least] at hf ihs ihm this
    obtain ⟨f, rfl⟩ : ∃ f, fuel = f + 2 := ⟨fuel - 2, by omega⟩
    exact run_expression he (ihs (by omega)) (ihm (by omega))
  | closedItem start closed ihs =>
    simp only [Phrase.depth] at hf ihs
    obtain ⟨f, rfl⟩ : ∃ f, fuel = f + 2 := ⟨fuel - 2, by omega⟩
    exact run_closedItem he (ihs (by omega)) closed
  | openItem start opened more ihs ihm =>
    have := start.length_add_le
    simp only [Phrase.depth, Phrase.least] at hf ihs ihm this
    obtain ⟨f, rfl⟩ : ∃ f, fuel = f + 2 := ⟨fuel - 2, by omega⟩
    exact run_openItem he (ihs (by omega)) opened (ihm (by omega))
  | primary kind =>
    simp only [Phrase.depth] at hf
    exact run_primary kind (by omega)
  | operator kind operand span_eq ih =>
    simp only [Phrase.depth, List.length_cons] at hf ih
    obtain ⟨f, rfl⟩ : ∃ f, fuel = f + 1 := ⟨fuel - 1, by omega⟩
    exact run_operator kind (ih (by omega)) span_eq
  | grouping opener inner closer span_eq ih =>
    simp only [Phrase.depth, List.length_cons] at hf ih
    obtain ⟨f, rfl⟩ : ∃ f, fuel = f + 1 := ⟨fuel - 1, by omega⟩
    exact run_grouping opener (ih (by omega)) closer span_eq
  | block opener inner closer span_eq ih =>
    simp only [Phrase.depth, List.length_cons] at hf ih
    obtain ⟨f, rfl⟩ : ∃ f, fuel = f + 1 := ⟨fuel - 1, by omega⟩
    exact run_block opener (ih (by omega)) closer span_eq
  | prototype fnWord identifier opener params closer arrow_kind result_kind bare span_eq ih =>
    simp only [Phrase.depth, List.length_cons] at hf ih
    obtain ⟨f, rfl⟩ : ∃ f, fuel = f + 1 := ⟨fuel - 1, by omega⟩
    exact run_prototype he (by omega) fnWord identifier opener (ih (by omega)) closer arrow_kind result_kind bare span_eq
  | definition fnWord identifier opener params closer arrow_kind result_kind braced body_reads span_eq ih ihb =>
    have := params.length_add_le
    simp only [Phrase.depth, Phrase.least, List.length_cons] at hf ih ihb this
    obtain ⟨f, rfl⟩ : ∃ f, fuel = f + 1 := ⟨fuel - 1, by omega⟩
    exact run_definition he (by omega) fnWord identifier opener (ih (by omega)) closer arrow_kind result_kind braced
      (ihb (by omega)) span_eq
  | declaration letWord identifier colon_kind type_kind bare span_eq =>
    simp only [Phrase.depth, List.length_cons] at hf
    obtain ⟨f, rfl⟩ : ∃ f, fuel = f + 1 := ⟨fuel - 1, by omega⟩
    exact run_declaration he (by omega) letWord identifier colon_kind type_kind bare span_eq
  | initialization letWord identifier colon_kind type_kind assignment initializer span_eq ih =>
    simp only [Phrase.depth, List.length_cons] at hf ih
    obtain ⟨f, rfl⟩ : ∃ f, fuel = f + 1 := ⟨fuel - 1, by omega⟩
    exact run_initialization he (by omega) letWord identifier colon_kind type_kind assignment (ih (by omega)) span_eq
  | stop stops =>
    simp only [Phrase.depth] at hf
    exact extensions_stop he (by omega) stops
  | binary rule strong right span_eq more ihr ihm =>
    have := right.length_add_le
    simp only [Phrase.depth, Phrase.least, List.length_cons] at hf ihr ihm this
    obtain ⟨f, rfl⟩ : ∃ f, fuel = f + 2 := ⟨fuel - 2, by omega⟩
    exact run_binary rule strong (ihr (by omega)) span_eq (ihm (by omega))
  | assignment kind strong right span_eq more ihr ihm =>
    have := right.length_add_le
    simp only [Phrase.depth, Phrase.least, List.length_cons] at hf ihr ihm this
    obtain ⟨f, rfl⟩ : ∃ f, fuel = f + 2 := ⟨fuel - 2, by omega⟩
    exact run_assignment kind strong (ihr (by omega)) span_eq (ihm (by omega))
  | call opener inner closer span_eq more ihi ihm =>
    have := inner.length_add_le
    simp only [Phrase.depth, Phrase.least, List.length_cons] at hf ihi ihm this
    obtain ⟨f, rfl⟩ : ∃ f, fuel = f + 2 := ⟨fuel - 2, by omega⟩
    exact run_call opener (ihi (by omega)) closer span_eq (ihm (by omega))
  | statement kind strong span_eq =>
    simp only [Phrase.depth, List.length_cons] at hf
    obtain ⟨f, rfl⟩ : ∃ f, fuel = f + 2 := ⟨fuel - 2, by omega⟩
    exact run_statement kind strong span_eq
  | noItems closed =>
    simp only [Phrase.depth] at hf
    obtain ⟨f, rfl⟩ : ∃ f, fuel = f + 1 := ⟨fuel - 1, by omega⟩
    exact run_noItems he closed
  | moreItems opened left first others ihf iho =>
    have := first.length_add_le
    simp only [Phrase.depth, Phrase.least] at hf ihf iho this
    obtain ⟨f, rfl⟩ : ∃ f, fuel = f + 1 := ⟨fuel - 1, by omega⟩
    exact run_moreItems he opened left (ihf (by omega)) (iho (by omega))
  | noArguments closed =>
    simp only [Phrase.depth] at hf
    obtain ⟨f, rfl⟩ : ∃ f, fuel = f + 1 := ⟨fuel - 1, by omega⟩
    exact run_noArguments he closed
  | lastArgument opened left first closed ihf =>
    simp only [Phrase.depth] at hf ihf
    obtain ⟨f, rfl⟩ : ∃ f, fuel = f + 1 := ⟨fuel - 1, by omega⟩
    exact run_lastArgument he opened left (ihf (by omega)) closed
  | moreArguments opened left first comma_kind others ihf iho =>
    have := first.length_add_le
    simp only [Phrase.depth, Phrase.least, List.length_cons] at hf ihf iho this
    obtain ⟨f, rfl⟩ : ∃ f, fuel = f + 1 := ⟨fuel - 1, by omega⟩
    exact run_moreArguments he opened left (ihf (by omega)) comma_kind (iho (by omega))
  | noParameters closed =>
    simp only [Phrase.depth] at hf
    obtain ⟨f, rfl⟩ : ∃ f, fuel = f + 1 := ⟨fuel - 1, by omega⟩
    exact run_noParameters he closed
  | lastParameter identifier colon_kind type_kind last =>
    simp only [Phrase.depth, List.length_cons] at hf
    obtain ⟨f, rfl⟩ : ∃ f, fuel = f + 1 := ⟨fuel - 1, by omega⟩
    exact run_lastParameter he (by omega) identifier colon_kind type_kind last
  | moreParameters identifier colon_kind type_kind comma_kind others iho =>
    simp only [Phrase.depth, List.length_cons] at hf iho
    obtain ⟨f, rfl⟩ : ∃ f, fuel = f + 1 := ⟨fuel - 1, by omega⟩
    exact run_moreParameters he (by omega) identifier colon_kind type_kind comma_kind (iho (by omega))

/-- At one place at most one list of items can be read up to the end. -/
theorem Reads.items_unique {xs ys : List Node} {ts us vs : List Token} (h : Reads (.items .eof xs) ts us)
    (h' : Reads (.items .eof ys) ts vs) : xs = ys := by
  have he : (Token.eof 0).kind = .eof := rfl
  have hx := (h.runs he (Nat.le_refl _)).2 rfl
  have hy := (h'.runs he (Nat.le_refl _)).2 rfl
  exact Except.ok.inj (hx.symm.trans hy)

end Grammar

/-- **The parser returns exactly the readings of whole programs.** -/
theorem parse_eq_ok_iff {tokens : List Token} {length : Nat} {t : Node} : parse tokens length = .ok t ↔
    ∃ xs us, t = { span := ⟨0, length⟩, form := .root xs } ∧ Grammar.Reads (.items .eof xs) tokens us := by
  refine ⟨reads_of_parse, fun ⟨xs, us, ht, h⟩ => ?_⟩
  have hdepth : (Grammar.Phrase.items .eof xs).depth tokens.length ≤ 16 * (tokens.length + 1) := by
    simp only [Grammar.Phrase.depth]
    omega
  have hrun := (h.runs (e := .eof length) rfl hdepth).2 rfl
  simp only [parse, bind_eq_ok, pure, Except.pure, Except.ok.injEq]
  exact ⟨xs, hrun, ht.symm⟩

end LetFn
