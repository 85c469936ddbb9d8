import LetFn.Grammar.Parse
import LetFn.Proofs.Tree.Parts

/-!
# Readings

`Reads φ ts us` says that the standard grammar reads the phrase `φ` off the front of the tokens `ts` and leaves `us`.
It has one rule for every way in which a reading goes on and needs no bound on the depth of calls, so facts about
trees that were read are inductions on it.

Main facts: `Sound.all` (what the parser returns is a reading), `parse_eq_ok_iff` (the parser returns exactly the
readings of whole programs), `Reads.runs` (a reading is found within the parser's bound).
-/

namespace LetFn

/-! ## results of steps -/

theorem liftError_eq_ok {α : Type} {x : Except Error α} {a : α} :
    (liftM x : Except Failure α) = .ok a ↔ x = .ok a := by
  cases x <;> simp [liftM, monadLift, MonadLift.monadLift, Except.mapError]

theorem liftFault_eq_ok {α : Type} {x : Except Span.Fault α} {a : α} :
    (liftM x : Except Failure α) = .ok a ↔ x = .ok a := by
  cases x <;> simp [liftM, monadLift, MonadLift.monadLift, Except.mapError]

/-- The kind of the first token; the end of the source goes on behind the last token. -/
def front : List Token → Kind
  | [] => .eof
  | t :: _ => t.kind

@[simp] theorem front_cons (t : Token) (ts : List Token) : front (t :: ts) = t.kind := rfl

namespace Cursor

theorem kind_eq_front {c : Cursor} (hc : c.eof.kind = .eof) : c.kind = front c.rest := by
  obtain ⟨_ | ⟨t, ts⟩, eof⟩ := c
  · exact hc
  · rfl

/-- A token of a kind other than the end really stands there. -/
theorem cons_of_kind {c : Cursor} {k : Kind} (hc : c.eof.kind = .eof) (h : c.kind = k) (hk : k ≠ .eof) :
    c.current.kind = k ∧ c.rest = c.current :: c.next.rest ∧ c.next.eof = c.eof := by
  obtain ⟨_ | ⟨t, ts⟩, eof⟩ := c
  · exact absurd (hc.symm.trans h).symm hk
  · exact ⟨h, rfl, rfl⟩

theorem of_expect {c c' : Cursor} {k : Kind} {t : Token} (hc : c.eof.kind = .eof) (hk : k ≠ .eof)
    (h : c.expect k = .ok (t, c')) : t.kind = k ∧ c.rest = t :: c'.rest ∧ c'.eof = c.eof := by
  unfold expect at h
  split at h
  · next hkind =>
    obtain ⟨rfl, rfl⟩ := Prod.mk.inj (Except.ok.inj h)
    exact cons_of_kind hc hkind hk
  · simp at h

theorem of_expectDetailed {c c' : Cursor} {k : Kind} {m : String} {t : Token} (hc : c.eof.kind = .eof)
    (hk : k ≠ .eof) (h : c.expectDetailed k m = .ok (t, c')) :
    t.kind = k ∧ c.rest = t :: c'.rest ∧ c'.eof = c.eof := by
  unfold expectDetailed at h
  split at h
  · next hkind =>
    obtain ⟨rfl, rfl⟩ := Prod.mk.inj (Except.ok.inj h)
    exact cons_of_kind hc hkind hk
  · simp at h

end Cursor

namespace Grammar

/-! ## the rules -/

/-- What a stretch of tokens may be read as. -/
inductive Phrase where
  /-- An expression that takes in the rules of at least the given power. -/
  | expression (least : Power) (n : Node)
  | item (n : Node)
  /-- What the rule for the first token makes. -/
  | opening (n : Node)
  /-- The way from an expression to the one it is the beginning of. -/
  | extensions (least : Power) (left n : Node)
  /-- Items up to a token of the given kind. -/
  | items (close : Kind) (ns : List Node)
  | arguments (ns : List Node)
  | parameters (ps : List (Param Node))

/-- Names and literals. -/
def primaryKinds : List Kind := [.identifier, .integer, .float, .string]

/-- A block or a function definition ends an item unless a semicolon follows. -/
def Closes (n : Node) (us : List Token) : Prop := (n.tag = .block ∨ n.tag = .functionDef) ∧ front us ≠ .semicolon

instance (n : Node) (us : List Token) : Decidable (Closes n us) := inferInstanceAs (Decidable (_ ∧ _))

/-- No rule of at least the given power applies at the first token. -/
def Stops (least : Power) (ts : List Token) : Prop :=
  ∀ power rule, standard.infixRule? (front ts) = some (power, rule) → power < least

inductive Reads : Phrase → List Token → List Token → Prop where
  | expression {least h n ts us vs} (start : Reads (.opening h) ts us)
      (more : Reads (.extensions least h n) us vs) : Reads (.expression least n) ts vs
  | closedItem {n ts us} (start : Reads (.opening n) ts us) (closed : Closes n us) : Reads (.item n) ts us
  | openItem {h n ts us vs} (start : Reads (.opening h) ts us) (opened : ¬ Closes h us)
      (more : Reads (.extensions .lowest h n) us vs) : Reads (.item n) ts vs
  | primary {t : Token} {ts} (kind : t.kind ∈ primaryKinds) : Reads (.opening (.leaf t)) (t :: ts) ts
  | operator {t : Token} {x : Node} {span ts us} (kind : t.kind = .dash ∨ t.kind = .not)
      (operand : Reads (.expression .highest x) ts us) (span_eq : t.span.extend x.span = .ok span) :
      Reads (.opening { span, form := .prefixOp t x }) (t :: ts) us
  | grouping {o c : Token} {x : Node} {span ts us} (opener : o.kind = .openParen)
      (inner : Reads (.expression .lowest x) ts (c :: us)) (closer : c.kind = .closeParen)
      (span_eq : o.span.extend c.span = .ok span) : Reads (.opening { x with span }) (o :: ts) us
  | block {o c : Token} {xs : List Node} {span ts us} (opener : o.kind = .openCurly)
      (inner : Reads (.items .closeCurly xs) ts (c :: us)) (closer : c.kind = .closeCurly)
      (span_eq : o.span.extend c.span = .ok span) : Reads (.opening { span, form := .ofItems xs }) (o :: ts) us
  | prototype {word name o c arrow result : Token} {ps : List (Param Node)} {span ts us} (fnWord : word.kind = .fnWord)
      (identifier : name.kind = .identifier) (opener : o.kind = .openParen)
      (params : Reads (.parameters ps) ts (c :: arrow :: result :: us)) (closer : c.kind = .closeParen)
      (arrow_kind : arrow.kind = .arrow) (result_kind : result.kind = .identifier) (bare : front us ≠ .openCurly)
      (span_eq : word.span.extend result.span = .ok span) :
      Reads (.opening { span, form := .functionDef name ps (.leaf result) none }) (word :: name :: o :: ts) us
  | definition {word name o c arrow result : Token} {ps : List (Param Node)} {body : Node} {span ts us vs}
      (fnWord : word.kind = .fnWord) (identifier : name.kind = .identifier) (opener : o.kind = .openParen)
      (params : Reads (.parameters ps) ts (c :: arrow :: result :: us)) (closer : c.kind = .closeParen)
      (arrow_kind : arrow.kind = .arrow) (result_kind : result.kind = .identifier) (braced : front us = .openCurly)
      (body_reads : Reads (.opening body) us vs) (span_eq : word.span.extend body.span = .ok span) :
      Reads (.opening { span, form := .functionDef name ps (.leaf result) (some body) }) (word :: name :: o :: ts) vs
  | declaration {word name colon type : Token} {span us} (letWord : word.kind = .letWord)
      (identifier : name.kind = .identifier) (colon_kind : colon.kind = .colon) (type_kind : type.kind = .identifier)
      (bare : front us ≠ .assignment) (span_eq : word.span.extend type.span = .ok span) :
      Reads (.opening { span, form := .variableDef (.leaf name) (.leaf type) none })
        (word :: name :: colon :: type :: us) us
  | initialization {word name colon type equals : Token} {x : Node} {span us vs} (letWord : word.kind = .letWord)
      (identifier : name.kind = .identifier) (colon_kind : colon.kind = .colon) (type_kind : type.kind = .identifier)
      (assignment : equals.kind = .assignment) (initializer : Reads (.expression .assignment x) us vs)
      (span_eq : word.span.extend x.span = .ok span) :
      Reads (.opening { span, form := .variableDef (.leaf name) (.leaf type) (some x) })
        (word :: name :: colon :: type :: equals :: us) vs
  | stop {least n ts} (stops : Stops least ts) : Reads (.extensions least n n) ts ts
  | binary {least power} {op : Token} {left r n : Node} {span ts us vs}
      (rule : standard.infixRule? op.kind = some (power, .binary)) (strong : ¬ power < least)
      (right : Reads (.expression power.next r) ts us) (span_eq : left.span.extend r.span = .ok span)
      (more : Reads (.extensions least { span, form := .infixOp op left r } n) us vs) :
      Reads (.extensions least left n) (op :: ts) vs
  | assignment {least} {op : Token} {left r n : Node} {span ts us vs} (kind : op.kind = .assignment)
      (strong : ¬ Power.assignment < least) (right : Reads (.expression .assignment r) ts us)
      (span_eq : left.span.extend r.span = .ok span)
      (more : Reads (.extensions least { span, form := .infixOp op left r } n) us vs) :
      Reads (.extensions least left n) (op :: ts) vs
  | call {least} {o c : Token} {left n : Node} {xs : List Node} {span ts us vs} (opener : o.kind = .openParen)
      (inner : Reads (.arguments xs) ts (c :: us)) (closer : c.kind = .closeParen)
      (span_eq : left.span.extend c.span = .ok span)
      (more : Reads (.extensions least { span, form := .functionCall left xs } n) us vs) :
      Reads (.extensions least left n) (o :: ts) vs
  | statement {least} {t : Token} {left : Node} {span ts} (kind : t.kind = .semicolon)
      (strong : ¬ Power.statement < least) (span_eq : left.span.extend t.span = .ok span) :
      Reads (.extensions least left { span, form := .statement left }) (t :: ts) ts
  | noItems {close ts} (closed : front ts = close) : Reads (.items close []) ts ts
  | moreItems {close} {x : Node} {xs : List Node} {ts us vs} (opened : front ts ≠ close) (left : front ts ≠ .eof)
      (first : Reads (.item x) ts us) (others : Reads (.items close xs) us vs) : Reads (.items close (x :: xs)) ts vs
  | noArguments {ts} (closed : front ts = .closeParen) : Reads (.arguments []) ts ts
  | lastArgument {x : Node} {ts us} (opened : front ts ≠ .closeParen) (left : front ts ≠ .eof)
      (first : Reads (.expression .assignment x) ts us) (closed : front us = .closeParen) :
      Reads (.arguments [x]) ts us
  | moreArguments {comma : Token} {x : Node} {xs : List Node} {ts us vs} (opened : front ts ≠ .closeParen)
      (left : front ts ≠ .eof) (first : Reads (.expression .assignment x) ts (comma :: us))
      (comma_kind : comma.kind = .comma) (others : Reads (.arguments xs) us vs) : Reads (.arguments (x :: xs)) ts vs
  | noParameters {ts} (closed : front ts = .closeParen) : Reads (.parameters []) ts ts
  | lastParameter {name colon type : Token} {us} (identifier : name.kind = .identifier)
      (colon_kind : colon.kind = .colon) (type_kind : type.kind = .identifier) (last : front us ≠ .comma) :
      Reads (.parameters [⟨.leaf name, .leaf type⟩]) (name :: colon :: type :: us) us
  | moreParameters {name colon type comma : Token} {ps : List (Param Node)} {us vs}
      (identifier : name.kind = .identifier) (colon_kind : colon.kind = .colon) (type_kind : type.kind = .identifier)
      (comma_kind : comma.kind = .comma) (others : Reads (.parameters ps) us vs) :
      Reads (.parameters (⟨.leaf name, .leaf type⟩ :: ps)) (name :: colon :: type :: comma :: us) vs

/-! ## the tables -/

section

variable {k : Kind}

theorem typeRule?_eq_some_iff {rule : PrefixRule} :
    standard.typeRule? k = some rule ↔ k = .identifier ∧ rule = .namedType := by
  cases k <;> simp [standard, eq_comm]

theorem prefixRule?_eq_some_iff {rule : PrefixRule} : standard.prefixRule? k = some rule ↔
    k ∈ primaryKinds ∧ rule = .primary ∨ (k = .dash ∨ k = .not) ∧ rule = .operator ∨
    k = .openParen ∧ rule = .grouping ∨ k = .openCurly ∧ rule = .block ∨ k = .fnWord ∧ rule = .functionDef ∨
    k = .letWord ∧ rule = .variableDef := by
  cases k <;> simp [standard, primaryKinds, eq_comm]

theorem infixRule?_eq_assignment_iff {p : Power} :
    standard.infixRule? k = some (p, .assignment) ↔ k = .assignment ∧ p = .assignment := by
  cases k <;> simp [standard, eq_comm]

theorem infixRule?_eq_call_iff {p : Power} :
    standard.infixRule? k = some (p, .call) ↔ k = .openParen ∧ p = .highest := by
  cases k <;> simp [standard, eq_comm]

theorem infixRule?_eq_statement_iff {p : Power} :
    standard.infixRule? k = some (p, .statement) ↔ k = .semicolon ∧ p = .statement := by
  cases k <;> simp [standard, eq_comm]

end

/-! ## what the parser returns is a reading -/

/-- The part of a run that matters besides its result: tokens are read from the front, the end stays. -/
def Advances (φ : Phrase) (c c' : Cursor) : Prop := c'.eof = c.eof ∧ Reads φ c.rest c'.rest

/-- One extension of `left` to `n`, for those who ask for at least `least`: a statement ends there, all else goes on. -/
def Prolongs (power : Power) (left n : Node) (c c' : Cursor) : Prop :=
  c'.eof = c.eof ∧ ∀ least, ¬ power < least →
    (n.tag = .statement → Reads (.extensions least left n) c.rest c'.rest) ∧
    (n.tag ≠ .statement → ∀ m us, Reads (.extensions least n m) c'.rest us →
      Reads (.extensions least left m) c.rest us)

/-- Whatever the functions of the parser return at this bound is a reading. -/
structure Sound (fuel : Nat) : Prop where
  expression : ∀ {least n c c'}, c.eof.kind = .eof → standard.expression fuel least c = .ok (n, c') →
    Advances (.expression least n) c c'
  item : ∀ {n c c'}, c.eof.kind = .eof → standard.item fuel c = .ok (n, c') → Advances (.item n) c c'
  opening : ∀ {n c c'}, c.eof.kind = .eof → standard.opening fuel c = .ok (n, c') → Advances (.opening n) c c'
  extensions : ∀ {least left n c c'}, c.eof.kind = .eof → standard.extensions fuel least left c = .ok (n, c') →
    Advances (.extensions least left n) c c'
  apply : ∀ {rule n c c'}, c.eof.kind = .eof → standard.prefixRule? c.kind = some rule →
    standard.apply fuel rule c = .ok (n, c') → Advances (.opening n) c c'
  extend : ∀ {rule power left n c c'}, c.eof.kind = .eof → standard.infixRule? c.kind = some (power, rule) →
    standard.extend fuel rule power left c = .ok (n, c') → Prolongs power left n c c'
  blockItems : ∀ {ns c c'}, c.eof.kind = .eof → standard.blockItems fuel c = .ok (ns, c') →
    Advances (.items .closeCurly ns) c c'
  arguments : ∀ {ns c c'}, c.eof.kind = .eof → standard.arguments fuel c = .ok (ns, c') →
    Advances (.arguments ns) c c'
  parameters : ∀ {ps c c'}, c.eof.kind = .eof → standard.parameters fuel c = .ok (ps, c') →
    Advances (.parameters ps) c c'

/-- The standard grammar knows types by their names only. -/
theorem typeExpression_eq_ok {fuel : Nat} {n : Node} {c c' : Cursor} (hc : c.eof.kind = .eof)
    (h : standard.typeExpression fuel c = .ok (n, c')) :
    ∃ t, t.kind = .identifier ∧ n = .leaf t ∧ c.rest = t :: c'.rest ∧ c'.eof = c.eof := by
  rcases fuel with _ | _ | fuel
  · exact absurd h throw_ne_ok
  · unfold typeExpression at h
    split at h <;> exact absurd h throw_ne_ok
  · unfold typeExpression at h
    split at h
    · next rule hrule =>
      obtain ⟨-, rfl⟩ := typeRule?_eq_some_iff.1 hrule
      simp only [Grammar.apply, bind_eq_ok, Prod.exists, liftError_eq_ok, pure, Except.pure, Except.ok.injEq,
        Prod.mk.injEq] at h
      obtain ⟨t, d, hd, rfl, rfl⟩ := h
      obtain ⟨hk, hrest, heof⟩ := Cursor.of_expect hc (by decide) hd
      exact ⟨t, hk, rfl, hrest, heof⟩
    · exact absurd h throw_ne_ok

section

variable {fuel : Nat}

theorem Sound.zero : Sound 0 where
  expression _ h := absurd h throw_ne_ok
  item _ h := absurd h throw_ne_ok
  opening _ h := absurd h throw_ne_ok
  extensions _ h := absurd h throw_ne_ok
  apply _ _ h := absurd h throw_ne_ok
  extend _ _ h := absurd h throw_ne_ok
  blockItems _ h := absurd h throw_ne_ok
  arguments _ h := absurd h throw_ne_ok
  parameters _ h := absurd h throw_ne_ok

theorem Sound.expression_succ (ih : Sound fuel) {least : Power} {n : Node} {c c' : Cursor}
    (hc : c.eof.kind = .eof) (h : standard.expression (fuel + 1) least c = .ok (n, c')) :
    Advances (.expression least n) c c' := by
  simp only [Grammar.expression, bind_eq_ok, Prod.exists] at h
  obtain ⟨left, d, hd, h⟩ := h
  obtain ⟨e₁, r₁⟩ := ih.opening hc hd
  obtain ⟨e₂, r₂⟩ := ih.extensions (e₁ ▸ hc) h
  exact ⟨e₂.trans e₁, .expression r₁ r₂⟩

theorem Sound.item_succ (ih : Sound fuel) {n : Node} {c c' : Cursor} (hc : c.eof.kind = .eof)
    (h : standard.item (fuel + 1) c = .ok (n, c')) : Advances (.item n) c c' := by
  simp only [Grammar.item, bind_eq_ok, Prod.exists] at h
  obtain ⟨left, d, hd, h⟩ := h
  obtain ⟨e₁, r₁⟩ := ih.opening hc hd
  have hd' : d.eof.kind = .eof := e₁ ▸ hc
  rw [Cursor.kind_eq_front hd'] at h
  split at h
  · next hclosed =>
    obtain ⟨rfl, rfl⟩ := Prod.mk.inj (Except.ok.inj h)
    exact ⟨e₁, .closedItem r₁ hclosed⟩
  · next hopen =>
    obtain ⟨e₂, r₂⟩ := ih.extensions hd' h
    exact ⟨e₂.trans e₁, .openItem r₁ hopen r₂⟩

theorem Sound.opening_succ (ih : Sound fuel) {n : Node} {c c' : Cursor} (hc : c.eof.kind = .eof)
    (h : standard.opening (fuel + 1) c = .ok (n, c')) : Advances (.opening n) c c' := by
  unfold Grammar.opening at h
  split at h
  · next rule hrule => exact ih.apply hc hrule h
  · exact absurd h throw_ne_ok

theorem Sound.extensions_succ (ih : Sound fuel) {least : Power} {left n : Node} {c c' : Cursor}
    (hc : c.eof.kind = .eof) (h : standard.extensions (fuel + 1) least left c = .ok (n, c')) :
    Advances (.extensions least left n) c c' := by
  unfold Grammar.extensions at h
  split at h
  · next hnone =>
    obtain ⟨rfl, rfl⟩ := Prod.mk.inj (Except.ok.inj h)
    rw [Cursor.kind_eq_front hc] at hnone
    exact ⟨rfl, .stop fun power rule hrule => by simp [hnone] at hrule⟩
  · next power rule hrule =>
    split at h
    · next hweak =>
      obtain ⟨rfl, rfl⟩ := Prod.mk.inj (Except.ok.inj h)
      refine ⟨rfl, .stop fun power' rule' hrule' => ?_⟩
      rw [← Cursor.kind_eq_front hc, hrule] at hrule'
      obtain ⟨rfl, -⟩ := Prod.mk.inj (Option.some.inj hrule')
      exact hweak
    · next hstrong =>
      simp only [bind_eq_ok, Prod.exists] at h
      obtain ⟨m, d, hd, h⟩ := h
      obtain ⟨e₁, r₁⟩ := ih.extend hc hrule hd
      obtain ⟨hend, hmore⟩ := r₁ least hstrong
      split at h
      · next hm =>
        obtain ⟨rfl, rfl⟩ := Prod.mk.inj (Except.ok.inj h)
        exact ⟨e₁, hend hm⟩
      · next hm =>
        obtain ⟨e₂, r₂⟩ := ih.extensions (e₁ ▸ hc) h
        exact ⟨e₂.trans e₁, hmore hm _ _ r₂⟩

theorem Sound.extend_succ (ih : Sound fuel) {rule : InfixRule} {power : Power} {left n : Node} {c c' : Cursor}
    (hc : c.eof.kind = .eof) (hrule : standard.infixRule? c.kind = some (power, rule))
    (h : standard.extend (fuel + 1) rule power left c = .ok (n, c')) : Prolongs power left n c c' := by
  have hkind : c.kind ≠ .eof := fun he => by simp [he, standard] at hrule
  obtain ⟨hcurrent, hrest, hnext⟩ := Cursor.cons_of_kind hc rfl hkind
  cases rule with
  | binary =>
    simp only [Grammar.extend, bind_eq_ok, Prod.exists, liftFault_eq_ok, pure, Except.pure, Except.ok.injEq,
      Prod.mk.injEq] at h
    obtain ⟨right, d, hd, span, hspan, rfl, rfl⟩ := h
    obtain ⟨e₁, r₁⟩ := ih.expression (hnext ▸ hc) hd
    refine ⟨e₁.trans hnext, fun least hstrong => ⟨nofun, fun _ m us hm => ?_⟩⟩
    rw [hrest]
    exact .binary (hcurrent ▸ hrule) hstrong r₁ hspan hm
  | assignment =>
    obtain ⟨hassignment, rfl⟩ := infixRule?_eq_assignment_iff.1 hrule
    simp only [Grammar.extend, bind_eq_ok, Prod.exists, liftFault_eq_ok, pure, Except.pure, Except.ok.injEq,
      Prod.mk.injEq] at h
    obtain ⟨right, d, hd, span, hspan, rfl, rfl⟩ := h
    obtain ⟨e₁, r₁⟩ := ih.expression (hnext ▸ hc) hd
    refine ⟨e₁.trans hnext, fun least hstrong => ⟨nofun, fun _ m us hm => ?_⟩⟩
    rw [hrest]
    exact .assignment (hcurrent.trans hassignment) hstrong r₁ hspan hm
  | call =>
    obtain ⟨hopen, rfl⟩ := infixRule?_eq_call_iff.1 hrule
    simp only [Grammar.extend, bind_eq_ok, Prod.exists, liftFault_eq_ok, liftError_eq_ok, pure, Except.pure,
      Except.ok.injEq, Prod.mk.injEq] at h
    obtain ⟨xs, d, hd, closer, d', hclose, span, hspan, rfl, rfl⟩ := h
    obtain ⟨e₁, r₁⟩ := ih.arguments (hnext ▸ hc) hd
    obtain ⟨hk, hd', e₂⟩ := Cursor.of_expect (e₁.trans hnext ▸ hc) (by decide) hclose
    refine ⟨e₂.trans (e₁.trans hnext), fun least _ => ⟨nofun, fun _ m us hm => ?_⟩⟩
    rw [hrest]
    exact .call (hcurrent.trans hopen) (hd' ▸ r₁) hk hspan hm
  | statement =>
    obtain ⟨hsemicolon, rfl⟩ := infixRule?_eq_statement_iff.1 hrule
    simp only [Grammar.extend, bind_eq_ok, liftFault_eq_ok, pure, Except.pure, Except.ok.injEq,
      Prod.mk.injEq] at h
    obtain ⟨span, hspan, rfl, rfl⟩ := h
    refine ⟨hnext, fun least hstrong => ⟨fun _ => ?_, fun hne => absurd rfl hne⟩⟩
    rw [hrest]
    exact .statement (hcurrent.trans hsemicolon) hstrong hspan

theorem Sound.blockItems_succ (ih : Sound fuel) {ns : List Node} {c c' : Cursor} (hc : c.eof.kind = .eof)
    (h : standard.blockItems (fuel + 1) c = .ok (ns, c')) : Advances (.items .closeCurly ns) c c' := by
  unfold Grammar.blockItems at h
  rw [Cursor.hasTokens, Cursor.kind_eq_front hc] at h
  split at h
  · next hclosed =>
    obtain ⟨rfl, rfl⟩ := Prod.mk.inj (Except.ok.inj h)
    exact ⟨rfl, .noItems hclosed⟩
  · next hopen =>
    split at h
    · exact absurd h throw_ne_ok
    · next hleft =>
      simp only [bind_eq_ok, Prod.exists, pure, Except.pure, Except.ok.injEq, Prod.mk.injEq] at h
      obtain ⟨x, d, hd, xs, d', hd', rfl, rfl⟩ := h
      obtain ⟨e₁, r₁⟩ := ih.item hc hd
      obtain ⟨e₂, r₂⟩ := ih.blockItems (e₁ ▸ hc) hd'
      exact ⟨e₂.trans e₁, .moreItems hopen (by simpa using hleft) r₁ r₂⟩

theorem Sound.arguments_succ (ih : Sound fuel) {ns : List Node} {c c' : Cursor} (hc : c.eof.kind = .eof)
    (h : standard.arguments (fuel + 1) c = .ok (ns, c')) : Advances (.arguments ns) c c' := by
  unfold Grammar.arguments at h
  rw [Cursor.hasTokens, Cursor.kind_eq_front hc] at h
  split at h
  · next hclosed =>
    obtain ⟨rfl, rfl⟩ := Prod.mk.inj (Except.ok.inj h)
    exact ⟨rfl, .noArguments hclosed⟩
  · next hopen =>
    split at h
    · exact absurd h throw_ne_ok
    · next hleft =>
      simp only [bind_eq_ok, Prod.exists] at h
      obtain ⟨x, d, hd, h⟩ := h
      obtain ⟨e₁, r₁⟩ := ih.expression hc hd
      have hd : d.eof.kind = .eof := e₁ ▸ hc
      have hleft : front c.rest ≠ .eof := by simpa using hleft
      split at h
      · next hcomma =>
        obtain ⟨hk, hrest, hnext⟩ := Cursor.cons_of_kind hd hcomma (by decide)
        simp only [bind_eq_ok, Prod.exists, pure, Except.pure, Except.ok.injEq, Prod.mk.injEq] at h
        obtain ⟨xs, d', hd', rfl, rfl⟩ := h
        obtain ⟨e₂, r₂⟩ := ih.arguments (hnext ▸ hd) hd'
        exact ⟨e₂.trans (hnext.trans e₁), .moreArguments hopen hleft (hrest ▸ r₁) hk r₂⟩
      · next hclosed =>
        obtain ⟨rfl, rfl⟩ := Prod.mk.inj (Except.ok.inj h)
        exact ⟨e₁, .lastArgument hopen hleft r₁ (Cursor.kind_eq_front hd ▸ hclosed)⟩
      · exact absurd h throw_ne_ok

theorem Sound.parameters_succ (ih : Sound fuel) {ps : List (Param Node)} {c c' : Cursor} (hc : c.eof.kind = .eof)
    (h : standard.parameters (fuel + 1) c = .ok (ps, c')) : Advances (.parameters ps) c c' := by
  unfold Grammar.parameters at h
  rw [Cursor.kind_eq_front hc] at h
  split at h
  · next hclosed =>
    obtain ⟨rfl, rfl⟩ := Prod.mk.inj (Except.ok.inj h)
    exact ⟨rfl, .noParameters hclosed⟩
  · simp only [bind_eq_ok, Prod.exists, liftError_eq_ok] at h
    obtain ⟨name, d₁, h₁, colon, d₂, h₂, type, d₃, h₃, h⟩ := h
    obtain ⟨hname, hr₁, e₁⟩ := Cursor.of_expectDetailed hc (by decide) h₁
    obtain ⟨hcolon, hr₂, e₂⟩ := Cursor.of_expect (e₁ ▸ hc) (by decide) h₂
    obtain ⟨t, ht, rfl, hr₃, e₃⟩ := typeExpression_eq_ok (e₂.trans e₁ ▸ hc) h₃
    have e : d₃.eof = c.eof := e₃.trans (e₂.trans e₁)
    have hd : d₃.eof.kind = .eof := e ▸ hc
    have hrest : c.rest = name :: colon :: t :: d₃.rest := by rw [hr₁, hr₂, hr₃]
    split at h
    · next hcomma =>
      obtain ⟨hk, hr₄, hnext⟩ := Cursor.cons_of_kind hd hcomma (by decide)
      simp only [bind_eq_ok, Prod.exists, pure, Except.pure, Except.ok.injEq, Prod.mk.injEq] at h
      obtain ⟨qs, d', hd', rfl, rfl⟩ := h
      obtain ⟨e₅, r⟩ := ih.parameters (hnext ▸ hd) hd'
      refine ⟨e₅.trans (hnext.trans e), ?_⟩
      rw [hrest, hr₄]
      exact .moreParameters hname hcolon ht hk r
    · next hlast =>
      obtain ⟨rfl, rfl⟩ := Prod.mk.inj (Except.ok.inj h)
      refine ⟨e, ?_⟩
      rw [hrest]
      exact .lastParameter hname hcolon ht (Cursor.kind_eq_front hd ▸ hlast)

theorem Sound.apply_operator (ih : Sound fuel) {n : Node} {c c' : Cursor} (hc : c.eof.kind = .eof)
    (hkind : c.kind = .dash ∨ c.kind = .not) (h : standard.apply (fuel + 1) .operator c = .ok (n, c')) :
    Advances (.opening n) c c' := by
  obtain ⟨hcurrent, hrest, hnext⟩ := Cursor.cons_of_kind hc rfl (by rcases hkind with h | h <;> simp [h])
  simp only [Grammar.apply, bind_eq_ok, Prod.exists, liftFault_eq_ok, pure, Except.pure, Except.ok.injEq,
    Prod.mk.injEq] at h
  obtain ⟨x, d, hd, span, hspan, rfl, rfl⟩ := h
  obtain ⟨e₁, r₁⟩ := ih.expression (hnext ▸ hc) hd
  refine ⟨e₁.trans hnext, ?_⟩
  rw [hrest]
  exact .operator (hcurrent ▸ hkind) r₁ hspan

theorem Sound.apply_grouping (ih : Sound fuel) {n : Node} {c c' : Cursor} (hc : c.eof.kind = .eof)
    (hkind : c.kind = .openParen) (h : standard.apply (fuel + 1) .grouping c = .ok (n, c')) :
    Advances (.opening n) c c' := by
  obtain ⟨hcurrent, hrest, hnext⟩ := Cursor.cons_of_kind hc hkind (by decide)
  simp only [Grammar.apply, bind_eq_ok, Prod.exists, liftFault_eq_ok, liftError_eq_ok, pure, Except.pure,
    Except.ok.injEq, Prod.mk.injEq] at h
  obtain ⟨x, d, hd, closer, d', hclose, span, hspan, rfl, rfl⟩ := h
  obtain ⟨e₁, r₁⟩ := ih.expression (hnext ▸ hc) hd
  obtain ⟨hk, hd', e₂⟩ := Cursor.of_expectDetailed (e₁.trans hnext ▸ hc) (by decide) hclose
  refine ⟨e₂.trans (e₁.trans hnext), ?_⟩
  rw [hrest]
  exact .grouping hcurrent (hd' ▸ r₁) hk hspan

theorem Sound.apply_block (ih : Sound fuel) {n : Node} {c c' : Cursor} (hc : c.eof.kind = .eof)
    (h : standard.apply (fuel + 1) .block c = .ok (n, c')) : Advances (.opening n) c c' := by
  simp only [Grammar.apply, bind_eq_ok, Prod.exists, liftFault_eq_ok, liftError_eq_ok, pure, Except.pure,
    Except.ok.injEq, Prod.mk.injEq] at h
  obtain ⟨opener, d₁, h₁, xs, d₂, h₂, closer, d₃, h₃, span, hspan, rfl, rfl⟩ := h
  obtain ⟨hopen, hr₁, e₁⟩ := Cursor.of_expect hc (by decide) h₁
  obtain ⟨e₂, r⟩ := ih.blockItems (e₁ ▸ hc) h₂
  obtain ⟨hclose, hr₃, e₃⟩ := Cursor.of_expect (e₂.trans e₁ ▸ hc) (by decide) h₃
  refine ⟨e₃.trans (e₂.trans e₁), ?_⟩
  rw [hr₁]
  exact .block hopen (hr₃ ▸ r) hclose hspan

theorem Sound.apply_functionDef (ih : Sound fuel) {n : Node} {c c' : Cursor} (hc : c.eof.kind = .eof)
    (h : standard.apply (fuel + 1) .functionDef c = .ok (n, c')) : Advances (.opening n) c c' := by
  simp only [Grammar.apply, bind_eq_ok, Prod.exists, liftError_eq_ok] at h
  obtain ⟨word, d₁, h₁, name, d₂, h₂, opener, d₃, h₃, ps, d₄, h₄, closer, d₅, h₅, arrow, d₆, h₆, result, d₇, h₇, h⟩ := h
  obtain ⟨hword, hr₁, e₁⟩ := Cursor.of_expect hc (by decide) h₁
  obtain ⟨hname, hr₂, e₂⟩ := Cursor.of_expectDetailed (e₁ ▸ hc) (by decide) h₂
  obtain ⟨hopen, hr₃, e₃⟩ := Cursor.of_expect (e₂.trans e₁ ▸ hc) (by decide) h₃
  have e₃ : d₃.eof = c.eof := e₃.trans (e₂.trans e₁)
  obtain ⟨e₄, r⟩ := ih.parameters (e₃ ▸ hc) h₄
  have e₄ : d₄.eof = c.eof := e₄.trans e₃
  obtain ⟨hclose, hr₅, e₅⟩ := Cursor.of_expect (e₄ ▸ hc) (by decide) h₅
  obtain ⟨harrow, hr₆, e₆⟩ := Cursor.of_expect (e₅.trans e₄ ▸ hc) (by decide) h₆
  obtain ⟨t, ht, rfl, hr₇, e₇⟩ := typeExpression_eq_ok (e₆.trans (e₅.trans e₄) ▸ hc) h₇
  have e₇ : d₇.eof = c.eof := e₇.trans (e₆.trans (e₅.trans e₄))
  have hd : d₇.eof.kind = .eof := e₇ ▸ hc
  have hrest : c.rest = word :: name :: opener :: d₃.rest := by rw [hr₁, hr₂, hr₃]
  have r : Reads (.parameters ps) d₃.rest (closer :: arrow :: t :: d₇.rest) := by rw [← hr₇, ← hr₆, ← hr₅]; exact r
  unfold Advances
  rw [hrest]
  split at h
  · next hbrace =>
    simp only [bind_eq_ok, Prod.exists, liftFault_eq_ok, pure, Except.pure, Except.ok.injEq, Prod.mk.injEq] at h
    obtain ⟨body, d, hd', span, hspan, rfl, rfl⟩ := h
    obtain ⟨e₈, r₈⟩ := ih.apply hd (by rw [hbrace]; rfl) hd'
    exact ⟨e₈.trans e₇, .definition hword hname hopen r hclose harrow ht (Cursor.kind_eq_front hd ▸ hbrace) r₈ hspan⟩
  · next hbare =>
    simp only [bind_eq_ok, liftFault_eq_ok, pure, Except.pure, Except.ok.injEq, Prod.mk.injEq] at h
    obtain ⟨span, hspan, rfl, rfl⟩ := h
    exact ⟨e₇, .prototype hword hname hopen r hclose harrow ht (Cursor.kind_eq_front hd ▸ hbare) hspan⟩

theorem Sound.apply_variableDef (ih : Sound fuel) {n : Node} {c c' : Cursor} (hc : c.eof.kind = .eof)
    (h : standard.apply (fuel + 1) .variableDef c = .ok (n, c')) : Advances (.opening n) c c' := by
  simp only [Grammar.apply, bind_eq_ok, Prod.exists, liftError_eq_ok] at h
  obtain ⟨word, d₁, h₁, name, d₂, h₂, colon, d₃, h₃, type, d₄, h₄, h⟩ := h
  obtain ⟨hword, hr₁, e₁⟩ := Cursor.of_expect hc (by decide) h₁
  obtain ⟨hname, hr₂, e₂⟩ := Cursor.of_expectDetailed (e₁ ▸ hc) (by decide) h₂
  obtain ⟨hcolon, hr₃, e₃⟩ := Cursor.of_expectDetailed (e₂.trans e₁ ▸ hc) (by decide) h₃
  obtain ⟨t, ht, rfl, hr₄, e₄⟩ := typeExpression_eq_ok (e₃.trans (e₂.trans e₁) ▸ hc) h₄
  have e₄ : d₄.eof = c.eof := e₄.trans (e₃.trans (e₂.trans e₁))
  have hd : d₄.eof.kind = .eof := e₄ ▸ hc
  have hrest : c.rest = word :: name :: colon :: t :: d₄.rest := by rw [hr₁, hr₂, hr₃, hr₄]
  unfold Advances
  rw [hrest]
  split at h
  · next hequals =>
    obtain ⟨hk, hr₅, hnext⟩ := Cursor.cons_of_kind hd hequals (by decide)
    simp only [bind_eq_ok, Prod.exists, liftFault_eq_ok, pure, Except.pure, Except.ok.injEq, Prod.mk.injEq] at h
    obtain ⟨x, d, hd', span, hspan, rfl, rfl⟩ := h
    obtain ⟨e₆, r⟩ := ih.expression (hnext ▸ hd) hd'
    rw [hr₅]
    exact ⟨e₆.trans (hnext.trans e₄), .initialization hword hname hcolon ht hk r hspan⟩
  · next hbare =>
    simp only [bind_eq_ok, liftFault_eq_ok, pure, Except.pure, Except.ok.injEq, Prod.mk.injEq] at h
    obtain ⟨span, hspan, rfl, rfl⟩ := h
    exact ⟨e₄, .declaration hword hname hcolon ht (Cursor.kind_eq_front hd ▸ hbare) hspan⟩

theorem Sound.apply_succ (ih : Sound fuel) {rule : PrefixRule} {n : Node} {c c' : Cursor} (hc : c.eof.kind = .eof)
    (hrule : standard.prefixRule? c.kind = some rule) (h : standard.apply (fuel + 1) rule c = .ok (n, c')) :
    Advances (.opening n) c c' := by
  rcases prefixRule?_eq_some_iff.1 hrule with ⟨hk, rfl⟩ | ⟨hk, rfl⟩ | ⟨hk, rfl⟩ | ⟨-, rfl⟩ | ⟨-, rfl⟩ | ⟨-, rfl⟩
  · obtain ⟨hcurrent, hrest, hnext⟩ := Cursor.cons_of_kind hc rfl (fun he => by simp [he, primaryKinds] at hk)
    simp only [Grammar.apply] at h
    split at h <;> first | exact absurd h throw_ne_ok | skip
    all_goals
      obtain ⟨rfl, rfl⟩ := Prod.mk.inj (Except.ok.inj h)
      refine ⟨hnext, ?_⟩
      rw [hrest]
      exact .primary (hcurrent ▸ hk)
  · exact ih.apply_operator hc hk h
  · exact ih.apply_grouping hc hk h
  · exact ih.apply_block hc h
  · exact ih.apply_functionDef hc h
  · exact ih.apply_variableDef hc h

/-- **What the parser returns is a reading**, at every bound. -/
theorem Sound.all : ∀ fuel, Sound fuel
  | 0 => .zero
  | fuel + 1 =>
    have ih := Sound.all fuel
    { expression := ih.expression_succ
      item := ih.item_succ
      opening := ih.opening_succ
      extensions := ih.extensions_succ
      apply := ih.apply_succ
      extend := ih.extend_succ
      blockItems := ih.blockItems_succ
      arguments := ih.arguments_succ
      parameters := ih.parameters_succ }

theorem reads_of_items {c : Cursor} {ns : List Node} (hc : c.eof.kind = .eof) (h : standard.items fuel c = .ok ns) :
    ∃ us, Reads (.items .eof ns) c.rest us := by
  induction fuel generalizing c ns with
  | zero => exact absurd h throw_ne_ok
  | succ fuel ih =>
    unfold Grammar.items at h
    rw [Cursor.hasTokens, Cursor.kind_eq_front hc] at h
    split at h
    · next hleft =>
      simp only [bind_eq_ok, Prod.exists, pure, Except.pure, Except.ok.injEq] at h
      obtain ⟨x, d, hd, xs, hxs, rfl⟩ := h
      obtain ⟨e₁, r₁⟩ := (Sound.all fuel).item hc hd
      obtain ⟨us, r₂⟩ := ih (e₁ ▸ hc) hxs
      have hleft : front c.rest ≠ .eof := by simpa using hleft
      exact ⟨us, .moreItems hleft hleft r₁ r₂⟩
    · next hend =>
      obtain rfl := Except.ok.inj h
      exact ⟨_, .noItems (by simpa using hend)⟩

end

end Grammar

/-- The tree of a program is made of its items, read up to the end of the tokens. -/
theorem reads_of_parse {tokens : List Token} {length : Nat} {t : Node} (h : parse tokens length = .ok t) :
    ∃ xs us, t = { span := ⟨0, length⟩, form := .root xs } ∧ Grammar.Reads (.items .eof xs) tokens us := by
  simp only [parse, bind_eq_ok, pure, Except.pure, Except.ok.injEq] at h
  obtain ⟨xs, hxs, rfl⟩ := h
  obtain ⟨us, r⟩ := Grammar.reads_of_items (c := .start tokens length) rfl hxs
  exact ⟨xs, us, rfl, r⟩

end LetFn
