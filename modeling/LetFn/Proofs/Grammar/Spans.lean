import LetFn.Proofs.Grammar.Shape
import LetFn.Proofs.Token.Partition

/-!
# Spans of a tree

The tokens of a source stand in their order, so a tree that is read off them never joins spans in the wrong order, and
the nodes of the tree are nested as their spans are. This holds along the way to a failure too, so it is not enough to
look at what was read: every function of the parser is shown to end with a result or with an error of the program
(`Ensures`), from a cursor whose tokens are in order (`Ahead`) and within the bound on the depth of its calls.

* `Node.Nested n` — the children of `n` stand inside of it and apart from each other;
* `Fits tokens offset length r` — a tree and the cursor behind it: the tree stands at `offset` or later, all of it is
  nested, and fewer than `length` tokens are left in order behind it;
* `Fills tokens offset length r` — the same for trees in a row;
* `Safe tokens fuel` — what the functions of the parser ensure within a bound.

Main facts: `Safe.all`, `ensures_parse`, `spans_nested`.
-/

namespace LetFn

open Grammar (standard)

/-! ## steps that end as they should -/

section

variable {α β : Type} {E : Error → Prop} {Q : α → Prop} {R : β → Prop}

/-- A step gives a result of which `Q` holds or fails with an error of which `E` holds; neither spans in the wrong order
nor the bound on the depth of calls stop it. -/
def Ensures (E : Error → Prop) (r : Except Failure α) (Q : α → Prop) : Prop :=
  match r with
  | .ok a => Q a
  | .error (.error e) => E e
  | .error _ => False

theorem Ensures.bind {x : Except Failure α} {f : α → Except Failure β} (h : Ensures E x Q)
    (hf : ∀ a, Q a → Ensures E (f a) R) : Ensures E (x >>= f) R :=
  match x with
  | .ok a => hf a h
  | .error (.error _) => h
  | .error (.fault _) => h.elim
  | .error .unfinished => h.elim

theorem ensures_pure {a : α} (h : Q a) : Ensures E (pure a) Q := h

theorem ensures_throw {e : Error} (h : E e) : Ensures E (throw (.error e) : Except Failure α) Q := h

theorem ensures_extend {a b : Span} (h : a.stop ≤ b.start) :
    Ensures E (liftM (a.extend b)) (· = ⟨a.start, b.stop⟩) := by
  rw [Span.extend, if_pos h]
  exact ensures_pure rfl

end

/-! ## nodes inside of each other -/

namespace Node

/-- The children stand inside of the node; none is empty, and no two of them overlap. -/
def Nested (n : Node) : Prop :=
  (∀ c ∈ n.children, c.span.start < c.span.stop ∧ n.span.start ≤ c.span.start ∧ c.span.stop ≤ n.span.stop) ∧
    n.children.Pairwise fun a b => a.span.stop ≤ b.span.start ∨ b.span.stop ≤ a.span.start

/-- Trees one behind the other between two offsets, all of them nested. -/
def Row : Nat → List Node → Nat → Prop
  | a, [], b => a ≤ b
  | a, x :: xs, b => a ≤ x.span.start ∧ x.span.start < x.span.stop ∧ x.Everywhere Nested ∧ Row x.span.stop xs b

section

variable {a a' b b' : Nat} {x : Node} {xs ys : List Node}

theorem Row.append (h : Row a xs b) (h' : Row b ys b') : Row a (xs ++ ys) b' := by
  induction xs generalizing a with
  | nil =>
    cases ys with
    | nil => exact Nat.le_trans h h'
    | cons y ys => exact ⟨Nat.le_trans h h'.1, h'.2⟩
  | cons x xs ih => exact ⟨h.1, h.2.1, h.2.2.1, ih h.2.2.2⟩

theorem Row.le (h : Row a xs b) : a ≤ b := by
  induction xs generalizing a with
  | nil => exact h
  | cons x xs ih =>
    obtain ⟨hstart, hproper, -, hrest⟩ := h
    have := ih hrest
    omega

theorem Row.single (ha : a ≤ x.span.start) (hx : x.span.start < x.span.stop) (hn : x.Everywhere Nested) :
    Row a [x] x.span.stop := ⟨ha, hx, hn, Nat.le_refl _⟩

theorem Row.mono (h : Row a xs b) (ha : a' ≤ a) (hb : b ≤ b') : Row a' xs b' := by
  induction xs generalizing a a' with
  | nil => exact Nat.le_trans (Nat.le_trans ha h) hb
  | cons x xs ih => exact ⟨Nat.le_trans ha h.1, h.2.1, h.2.2.1, ih h.2.2.2 (Nat.le_refl _)⟩

theorem Row.mem (h : Row a xs b) (hx : x ∈ xs) :
    a ≤ x.span.start ∧ x.span.start < x.span.stop ∧ x.span.stop ≤ b ∧ x.Everywhere Nested := by
  induction xs generalizing a with
  | nil => exact absurd hx List.not_mem_nil
  | cons y xs ih =>
    obtain ⟨hstart, hproper, hnested, hrest⟩ := h
    rcases List.mem_cons.1 hx with rfl | hx
    · exact ⟨hstart, hproper, hrest.le, hnested⟩
    · obtain ⟨h₁, h₂, h₃, h₄⟩ := ih hrest hx
      exact ⟨by omega, h₂, h₃, h₄⟩

theorem Row.pairwise (h : Row a xs b) :
    xs.Pairwise fun x y => x.span.stop ≤ y.span.start ∨ y.span.stop ≤ x.span.start := by
  induction xs generalizing a with
  | nil => exact .nil
  | cons x xs ih =>
    obtain ⟨-, -, -, hrest⟩ := h
    exact List.pairwise_cons.2 ⟨fun y hy => .inl (hrest.mem hy).1, ih hrest⟩

/-- A node around a row of trees; the children of a definition are not in the order in which they stand. -/
theorem everywhere_nested {n : Node} (h : Row a xs b) (hperm : n.children.Perm xs) (ha : n.span.start ≤ a)
    (hb : b ≤ n.span.stop) : n.Everywhere Nested := by
  refine everywhere_iff.2 ⟨⟨fun c hc => ?_, ?_⟩, fun c hc => (h.mem (hperm.subset hc)).2.2.2⟩
  · obtain ⟨h₁, h₂, h₃, -⟩ := h.mem (hperm.subset hc)
    exact ⟨h₂, Nat.le_trans ha h₁, Nat.le_trans h₃ hb⟩
  · exact (hperm.pairwise_iff fun h => h.symm).2 h.pairwise

/-- A node that takes up more room around the same children. -/
theorem Everywhere.widened {n : Node} {span : Span} (h : n.Everywhere Nested) (hstart : span.start ≤ n.span.start)
    (hstop : n.span.stop ≤ span.stop) : ({ n with span } : Node).Everywhere Nested := by
  obtain ⟨⟨hinside, hapart⟩, hbelow⟩ := everywhere_iff.1 h
  refine everywhere_iff.2 ⟨⟨fun c hc => ?_, hapart⟩, hbelow⟩
  obtain ⟨h₁, h₂, h₃⟩ := hinside c hc
  exact ⟨h₁, Nat.le_trans hstart h₂, Nat.le_trans h₃ hstop⟩

theorem everywhere_nested_leaf (t : Token) : (leaf t).Everywhere Nested := by
  have hnone : (leaf t).children = [] := rfl
  refine everywhere_iff.2 ⟨⟨?_, ?_⟩, ?_⟩ <;> simp [hnone]

end

end Node

/-! ## cursors before tokens in order -/

/-- The error is one of syntax and points at one of the tokens and at nothing else. -/
def PointsTo (tokens : List Token) (e : Error) : Prop :=
  (∃ t ∈ tokens, e.span = t.span) ∧ e.related = none ∧ e.cause.category = .syntactic

/-- The tokens that are left stand in order from an offset on, and only the end of the source is empty. -/
structure Ahead (tokens : List Token) (offset : Nat) (c : Cursor) : Prop where
  eof : c.eof.kind = .eof
  inOrder : InOrder offset (c.rest ++ [c.eof])
  proper : ∀ t ∈ c.rest, t.kind ≠ .eof → t.span.start < t.span.stop
  suffix : c.rest ++ [c.eof] <:+ tokens

section

variable {tokens : List Token} {offset : Nat} {c : Cursor}

theorem Ahead.current_mem (h : Ahead tokens offset c) : c.current ∈ tokens := by
  obtain ⟨_ | ⟨t, ts⟩, eof⟩ := c
  · exact h.suffix.subset List.mem_cons_self
  · exact h.suffix.subset List.mem_cons_self

/-- All cursors into the tokens have the same end. -/
theorem Ahead.eof_eq {offset' : Nat} {d : Cursor} (h : Ahead tokens offset c) (h' : Ahead tokens offset' d) :
    c.eof = d.eof := by
  have hlast : ∀ {e : Cursor}, e.rest ++ [e.eof] <:+ tokens → tokens.getLast? = some e.eof := by
    rintro e ⟨before, rfl⟩
    simp [← List.append_assoc]
  exact Option.some.inj ((hlast h.suffix).symm.trans (hlast h'.suffix))

theorem Ahead.pointsTo {cause : Cause} (h : Ahead tokens offset c) (hcause : cause.category = .syntactic) :
    PointsTo tokens ⟨cause, c.current.span, none⟩ :=
  ⟨⟨c.current, h.current_mem, rfl⟩, rfl, hcause⟩

/-- Taking a token: it is not empty, and what is left stands behind it. -/
theorem Ahead.next (h : Ahead tokens offset c) (hk : c.kind ≠ .eof) :
    offset ≤ c.current.span.start ∧ c.current.span.start < c.current.span.stop ∧
      Ahead tokens c.current.span.stop c.next ∧ c.next.rest.length + 1 = c.rest.length := by
  obtain ⟨_ | ⟨t, ts⟩, eof⟩ := c
  · exact absurd h.eof hk
  · obtain ⟨hstart, -, hbehind⟩ := h.inOrder
    exact ⟨hstart, h.proper t List.mem_cons_self hk,
      ⟨h.eof, hbehind, fun u hu => h.proper u (List.mem_cons_of_mem _ hu),
        (List.suffix_cons _ _).trans h.suffix⟩, rfl⟩

/-- The offset is not behind the end of the source. -/
theorem Ahead.le_eof (h : Ahead tokens offset c) : offset ≤ c.eof.span.start := by
  obtain ⟨ts, eof⟩ := c
  have hlast : ∀ {offset : Nat} {ts : List Token}, InOrder offset (ts ++ [eof]) → offset ≤ eof.span.start := by
    intro offset ts
    induction ts generalizing offset with
    | nil => exact fun h => h.1
    | cons t ts ih =>
      rintro ⟨h₁, h₂, h₃⟩
      have := ih h₃
      omega
  exact hlast h.inOrder

/-- A token that was taken from an offset on, with the cursor behind it. -/
structure Took (tokens : List Token) (offset length : Nat) (k : Kind) (r : Token × Cursor) : Prop where
  kind : r.1.kind = k
  start : offset ≤ r.1.span.start
  proper : r.1.span.start < r.1.span.stop
  ahead : Ahead tokens r.1.span.stop r.2
  shorter : r.2.rest.length < length

theorem took_of_kind {k : Kind} (h : Ahead tokens offset c) (hk : k ≠ .eof) (hc : c.kind = k) :
    Took tokens offset c.rest.length k (c.current, c.next) := by
  obtain ⟨h₁, h₂, h₃, h₄⟩ := h.next (hc ▸ hk)
  exact ⟨hc, h₁, h₂, h₃, by show c.next.rest.length < _; omega⟩

theorem ensures_expect {k : Kind} (h : Ahead tokens offset c) (hk : k ≠ .eof) :
    Ensures (PointsTo tokens) (liftM (c.expect k)) (Took tokens offset c.rest.length k) := by
  unfold Cursor.expect
  split
  · next hc => exact took_of_kind h hk hc
  · exact h.pointsTo rfl

theorem ensures_expectDetailed {k : Kind} {m : String} (h : Ahead tokens offset c) (hk : k ≠ .eof) :
    Ensures (PointsTo tokens) (liftM (c.expectDetailed k m)) (Took tokens offset c.rest.length k) := by
  unfold Cursor.expectDetailed
  split
  · next hc => exact took_of_kind h hk hc
  · exact h.pointsTo rfl

/-! ## what the functions of the parser ensure -/

/-- A tree that was read from an offset on, with the cursor behind it. -/
structure Fits (tokens : List Token) (offset length : Nat) (r : Node × Cursor) : Prop where
  start : offset ≤ r.1.span.start
  proper : r.1.span.start < r.1.span.stop
  nested : r.1.Everywhere Node.Nested
  ahead : Ahead tokens r.1.span.stop r.2
  shorter : r.2.rest.length < length

theorem Fits.mono {length length' offset' : Nat} {r : Node × Cursor} (h : Fits tokens offset length r)
    (hoffset : offset' ≤ offset) (hlength : length ≤ length') : Fits tokens offset' length' r :=
  ⟨Nat.le_trans hoffset h.start, h.proper, h.nested, h.ahead, Nat.lt_of_lt_of_le h.shorter hlength⟩

/-- A token as a leaf. -/
theorem Took.fits {length : Nat} {k : Kind} {t : Token} (h : Took tokens offset length k (t, c)) :
    Fits tokens offset length (.leaf t, c) :=
  ⟨h.start, h.proper, Node.everywhere_nested_leaf t, h.ahead, h.shorter⟩

/-- A node around trees in a row: it stands where the first of them may begin. -/
theorem Fits.of_row {length a b : Nat} {n : Node} {xs : List Node} (hrow : Node.Row a xs b) (hperm : n.children.Perm xs)
    (hstart : offset ≤ n.span.start) (ha : n.span.start ≤ a) (hb : b ≤ n.span.stop)
    (hproper : n.span.start < n.span.stop) (hahead : Ahead tokens n.span.stop c) (hlength : c.rest.length < length) :
    Fits tokens offset length (n, c) :=
  ⟨hstart, hproper, Node.everywhere_nested hrow hperm ha hb, hahead, hlength⟩

/-- Trees that were read one behind the other, with the cursor behind them. -/
def Fills (tokens : List Token) (offset length : Nat) (r : List Node × Cursor) : Prop :=
  ∃ stop, Node.Row offset r.1 stop ∧ Ahead tokens stop r.2 ∧ r.2.rest.length ≤ length

theorem Ahead.fills_nil (h : Ahead tokens offset c) : Fills tokens offset c.rest.length ([], c) :=
  ⟨offset, Nat.le_refl _, h, Nat.le_refl _⟩

theorem Fills.mono {length length' offset' : Nat} {r : List Node × Cursor} (h : Fills tokens offset length r)
    (hoffset : offset' ≤ offset) (hlength : length ≤ length') : Fills tokens offset' length' r := by
  obtain ⟨stop, hrow, hahead, hshorter⟩ := h
  exact ⟨stop, hrow.mono hoffset (Nat.le_refl _), hahead, Nat.le_trans hshorter hlength⟩

/-- One more tree in front. -/
theorem Fills.cons {length : Nat} {x : Node} {xs : List Node} {d : Cursor}
    (h : Fills tokens x.span.stop c.rest.length (xs, d)) (hx : Fits tokens offset length (x, c)) :
    Fills tokens offset length (x :: xs, d) := by
  obtain ⟨stop, hrow, hahead, hshorter⟩ := h
  exact ⟨stop, ⟨hx.start, hx.proper, hx.nested, hrow⟩, hahead, Nat.le_trans hshorter (Nat.le_of_lt hx.shorter)⟩

/-- The names and types of parameters in their order. -/
def paramNodes (ps : List (Param Node)) : List Node := ps.flatMap fun p => [p.name, p.type]

end

/-- Within the bound, from tokens in order, the functions of the parser end as they should. -/
structure Safe (tokens : List Token) (fuel : Nat) : Prop where
  expression : ∀ {least offset c}, Ahead tokens offset c → 16 * c.rest.length + 3 ≤ fuel →
    Ensures (PointsTo tokens) (standard.expression fuel least c) (Fits tokens offset c.rest.length)
  item : ∀ {offset c}, Ahead tokens offset c → 16 * c.rest.length + 3 ≤ fuel →
    Ensures (PointsTo tokens) (standard.item fuel c) (Fits tokens offset c.rest.length)
  opening : ∀ {offset c}, Ahead tokens offset c → 16 * c.rest.length + 2 ≤ fuel →
    Ensures (PointsTo tokens) (standard.opening fuel c) (Fits tokens offset c.rest.length)
  extensions : ∀ {least offset length left c}, Fits tokens offset length (left, c) → 16 * c.rest.length + 1 ≤ fuel →
    Ensures (PointsTo tokens) (standard.extensions fuel least left c) (Fits tokens offset length)
  apply : ∀ {rule offset c}, Ahead tokens offset c → standard.prefixRule? c.kind = some rule →
    16 * c.rest.length + 1 ≤ fuel →
    Ensures (PointsTo tokens) (standard.apply fuel rule c) (Fits tokens offset c.rest.length)
  extend : ∀ {rule power offset length left c}, Fits tokens offset length (left, c) →
    standard.infixRule? c.kind = some (power, rule) → 16 * c.rest.length ≤ fuel →
    Ensures (PointsTo tokens) (standard.extend fuel rule power left c) (Fits tokens offset c.rest.length)
  blockItems : ∀ {offset c}, Ahead tokens offset c → 16 * c.rest.length + 4 ≤ fuel →
    Ensures (PointsTo tokens) (standard.blockItems fuel c) (Fills tokens offset c.rest.length)
  arguments : ∀ {offset c}, Ahead tokens offset c → 16 * c.rest.length + 4 ≤ fuel →
    Ensures (PointsTo tokens) (standard.arguments fuel c) (Fills tokens offset c.rest.length)
  parameters : ∀ {offset c}, Ahead tokens offset c → 16 * c.rest.length + 1 ≤ fuel →
    Ensures (PointsTo tokens) (standard.parameters fuel c) fun r => Fills tokens offset c.rest.length (paramNodes r.1, r.2)

section

variable {tokens : List Token} {fuel : Nat}

theorem Safe.zero : Safe tokens 0 where
  expression _ hf := by omega
  item _ hf := by omega
  opening _ hf := by omega
  extensions _ hf := by omega
  apply _ _ hf := by omega
  extend hleft hrule hf := by
    have := (hleft.ahead.next fun he => by simp [show Cursor.kind _ = _ from he, standard] at hrule).2.2.2
    dsimp only at this
    omega
  blockItems _ hf := by omega
  arguments _ hf := by omega
  parameters _ hf := by omega

theorem Safe.expression_succ (ih : Safe tokens fuel) {least : Power} {offset : Nat} {c : Cursor}
    (hc : Ahead tokens offset c) (hf : 16 * c.rest.length + 3 ≤ fuel + 1) :
    Ensures (PointsTo tokens) (standard.expression (fuel + 1) least c) (Fits tokens offset c.rest.length) := by
  unfold Grammar.expression
  refine (ih.opening hc (by omega)).bind ?_
  rintro ⟨left, d⟩ hleft
  have := hleft.shorter
  exact ih.extensions hleft (by simp only at this ⊢; omega)

theorem Safe.item_succ (ih : Safe tokens fuel) {offset : Nat} {c : Cursor}
    (hc : Ahead tokens offset c) (hf : 16 * c.rest.length + 3 ≤ fuel + 1) :
    Ensures (PointsTo tokens) (standard.item (fuel + 1) c) (Fits tokens offset c.rest.length) := by
  unfold Grammar.item
  refine (ih.opening hc (by omega)).bind ?_
  rintro ⟨left, d⟩ hleft
  have := hleft.shorter
  dsimp only at this ⊢
  split
  · exact ensures_pure hleft
  · exact ih.extensions hleft (by omega)

theorem Safe.opening_succ (ih : Safe tokens fuel) {offset : Nat} {c : Cursor}
    (hc : Ahead tokens offset c) (hf : 16 * c.rest.length + 2 ≤ fuel + 1) :
    Ensures (PointsTo tokens) (standard.opening (fuel + 1) c) (Fits tokens offset c.rest.length) := by
  unfold Grammar.opening
  split
  · next rule hrule => exact ih.apply hc hrule (by omega)
  · exact ensures_throw (hc.pointsTo rfl)

theorem Safe.extensions_succ (ih : Safe tokens fuel) {least : Power} {offset length : Nat} {left : Node} {c : Cursor}
    (hleft : Fits tokens offset length (left, c)) (hf : 16 * c.rest.length + 1 ≤ fuel + 1) :
    Ensures (PointsTo tokens) (standard.extensions (fuel + 1) least left c) (Fits tokens offset length) := by
  unfold Grammar.extensions
  split
  · exact ensures_pure hleft
  · next power rule hrule =>
    split
    · exact ensures_pure hleft
    · refine (ih.extend hleft hrule (by omega)).bind ?_
      rintro ⟨n, d⟩ hn
      have hshorter : d.rest.length < c.rest.length := hn.shorter
      have hlength : c.rest.length < length := hleft.shorter
      have hn := hn.mono (Nat.le_refl _) (Nat.le_of_lt hlength)
      dsimp only
      split
      · exact ensures_pure hn
      · exact ih.extensions hn (by omega)

/-- An operator between two operands. -/
theorem ensures_infix {offset a length length' k : Nat} {op : Token} {left right : Node} {c d : Cursor}
    (hleft : Fits tokens offset length (left, c)) (hright : Fits tokens a k (right, d)) (ha : left.span.stop ≤ a)
    (hk : k ≤ length') :
    Ensures (PointsTo tokens) (do
      let span ← liftM (left.span.extend right.span)
      return ({ span, form := .infixOp op left right }, d)) (Fits tokens offset length') := by
  have hstart : left.span.stop ≤ right.span.start := Nat.le_trans ha hright.start
  refine (ensures_extend hstart).bind ?_
  rintro span rfl
  have hl : left.span.start < left.span.stop := hleft.proper
  have hr : right.span.start < right.span.stop := hright.proper
  have hrow : Node.Row left.span.start [left, right] right.span.stop :=
    ⟨Nat.le_refl _, hl, hleft.nested, .single hstart hr hright.nested⟩
  exact ensures_pure (.of_row hrow (.refl _) hleft.start (Nat.le_refl _) (Nat.le_refl _) (by dsimp only; omega)
    hright.ahead (Nat.lt_of_lt_of_le hright.shorter hk))

theorem Safe.extend_succ (ih : Safe tokens fuel) {rule : InfixRule} {power : Power} {offset length : Nat} {left : Node}
    {c : Cursor} (hleft : Fits tokens offset length (left, c)) (hrule : standard.infixRule? c.kind = some (power, rule))
    (hf : 16 * c.rest.length ≤ fuel + 1) :
    Ensures (PointsTo tokens) (standard.extend (fuel + 1) rule power left c) (Fits tokens offset c.rest.length) := by
  have hkind : c.kind ≠ .eof := fun he => by simp [he, standard] at hrule
  have hahead : Ahead tokens left.span.stop c := hleft.ahead
  have hleft_proper : left.span.start < left.span.stop := hleft.proper
  obtain ⟨hbehind, hproper, hnext, hlength⟩ := hahead.next hkind
  have hafter : left.span.stop ≤ c.current.span.stop := by omega
  unfold Grammar.extend
  cases rule with
  | binary =>
    refine (ih.expression hnext (by omega)).bind ?_
    rintro ⟨right, d⟩ hright
    exact ensures_infix hleft hright hafter (by omega)
  | assignment =>
    refine (ih.expression hnext (by omega)).bind ?_
    rintro ⟨right, d⟩ hright
    exact ensures_infix hleft hright hafter (by omega)
  | call =>
    refine (ih.arguments hnext (by omega)).bind ?_
    rintro ⟨xs, d⟩ ⟨stop, hrow, hd, hshorter⟩
    have hrow : Node.Row left.span.start (left :: xs) stop :=
      ⟨Nat.le_refl _, hleft_proper, hleft.nested, hrow.mono hafter (Nat.le_refl _)⟩
    refine (ensures_expect hd (by decide)).bind ?_
    rintro ⟨closer, e⟩ hcloser
    have hclose : stop ≤ closer.span.start := hcloser.start
    have hcloser_proper : closer.span.start < closer.span.stop := hcloser.proper
    have := hrow.2.2.2.le
    refine (ensures_extend (by omega)).bind ?_
    rintro span rfl
    have hshorter : d.rest.length ≤ c.next.rest.length := hshorter
    have := hcloser.shorter
    exact ensures_pure (.of_row hrow (.refl _) hleft.start (Nat.le_refl _) (by dsimp only; omega)
      (by dsimp only; omega) hcloser.ahead (by dsimp only at *; omega))
  | statement =>
    refine (ensures_extend hbehind).bind ?_
    rintro span rfl
    exact ensures_pure (.of_row (.single (Nat.le_refl _) hleft_proper hleft.nested) (.refl _) hleft.start (Nat.le_refl _)
      hafter (by dsimp only; omega) hnext (by omega))

theorem Safe.blockItems_succ (ih : Safe tokens fuel) {offset : Nat} {c : Cursor} (hc : Ahead tokens offset c)
    (hf : 16 * c.rest.length + 4 ≤ fuel + 1) :
    Ensures (PointsTo tokens) (standard.blockItems (fuel + 1) c) (Fills tokens offset c.rest.length) := by
  unfold Grammar.blockItems
  split
  · exact ensures_pure hc.fills_nil
  · split
    · exact ensures_throw (hc.pointsTo rfl)
    · refine (ih.item hc (by omega)).bind ?_
      rintro ⟨x, d⟩ hx
      have hshorter : d.rest.length < c.rest.length := hx.shorter
      refine (ih.blockItems hx.ahead (by dsimp only; omega)).bind ?_
      rintro ⟨xs, e⟩ hxs
      exact ensures_pure (hxs.cons hx)

theorem Safe.arguments_succ (ih : Safe tokens fuel) {offset : Nat} {c : Cursor} (hc : Ahead tokens offset c)
    (hf : 16 * c.rest.length + 4 ≤ fuel + 1) :
    Ensures (PointsTo tokens) (standard.arguments (fuel + 1) c) (Fills tokens offset c.rest.length) := by
  unfold Grammar.arguments
  split
  · exact ensures_pure hc.fills_nil
  · split
    · exact ensures_throw (hc.pointsTo rfl)
    · refine (ih.expression hc (by omega)).bind ?_
      rintro ⟨x, d⟩ hx
      have hd : Ahead tokens x.span.stop d := hx.ahead
      have hshorter : d.rest.length < c.rest.length := hx.shorter
      dsimp only
      split
      · next hcomma =>
        obtain ⟨hstart, hproper, hnext, hlength⟩ := hd.next (by simp [hcomma])
        refine (ih.arguments hnext (by omega)).bind ?_
        rintro ⟨xs, e⟩ hxs
        exact ensures_pure ((hxs.mono (by omega) (by omega)).cons hx)
      · exact ensures_pure (hd.fills_nil.cons hx)
      · exact ensures_throw (hd.pointsTo rfl)

theorem ensures_typeExpression {offset : Nat} {c : Cursor} (hc : Ahead tokens offset c) :
    Ensures (PointsTo tokens) (standard.typeExpression (fuel + 2) c) fun r =>
      ∃ t, r.1 = .leaf t ∧ Took tokens offset c.rest.length .identifier (t, r.2) := by
  unfold Grammar.typeExpression
  split
  · next rule hrule =>
    obtain ⟨-, rfl⟩ := Grammar.typeRule?_eq_some_iff.1 hrule
    unfold Grammar.apply
    refine (ensures_expect hc (by decide)).bind ?_
    rintro ⟨t, d⟩ ht
    exact ensures_pure ⟨t, rfl, ht⟩
  · exact ensures_throw (hc.pointsTo rfl)

/-- A parameter, with what stands behind it. -/
theorem fills_parameter {offset length : Nat} {name colon type : Token} {ps : List (Param Node)} {c d e f : Cursor}
    (hname : Took tokens offset length .identifier (name, c))
    (hcolon : Took tokens name.span.stop c.rest.length .colon (colon, d))
    (htype : Took tokens colon.span.stop d.rest.length .identifier (type, e))
    (hps : Fills tokens type.span.stop e.rest.length (paramNodes ps, f)) :
    Fills tokens offset length (paramNodes (⟨.leaf name, .leaf type⟩ :: ps), f) := by
  have h₁ : name.span.stop ≤ colon.span.start := hcolon.start
  have h₂ : colon.span.start < colon.span.stop := hcolon.proper
  have h₃ : d.rest.length < c.rest.length := hcolon.shorter
  have hrest := (hps.cons htype.fits).mono (show name.span.stop ≤ _ by omega) (Nat.le_of_lt h₃)
  exact hrest.cons hname.fits

theorem Safe.parameters_succ (ih : Safe tokens fuel) {offset : Nat} {c : Cursor} (hc : Ahead tokens offset c)
    (hf : 16 * c.rest.length + 1 ≤ fuel + 1) :
    Ensures (PointsTo tokens) (standard.parameters (fuel + 1) c) fun r =>
      Fills tokens offset c.rest.length (paramNodes r.1, r.2) := by
  unfold Grammar.parameters
  split
  · exact ensures_pure hc.fills_nil
  · refine (ensures_expectDetailed hc (by decide)).bind ?_
    rintro ⟨name, d₁⟩ hname
    have h₁ : d₁.rest.length < c.rest.length := hname.shorter
    refine (ensures_expect hname.ahead (by decide)).bind ?_
    rintro ⟨colon, d₂⟩ hcolon
    have h₂ : d₂.rest.length < d₁.rest.length := hcolon.shorter
    obtain ⟨fuel, rfl⟩ : ∃ k, fuel = k + 2 := ⟨fuel - 2, by omega⟩
    refine (ensures_typeExpression hcolon.ahead).bind ?_
    rintro ⟨-, d₃⟩ ⟨type, rfl, htype⟩
    have h₃ : d₃.rest.length < d₂.rest.length := htype.shorter
    dsimp only
    split
    · next hcomma =>
      have hd : Ahead tokens type.span.stop d₃ := htype.ahead
      obtain ⟨hstart, hproper, hnext, hlength⟩ := hd.next (by simp [hcomma])
      refine (ih.parameters hnext (by omega)).bind ?_
      rintro ⟨ps, e⟩ hps
      exact ensures_pure (fills_parameter hname hcolon htype (hps.mono (by omega) (by dsimp only; omega)))
    · exact ensures_pure (fills_parameter hname hcolon htype htype.ahead.fills_nil)

theorem Safe.apply_operator (ih : Safe tokens fuel) {offset : Nat} {c : Cursor} (hc : Ahead tokens offset c)
    (hkind : c.kind = .dash ∨ c.kind = .not) (hf : 16 * c.rest.length + 1 ≤ fuel + 1) :
    Ensures (PointsTo tokens) (standard.apply (fuel + 1) .operator c) (Fits tokens offset c.rest.length) := by
  obtain ⟨hstart, hproper, hnext, hlength⟩ := hc.next (by rcases hkind with h | h <;> simp [h])
  unfold Grammar.apply
  refine (ih.expression hnext (by omega)).bind ?_
  rintro ⟨x, d⟩ hx
  have hbehind : c.current.span.stop ≤ x.span.start := hx.start
  have hx_proper : x.span.start < x.span.stop := hx.proper
  refine (ensures_extend hbehind).bind ?_
  rintro span rfl
  exact ensures_pure (.of_row (.single (Nat.le_refl _) hx_proper hx.nested) (.refl _) hstart (by dsimp only; omega)
    (Nat.le_refl _) (by dsimp only; omega) hx.ahead (Nat.lt_of_lt_of_le hx.shorter (by omega)))

/-- A grouping spans its parentheses, which only makes room around the children of what is inside. -/
theorem Safe.apply_grouping (ih : Safe tokens fuel) {offset : Nat} {c : Cursor} (hc : Ahead tokens offset c)
    (hkind : c.kind = .openParen) (hf : 16 * c.rest.length + 1 ≤ fuel + 1) :
    Ensures (PointsTo tokens) (standard.apply (fuel + 1) .grouping c) (Fits tokens offset c.rest.length) := by
  obtain ⟨hstart, hproper, hnext, hlength⟩ := hc.next (by simp [hkind])
  unfold Grammar.apply
  refine (ih.expression hnext (by omega)).bind ?_
  rintro ⟨x, d⟩ hx
  refine (ensures_expectDetailed hx.ahead (by decide)).bind ?_
  rintro ⟨closer, e⟩ hcloser
  have h₁ : c.current.span.stop ≤ x.span.start := hx.start
  have h₂ : x.span.start < x.span.stop := hx.proper
  have h₃ : x.span.stop ≤ closer.span.start := hcloser.start
  have h₄ : closer.span.start < closer.span.stop := hcloser.proper
  have h₅ : d.rest.length < c.next.rest.length := hx.shorter
  have h₆ : e.rest.length < d.rest.length := hcloser.shorter
  refine (ensures_extend (by omega)).bind ?_
  rintro span rfl
  refine ensures_pure ⟨hstart, ?_, hx.nested.widened ?_ ?_, hcloser.ahead, ?_⟩ <;> dsimp only <;> omega

theorem Safe.apply_block (ih : Safe tokens fuel) {offset : Nat} {c : Cursor} (hc : Ahead tokens offset c)
    (hf : 16 * c.rest.length + 1 ≤ fuel + 1) :
    Ensures (PointsTo tokens) (standard.apply (fuel + 1) .block c) (Fits tokens offset c.rest.length) := by
  unfold Grammar.apply
  refine (ensures_expect hc (by decide)).bind ?_
  rintro ⟨opener, d⟩ hopener
  have h₁ : opener.span.start < opener.span.stop := hopener.proper
  have h₂ : d.rest.length < c.rest.length := hopener.shorter
  refine (ih.blockItems hopener.ahead (by dsimp only; omega)).bind ?_
  rintro ⟨xs, e⟩ ⟨stop, hrow, he, h₃⟩
  have h₃ : e.rest.length ≤ d.rest.length := h₃
  refine (ensures_expect he (by decide)).bind ?_
  rintro ⟨closer, f⟩ hcloser
  have h₄ : stop ≤ closer.span.start := hcloser.start
  have h₅ : closer.span.start < closer.span.stop := hcloser.proper
  have h₆ : f.rest.length < e.rest.length := hcloser.shorter
  have h₇ : opener.span.stop ≤ stop := hrow.le
  refine (ensures_extend (by omega)).bind ?_
  rintro span rfl
  have hchildren : (Form.ofItems xs).parts = xs := by
    obtain ⟨items, trailing, hform, hparts, -⟩ := Form.exists_of_ofItems xs
    rw [hform]
    exact hparts
  have ha : opener.span.start ≤ opener.span.stop := by omega
  have hb : stop ≤ closer.span.stop := by omega
  have hproper : opener.span.start < closer.span.stop := by omega
  have hlength : f.rest.length < c.rest.length := by omega
  exact ensures_pure (.of_row hrow (.of_eq hchildren) hopener.start ha hb hproper hcloser.ahead hlength)

theorem Safe.apply_functionDef (ih : Safe tokens fuel) {offset : Nat} {c : Cursor} (hc : Ahead tokens offset c)
    (hf : 16 * c.rest.length + 1 ≤ fuel + 1) :
    Ensures (PointsTo tokens) (standard.apply (fuel + 1) .functionDef c) (Fits tokens offset c.rest.length) := by
  unfold Grammar.apply
  refine (ensures_expect hc (by decide)).bind ?_
  rintro ⟨word, d₁⟩ hword
  have h₁ : d₁.rest.length < c.rest.length := hword.shorter
  refine (ensures_expectDetailed hword.ahead (by decide)).bind ?_
  rintro ⟨name, d₂⟩ hname
  have h₂ : d₂.rest.length < d₁.rest.length := hname.shorter
  refine (ensures_expect hname.ahead (by decide)).bind ?_
  rintro ⟨opener, d₃⟩ hopener
  have h₃ : d₃.rest.length < d₂.rest.length := hopener.shorter
  refine (ih.parameters hopener.ahead (by dsimp only; omega)).bind ?_
  rintro ⟨ps, d₄⟩ ⟨stop, hrow, h, h₄⟩
  have h₄ : d₄.rest.length ≤ d₃.rest.length := h₄
  refine (ensures_expect h (by decide)).bind ?_
  rintro ⟨closer, d₅⟩ hcloser
  have h₅ : d₅.rest.length < d₄.rest.length := hcloser.shorter
  refine (ensures_expect hcloser.ahead (by decide)).bind ?_
  rintro ⟨arrow, d₆⟩ harrow
  have h₆ : d₆.rest.length < d₅.rest.length := harrow.shorter
  obtain ⟨fuel, rfl⟩ : ∃ k, fuel = k + 2 := ⟨fuel - 2, by omega⟩
  refine (ensures_typeExpression harrow.ahead).bind ?_
  rintro ⟨-, d₇⟩ ⟨result, rfl, hresult⟩
  have h₇ : d₇.rest.length < d₆.rest.length := hresult.shorter
  -- the tokens in front of the return type, in their order
  have hbefore : word.span.stop ≤ opener.span.stop ∧ opener.span.stop ≤ stop ∧ stop ≤ result.span.start := by
    have := hname.start
    have := hname.proper
    have := hopener.start
    have := hopener.proper
    have := hrow.le
    have := hcloser.start
    have := hcloser.proper
    have := harrow.start
    have := harrow.proper
    have := hresult.start
    dsimp only at *
    omega
  have hword_proper : word.span.start < word.span.stop := hword.proper
  have hresult_proper : result.span.start < result.span.stop := hresult.proper
  have hrow : Node.Row opener.span.stop (paramNodes ps ++ [.leaf result]) result.span.stop :=
    hrow.append (.single hbefore.2.2 hresult_proper (Node.everywhere_nested_leaf result))
  have ha : word.span.start ≤ opener.span.stop := by omega
  dsimp only
  split
  · next hbrace =>
    refine (ih.apply hresult.ahead (by rw [hbrace]; rfl) (by dsimp only; omega)).bind ?_
    rintro ⟨body, e⟩ hbody
    have h₈ : e.rest.length < d₇.rest.length := hbody.shorter
    have hbody_start : result.span.stop ≤ body.span.start := hbody.start
    have hbody_proper : body.span.start < body.span.stop := hbody.proper
    refine (ensures_extend (by dsimp only; omega)).bind ?_
    rintro span rfl
    have hperm : (paramNodes ps ++ [body] ++ [Node.leaf result]).Perm (paramNodes ps ++ [.leaf result] ++ [body]) := by
      rw [List.append_assoc, List.append_assoc]
      exact (List.Perm.swap _ _ []).append_left _
    have hrow := hrow.append (.single hbody_start hbody_proper hbody.nested)
    have hproper : word.span.start < body.span.stop := by omega
    have hlength : e.rest.length < c.rest.length := by omega
    exact ensures_pure (.of_row hrow hperm hword.start ha (Nat.le_refl _) hproper hbody.ahead hlength)
  · refine (ensures_extend (by show _ ≤ result.span.start; omega)).bind ?_
    rintro span rfl
    have hperm : (paramNodes ps ++ [] ++ [Node.leaf result]).Perm (paramNodes ps ++ [Node.leaf result]) := by
      rw [List.append_nil]
    have hproper : word.span.start < result.span.stop := by omega
    have hlength : d₇.rest.length < c.rest.length := by omega
    exact ensures_pure (.of_row hrow hperm hword.start ha (Nat.le_refl _) hproper hresult.ahead hlength)

theorem Safe.apply_variableDef (ih : Safe tokens fuel) {offset : Nat} {c : Cursor} (hc : Ahead tokens offset c)
    (hf : 16 * c.rest.length + 1 ≤ fuel + 1) :
    Ensures (PointsTo tokens) (standard.apply (fuel + 1) .variableDef c) (Fits tokens offset c.rest.length) := by
  unfold Grammar.apply
  refine (ensures_expect hc (by decide)).bind ?_
  rintro ⟨word, d₁⟩ hword
  have h₁ : d₁.rest.length < c.rest.length := hword.shorter
  refine (ensures_expectDetailed hword.ahead (by decide)).bind ?_
  rintro ⟨name, d₂⟩ hname
  have h₂ : d₂.rest.length < d₁.rest.length := hname.shorter
  refine (ensures_expectDetailed hname.ahead (by decide)).bind ?_
  rintro ⟨colon, d₃⟩ hcolon
  have h₃ : d₃.rest.length < d₂.rest.length := hcolon.shorter
  obtain ⟨fuel, rfl⟩ : ∃ k, fuel = k + 2 := ⟨fuel - 2, by omega⟩
  refine (ensures_typeExpression hcolon.ahead).bind ?_
  rintro ⟨-, d₄⟩ ⟨type, rfl, htype⟩
  have h₄ : d₄.rest.length < d₃.rest.length := htype.shorter
  have hname_proper : name.span.start < name.span.stop := hname.proper
  have htype_proper : type.span.start < type.span.stop := htype.proper
  have hbetween : word.span.start < word.span.stop ∧ word.span.stop ≤ name.span.start ∧
      name.span.stop ≤ type.span.start := by
    have := hword.proper
    have := hname.start
    have := hcolon.start
    have := hcolon.proper
    have := htype.start
    dsimp only at *
    omega
  have ha : word.span.start ≤ name.span.start := by omega
  have hrow : Node.Row name.span.start [Node.leaf name, Node.leaf type] type.span.stop :=
    ⟨Nat.le_refl _, hname_proper, Node.everywhere_nested_leaf name,
      .single hbetween.2.2 htype_proper (Node.everywhere_nested_leaf type)⟩
  dsimp only
  split
  · next hequals =>
    have hd : Ahead tokens type.span.stop d₄ := htype.ahead
    obtain ⟨hstart, hproper, hnext, hlength⟩ := hd.next (by simp [hequals])
    refine (ih.expression hnext (by omega)).bind ?_
    rintro ⟨x, e⟩ hx
    have h₅ : e.rest.length < d₄.next.rest.length := hx.shorter
    have hx_start : d₄.current.span.stop ≤ x.span.start := hx.start
    have hx_proper : x.span.start < x.span.stop := hx.proper
    have hafter : type.span.stop ≤ x.span.start := by omega
    refine (ensures_extend (by dsimp only; omega)).bind ?_
    rintro span rfl
    have hrow := hrow.append (.single hafter hx_proper hx.nested)
    have hproper : word.span.start < x.span.stop := by omega
    have hlength : e.rest.length < c.rest.length := by omega
    exact ensures_pure (.of_row hrow (.refl _) hword.start ha (Nat.le_refl _) hproper hx.ahead hlength)
  · refine (ensures_extend (by show _ ≤ type.span.start; omega)).bind ?_
    rintro span rfl
    have hproper : word.span.start < type.span.stop := by omega
    have hlength : d₄.rest.length < c.rest.length := by omega
    exact ensures_pure (.of_row hrow (.refl _) hword.start ha (Nat.le_refl _) hproper htype.ahead hlength)

theorem Safe.apply_succ (ih : Safe tokens fuel) {rule : PrefixRule} {offset : Nat} {c : Cursor}
    (hc : Ahead tokens offset c) (hrule : standard.prefixRule? c.kind = some rule)
    (hf : 16 * c.rest.length + 1 ≤ fuel + 1) :
    Ensures (PointsTo tokens) (standard.apply (fuel + 1) rule c) (Fits tokens offset c.rest.length) := by
  rcases Grammar.prefixRule?_eq_some_iff.1 hrule with
    ⟨hk, rfl⟩ | ⟨hk, rfl⟩ | ⟨hk, rfl⟩ | ⟨-, rfl⟩ | ⟨-, rfl⟩ | ⟨-, rfl⟩
  · have hne : c.kind ≠ .eof := fun he => by simp [he, Grammar.primaryKinds] at hk
    simp only [Grammar.apply]
    split
    case h_5 => exact ensures_throw (hc.pointsTo rfl)
    all_goals exact ensures_pure (took_of_kind hc hne rfl).fits
  · exact ih.apply_operator hc hk hf
  · exact ih.apply_grouping hc hk hf
  · exact ih.apply_block hc hf
  · exact ih.apply_functionDef hc hf
  · exact ih.apply_variableDef hc hf

/-- Every rule takes a token before it comes to itself again, so a bound of sixteen calls for each token suffices. -/
theorem Safe.all : ∀ fuel, Safe tokens fuel
  | 0 => .zero
  | fuel + 1 =>
    have ih := Safe.all fuel
    { expression := ih.expression_succ
      item := ih.item_succ
      opening := ih.opening_succ
      extensions := ih.extensions_succ
      apply := ih.apply_succ
      extend := ih.extend_succ
      blockItems := ih.blockItems_succ
      arguments := ih.arguments_succ
      parameters := ih.parameters_succ }

theorem ensures_items {offset : Nat} {c : Cursor} (hc : Ahead tokens offset c) (hf : 16 * c.rest.length + 4 ≤ fuel) :
    Ensures (PointsTo tokens) (standard.items fuel c) fun xs => Node.Row offset xs c.eof.span.start := by
  induction fuel generalizing offset c with
  | zero => omega
  | succ fuel ih =>
    unfold Grammar.items
    split
    · refine ((Safe.all fuel).item hc (by omega)).bind ?_
      rintro ⟨x, d⟩ hx
      have hshorter : d.rest.length < c.rest.length := hx.shorter
      refine (ih hx.ahead (by dsimp only; omega)).bind ?_
      intro xs hxs
      exact ensures_pure ⟨hx.start, hx.proper, hx.nested, hc.eof_eq hx.ahead ▸ hxs⟩
    · exact ensures_pure hc.le_eof

end

/-! ## spans of a source -/

/-- `scan` with every span made by `Span.of?`, which refuses one that ends before it starts. -/
def scanChecked (offset : Nat) (cs : List Char) : Except Failure (List Token) :=
  match cs with
  | [] => .ok [.eof offset]
  | c :: cs =>
    match h : Pattern.first? (c :: cs) with
    | none => do
      let span ← Span.of? offset (offset + c.utf8Size)
      throw (.error ⟨.unrecognisedToken c.toString, span, none⟩)
    | some (p, taken, rest) => do
      have := Pattern.length_lt_of_split? (Pattern.split?_of_first? h)
      let stop := offset + Source.utf8Length taken
      let span ← Span.of? offset stop
      let token ← p.read? taken span
      let tokens ← scanChecked stop rest
      return token.toList ++ tokens
termination_by cs.length
decreasing_by exact this

/-- `parseSource` with every span made by `Span.of?` or `Span.extend`. -/
def parseChecked (source : String) : Except Failure Node := do
  let tokens ← scanChecked 0 source.toList
  let c := Cursor.start tokens source.utf8ByteSize
  let items ← standard.items c.fuel c
  let span ← Span.of? 0 source.utf8ByteSize
  return { span, form := .root items }

theorem liftM_of? {start stop : Nat} (h : start ≤ stop) :
    (liftM (Span.of? start stop) : Except Failure Span) = .ok ⟨start, stop⟩ := by
  rw [Span.of?, if_pos h]
  rfl

theorem liftM_bind {α β : Type} (x : Except Error α) (f : α → Except Error β) :
    (liftM (x >>= f) : Except Failure β) = liftM x >>= fun a => liftM (f a) := by
  cases x <;> rfl

theorem scan_none {offset : Nat} {c : Char} {cs : List Char} (h : Pattern.first? (c :: cs) = none) :
    scan offset (c :: cs) = .error ⟨.unrecognisedToken c.toString, ⟨offset, offset + c.utf8Size⟩, none⟩ := by
  rw [scan]
  split
  · rfl
  · next h' => simp [h] at h'

theorem scanChecked_eq (offset : Nat) (cs : List Char) : scanChecked offset cs = liftM (scan offset cs) := by
  induction offset, cs using scan.induct with
  | case1 offset =>
    rw [scanChecked, scan]
    rfl
  | case2 offset c cs h =>
    rw [scanChecked, scan_none h]
    split
    · rw [liftM_of? (Nat.le_add_right _ _)]
      rfl
    · next h' => simp [h] at h'
  | case3 offset c cs p taken rest h _ stop ih =>
    rw [scanChecked, scan_eq h]
    split
    · next h' => simp [h] at h'
    · next h' =>
      obtain ⟨rfl, rfl, rfl⟩ : _ ∧ _ ∧ _ := by simpa [h] using h'
      simp only [liftM_of? (Nat.le_add_right offset _), liftM_bind]
      show (do
        let token ← (liftM (p.read? taken ⟨offset, stop⟩) : Except Failure (Option Token))
        let tokens ← scanChecked stop rest
        return token.toList ++ tokens) = _
      rw [ih]
      rfl

theorem parseChecked_eq (source : String) : parseChecked source = parseSource source := by
  unfold parseChecked parseSource parse tokenize
  rw [scanChecked_eq, liftM_of? (Nat.zero_le _)]
  rfl

theorem InOrder.snoc {offset : Nat} {ts : List Token} {t u : Token} (h : InOrder offset (ts ++ [t]))
    (hu : t.span.stop ≤ u.span.start) (hproper : u.span.start ≤ u.span.stop) : InOrder offset (ts ++ [t] ++ [u]) := by
  induction ts generalizing offset with
  | nil => exact ⟨h.1, h.2.1, hu, hproper, trivial⟩
  | cons x xs ih => exact ⟨h.1, h.2.1, ih h.2.2⟩

/-- The tokens of a source are in order, as is its end behind them. -/
theorem ahead_of_tokenize {source : String} {tokens : List Token} (h : tokenize source = .ok tokens) :
    Ahead (tokens ++ [.eof source.utf8ByteSize]) 0 (.start tokens source.utf8ByteSize) := by
  obtain ⟨body, rfl, hbody⟩ := (tokenize_partitions h).covered
  refine ⟨rfl, (scan_inOrder h).snoc (Nat.le_refl _) (Nat.le_refl _), fun t ht hne => ?_, List.suffix_refl _⟩
  rcases List.mem_append.1 ht with ht | ht
  · obtain ⟨text, rest, -, hproper, -⟩ := hbody t ht
    exact hproper
  · exact absurd (List.mem_singleton.1 ht ▸ rfl) hne

/-- The parser reads the tokens of a source or says at which of them it cannot go on. -/
theorem ensures_parse {source : String} {tokens : List Token} (h : tokenize source = .ok tokens) :
    Ensures (PointsTo (tokens ++ [.eof source.utf8ByteSize])) (parse tokens source.utf8ByteSize) fun n =>
      n.span = ⟨0, source.utf8ByteSize⟩ ∧ n.Everywhere Node.Nested := by
  refine (ensures_items (ahead_of_tokenize h) (show 16 * tokens.length + 4 ≤ 16 * (tokens.length + 1) by omega)).bind ?_
  intro xs hxs
  exact ensures_pure ⟨rfl, Node.everywhere_nested hxs (.refl _) (Nat.le_refl _) (Nat.le_refl _)⟩

/-- **Spans are never joined in the wrong order, and the nodes of a tree are nested as their spans are.** Reading a
source ends with a tree or with an error of the program, and it makes no difference whether spans are checked as they
are made. -/
theorem spans_nested (source : String) : parseChecked source = parseSource source ∧
    ((∃ n, parseSource source = .ok n ∧ n.span = ⟨0, source.utf8ByteSize⟩ ∧ n.Everywhere Node.Nested) ∨
      ∃ e, parseSource source = .error (.error e)) := by
  refine ⟨parseChecked_eq source, ?_⟩
  cases htokens : tokenize source with
  | error e => exact .inr ⟨e, by simp only [parseSource, htokens]; rfl⟩
  | ok tokens =>
    have hparse : parseSource source = parse tokens source.utf8ByteSize := by simp only [parseSource, htokens]; rfl
    have hends := ensures_parse htokens
    rw [hparse]
    revert hends
    rcases parse tokens source.utf8ByteSize with (e | _ | _) | n
    · exact fun _ => .inr ⟨e, rfl⟩
    · exact False.elim
    · exact False.elim
    · rintro ⟨hspan, hnested⟩
      exact .inl ⟨n, rfl, hspan, hnested⟩

end LetFn
