import LetFn.Proofs.Check.Passes
import LetFn.Proofs.Tree.Revisions
import LetFn.Proofs.Types.Interning

/-!
# The type of a calculation

A calculation is built from names, literals and calls by signs and by `+ - * /`. Arithmetic goes through it from the
leaves upwards, raises the operands of every operator to one type and stops at the first that is no number. In the end
only the types of the leaves count: there is a type if all of them are numeric, and it is the highest of them.

* `Arithmetical n leaves` — `n` is built over the leaves, from left to right;
* `Highest ctx ts t` — all of the types widen to `t`, which is one of them;
* `Calculation ctx n leaves` — an operator stands at the top, and nothing is wrong inside of the leaves.

Main facts: `Arithmetical.highest`, `Arithmetical.succeeds`, `calculation_by_leaves`.
-/

namespace LetFn.Check

open Node (Revised)

variable {ctx : Context} {n n' m : Node} {leaves others : List Node} {a b t u : TypeId} {ts us : List TypeId}

/-! ## the highest type -/

/-- All of the types widen to `t`, which is one of them. -/
def Highest (ctx : Context) (ts : List TypeId) (t : TypeId) : Prop := t ∈ ts ∧ ∀ u ∈ ts, ctx.coerces u t = true

theorem Highest.unique (h : Highest ctx ts t) (h' : Highest ctx ts u) : t = u :=
  Context.coerces_antisymm (h'.2 t h.1) (h.2 u h'.1)

theorem Highest.perm (h : Highest ctx ts t) (hperm : ts.Perm us) : Highest ctx us t :=
  ⟨hperm.subset h.1, fun u hu => h.2 u (hperm.symm.subset hu)⟩

/-- The higher one of two highest types is the highest of all. -/
theorem Highest.append (hn : ctx.types.Nodup) (ha : Highest ctx ts a) (hb : Highest ctx us b)
    (ht : ctx.promote a b = some t) : Highest ctx (ts ++ us) t := by
  have hjoin := Context.join_of_promote hn ht
  constructor
  · rcases Context.eq_or_eq_of_promote ht with rfl | rfl
    · exact List.mem_append_left _ ha.1
    · exact List.mem_append_right _ hb.1
  · intro u hu
    rcases List.mem_append.1 hu with hu | hu
    · exact Context.coerces_trans (ha.2 u hu) hjoin.left
    · exact Context.coerces_trans (hb.2 u hu) hjoin.right

theorem isNumeric_of_coerces (h : ctx.coerces a b = true) (hb : ctx.isNumeric b = true) : ctx.isNumeric a = true := by
  rcases Context.coerces_iff.1 h with rfl | ⟨r, r', ha, -, -⟩
  · exact hb
  · exact Context.isNumeric_iff.2 ⟨r, ha⟩

/-! ## calculations -/

/-- A tree of signs and of `+ - * /` over literals, names and calls, which are listed from left to right. -/
inductive Arithmetical : Node → List Node → Prop where
  | leaf {n : Node} (bare : n.tag = .literal ∨ n.tag = .functionCall) : Arithmetical n [n]
  | sign {span : Span} {scope : Option ScopeId} {type : Option TypeId} {operator : Token} {operand : Node}
      {leaves : List Node} (dash : operator.kind = .dash) (inner : Arithmetical operand leaves) :
      Arithmetical ⟨span, scope, type, .prefixOp operator operand⟩ leaves
  | operation {span : Span} {scope : Option ScopeId} {type : Option TypeId} {operator : Token} {left right : Node}
      {before behind : List Node} (arithmetic : operator.kind.isArithmetic = true) (first : Arithmetical left before)
      (second : Arithmetical right behind) :
      Arithmetical ⟨span, scope, type, .infixOp operator left right⟩ (before ++ behind)

/-- The types of the leaves. -/
def leafTypes (leaves : List Node) : List TypeId := leaves.map Node.typeId

/-- Arithmetic does not look at the types of literals, names and calls. -/
theorem typeId_of_bare (hbare : n.tag = .literal ∨ n.tag = .functionCall) (h : arithmetic ctx n = .ok n') :
    n'.typeId = n.typeId := by
  obtain ⟨form, hform, hraised⟩ := raised_of_arithmetic h
  have htag : form.tag = n.tag := hform.tag
  cases form with
  | literal token => exact hraised
  | functionCall callee arguments => exact hraised
  | _ => exact absurd (htag ▸ hbare) (by simp [Form.tag])

/-- What has passed has the highest type of its leaves. -/
theorem Arithmetical.highest (hn : ctx.types.Nodup) (h : Arithmetical n leaves) (hok : arithmetic ctx n = .ok n') :
    Highest ctx (leafTypes leaves) n'.typeId := by
  induction h generalizing n' with
  | @leaf n bare =>
    rw [typeId_of_bare bare hok]
    refine ⟨List.mem_singleton_self _, ?_⟩
    intro u hu
    obtain rfl := List.mem_singleton.1 hu
    exact ctx.coerces_refl _
  | sign dash _ ih =>
    obtain ⟨form, hform, hraised⟩ := raised_of_arithmetic hok
    cases hform with
    | prefixOp operand =>
      obtain ⟨-, htype⟩ := hraised
      rw [if_pos dash] at htype
      rw [htype]
      exact ih operand
  | operation harith _ _ ihl ihr =>
    obtain ⟨form, hform, hraised⟩ := raised_of_arithmetic hok
    cases hform with
    | infixOp left right =>
      simp only [Raised, harith, if_true] at hraised
      obtain ⟨-, -, hpromote⟩ := hraised
      rw [leafTypes, List.map_append]
      exact (ihl left).append hn (ihr right) hpromote

/-- Over numeric leaves in which nothing is wrong arithmetic gives a number. -/
theorem Arithmetical.succeeds (h : Arithmetical n leaves) (hpass : ∀ x ∈ leaves, ∃ x', arithmetic ctx x = .ok x')
    (hnumeric : ∀ x ∈ leaves, ctx.isNumeric x.typeId = true) :
    ∃ n', arithmetic ctx n = .ok n' ∧ ctx.isNumeric n'.typeId = true := by
  induction h with
  | @leaf n bare =>
    obtain ⟨n', hok⟩ := hpass n (List.mem_singleton_self n)
    refine ⟨n', hok, ?_⟩
    rw [typeId_of_bare bare hok]
    exact hnumeric n (List.mem_singleton_self n)
  | @sign span scope type operator operand leaves dash _ ih =>
    obtain ⟨operand', hok, hoperand⟩ := ih hpass hnumeric
    refine ⟨⟨span, scope, some operand'.typeId, .prefixOp operator operand'⟩, ?_, hoperand⟩
    refine Node.revised_iff.2 ⟨_, .prefixOp hok, ?_⟩
    simp only [arithmeticRule, hoperand, dash]
    rfl
  | @operation span scope type operator left right before behind harith _ _ ihl ihr =>
    obtain ⟨left', hleft, hl⟩ := ihl (fun x hx => hpass x (List.mem_append_left _ hx))
      fun x hx => hnumeric x (List.mem_append_left _ hx)
    obtain ⟨right', hright, hr⟩ := ihr (fun x hx => hpass x (List.mem_append_right _ hx))
      fun x hx => hnumeric x (List.mem_append_right _ hx)
    obtain ⟨t, ht⟩ := promote_of_numeric hl hr
    refine ⟨⟨span, scope, some t, .infixOp operator { left' with type := some t } { right' with type := some t }⟩,
      ?_, ?_⟩
    · refine Node.revised_iff.2 ⟨_, .infixOp hleft hright, ?_⟩
      simp only [arithmeticRule, harith, hl, hr, ht]
      rfl
    · exact (Context.numeric_of_promote ht).2.2

/-- The type that a calculation is noted with, and that it is a number. -/
theorem Arithmetical.noted (h : Arithmetical n leaves) (htop : n.tag = .infixOp ∨ n.tag = .prefixOp)
    (hok : arithmetic ctx n = .ok n') : n'.type = some n'.typeId ∧ ctx.isNumeric n'.typeId = true := by
  cases h with
  | leaf bare =>
    rcases bare with hbare | hbare <;> simp [hbare] at htop
  | sign dash _ =>
    obtain ⟨form, hform, hrule⟩ := Node.revised_iff.1 hok
    cases hform with
    | prefixOp operand =>
      rcases arithmeticRule_cases hrule with ⟨_, _, _, _, hform, -⟩ | ⟨_, _, _, hform, -⟩ |
        ⟨_, _, hform, hnumeric, rfl⟩ | ⟨_, _, hform, -⟩ | ⟨-, hunary, -⟩
      · cases hform
      · cases hform
      · cases hform
        rw [if_pos dash]
        exact ⟨rfl, hnumeric⟩
      · cases hform
      · exact absurd rfl hunary
  | operation harith _ _ =>
    obtain ⟨form, hform, hrule⟩ := Node.revised_iff.1 hok
    cases hform with
    | infixOp left right =>
      rcases arithmeticRule_cases hrule with ⟨_, _, _, _, _, -, -, -, ht, rfl⟩ | ⟨_, _, _, hform, hno, -⟩ |
        ⟨_, _, hform, -⟩ | ⟨_, _, hform, -⟩ | ⟨hbinary, -⟩
      · exact ⟨rfl, (Context.numeric_of_promote ht).2.2⟩
      · cases hform
        rw [harith] at hno
        cases hno
      · cases hform
      · cases hform
      · exact absurd rfl hbinary

/-! ## only the leaves count -/

/-- A tree with an operator at its top, in whose leaves arithmetic finds nothing wrong. -/
structure Calculation (ctx : Context) (n : Node) (leaves : List Node) : Prop where
  built : Arithmetical n leaves
  operator : n.tag = .infixOp ∨ n.tag = .prefixOp
  passes : ∀ x ∈ leaves, ∃ x', arithmetic ctx x = .ok x'

theorem Calculation.accepted_iff (hn : ctx.types.Nodup) (h : Calculation ctx n leaves) :
    (∃ n', arithmetic ctx n = .ok n') ↔ ∀ x ∈ leaves, ctx.isNumeric x.typeId = true := by
  constructor
  · rintro ⟨n', hok⟩ x hx
    have hwidens := (h.built.highest hn hok).2 x.typeId (List.mem_map_of_mem hx)
    exact isNumeric_of_coerces hwidens (h.built.noted h.operator hok).2
  · intro hnumeric
    obtain ⟨n', hok, -⟩ := h.built.succeeds h.passes hnumeric
    exact ⟨n', hok⟩

/-- What decides on acceptance is the same for leaves of the same types. -/
theorem numeric_perm (hperm : (leafTypes others).Perm (leafTypes leaves)) :
    (∀ x ∈ others, ctx.isNumeric x.typeId = true) ↔ ∀ x ∈ leaves, ctx.isNumeric x.typeId = true := by
  have hmem := fun t => hperm.mem_iff (a := t)
  simp only [leafTypes, List.mem_map] at hmem
  constructor
  · intro h x hx
    obtain ⟨y, hy, heq⟩ := (hmem x.typeId).2 ⟨x, hx, rfl⟩
    exact heq ▸ h y hy
  · intro h x hx
    obtain ⟨y, hy, heq⟩ := (hmem x.typeId).1 ⟨x, hx, rfl⟩
    exact heq ▸ h y hy

/-- Arithmetic accepts a calculation if all of its leaves are numeric and notes their highest type on it. So any two
calculations over leaves of the same types, in any order, with any operators and any grouping, get the same type or
are both rejected. No two entries of the type table are equal in any context that operations lead to
(`Indexed.Reached.consistent`). -/
theorem calculation_by_leaves (hn : ctx.types.Nodup) (h : Calculation ctx n leaves) :
    ((∃ n', arithmetic ctx n = .ok n') ↔ ∀ x ∈ leaves, ctx.isNumeric x.typeId = true) ∧
    (∀ n', arithmetic ctx n = .ok n' → ∃ t, n'.type = some t ∧ Highest ctx (leafTypes leaves) t) ∧
    ∀ m others, Calculation ctx m others → (leafTypes others).Perm (leafTypes leaves) →
      (∃ n' m' t, arithmetic ctx n = .ok n' ∧ arithmetic ctx m = .ok m' ∧ n'.type = some t ∧ m'.type = some t) ∨
      ∃ e e', arithmetic ctx n = .error e ∧ arithmetic ctx m = .error e' := by
  refine ⟨h.accepted_iff hn, ?_, ?_⟩
  · intro n' hok
    exact ⟨n'.typeId, (h.built.noted h.operator hok).1, h.built.highest hn hok⟩
  · intro m others hm hperm
    have hiff : (∃ m', arithmetic ctx m = .ok m') ↔ ∃ n', arithmetic ctx n = .ok n' := by
      rw [hm.accepted_iff hn, h.accepted_iff hn, numeric_perm hperm]
    cases hok : arithmetic ctx n with
    | ok n' =>
      obtain ⟨m', hok'⟩ := hiff.2 ⟨n', hok⟩
      have heq : m'.typeId = n'.typeId := ((hm.built.highest hn hok').perm hperm).unique (h.built.highest hn hok)
      refine .inl ⟨n', m', n'.typeId, rfl, hok', (h.built.noted h.operator hok).1, ?_⟩
      rw [← heq]
      exact (hm.built.noted hm.operator hok').1
    | error e =>
      cases hok' : arithmetic ctx m with
      | ok m' =>
        obtain ⟨n', hn'⟩ := hiff.1 ⟨m', hok'⟩
        rw [hok] at hn'
        cases hn'
      | error e' => exact .inr ⟨e, e', rfl, rfl⟩

/-- `(x + 1) * -f()` and `f() / (1 - x)`, for a variable of type `i64` and a function that returns `float`. -/
theorem calculation_by_leaves_regrouped : ∃ n m leaves others,
    Calculation .new n leaves ∧ Calculation .new m others ∧ (leafTypes others).Perm (leafTypes leaves) ∧
    leafTypes leaves = [⟨7⟩, .int, .float] ∧
    ∃ n' m', arithmetic .new n = .ok n' ∧ arithmetic .new m = .ok m' ∧
      n'.type = some .float ∧ m'.type = some .float := by
  let operator (kind : Kind) : Token := { kind, span := default }
  let node (type : Option TypeId) (form : Form Node) : Node := ⟨default, some .root, type, form⟩
  let name (text : String) : Form Node := .literal ⟨.identifier, some (.str text), default⟩
  let x := node (some ⟨7⟩) (name "x")
  let one := node (some .int) (.literal ⟨.integer, some (.int 1), default⟩)
  let call := node (some .float) (.functionCall (node (some ⟨10⟩) (name "f")) [])
  have hx : Arithmetical x [x] := .leaf (.inl rfl)
  have hone : Arithmetical one [one] := .leaf (.inl rfl)
  have hcall : Arithmetical call [call] := .leaf (.inr rfl)
  have hpasses : ∀ y ∈ [x, one, call], ∃ y', arithmetic .new y = .ok y' := by
    simp only [List.forall_mem_cons]
    exact ⟨⟨_, rfl⟩, ⟨_, rfl⟩, ⟨_, rfl⟩, List.forall_mem_nil _⟩
  have hn : Calculation .new (node none (.infixOp (operator .star) (node none (.infixOp (operator .plus) x one))
      (node none (.prefixOp (operator .dash) call)))) [x, one, call] :=
    ⟨.operation rfl (.operation rfl hx hone) (.sign rfl hcall), .inl rfl, hpasses⟩
  have hm : Calculation .new (node none (.infixOp (operator .slash) call
      (node none (.infixOp (operator .dash) one x)))) [call, one, x] :=
    ⟨.operation rfl hcall (.operation rfl hone hx), .inl rfl, fun y hy =>
      hpasses y ((List.reverse_perm [x, one, call]).mem_iff.1 hy)⟩
  have hperm : (leafTypes [call, one, x]).Perm (leafTypes [x, one, call]) := by decide
  refine ⟨_, _, _, _, hn, hm, hperm, rfl, ?_⟩
  obtain ⟨haccepted, htype, hothers⟩ := calculation_by_leaves (by decide) hn
  rcases hothers _ _ hm hperm with ⟨n', m', t, hok, hok', ht, ht'⟩ | ⟨e, -, herror, -⟩
  · obtain ⟨u, hu, hhighest⟩ := htype n' hok
    obtain rfl := Option.some.inj (ht.symm.trans hu)
    obtain rfl : t = .float := hhighest.unique ⟨by decide, by decide⟩
    exact ⟨n', m', hok, hok', ht, ht'⟩
  · obtain ⟨n', hok⟩ := haccepted.2 (by decide)
    rw [hok] at herror
    cases herror

end LetFn.Check
