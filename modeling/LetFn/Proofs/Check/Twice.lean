import LetFn.Proofs.Check.Conservative

/-!
# Checks that are made twice

A check that succeeds changes nothing when it is made again. It writes on parts of a node after it went over them, and
the second time it may take such a note back when it comes to the part, before it is written again at the node. So the
rule meets every part with the note from before it or with the note that it wrote, and does the same with both.

* `KeepsOrWrites rule` — the rule does not look at the note of its own node: it leaves it or writes it anew;
* `Steady rule` — what the rule makes of a node over parts that are their own revisions is its own revision.

Main facts: `revised_self` (a revised tree is its own revision), `checks_idempotent`.
-/

namespace LetFn

namespace Context

variable {ctx : Context} {a b a' b' t : TypeId}

/-- The higher of two numeric types is reached from either of them, or from itself, in place of the two. -/
theorem promote_again (h : ctx.promote a b = some t) (ha : a' = a ∨ a' = t) (hb : b' = b ∨ b' = t) :
    ctx.promote a' b' = some t := by
  obtain ⟨r, r', hr, hr', rfl⟩ := promote_eq_some_iff.1 h
  by_cases hle : r' ≤ r
  · rw [if_pos hle] at ha hb ⊢
    obtain rfl : a' = a := ha.elim id id
    rcases hb with rfl | rfl
    · exact promote_eq_some_iff.2 ⟨r, r', hr, hr', (if_pos hle).symm⟩
    · exact promote_eq_some_iff.2 ⟨r, r, hr, hr, (if_pos (Rank.le_refl r)).symm⟩
  · rw [if_neg hle] at ha hb ⊢
    obtain rfl : b' = b := hb.elim id id
    rcases ha with rfl | rfl
    · exact promote_eq_some_iff.2 ⟨r, r', hr, hr', (if_neg hle).symm⟩
    · exact promote_eq_some_iff.2 ⟨r', r', hr', hr', (if_pos (Rank.le_refl r')).symm⟩

end Context

namespace Check

open Node (Revised revised_iff)

variable {mode : Mode} {ctx : Context} {n n' x y : Node}

/-! ## rules that are applied twice -/

section

variable {rule : Node → Except Error Node}

/-- The rule does not look at the note of its own node: it leaves it or writes it anew. -/
def KeepsOrWrites (rule : Node → Except Error Node) : Prop :=
  ∀ {n n'} type, rule n = .ok n' → rule { n with type } = .ok n' ∨ rule { n with type } = .ok { n' with type }

/-- What the rule makes of a node over parts that are their own revisions is its own revision. -/
def Steady (rule : Node → Except Error Node) : Prop :=
  ∀ {n n'}, (∀ c ∈ n.children, Revised rule c c) → rule n = .ok n' → Revised rule n' n'

/-- **A revised tree is its own revision.** -/
theorem revised_self (hrule : Steady rule) (h : Revised rule x y) : Revised rule y y := by
  induction x using Node.childInduction generalizing y with
  | step x ih =>
    obtain ⟨form, hparts, hy⟩ := revised_iff.1 h
    refine hrule (n := { x with form }) ?_ hy
    intro d hd
    obtain ⟨c, hc, hcd⟩ := forall₂_of_mem hparts.parts hd
    exact ih c hc hcd

/-- A node that is its own revision, given another note, is revised to what it was, or keeps the note. -/
theorem revised_of_noted (hown : KeepsOrWrites rule) (hx : Revised rule x x) (type : Option TypeId) :
    ∃ x', Revised rule { x with type } x' ∧ (x' = x ∨ x' = { x with type }) := by
  obtain ⟨form, hparts, hrun⟩ := revised_iff.1 hx
  rcases hown type hrun with h | h
  · exact ⟨x, revised_iff.2 ⟨form, hparts, h⟩, .inl rfl⟩
  · exact ⟨_, revised_iff.2 ⟨form, hparts, h⟩, .inr rfl⟩

/-- Where the rule leaves the parts alone, it meets them again as they were. -/
theorem revised_of_form_eq (hown : KeepsOrWrites rule) (hnotes : Node.OnlyNotes rule)
    (hparts : ∀ c ∈ n.children, Revised rule c c) (h : rule n = .ok n') (hform : n'.form = n.form) :
    Revised rule n' n' := by
  obtain ⟨span, scope, type, form⟩ := n
  obtain ⟨span', scope', type', form'⟩ := n'
  obtain rfl : span' = span := hnotes.span h
  obtain rfl : scope' = scope := hnotes.scope h
  obtain rfl : form' = form := hform
  exact revised_iff.2 ⟨form', .refl_of_mem hparts, (hown type' h).elim id id⟩

end

/-! ## arithmetic -/

theorem keepsOrWrites_arithmeticRule : KeepsOrWrites (arithmeticRule ctx) := by
  intro n n' type h
  obtain ⟨span, scope, noted, form⟩ := n
  rcases arithmeticRule_cases h with ⟨operator, l, r, t, rfl, harith, hl, hr, ht, rfl⟩ |
    ⟨operator, l, r, rfl, harith, rfl⟩ | ⟨operator, operand, rfl, hnumeric, rfl⟩ | ⟨items, trailing, rfl, rfl⟩ |
    ⟨hbinary, hunary, hblock, rfl⟩
  · left
    simp [arithmeticRule, harith, hl, hr, ht, pure, Except.pure]
  · right
    simp [arithmeticRule, harith, pure, Except.pure]
  · by_cases hdash : operator.kind = .dash
    · left
      simp [arithmeticRule, hnumeric, hdash, pure, Except.pure]
    · right
      simp [arithmeticRule, hnumeric, hdash, pure, Except.pure]
  · left
    rfl
  · right
    cases form with
    | infixOp => exact absurd rfl hbinary
    | prefixOp => exact absurd rfl hunary
    | block items trailing =>
      cases trailing with
      | none => rfl
      | some trailing => exact absurd rfl (hblock items trailing)
    | _ => rfl

/-- The operands are met with their own types or with the type that both got. -/
theorem steady_arithmeticRule : Steady (arithmeticRule ctx) := by
  intro n n' hparts h
  rcases arithmeticRule_cases h with ⟨operator, l, r, t, hform, harith, hl, hr, ht, rfl⟩ | ⟨_, _, _, -, -, rfl⟩ |
    ⟨operator, _, -, -, rfl⟩ | ⟨_, _, -, rfl⟩ | ⟨-, -, -, rfl⟩
  · simp only [Node.children, hform, Form.parts, List.forall_mem_cons] at hparts
    obtain ⟨l', hl', hleft⟩ := revised_of_noted keepsOrWrites_arithmeticRule hparts.1 (some t)
    obtain ⟨r', hr', hright⟩ := revised_of_noted keepsOrWrites_arithmeticRule hparts.2.1 (some t)
    have hlt : l'.typeId = l.typeId ∨ l'.typeId = t := hleft.imp (congrArg _) (congrArg Node.typeId)
    have hrt : r'.typeId = r.typeId ∨ r'.typeId = t := hright.imp (congrArg _) (congrArg Node.typeId)
    have hpromote := Context.promote_again ht hlt hrt
    obtain ⟨hnumericLeft, hnumericRight, -⟩ := Context.numeric_of_promote hpromote
    have hl'' : { l' with type := some t } = { l with type := some t } := by rcases hleft with rfl | rfl <;> rfl
    have hr'' : { r' with type := some t } = { r with type := some t } := by rcases hright with rfl | rfl <;> rfl
    refine revised_iff.2 ⟨.infixOp operator l' r', .infixOp hl' hr', ?_⟩
    simp [arithmeticRule, harith, hnumericLeft, hnumericRight, hpromote, hl'', hr'', pure, Except.pure]
  · exact revised_of_form_eq keepsOrWrites_arithmeticRule onlyNotes_arithmeticRule hparts h rfl
  · refine revised_of_form_eq keepsOrWrites_arithmeticRule onlyNotes_arithmeticRule hparts h ?_
    split <;> rfl
  · exact revised_of_form_eq keepsOrWrites_arithmeticRule onlyNotes_arithmeticRule hparts h rfl
  · exact revised_of_form_eq keepsOrWrites_arithmeticRule onlyNotes_arithmeticRule hparts h rfl

/-! ## assignments -/

/-- The check of assignments does not look at the note of its own node. -/
theorem assignmentRule_renoted (type : Option TypeId) (h : assignmentRule mode ctx n = .ok n') :
    assignmentRule mode ctx { n with type } = .ok { n' with type } := by
  rcases assignmentRule_cases h with ⟨name, declared, i, hform, rfl, hcoerces, rfl⟩ | ⟨rfl, hsides, hlet, hbody⟩
  · simp [assignmentRule, hform, hcoerces, pure, Except.pure]
  · unfold assignmentRule
    split
    · next operator left right hform =>
      exact if_neg fun hne => hne.2 (hsides operator left right hform hne.1)
    · next name declared i hform =>
      exact if_pos (hlet name declared i hform)
    · next name params result body hform =>
      refine if_neg fun hne => ?_
      rcases hbody name params result body hform with hvoid | hcoerces
      · exact hne.1 hvoid
      · simp [hcoerces] at hne
    · rfl

theorem steady_assignmentRule : Steady (assignmentRule mode ctx) := by
  have hown : KeepsOrWrites (assignmentRule mode ctx) := fun type h => .inr (assignmentRule_renoted type h)
  intro n n' hparts h
  rcases assignmentRule_cases h with ⟨name, declared, i, hform, rfl, -, rfl⟩ | ⟨rfl, -⟩
  · simp only [Node.children, hform, Form.parts, Option.toList_some, List.forall_mem_cons] at hparts
    obtain ⟨hname, hdeclared, hi, -⟩ := hparts
    refine revised_iff.2 ⟨_, .variableDef hname hdeclared (.some (revised_renoted assignmentRule_renoted _ hi)), ?_⟩
    -- the initializer has the declared type already
    have htype : Node.typeId { i with type := some declared.typeId } = declared.typeId := rfl
    simp [assignmentRule, htype, Context.coerces_refl, pure, Except.pure]
  · exact revised_of_form_eq hown onlyNotes_assignmentRule hparts h rfl

/-! ## calls -/

/-- Arguments that have the types of the parameters are passed as they are. -/
theorem passArguments_of_types {decl : Declaration} {index : Nat} {xs : List Node} {ts : List TypeId}
    (h : xs.map (·.type) = ts.map some) : passArguments ctx decl index xs ts = .ok xs := by
  induction xs generalizing index ts with
  | nil => cases ts <;> rfl
  | cons x xs ih =>
    cases ts with
    | nil => rfl
    | cons t ts =>
      obtain ⟨span, scope, type, form⟩ := x
      obtain ⟨hx, hxs⟩ := List.cons.inj h
      obtain rfl : type = some t := hx
      have htype : Node.typeId ⟨span, scope, some t, form⟩ = t := rfl
      simp [passArguments, htype, Context.coerces_refl, ih hxs, bind, Except.bind, pure, Except.pure]

theorem steady_callRule : Steady (callRule ctx) := by
  have hown : KeepsOrWrites (callRule ctx) := fun type h => .inr (callRule_renoted type h)
  intro n n' hparts h
  rcases callRule_cases h with ⟨callee, xs, params, result, ys, hform, hfunction, hlifted, htypes, rfl⟩ | ⟨rfl, -⟩
  · simp only [Node.children, hform, Form.parts, List.forall_mem_cons] at hparts
    obtain ⟨hcallee, hxs⟩ := hparts
    have hys : List.Forall₂ (Revised (callRule ctx)) ys ys := by
      refine List.forall₂_same.2 ?_
      intro y hy
      obtain ⟨x, hx, hxy⟩ := forall₂_of_mem hlifted hy
      obtain ⟨type, rfl⟩ := hxy.renoted
      exact revised_renoted callRule_renoted type (hxs x hx)
    have hlength : ys.length = params.length := by simpa using congrArg List.length htypes
    refine revised_iff.2 ⟨_, .functionCall hcallee hys, ?_⟩
    simp [callRule, hfunction, hlength, passArguments_of_types htypes, bind, Except.bind, pure, Except.pure]
  · exact revised_of_form_eq hown onlyNotes_callRule hparts h rfl

/-! ## the three checks -/

/-- **A check that was made may be made again**: for every tree, with whatever notes, each of the three checks succeeds
on its own outcome and leaves it as it is. -/
theorem checks_idempotent (mode : Mode) :
    (arithmetic ctx x = .ok y → arithmetic ctx y = .ok y) ∧
      (assignment mode ctx x = .ok y → assignment mode ctx y = .ok y) ∧
        (calls ctx x = .ok y → calls ctx y = .ok y) := by
  refine ⟨?_, ?_, ?_⟩
  · intro h
    exact revised_self steady_arithmeticRule h
  · intro h
    exact revised_self steady_assignmentRule h
  · intro h
    exact revised_self steady_callRule h

/-- The sum in the argument is raised by the product, falls back to an integer when arithmetic is checked again, and is
raised again. -/
theorem checks_idempotent_half : ∃ m ctx a b c,
    (∃ n, parseSource "fn half(a: float) -> float { a / 2 } let x: float = -half((1 + 2) * { 2.5 });" = .ok n ∧
      firstTypes .nominal n = .ok (m, ctx)) ∧
    arithmetic ctx m = .ok a ∧ assignment .nominal ctx a = .ok b ∧ calls ctx b = .ok c ∧
    arithmetic ctx a = .ok a ∧ assignment .nominal ctx b = .ok b ∧ calls ctx c = .ok c := by
  have haccepted : Yields (fun _ => True)
      (analyze "fn half(a: float) -> float { a / 2 } let x: float = -half((1 + 2) * { 2.5 });" .nominal) := by
    decide +kernel
  obtain ⟨⟨c, ctx⟩, h, -⟩ := yields_iff.1 haccepted
  obtain ⟨n, m, a, b, hn, hm, ha, hb, hc⟩ := analyze_eq_ok h
  refine ⟨m, ctx, a, b, c, ⟨n, hn, hm⟩, ha, hb, hc, ?_, ?_, ?_⟩
  · exact (checks_idempotent .nominal).1 ha
  · exact (checks_idempotent .nominal).2.1 hb
  · exact (checks_idempotent .nominal).2.2 hc

end Check

end LetFn
