import LetFn.Proofs.Check.Passes

/-!
# What a variable settles on

With unification a variable is settled by its declared type and the type that its initializer has first. Arithmetic may
raise the initializer after that, and nothing brings the variable along.

Main fact: `unification_settles`.
-/

namespace LetFn.Check

open Node (Revised Renoted)

variable {mode : Mode} {ctx : Context} {x y t : Node}

/-! ## the order of types -/

/-- A variable settles on a type at least as high as the declared one; a value that was raised since then may stand for
the variable if the declared type alone allows it or if it was not raised at all. -/
theorem coerces_settled_iff (hr : ctx.Regular) {declared first last settled : TypeId}
    (h : Settles .unification ctx declared (some first) settled) (hraised : ctx.coerces first last = true) :
    ctx.coerces declared settled = true ∧
      (ctx.coerces last settled = true ↔ ctx.coerces last declared = true ∨ last = first) := by
  rcases h with ⟨rfl, rfl⟩ | h
  · refine ⟨ctx.coerces_refl _, Iff.symm (or_iff_left_of_imp ?_)⟩
    rintro rfl
    exact ctx.coerces_refl _
  · refine ⟨Context.coerces_of_promote h, ?_⟩
    obtain ⟨r, r', hdeclared, hfirst, rfl⟩ := Context.promote_eq_some_iff.1 h
    split
    · next hle =>
      refine Iff.symm (or_iff_left_of_imp ?_)
      rintro rfl
      exact (hr.coerces_iff_le hfirst hdeclared).2 hle
    · next hlt =>
      have hup : ctx.coerces declared first = true := Context.coerces_iff.2 (.inr ⟨r, r', hdeclared, hfirst, hlt⟩)
      constructor
      · exact fun hlast => .inr (Context.coerces_antisymm hlast hraised)
      · rintro (hlast | rfl)
        · exact Context.coerces_trans hlast hup
        · exact ctx.coerces_refl _

/-! ## the checks at a variable -/

/-- The checks take one part of a node to another. -/
def Checked (ctx : Context) (x t : Node) : Prop :=
  ∃ y z, Revised (arithmeticRule ctx) x y ∧ Revised (assignmentRule .unification ctx) y z ∧
    Revised (callRule ctx) z t

theorem Checked.span (h : Checked ctx x t) : t.span = x.span := by
  obtain ⟨y, z, hy, hz, ht⟩ := h
  rw [onlyNotes_callRule.span_eq ht, onlyNotes_assignmentRule.span_eq hz, onlyNotes_arithmeticRule.span_eq hy]

theorem Checked.form_of_leaf (h : Checked ctx x t) {token : Token} (hx : x.form = .literal token) :
    t.form = .literal token := by
  obtain ⟨y, z, hy, hz, ht⟩ := h
  exact onlyNotes_callRule.form_of_leaf ht (onlyNotes_assignmentRule.form_of_leaf hz
    (onlyNotes_arithmeticRule.form_of_leaf hy hx))

/-- Of the three checks only arithmetic gives a part another type. -/
theorem Checked.typeId (h : Checked ctx x t) : ∃ y, Revised (arithmeticRule ctx) x y ∧ t.typeId = y.typeId := by
  obtain ⟨y, z, hy, hz, ht⟩ := h
  exact ⟨y, hy, (keepsOwn_callRule.typeId ht).trans (keepsOwn_assignmentRule.typeId hz)⟩

theorem Checked.typeId_of_leaf (h : Checked ctx x t) {token : Token} (hx : x.form = .literal token) :
    t.typeId = x.typeId := by
  obtain ⟨y, hy, ht⟩ := h.typeId
  obtain ⟨form, hform, hraised⟩ := raised_of_arithmetic hy
  rw [hx] at hform
  cases hform
  exact ht.trans hraised

theorem option_rel_comp {α : Type} {R S T : α → α → Prop} {a b c d : Option α} (h : Option.Rel R a b)
    (h' : Option.Rel S b c) (h'' : Option.Rel T c d) :
    Option.Rel (fun a d => ∃ b c, R a b ∧ S b c ∧ T c d) a d := by
  cases h with
  | none =>
    cases h'
    cases h''
    exact .none
  | some h =>
    cases h' with
    | some h' =>
      cases h'' with
      | some h'' => exact .some ⟨_, _, h, h', h''⟩

theorem Passed.span (h : Passed mode ctx x t) : t.span = x.span := by
  obtain ⟨y, _, z, _, w, hy, ⟨_, rfl⟩, hz, ⟨_, rfl⟩, hw, ⟨_, rfl⟩⟩ := h
  have hy := onlyNotes_arithmeticRule.span_eq hy
  have hw := onlyNotes_callRule.span_eq hw
  have hz := onlyNotes_assignmentRule.span_eq hz
  exact hw.trans (hz.trans hy)

theorem Passed.scopeId (h : Passed mode ctx x t) : t.scopeId = x.scopeId := by
  obtain ⟨y, _, z, _, w, hy, ⟨_, rfl⟩, hz, ⟨_, rfl⟩, hw, ⟨_, rfl⟩⟩ := h
  have hy := onlyNotes_arithmeticRule.scope_eq hy
  have hw := onlyNotes_callRule.scope_eq hw
  have hz := onlyNotes_assignmentRule.scope_eq hz
  rw [Node.scopeId, Node.scopeId]
  exact congrArg (Option.getD · .root) (hw.trans (hz.trans hy))

theorem Passed.tag (h : Passed mode ctx x t) : t.tag = x.tag := by
  obtain ⟨y, _, z, _, w, hy, ⟨_, rfl⟩, hz, ⟨_, rfl⟩, hw, ⟨_, rfl⟩⟩ := h
  have hy := onlyNotes_arithmeticRule.tag_eq hy
  have hw := onlyNotes_callRule.tag_eq hw
  have hz := onlyNotes_assignmentRule.tag_eq hz
  exact hw.trans (hz.trans hy)

/-- The parts of a definition of a variable are checked on their own. -/
theorem Passed.of_variable (h : Passed .unification ctx x t) {name type : Node} {i : Option Node}
    (hx : x.form = .variableDef name type i) :
    ∃ name' type' i', t.form = .variableDef name' type' i' ∧ Checked ctx name name' ∧ Checked ctx type type' ∧
      Option.Rel (Checked ctx) i i' := by
  obtain ⟨y, _, z, _, w, hy, ⟨_, rfl⟩, hz, ⟨_, rfl⟩, hw, ⟨_, rfl⟩⟩ := h
  have hyform := form_of_revised form_of_arithmeticRule (by simp [Node.tag, hx, Form.tag]) hy
  rw [hx] at hyform
  obtain ⟨name₁, type₁, i₁, hyform, hname₁, htype₁, hi₁⟩ := hyform.of_variable
  obtain ⟨g, hg, hrule⟩ := Node.revise_eq_ok_iff.1 hz
  have hzform := Node.reviseParts_eq_ok hg
  rw [eq_of_assignmentRule hrule] at hw
  rw [hyform] at hzform
  obtain ⟨name₂, type₂, i₂, rfl, hname₂, htype₂, hi₂⟩ := hzform.of_variable
  have hwform := form_of_revised form_of_callRule (by simp [Node.tag, Form.tag]) hw
  obtain ⟨name₃, type₃, i₃, hwform, hname₃, htype₃, hi₃⟩ := hwform.of_variable
  exact ⟨name₃, type₃, i₃, hwform, ⟨_, _, hname₁, hname₂, hname₃⟩, ⟨_, _, htype₁, htype₂, htype₃⟩,
    option_rel_comp hi₁ hi₂ hi₃⟩

/-! ## accepted programs -/

/-- What a definition of a variable with an initializer has come to when all is checked: its symbol is at least as high
as its declared type, and as its initializer exactly if the declared type is or the initializer still has its first
type. -/
structure SettledFrom (ctx : Context) (x t : Node) : Prop where
  tag : t.tag = x.tag
  span : t.span = x.span
  definition : ∀ name type initializer, t.form = .variableDef name type (some initializer) →
    ∃ name₀ type₀ first symbol, x.form = .variableDef name₀ type₀ (some first) ∧
      ctx.symbolIn? t.scopeId (name.identifier?.getD "") = some symbol ∧ symbol.span = name.span ∧
      symbol.kind = .variable ∧ ctx.coerces type.typeId symbol.type = true ∧
      (ctx.coerces initializer.typeId symbol.type = true ↔
        ctx.coerces initializer.typeId type.typeId = true ∨ initializer.typeId = first.typeId)

theorem Passed.settledFrom (hr : ctx.Regular) (hx : x.Everywhere (FirstTyped .unification ctx id))
    (hs : x.form.Shaped) (h : Passed .unification ctx x t) : SettledFrom ctx x t := by
  refine ⟨h.tag, h.span, fun name type initializer ht => ?_⟩
  have hparts := hx.self.byParts
  unfold TypedByParts at hparts
  cases hform : x.form with
  | variableDef name₀ type₀ i₀ =>
    simp only [hform] at hparts hs
    obtain ⟨-, -, symbol, hsymbol, hspan, hkind, hsettles⟩ := hparts
    obtain ⟨_, _, _, ht', hname, htype, hi⟩ := h.of_variable hform
    obtain ⟨rfl, rfl, rfl⟩ := Form.variableDef.inj (ht.symm.trans ht')
    cases hi with
    | @some first _ hi =>
      obtain ⟨token, -, hnameform⟩ := hs.1
      obtain ⟨token', -, htypeform⟩ := hs.2
      obtain ⟨y, hy, hlast⟩ := hi.typeId
      have hfirst : first ∈ x.children := by simp [Node.children, hform, Form.parts]
      have hraised : ctx.coerces first.typeId initializer.typeId = true :=
        hlast ▸ coerces_of_arithmetic (hx.child hfirst) hy
      have hidentifier : name.identifier? = name₀.identifier? := by
        rw [Node.identifier?, Node.identifier?, hname.form_of_leaf hnameform, hnameform]
      obtain ⟨hdeclared, hiff⟩ := coerces_settled_iff hr hsettles hraised
      rw [← htype.typeId_of_leaf htypeform] at hdeclared hiff
      refine ⟨name₀, type₀, first, symbol, rfl, ?_, hspan.trans hname.span.symm, hkind, hdeclared, hiff⟩
      rw [h.scopeId, hidentifier, hsymbol]
  | _ =>
    have htag := h.tag
    simp [Node.tag, hform, ht, Form.tag] at htag

/-- **What a variable settles on.** In an accepted program every variable with an initializer has come to a type to which
its declared type widens. That of the initializer widens to it exactly if it widens to the declared type or has not been
raised since the variable was settled. -/
theorem unification_settles {source : String} {t : Node} (h : analyze source .unification = .ok (t, ctx)) :
    ∃ n m, parseSource source = .ok n ∧ firstTypes .unification n = .ok (m, ctx) ∧
      List.Forall₂ (SettledFrom ctx) m.preorder t.preorder := by
  obtain ⟨n, m, a, b, hn, hm, ha, hb, ht⟩ := analyze_eq_ok h
  obtain ⟨htyped, hr, hshaped⟩ := typed_of_firstTypes (shaped_of_parseSource hn) (declared_nodup_of_parseSource hn) hm
  refine ⟨n, m, hn, hm, ?_⟩
  have hnodes := (List.forall₂_and_left _ _).2
    ⟨fun x hx => (⟨htyped.below hx, hshaped x hx⟩ : _ ∧ x.form.Shaped), passed_preorder ha hb ht⟩
  exact hnodes.imp fun x y ⟨hx, h⟩ => h.settledFrom hr hx.1 hx.2

theorem unification_settles_half : ∃ t ctx n m,
    analyze "fn half(a: float) -> float { a / 2 } let x: i32 = half(3); let y: i64 = 1 + x;" .unification =
        .ok (t, ctx) ∧
      parseSource "fn half(a: float) -> float { a / 2 } let x: i32 = half(3); let y: i64 = 1 + x;" = .ok n ∧
      firstTypes .unification n = .ok (m, ctx) ∧ List.Forall₂ (SettledFrom ctx) m.preorder t.preorder := by
  have haccepted : Yields (fun _ => True)
      (analyze "fn half(a: float) -> float { a / 2 } let x: i32 = half(3); let y: i64 = 1 + x;" .unification) := by
    decide +kernel
  obtain ⟨⟨t, ctx⟩, h, -⟩ := yields_iff.1 haccepted
  obtain ⟨n, m, hn, hm, hnodes⟩ := unification_settles h
  exact ⟨t, ctx, n, m, h, hn, hm, hnodes⟩

/-- The symbol of a variable is as high as the declared type and as the initializer. -/
def Covered (ctx : Context) (n : Node) : Prop :=
  match n.form with
  | .variableDef name type (some initializer) =>
    ∃ symbol ∈ ctx.symbolIn? n.scopeId (name.identifier?.getD ""),
      ctx.coerces type.typeId symbol.type = true ∧ ctx.coerces initializer.typeId symbol.type = true
  | _ => True

instance (ctx : Context) : (n : Node) → Decidable (Covered ctx n)
  | ⟨_, scope, _, .variableDef name type (some initializer)⟩ =>
    inferInstanceAs (Decidable (∃ symbol ∈ ctx.symbolIn? (scope.getD .root) (name.identifier?.getD ""),
      ctx.coerces type.typeId symbol.type = true ∧ ctx.coerces initializer.typeId symbol.type = true))
  | ⟨_, _, _, .literal _⟩ | ⟨_, _, _, .prefixOp _ _⟩ | ⟨_, _, _, .infixOp _ _ _⟩ | ⟨_, _, _, .statement _⟩
  | ⟨_, _, _, .block _ _⟩ | ⟨_, _, _, .functionDef _ _ _ _⟩ | ⟨_, _, _, .functionCall _ _⟩
  | ⟨_, _, _, .variableDef _ _ none⟩ | ⟨_, _, _, .root _⟩ => .isTrue trivial

/-- The variable settles on its declared type, which is as high as the left side of the sum, and then the sum is raised
to a float. -/
theorem raised_sum_not_covered : ∃ t ctx, analyze "let x: i32 = 1 + 2.0;" .unification = .ok (t, ctx) ∧
    ∃ z ∈ t.preorder, ¬ Covered ctx z := by
  have hfails : Yields (fun r => ∃ z ∈ r.1.preorder, ¬ Covered r.2 z) (analyze "let x: i32 = 1 + 2.0;" .unification) := by
    decide +kernel
  obtain ⟨⟨t, ctx⟩, h, hz⟩ := yields_iff.1 hfails
  exact ⟨t, ctx, h, hz⟩

end LetFn.Check
