import LetFn.Proofs.Tree.Parts

/-!
# Revisions of a tree, compared

A tree is revised by a rule exactly if its parts are and the rule accepts the node over them. So one revision can be
followed by another, or replaced by one that does the same, part by part.

* `Form.Rel.comp_iff` — what can be done to the parts in two steps;
* `revised_iff` — the revision of a node from those of its parts;
* `Revised.mono` — a rule that accepts what another accepts revises what the other revises;
* `revise_eq_error` — a tree that is not revised has a node that the rule refuses over revised parts;
* `eq_mapTypeParts`, `mapType_congr` — trees that differ by a change of notes.
-/

namespace LetFn

variable {α β γ : Type} {R : α → β → Prop} {S : β → γ → Prop} {f : Form α} {g : Form β} {h : Form γ}

/-! ## relations of forms -/

theorem option_rel_imp {R S : α → β → Prop} (hRS : ∀ {a b}, R a b → S a b) {x : Option α} {y : Option β}
    (h : Option.Rel R x y) : Option.Rel S x y := by
  cases h with
  | none => exact .none
  | some h => exact .some (hRS h)

theorem option_rel_comp_iff {x : Option α} {z : Option γ} :
    Option.Rel (fun a c => ∃ b, R a b ∧ S b c) x z ↔ ∃ y, Option.Rel R x y ∧ Option.Rel S y z := by
  constructor
  · rintro (⟨b, hab, hbc⟩ | _)
    · exact ⟨some b, .some hab, .some hbc⟩
    · exact ⟨none, .none, .none⟩
  · rintro ⟨_, hab | _, hbc⟩
    · cases hbc with
      | some hbc => exact .some ⟨_, hab, hbc⟩
    · cases hbc
      exact .none

theorem forall₂_comp_iff {xs : List α} {zs : List γ} :
    List.Forall₂ (fun a c => ∃ b, R a b ∧ S b c) xs zs ↔ ∃ ys, List.Forall₂ R xs ys ∧ List.Forall₂ S ys zs := by
  constructor
  · intro h
    induction h with
    | nil => exact ⟨[], .nil, .nil⟩
    | cons hac _ ih =>
      obtain ⟨b, hab, hbc⟩ := hac
      obtain ⟨ys, hys, hyz⟩ := ih
      exact ⟨b :: ys, .cons hab hys, .cons hbc hyz⟩
  · rintro ⟨ys, hxy, hyz⟩
    exact Node.forall₂_comp hxy hyz

theorem Param.rel_comp_iff {p : Param α} {r : Param γ} :
    Param.Rel (fun a c => ∃ b, R a b ∧ S b c) p r ↔ ∃ q, Param.Rel R p q ∧ Param.Rel S q r := by
  constructor
  · rintro ⟨⟨n, hn, hn'⟩, t, ht, ht'⟩
    exact ⟨⟨n, t⟩, ⟨hn, ht⟩, hn', ht'⟩
  · rintro ⟨q, ⟨hn, ht⟩, hn', ht'⟩
    exact ⟨⟨_, hn, hn'⟩, _, ht, ht'⟩

theorem forall₂_param_comp_iff {ps : List (Param α)} {rs : List (Param γ)} :
    List.Forall₂ (Param.Rel fun a c => ∃ b, R a b ∧ S b c) ps rs ↔
      ∃ qs, List.Forall₂ (Param.Rel R) ps qs ∧ List.Forall₂ (Param.Rel S) qs rs := by
  rw [← forall₂_comp_iff]
  exact ⟨fun h => h.imp fun _ _ => Param.rel_comp_iff.1, fun h => h.imp fun _ _ => Param.rel_comp_iff.2⟩

/-- Parts that are related in two steps are related to parts in between. -/
theorem Form.Rel.exists_between (hfh : Form.Rel (fun a c => ∃ b, R a b ∧ S b c) f h) :
    ∃ g, Form.Rel R f g ∧ Form.Rel S g h := by
  cases hfh with
  | literal token => exact ⟨_, .literal token, .literal token⟩
  | prefixOp operand =>
    obtain ⟨_, ho, ho'⟩ := operand
    exact ⟨_, .prefixOp ho, .prefixOp ho'⟩
  | infixOp left right =>
    obtain ⟨_, hl, hl'⟩ := left
    obtain ⟨_, hr, hr'⟩ := right
    exact ⟨_, .infixOp hl hr, .infixOp hl' hr'⟩
  | statement inner =>
    obtain ⟨_, hi, hi'⟩ := inner
    exact ⟨_, .statement hi, .statement hi'⟩
  | block items trailing =>
    obtain ⟨_, hi, hi'⟩ := forall₂_comp_iff.1 items
    obtain ⟨_, ht, ht'⟩ := option_rel_comp_iff.1 trailing
    exact ⟨_, .block hi ht, .block hi' ht'⟩
  | functionDef params result body =>
    obtain ⟨_, hp, hp'⟩ := forall₂_param_comp_iff.1 params
    obtain ⟨_, hr, hr'⟩ := result
    obtain ⟨_, hb, hb'⟩ := option_rel_comp_iff.1 body
    exact ⟨_, .functionDef hp hr hb, .functionDef hp' hr' hb'⟩
  | functionCall callee arguments =>
    obtain ⟨_, hc, hc'⟩ := callee
    obtain ⟨_, ha, ha'⟩ := forall₂_comp_iff.1 arguments
    exact ⟨_, .functionCall hc ha, .functionCall hc' ha'⟩
  | variableDef name type initializer =>
    obtain ⟨_, hn, hn'⟩ := name
    obtain ⟨_, ht, ht'⟩ := type
    obtain ⟨_, hi, hi'⟩ := option_rel_comp_iff.1 initializer
    exact ⟨_, .variableDef hn ht hi, .variableDef hn' ht' hi'⟩
  | root items =>
    obtain ⟨_, hi, hi'⟩ := forall₂_comp_iff.1 items
    exact ⟨_, .root hi, .root hi'⟩

theorem Form.Rel.comp (hfg : Form.Rel R f g) (hgh : Form.Rel S g h) :
    Form.Rel (fun a c => ∃ b, R a b ∧ S b c) f h := by
  cases hfg with
  | literal token =>
    cases hgh
    exact .literal token
  | prefixOp operand =>
    cases hgh with
    | prefixOp operand' => exact .prefixOp ⟨_, operand, operand'⟩
  | infixOp left right =>
    cases hgh with
    | infixOp left' right' => exact .infixOp ⟨_, left, left'⟩ ⟨_, right, right'⟩
  | statement inner =>
    cases hgh with
    | statement inner' => exact .statement ⟨_, inner, inner'⟩
  | block items trailing =>
    cases hgh with
    | block items' trailing' =>
      exact .block (forall₂_comp_iff.2 ⟨_, items, items'⟩) (option_rel_comp_iff.2 ⟨_, trailing, trailing'⟩)
  | functionDef params result body =>
    cases hgh with
    | functionDef params' result' body' =>
      exact .functionDef (forall₂_param_comp_iff.2 ⟨_, params, params'⟩) ⟨_, result, result'⟩
        (option_rel_comp_iff.2 ⟨_, body, body'⟩)
  | functionCall callee arguments =>
    cases hgh with
    | functionCall callee' arguments' =>
      exact .functionCall ⟨_, callee, callee'⟩ (forall₂_comp_iff.2 ⟨_, arguments, arguments'⟩)
  | variableDef name type initializer =>
    cases hgh with
    | variableDef name' type' initializer' =>
      exact .variableDef ⟨_, name, name'⟩ ⟨_, type, type'⟩ (option_rel_comp_iff.2 ⟨_, initializer, initializer'⟩)
  | root items =>
    cases hgh with
    | root items' => exact .root (forall₂_comp_iff.2 ⟨_, items, items'⟩)

theorem Form.Rel.comp_iff : Form.Rel (fun a c => ∃ b, R a b ∧ S b c) f h ↔ ∃ g, Form.Rel R f g ∧ Form.Rel S g h :=
  ⟨fun hfh => hfh.exists_between, fun ⟨_, hfg, hgh⟩ => hfg.comp hgh⟩

/-- Related parts are parts. -/
theorem Form.Rel.of_mem (hfg : Form.Rel R f g) : Form.Rel (fun x y => x ∈ f.parts ∧ R x y) f g := by
  have hlist : ∀ {P : α → Prop} {xs : List α} {ys : List β}, (∀ x ∈ xs, P x) → List.Forall₂ R xs ys →
      List.Forall₂ (fun x y => P x ∧ R x y) xs ys := fun hP h => (List.forall₂_and_left _ _).2 ⟨hP, h⟩
  have hoption : ∀ {P : α → Prop} {x : Option α} {y : Option β}, (∀ a ∈ x, P a) → Option.Rel R x y →
      Option.Rel (fun x y => P x ∧ R x y) x y := fun hP h => by
    cases h with
    | none => exact .none
    | some h => exact .some ⟨hP _ rfl, h⟩
  cases hfg with
  | literal token => exact .literal token
  | prefixOp operand => exact .prefixOp ⟨by simp [Form.parts], operand⟩
  | infixOp left right => exact .infixOp ⟨by simp [Form.parts], left⟩ ⟨by simp [Form.parts], right⟩
  | statement inner => exact .statement ⟨by simp [Form.parts], inner⟩
  | block items trailing =>
    exact .block (hlist (fun x hx => by simp [Form.parts, hx]) items)
      (hoption (fun x hx => by simp [Form.parts, Option.mem_def.1 hx]) trailing)
  | @functionDef name ps qs r r' b b' params result body =>
    have hparams : List.Forall₂ (fun p q => p ∈ ps ∧ Param.Rel R p q) ps qs :=
      (List.forall₂_and_left _ _).2 ⟨fun _ hp => hp, params⟩
    refine .functionDef (hparams.imp fun p q ⟨hp, hpq⟩ => ⟨⟨?_, hpq.name⟩, ?_, hpq.type⟩)
      ⟨by simp [Form.parts], result⟩ (hoption (fun x hx => by simp [Form.parts, Option.mem_def.1 hx]) body)
    · exact List.mem_append_left _ (List.mem_append_left _ (List.mem_flatMap.2 ⟨p, hp, by simp⟩))
    · exact List.mem_append_left _ (List.mem_append_left _ (List.mem_flatMap.2 ⟨p, hp, by simp⟩))
  | functionCall callee arguments =>
    exact .functionCall ⟨by simp [Form.parts], callee⟩ (hlist (fun x hx => by simp [Form.parts, hx]) arguments)
  | variableDef name type initializer =>
    exact .variableDef ⟨by simp [Form.parts], name⟩ ⟨by simp [Form.parts], type⟩
      (hoption (fun x hx => by simp [Form.parts, Option.mem_def.1 hx]) initializer)
  | root items => exact .root (hlist (fun x hx => by simp [Form.parts, hx]) items)

/-- A form is related to itself if its parts are. -/
theorem Form.Rel.refl_of_mem {R : α → α → Prop} {f : Form α} (hR : ∀ x ∈ f.parts, R x x) : Form.Rel R f f := by
  refine (Form.Rel.of_mem (.refl (R := Eq) (fun _ => rfl) f)).imp ?_
  rintro x _ ⟨hx, rfl⟩
  exact hR x hx

namespace Node

variable {ε : Type} {rule rule' : Node → Except ε Node}

/-! ## revisions from those of the parts -/

theorem reviseList_of_forall₂ {xs ys : List Node} (h : List.Forall₂ (Revised rule) xs ys) :
    reviseList rule xs = .ok ys := by
  induction h with
  | nil => rfl
  | cons hx _ ih =>
    have hx : revise rule _ = _ := hx
    simp [reviseList, hx, ih, bind, Except.bind, pure, Except.pure]

theorem reviseOption_of_rel {x y : Option Node} (h : Option.Rel (Revised rule) x y) :
    reviseOption rule x = .ok y := by
  cases h with
  | none => rfl
  | some hx =>
    have hx : revise rule _ = _ := hx
    simp [reviseOption, hx, bind, Except.bind, pure, Except.pure]

theorem reviseParams_of_forall₂ {ps qs : List (Param Node)} (h : List.Forall₂ (Param.Rel (Revised rule)) ps qs) :
    reviseParams rule ps = .ok qs := by
  induction h with
  | nil => rfl
  | cons hp _ ih =>
    obtain ⟨hname, htype⟩ := hp
    have hname : revise rule _ = _ := hname
    have htype : revise rule _ = _ := htype
    simp [reviseParams, hname, htype, ih, bind, Except.bind, pure, Except.pure]

theorem reviseParts_of_rel {f g : Form Node} (h : Form.Rel (Revised rule) f g) : reviseParts rule f = .ok g := by
  have hrevise : ∀ {x y}, Revised rule x y → revise rule x = .ok y := id
  cases h with
  | literal => rfl
  | prefixOp operand => simp [reviseParts, hrevise operand, bind, Except.bind, pure, Except.pure]
  | infixOp left right =>
    simp [reviseParts, hrevise left, hrevise right, bind, Except.bind, pure, Except.pure]
  | statement inner => simp [reviseParts, hrevise inner, bind, Except.bind, pure, Except.pure]
  | block items trailing =>
    simp [reviseParts, reviseList_of_forall₂ items, reviseOption_of_rel trailing, bind, Except.bind, pure, Except.pure]
  | functionDef params result body =>
    simp [reviseParts, reviseParams_of_forall₂ params, reviseOption_of_rel body, hrevise result, bind, Except.bind,
      pure, Except.pure]
  | functionCall callee arguments =>
    simp [reviseParts, hrevise callee, reviseList_of_forall₂ arguments, bind, Except.bind, pure, Except.pure]
  | variableDef name type initializer =>
    simp [reviseParts, hrevise name, hrevise type, reviseOption_of_rel initializer, bind, Except.bind, pure, Except.pure]
  | root items => simp [reviseParts, reviseList_of_forall₂ items, bind, Except.bind, pure, Except.pure]

/-- A node is revised if its parts are and the rule accepts it over the new ones. -/
theorem revised_iff {n n' : Node} :
    Revised rule n n' ↔ ∃ form, Form.Rel (Revised rule) n.form form ∧ rule { n with form } = .ok n' := by
  rw [Revised, revise_eq_ok_iff]
  exact exists_congr fun form => and_congr_left fun _ => ⟨reviseParts_eq_ok, reviseParts_of_rel⟩

/-- A rule that does at least what another does revises every tree that the other revises. -/
theorem Revised.mono (hrule : ∀ {n n'}, rule n = .ok n' → rule' n = .ok n') {x y : Node} (h : Revised rule x y) :
    Revised rule' x y := by
  induction x using childInduction generalizing y with
  | step x ih =>
    obtain ⟨form, hparts, hx⟩ := revised_iff.1 h
    exact revised_iff.2 ⟨form, hparts.of_mem.imp fun ⟨hc, hcd⟩ => ih _ hc hcd, hrule hx⟩

/-! ## trees that are not revised -/

section

variable {e : ε}

theorem reviseList_eq_error {xs : List Node} (h : reviseList rule xs = .error e) :
    ∃ x ∈ xs, x.revise rule = .error e := by
  induction xs with
  | nil => cases h
  | cons x xs ih =>
    simp only [reviseList, bind_eq_error, pure, Except.pure, reduceCtorEq, and_false, exists_false, or_false] at h
    rcases h with hx | ⟨_, -, hxs⟩
    · exact ⟨x, List.mem_cons_self, hx⟩
    · obtain ⟨y, hy, hrevise⟩ := ih hxs
      exact ⟨y, List.mem_cons_of_mem _ hy, hrevise⟩

theorem reviseOption_eq_error {x : Option Node} (h : reviseOption rule x = .error e) :
    ∃ y ∈ x.toList, y.revise rule = .error e := by
  cases x with
  | none => cases h
  | some x =>
    simp only [reviseOption, bind_eq_error, pure, Except.pure, reduceCtorEq, and_false, exists_false, or_false] at h
    exact ⟨x, List.mem_cons_self, h⟩

theorem reviseParams_eq_error {ps : List (Param Node)} (h : reviseParams rule ps = .error e) :
    ∃ x ∈ ps.flatMap fun p => [p.name, p.type], x.revise rule = .error e := by
  induction ps with
  | nil => cases h
  | cons p ps ih =>
    simp only [reviseParams, bind_eq_error, pure, Except.pure, reduceCtorEq, and_false, exists_false, or_false] at h
    rcases h with hname | ⟨_, -, htype | ⟨_, -, hps⟩⟩
    · exact ⟨p.name, by simp, hname⟩
    · exact ⟨p.type, by simp, htype⟩
    · obtain ⟨x, hx, hrevise⟩ := ih hps
      exact ⟨x, List.mem_append_right [p.name, p.type] hx, hrevise⟩

theorem reviseParts_eq_error {f : Form Node} (h : reviseParts rule f = .error e) :
    ∃ x ∈ f.parts, x.revise rule = .error e := by
  cases f <;>
    simp only [reviseParts, bind_eq_error, pure, Except.pure, reduceCtorEq, and_false, exists_false, or_false] at h
  case prefixOp op x =>
    exact ⟨x, List.mem_cons_self, h⟩
  case infixOp op l r =>
    rcases h with hl | ⟨_, -, hr⟩
    · exact ⟨l, List.mem_cons_self, hl⟩
    · exact ⟨r, List.mem_cons_of_mem _ List.mem_cons_self, hr⟩
  case statement x =>
    exact ⟨x, List.mem_cons_self, h⟩
  case block xs x =>
    rcases h with hxs | ⟨_, -, hx⟩
    · obtain ⟨y, hy, hrevise⟩ := reviseList_eq_error hxs
      exact ⟨y, List.mem_append_left _ hy, hrevise⟩
    · obtain ⟨y, hy, hrevise⟩ := reviseOption_eq_error hx
      exact ⟨y, List.mem_append_right _ hy, hrevise⟩
  case functionDef name ps r b =>
    rcases h with hps | ⟨_, -, hb | ⟨_, -, hr⟩⟩
    · obtain ⟨y, hy, hrevise⟩ := reviseParams_eq_error hps
      exact ⟨y, List.mem_append_left _ (List.mem_append_left _ hy), hrevise⟩
    · obtain ⟨y, hy, hrevise⟩ := reviseOption_eq_error hb
      exact ⟨y, List.mem_append_left _ (List.mem_append_right _ hy), hrevise⟩
    · exact ⟨r, List.mem_append_right _ List.mem_cons_self, hr⟩
  case functionCall f xs =>
    rcases h with hf | ⟨_, -, hxs⟩
    · exact ⟨f, List.mem_cons_self, hf⟩
    · obtain ⟨y, hy, hrevise⟩ := reviseList_eq_error hxs
      exact ⟨y, List.mem_cons_of_mem _ hy, hrevise⟩
  case variableDef n t i =>
    rcases h with hn | ⟨_, -, ht | ⟨_, -, hi⟩⟩
    · exact ⟨n, List.mem_cons_self, hn⟩
    · exact ⟨t, List.mem_cons_of_mem _ List.mem_cons_self, ht⟩
    · obtain ⟨y, hy, hrevise⟩ := reviseOption_eq_error hi
      exact ⟨y, List.mem_cons_of_mem _ (List.mem_cons_of_mem _ hy), hrevise⟩
  case root xs =>
    exact reviseList_eq_error h

/-- **What ends a revision** is a node that the rule refuses over its revised parts. -/
theorem revise_eq_error {x : Node} (h : x.revise rule = .error e) :
    ∃ z ∈ x.preorder, ∃ form, Form.Rel (Revised rule) z.form form ∧ rule { z with form } = .error e := by
  induction x using childInduction with
  | step x ih =>
    obtain ⟨span, scope, type, form⟩ := x
    rw [revise, bind_eq_error] at h
    rcases h with hparts | ⟨form', hparts, hrule⟩
    · obtain ⟨c, hc, hrevise⟩ := reviseParts_eq_error hparts
      obtain ⟨z, hz, hrefused⟩ := ih c hc hrevise
      refine ⟨z, ?_, hrefused⟩
      rw [preorder_eq]
      exact List.mem_cons_of_mem _ (List.mem_flatMap.2 ⟨c, hc, hz⟩)
    · exact ⟨_, mem_preorder_self _, form', reviseParts_eq_ok hparts, hrule⟩

end

/-! ## changes of notes -/

section

variable {φ ψ : Option TypeId → Option TypeId}

theorem eq_map_of_forall₂ {α β : Type} {φ : α → β} {xs : List α} {ys : List β}
    (h : List.Forall₂ (fun x y => y = φ x) xs ys) : ys = xs.map φ := by
  induction h with
  | nil => rfl
  | cons hx _ ih => rw [hx, ih, List.map_cons]

theorem eq_map_of_option_rel {α β : Type} {φ : α → β} {x : Option α} {y : Option β}
    (h : Option.Rel (fun x y => y = φ x) x y) : y = x.map φ := by
  cases h with
  | none => rfl
  | some h => rw [h, Option.map_some]

/-- Parts with changed notes make a form with changed notes. -/
theorem eq_mapTypeParts {f g : Form Node} (h : Form.Rel (fun x y => y = mapType φ x) f g) : g = mapTypeParts φ f := by
  cases h with
  | literal => rfl
  | prefixOp operand => rw [mapTypeParts, operand]
  | infixOp left right => rw [mapTypeParts, left, right]
  | statement inner => rw [mapTypeParts, inner]
  | block items trailing =>
    rw [mapTypeParts, mapTypeList_eq, mapTypeOption_eq, eq_map_of_forall₂ items, eq_map_of_option_rel trailing]
  | functionDef params result body =>
    have hparams := params.imp fun p q hpq =>
      (by rw [← hpq.name, ← hpq.type] : q = (⟨mapType φ p.name, mapType φ p.type⟩ : Param Node))
    rw [mapTypeParts, mapTypeParams_eq, mapTypeOption_eq, result, eq_map_of_option_rel body, eq_map_of_forall₂ hparams]
  | functionCall callee arguments => rw [mapTypeParts, mapTypeList_eq, callee, eq_map_of_forall₂ arguments]
  | variableDef name type initializer =>
    rw [mapTypeParts, mapTypeOption_eq, name, type, eq_map_of_option_rel initializer]
  | root items => rw [mapTypeParts, mapTypeList_eq, eq_map_of_forall₂ items]

theorem rel_mapTypeParts (φ : Option TypeId → Option TypeId) (f : Form Node) :
    Form.Rel (fun x y => y = mapType φ x) f (mapTypeParts φ f) := by
  have hlist : ∀ xs : List Node, List.Forall₂ (fun x y => y = mapType φ x) xs (xs.map (mapType φ)) := fun xs =>
    List.forall₂_map_right_iff.2 (List.forall₂_same.2 fun _ _ => rfl)
  have hoption : ∀ x : Option Node, Option.Rel (fun x y => y = mapType φ x) x (x.map (mapType φ)) := fun x => by
    cases x with
    | none => exact .none
    | some x => exact .some rfl
  cases f with
  | literal token => exact .literal token
  | prefixOp => exact .prefixOp rfl
  | infixOp => exact .infixOp rfl rfl
  | statement => exact .statement rfl
  | block =>
    rw [mapTypeParts, mapTypeList_eq, mapTypeOption_eq]
    exact .block (hlist _) (hoption _)
  | functionDef =>
    rw [mapTypeParts, mapTypeParams_eq, mapTypeOption_eq]
    exact .functionDef (List.forall₂_map_right_iff.2 (List.forall₂_same.2 fun _ _ => ⟨rfl, rfl⟩)) rfl (hoption _)
  | functionCall =>
    rw [mapTypeParts, mapTypeList_eq]
    exact .functionCall rfl (hlist _)
  | variableDef =>
    rw [mapTypeParts, mapTypeOption_eq]
    exact .variableDef rfl rfl (hoption _)
  | root =>
    rw [mapTypeParts, mapTypeList_eq]
    exact .root (hlist _)

/-- Two changes that agree on the notes of a tree change it alike. -/
theorem mapType_congr {n : Node} (h : n.Everywhere fun z => φ z.type = ψ z.type) : n.mapType φ = n.mapType ψ := by
  induction n using childInduction with
  | step n ih =>
    rw [mapType_eq, mapType_eq, h.self]
    congr 1
    refine eq_mapTypeParts ((rel_mapTypeParts φ n.form).of_mem.imp ?_)
    rintro x _ ⟨hx, rfl⟩
    exact ih x hx (h.child hx)

end

end Node

end LetFn
