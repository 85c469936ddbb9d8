import LetFn.Proofs.Check.Following

/-!
# Names mean what lexical scoping says

The checker keeps scopes in a list that is filled while the tree is typed, and looks names up there. Along a run the
scopes from the current one outwards hold what the frames of `Lexical.resolve` hold, and the scopes of blocks and
functions that the run has not come to hold nothing but the functions defined right in them (`Standing`).

Main fact: `resolves_lexically`.
-/

namespace LetFn.Check

open Context (Ready Step)
open Lexical (Frame hoisted hoistedList hoistedOption hoistedBody resolve resolveList resolveOption)

variable {c c₁ c' ctx ctx₁ ctx' : Context} {here : ScopeId} {x y : Node} {xs ys : List Node}

/-! ## functions right in a scope -/

theorem definitions_of_isName {n : Node} (h : n.IsName) : definitions n = [] := by
  obtain ⟨t, -, hform⟩ := h
  rw [definitions_eq]
  simp [ownDefinitions, Node.children, hform, Form.parts]

/-- A definition below a node is in a scope where one of the nodes stands. -/
theorem standsIn_of_mem_definitions {ns : List Node} {e : Entry}
    (hns : ∀ n ∈ ns.flatMap Node.preorder, StandsIn here c c' n) (he : e ∈ ns.flatMap definitions) :
    e.1 = here ∨ c.scopes.length ≤ e.1.index ∧ e.1.index < c'.scopes.length := by
  obtain ⟨n, hn, he⟩ := List.mem_flatMap.1 he
  obtain ⟨z, hz, he⟩ := List.mem_flatMap.1 he
  obtain ⟨s, hs, hin⟩ := hns z (List.mem_flatMap.2 ⟨n, hn, hz⟩)
  have hscope : e.1 = z.scopeId := by
    unfold ownDefinitions at he
    split at he
    · obtain ⟨_, -, rfl⟩ := List.mem_map.1 he
      rfl
    · exact absurd he List.not_mem_nil
  rw [hscope, Node.scopeId, hs, Option.getD_some]
  exact hin

/-- Below a block or a function no definition is in the scope around. -/
theorem not_mem_definitions {inner : ScopeId} {c₀ c₁ c₂ : Context} {ns : List Node}
    (opens : c.openScope here = (inner, c₀)) (h₁ : c₀.Opens c₁) (hbelow : here.index < c.scopes.length)
    (hns : ∀ n ∈ ns.flatMap Node.preorder, StandsIn inner c₁ c₂ n) (e : String × Ty) :
    (here, e) ∉ ns.flatMap definitions := by
  intro he
  obtain ⟨hinner, hlength, -⟩ := Context.opens_of_openScope opens
  have := h₁.length_le
  rcases standsIn_of_mem_definitions hns he with heq | ⟨hlo, -⟩
  · have : here = inner := heq
    subst this
    omega
  · have : c₁.scopes.length ≤ here.index := hlo
    omega

mutual

/-- The functions that a tree defines in the scope where it stands are the hoisted ones. -/
theorem mem_definitions_iff (e : String × Ty) : ∀ (x : Node) {y : Node} {c c' : Context},
    Stamps here c (.node x y) c' → here.index < c.scopes.length → (y.Everywhere fun z => z.form.Shaped) →
    ((here, e) ∈ definitions y ↔ e ∈ hoisted x)
  | ⟨_, _, _, .literal _⟩, _, _, _, h, _, _ => by
    cases h with | plain _ _ parts => cases parts with | literal =>
    simp [definitions_eq, ownDefinitions, Node.children, Form.parts, hoisted]
  | ⟨_, _, _, .prefixOp _ operand⟩, _, _, _, h, hbelow, hs => by
    cases h with | plain _ _ parts => cases parts with | prefixOp parts =>
    rw [definitions_eq]
    simpa [ownDefinitions, Node.children, Form.parts, hoisted] using
      mem_definitions_iff e operand parts hbelow (hs.child (by simp [Node.children, Form.parts]))
  | ⟨_, _, _, .infixOp _ left right⟩, _, _, _, h, hbelow, hs => by
    cases h with | plain _ _ parts => cases parts with | infixOp hl hr =>
    have hright := Nat.lt_of_lt_of_le hbelow hl.opens.length_le
    have hl := mem_definitions_iff e left hl hbelow (hs.child (by simp [Node.children, Form.parts]))
    have hr := mem_definitions_iff e right hr hright (hs.child (by simp [Node.children, Form.parts]))
    rw [definitions_eq]
    simp [ownDefinitions, Node.children, Form.parts, hoisted, hl, hr]
  | ⟨_, _, _, .statement inner⟩, _, _, _, h, hbelow, hs => by
    cases h with | plain _ _ parts => cases parts with | statement parts =>
    rw [definitions_eq]
    simpa [ownDefinitions, Node.children, Form.parts, hoisted] using
      mem_definitions_iff e inner parts hbelow (hs.child (by simp [Node.children, Form.parts]))
  | ⟨_, _, _, .block items trailing⟩, _, _, _, h, hbelow, hs => by
    cases h with
    | plain hnot => exact absurd rfl hnot
    | block opens parts =>
      have hnot := not_mem_definitions opens (.refl _) hbelow parts.inside e
      cases parts with | blockParts =>
      rw [definitions_eq]
      simpa only [ownDefinitions, hoisted, Node.children, List.nil_append, List.not_mem_nil, iff_false] using hnot
  | ⟨_, _, _, .functionDef name ps result body⟩, _, _, _, h, hbelow, hs => by
    cases h with
    | plain _ hnot => exact absurd rfl hnot
    | @functionDef _ _ _ _ _ _ _ _ _ _ _ _ qs _ r' _ _ opens params body standing =>
      have hparams := not_mem_definitions opens (.refl _) hbelow params.inside e
      have hbody := not_mem_definitions opens params.opens hbelow body.inside e
      have hresult : r'.IsName := hs.self.2.2.1
      have hown : (here, e) ∈ (Lexical.function name qs r').map (here, ·) ↔ e ∈ Lexical.function name ps result := by
        rw [function_of_likeness likeness_stampedAs params.alike standing.stampedAs]
        simp
      rw [definitions_eq]
      simp only [ownDefinitions, Node.scopeId, Option.getD_some, Node.children, Form.parts, hoisted,
        List.flatMap_append, List.flatMap_singleton, List.mem_append, definitions_of_isName hresult, List.not_mem_nil,
        or_false, hown, hparams, hbody]
  | ⟨_, _, _, .functionCall callee arguments⟩, _, _, _, h, hbelow, hs => by
    cases h with | plain _ _ parts => cases parts with | functionCall hc ha =>
    have harguments := Nat.lt_of_lt_of_le hbelow hc.opens.length_le
    have hc := mem_definitions_iff e callee hc hbelow (hs.child (by simp [Node.children, Form.parts]))
    have ha := mem_definitionsList_iff e arguments ha harguments
      fun n hn => hs.child (by simp [Node.children, Form.parts, hn])
    rw [definitions_eq]
    simp only [ownDefinitions, Node.children, Form.parts, hoisted, List.nil_append, List.flatMap_cons, List.mem_append,
      hc, ha]
  | ⟨_, _, _, .variableDef name type initializer⟩, _, _, _, h, hbelow, hs => by
    cases h with | plain _ _ parts => cases parts with | variableDef hn ht hi =>
    obtain ⟨hname, htype⟩ := hs.self
    have hinit := Nat.lt_of_lt_of_le hbelow (Nat.le_trans hn.opens.length_le ht.opens.length_le)
    have hi := mem_definitionsOption_iff e initializer hi hinit
      fun n hn => hs.child (by simp [Node.children, Form.parts, Option.mem_def.1 hn])
    rw [definitions_eq]
    simp only [ownDefinitions, Node.children, Form.parts, hoisted, List.nil_append, List.flatMap_cons,
      definitions_of_isName hname, definitions_of_isName htype, hi]
  | ⟨_, _, _, .root items⟩, _, _, _, h, hbelow, hs => by
    cases h with | plain _ _ parts => cases parts with | root parts =>
    rw [definitions_eq]
    simpa [ownDefinitions, Node.children, Form.parts, hoisted] using
      mem_definitionsList_iff e items parts hbelow fun n hn => hs.child (by simp [Node.children, Form.parts, hn])

theorem mem_definitionsList_iff (e : String × Ty) : ∀ (xs : List Node) {ys : List Node} {c c' : Context},
    Stamps here c (.list xs ys) c' → here.index < c.scopes.length →
    (∀ y ∈ ys, y.Everywhere fun z => z.form.Shaped) → ((here, e) ∈ ys.flatMap definitions ↔ e ∈ hoistedList xs)
  | [], _, _, _, h, _, _ => by
    cases h
    simp [hoistedList]
  | x :: xs, _, _, _, h, hbelow, hs => by
    cases h with | cons first others =>
    have hothers := Nat.lt_of_lt_of_le hbelow first.opens.length_le
    rw [List.flatMap_cons, List.mem_append, hoistedList, List.mem_append,
      mem_definitions_iff e x first hbelow (hs _ List.mem_cons_self),
      mem_definitionsList_iff e xs others hothers fun y hy => hs y (List.mem_cons_of_mem _ hy)]

theorem mem_definitionsOption_iff (e : String × Ty) : ∀ (x : Option Node) {y : Option Node} {c c' : Context},
    Stamps here c (.option x y) c' → here.index < c.scopes.length →
    (∀ z ∈ y, z.Everywhere fun z => z.form.Shaped) → ((here, e) ∈ y.toList.flatMap definitions ↔ e ∈ hoistedOption x)
  | none, _, _, _, h, _, _ => by
    cases h
    simp [hoistedOption]
  | some x, _, _, _, h, hbelow, hs => by
    cases h with | some inner =>
    rw [Option.toList_some, List.flatMap_singleton, hoistedOption, mem_definitions_iff e x inner hbelow (hs _ rfl)]

end

/-- The same for the body of a function, which is a block. -/
theorem mem_definitionsBody_iff (e : String × Ty) {b b' : Option Node} (h : Stamps here c (.body b b') c')
    (hbelow : here.index < c.scopes.length) (hb : ∀ z ∈ b', z.tag = .block)
    (hs : ∀ z ∈ b', z.Everywhere fun z => z.form.Shaped) :
    (here, e) ∈ b'.toList.flatMap definitions ↔ e ∈ hoistedBody b := by
  cases h with
  | noBody => simp [hoistedBody]
  | @body _ _ _ _ _ _ f g parts =>
    have hg : g.tag = .block := hb _ rfl
    have hshaped := hs _ rfl
    cases parts with
    | @blockParts _ _ c₁ _ _ ys _ o' items trailing =>
      rw [Option.toList_some, List.flatMap_singleton, definitions_eq]
      simp only [ownDefinitions, Node.children, Form.parts, List.nil_append, List.flatMap_append, List.mem_append,
        hoistedBody]
      rw [mem_definitionsList_iff e _ items hbelow fun y hy => hshaped.child (by simp [Node.children, Form.parts, hy]),
        mem_definitionsOption_iff e _ trailing (Nat.lt_of_lt_of_le hbelow items.opens.length_le)
          fun y hy => hshaped.child (by simp [Node.children, Form.parts, Option.mem_def.1 hy])]
    | _ => cases hg

/-! ## where a run stands -/

variable {C : Context} {env : List Frame} {spans : List Span} {n : Node}

/-- The checker is about to type some trees that stand in a scope and in those opened between `c` and `c'`. The frames
hold what the scopes from there outwards hold; the functions of the trees are known, and nothing else is in the scopes
that the trees open. -/
structure Standing (C c c' ctx : Context) (here : ScopeId) (env : List Frame) (spans : List Span) (ns : List Node) :
    Prop where
  sane : Sane ctx spans ns
  agrees : Agrees ctx here env
  below : here.index < c.scopes.length
  opens : c'.Opens C
  parents : ∀ s, (ctx.scope? s).map (·.parent) = (C.scope? s).map (·.parent)
  loaded : ∀ s name t, (s, name, t) ∈ ns.flatMap definitions → ctx.view s name = some t
  fresh : ∀ s, c.scopes.length ≤ s.index → s.index < c'.scopes.length → ∀ name t, ctx.view s name = some t →
    (s, name, t) ∈ ns.flatMap definitions

/-- What is true behind some trees: the frames of the reference hold what the scopes hold, names were entered only where
the trees stand, and the types noted on names are those of the reference. -/
structure Result (c c' ctx : Context) (here : ScopeId) (r : List Use × List Frame) (names : List Node)
    (ctx' : Context) : Prop where
  agrees : Agrees ctx' here r.2
  step : Step ctx ctx'
  enters : ∃ es, Entered ctx ctx' es ∧
    ∀ e ∈ es, e.1 = here ∨ c.scopes.length ≤ e.1.index ∧ e.1.index < c'.scopes.length
  uses : ∀ ctx'', ctx'.Extends ctx'' → names.map (Node.use ctx'') = r.1

theorem Result.refl (h : Agrees ctx here env) : Result c c' ctx here ([], env) [] ctx :=
  ⟨h, .refl ctx, ⟨[], .refl ctx, fun _ he => absurd he List.not_mem_nil⟩, fun _ _ => rfl⟩

theorem Result.trans {r r' : List Use × List Frame} {names names' : List Node}
    (h : Result c c₁ ctx here r names ctx₁) (h' : Result c₁ c' ctx₁ here r' names' ctx') (hc : c.Opens c₁)
    (hc' : c₁.Opens c') : Result c c' ctx here (r.1 ++ r'.1, r'.2) (names ++ names') ctx' := by
  obtain ⟨es, hes, hin⟩ := h.enters
  obtain ⟨es', hes', hin'⟩ := h'.enters
  have hlow := hc.length_le
  have hhigh := hc'.length_le
  refine ⟨h'.agrees, h.step.trans h'.step, ⟨es ++ es', hes.trans hes', fun e he => ?_⟩, fun ctx'' hext => ?_⟩
  · rcases List.mem_append.1 he with he | he
    · exact (hin e he).imp_right fun ⟨hlo, hhi⟩ => ⟨hlo, Nat.lt_of_lt_of_le hhi hhigh⟩
    · exact (hin' e he).imp_right fun ⟨hlo, hhi⟩ => ⟨Nat.le_trans hlow hlo, hhi⟩
  · rw [List.map_append, h.uses ctx'' (h'.step.grows.trans hext), h'.uses ctx'' hext]

/-- What was entered before the run counts too. -/
theorem Result.after {r : List Use × List Frame} {names : List Node} {es : List Entry}
    (h : Result c c' ctx₁ here r names ctx') (hstep : Step ctx ctx₁) (hes : Entered ctx ctx₁ es)
    (hin : ∀ e ∈ es, e.1 = here ∨ c.scopes.length ≤ e.1.index ∧ e.1.index < c'.scopes.length) :
    Result c c' ctx here r names ctx' := by
  obtain ⟨es', hes', hin'⟩ := h.enters
  refine ⟨h.agrees, hstep.trans h.step, ⟨es ++ es', hes.trans hes', fun e he => ?_⟩, h.uses⟩
  exact (List.mem_append.1 he).elim (hin e) (hin' e)

/-- Only the first of two groups of trees. -/
theorem Standing.left (h : Standing C c c' ctx here env spans (xs ++ ys)) (hc' : c₁.Opens c')
    (hys : ∀ n ∈ ys.flatMap Node.preorder, StandsIn here c₁ c' n) :
    Standing C c c₁ ctx here env spans xs := by
  have hhigh := hc'.length_le
  refine ⟨h.sane.left, h.agrees, h.below, hc'.trans h.opens, h.parents, fun s name t he => ?_,
    fun s hlo hhi name t hview => ?_⟩
  · refine h.loaded s name t ?_
    rw [List.flatMap_append]
    exact List.mem_append_left _ he
  · have he := h.fresh s hlo (by omega) name t hview
    rw [List.flatMap_append, List.mem_append] at he
    refine he.resolve_right fun he => ?_
    rcases standsIn_of_mem_definitions hys he with heq | ⟨hlo', -⟩
    · have : s = here := heq
      subst this
      exact absurd h.below (by omega)
    · have : c₁.scopes.length ≤ s.index := hlo'
      omega

/-- The second group of trees, when the first are done. -/
theorem Standing.right {r : List Use × List Frame} {names : List Node}
    (h : Standing C c c' ctx here env spans (xs ++ ys)) (hc : c.Opens c₁)
    (hxs : ∀ n ∈ xs.flatMap Node.preorder, StandsIn here c c₁ n) (hr : Result c c₁ ctx here r names ctx₁)
    (hready : Ready ctx₁ (xs.flatMap Node.declared ++ spans)) :
    Standing C c₁ c' ctx₁ here r.2 (xs.flatMap Node.declared ++ spans) ys := by
  obtain ⟨es, hes, hin⟩ := hr.enters
  have hlow := hc.length_le
  have hbelow := h.below
  refine ⟨h.sane.right hready hr.step, hr.agrees, by omega, h.opens,
    fun s => (hr.step.parents s).trans (h.parents s), fun s name t he => ?_, fun s hlo hhi name t hview => ?_⟩
  · refine hes.mono (h.loaded s name t ?_)
    rw [List.flatMap_append]
    exact List.mem_append_right _ he
  · rw [hes.view_eq fun e he heq => ?_] at hview
    · have he := h.fresh s (by omega) hhi name t hview
      rw [List.flatMap_append, List.mem_append] at he
      refine he.resolve_left fun he => ?_
      rcases standsIn_of_mem_definitions hxs he with heq | ⟨-, hhi'⟩
      · have : s = here := heq
        subst this
        omega
      · have : s.index < c₁.scopes.length := hhi'
        omega
    · subst heq
      rcases hin e he with heq | ⟨-, hhi'⟩
      · rw [heq] at hlo
        omega
      · omega

/-- The parts of a tree that defines no function itself. -/
theorem Standing.children (h : Standing C c c' ctx here env spans [n]) (hn : ownDefinitions n = []) :
    Standing C c c' ctx here env (n.ownNames ++ spans) n.children := by
  have hdefs : [n].flatMap definitions = n.children.flatMap definitions := by
    rw [List.flatMap_singleton, definitions_eq, hn, List.nil_append]
  exact ⟨h.sane.children, h.agrees, h.below, h.opens, h.parents, hdefs ▸ h.loaded, hdefs ▸ h.fresh⟩

/-! ## into a scope and out of it -/

theorem parent_of_openScope {inner : ScopeId} {c₀ : Context} (opens : c.openScope here = (inner, c₀))
    (hC : c₀.Opens C) : (C.scope? inner).map (·.parent) = some (some here) := by
  obtain ⟨rfl, rfl⟩ := Prod.mk.inj opens
  obtain ⟨more, rfl, -⟩ := hC
  simp [Context.scope?]

/-- On entry the scope of a level holds the functions of the level. -/
theorem agrees_of_enter {inner : ScopeId} {c₀ : Context} {frame : Frame} (opens : c.openScope here = (inner, c₀))
    (hC : c₀.Opens C) (hparents : ∀ s, (ctx.scope? s).map (·.parent) = (C.scope? s).map (·.parent))
    (hbelow : here.index < c.scopes.length) (hagrees : Agrees ctx here env)
    (hframe : ∀ name t, ctx.view inner name = some t ↔ (name, t) ∈ frame) : Agrees ctx inner (frame :: env) := by
  obtain ⟨hinner, -⟩ := Context.opens_of_openScope opens
  refine .inner (fun name => lookup_eq_of_mem_iff (hframe name)) ?_ (by omega) hagrees
  rw [hparents, parent_of_openScope opens hC]

/-- Behind a level the frame of the level is gone. -/
theorem Result.leave {inner : ScopeId} {c₀ c₁ c₂ : Context} {r : List Use × List Frame} {names : List Node}
    (h : Result c₁ c₂ ctx inner r names ctx') (opens : c.openScope here = (inner, c₀)) (h₁ : c₀.Opens c₁)
    (h₂ : c₁.Opens c₂) (h' : c₂.Opens c') (hparent : (ctx.scope? inner).map (·.parent) = some (some here)) :
    Result c c' ctx here (r.1, r.2.tail) names ctx' := by
  obtain ⟨hinner, hlength, -⟩ := Context.opens_of_openScope opens
  obtain ⟨es, hes, hin⟩ := h.enters
  have := h₁.length_le
  have := h₂.length_le
  have := h'.length_le
  refine ⟨h.agrees.tail ((h.step.parents inner).trans hparent), h.step, ⟨es, hes, fun e he => .inr ?_⟩, h.uses⟩
  rcases hin e he with heq | ⟨hlo, hhi⟩
  · rw [heq]
    omega
  · omega

/-! ## one tree after the other -/

/-- From wherever the checker may stand, the run for some trees follows the reference. -/
structure Resolves {α : Type} (here : ScopeId) (c c' : Context) (ns : List Node) (run : Context → Logged (α × Context))
    (names : α → List Node) (reference : List Frame → List Use × List Frame) : Prop where
  opens : c.Opens c'
  inside : ∀ n ∈ ns.flatMap Node.preorder, StandsIn here c c' n
  outcome : ∀ {ctx spans a}, Sane ctx spans ns → (run ctx).result = .ok a →
    ∃ ns', Outcome .nominal ctx a.2 spans ns ns'
  follows : ∀ {C ctx env spans}, Standing C c c' ctx here env spans ns →
    Follows (run ctx) (reference env).1 fun a => Result c c' ctx here (reference env) (names a.1) a.2

theorem Resolves.seq {α β γ : Type} {run : Context → Logged (α × Context)} {run' : Context → Logged (β × Context)}
    {names : α → List Node} {names' : β → List Node} {reference reference' : List Frame → List Use × List Frame}
    (first : Resolves here c c₁ xs run names reference) (second : Resolves here c₁ c' ys run' names' reference')
    (h : Standing C c c' ctx here env spans (xs ++ ys)) {finish : α × Context → β × Context → Logged γ} {Q : γ → Prop}
    (hfinish : ∀ a b, Result c c' ctx here
      ((reference env).1 ++ (reference' (reference env).2).1, (reference' (reference env).2).2)
      (names a.1 ++ names' b.1) b.2 → Follows (finish a b) [] Q) :
    Follows (run ctx >>= fun a => run' a.2 >>= fun b => finish a b)
      ((reference env).1 ++ (reference' (reference env).2).1) Q := by
  refine (first.follows (h.left second.opens second.inside)).bind fun a ha hresult => ?_
  obtain ⟨ns', ho⟩ := first.outcome h.sane.left ha
  refine (second.follows (h.right first.opens first.inside hresult ho.ready)).map fun b _ hresult' => ?_
  exact hfinish a b (hresult.trans hresult' first.opens second.opens)

section

variable {α : Type} {names : α → List Node} {reference : List Frame → List Use × List Frame}

theorem Resolves.node (h : Stamps here c (.node x y) c')
    (hf : ∀ {C ctx env spans}, Standing C c c' ctx here env spans [y] →
      Follows (materializeLogged ctx y) (resolve env x).1 fun a => Result c c' ctx here (resolve env x) a.1.names a.2) :
    Resolves here c c' [y] (materializeLogged · y) Node.names (resolve · x) := by
  refine ⟨h.opens, by simpa [Stamping.nodes] using h.inside, fun {ctx spans a} hs ha => ⟨[a.1], ?_⟩, hf⟩
  rw [result_materializeLogged] at ha
  exact (materializes_of_materialize y ha).outcome hs

theorem Resolves.list (h : Stamps here c (.list xs ys) c')
    (hf : ∀ {C ctx env spans}, Standing C c c' ctx here env spans ys →
      Follows (materializeLoggedList ctx ys) (resolveList env xs).1 fun a =>
        Result c c' ctx here (resolveList env xs) (Node.namesList a.1) a.2) :
    Resolves here c c' ys (materializeLoggedList · ys) Node.namesList (resolveList · xs) := by
  refine ⟨h.opens, h.inside, fun {ctx spans a} hs ha => ⟨a.1, ?_⟩, hf⟩
  rw [result_materializeLoggedList] at ha
  exact (materializes_of_materializeList ys ha).outcome hs

theorem Resolves.option {x y : Option Node} (h : Stamps here c (.option x y) c')
    (hf : ∀ {C ctx env spans}, Standing C c c' ctx here env spans y.toList →
      Follows (materializeLoggedOption ctx y) (resolveOption env x).1 fun a =>
        Result c c' ctx here (resolveOption env x) (Node.namesOption a.1) a.2) :
    Resolves here c c' y.toList (materializeLoggedOption · y) Node.namesOption (resolveOption · x) := by
  refine ⟨h.opens, h.inside, fun {ctx spans a} hs ha => ⟨a.1.toList, ?_⟩, hf⟩
  rw [result_materializeLoggedOption] at ha
  exact (materializes_of_materializeOption y ha).outcome hs

end

/-! ## every form -/

section

variable {span : Span} {scope : Option ScopeId} {type : Option TypeId}

/-- An identifier gets the type of what it means, or has no meaning. -/
theorem follows_literal {token : Token}
    (h : Standing C c c' ctx here env spans [⟨span, some here, type, .literal token⟩]) :
    Follows (materializeLogged ctx ⟨span, some here, type, .literal token⟩)
      (resolve env ⟨span, scope, type, .literal token⟩).1 fun a =>
        Result c c' ctx here (resolve env ⟨span, scope, type, .literal token⟩) a.1.names a.2 := by
  have hresult : ∀ names uses, (∀ ctx'', ctx.Extends ctx'' → names.map (Node.use ctx'') = uses) →
      Result c c' ctx here (uses, env) names ctx := fun _ _ huses =>
    ⟨h.agrees, .refl ctx, ⟨[], .refl ctx, fun _ he => absurd he List.not_mem_nil⟩, huses⟩
  by_cases hkind : token.kind = .identifier
  · have hlookup := lookup_of_agrees h.agrees (token.identifier?.getD "")
    simp only [materializeLogged, resolve, leafType, hkind, if_true, Option.getD_some, Context.resolveSymbol, ← hlookup]
    cases hfound : ctx.lookup here (token.identifier?.getD "") with
    | none =>
      refine ⟨List.nil_prefix, by rintro _ ⟨⟩, fun name span' related he => ?_⟩
      cases he
      exact List.prefix_refl _
    | some found =>
      refine ⟨List.prefix_refl _, fun a ha => ⟨rfl, ?_⟩, by rintro _ _ _ ⟨⟩⟩
      cases ha
      refine hresult _ _ fun ctx'' hext => ?_
      have hsymbol : ctx.resolveSymbol here (token.identifier?.getD "") span = .ok found.2 := by
        simp [Context.resolveSymbol, hfound]
      obtain ⟨s, hs⟩ := Context.symbolIn?_of_resolveSymbol hsymbol
      simp [Node.names, hkind, Node.use, Node.identifier?, hext.type_eq (h.sane.ready.typed hs)]
  · have hleaf : ∃ t, leafType ctx here token span type = .ok t := by
      unfold leafType
      split <;> first | exact ⟨_, rfl⟩ | exact absurd ‹_› hkind
    obtain ⟨t, ht⟩ := hleaf
    simp only [materializeLogged, resolve, hkind, if_false, Option.getD_some, ht]
    refine ⟨List.prefix_refl _, fun a ha => ⟨rfl, ?_⟩, by rintro _ _ _ ⟨⟩⟩
    cases ha
    exact hresult _ _ fun _ _ => by simp [Node.names, hkind]

theorem Resolves.prefixOp {op : Token} (operand : Resolves here c c' [y] (materializeLogged · y) Node.names (resolve · x))
    (h : Standing C c c' ctx here env spans [⟨span, some here, type, .prefixOp op y⟩]) :
    Follows (materializeLogged ctx ⟨span, some here, type, .prefixOp op y⟩)
      (resolve env ⟨span, scope, type, .prefixOp op x⟩).1 fun a =>
        Result c c' ctx here (resolve env ⟨span, scope, type, .prefixOp op x⟩) a.1.names a.2 := by
  refine (operand.follows (h.children rfl)).map ?_
  rintro ⟨y', ctx'⟩ - hresult
  exact .pure hresult

theorem Resolves.infixOp {op : Token} {l l' r r' : Node}
    (left : Resolves here c c₁ [l'] (materializeLogged · l') Node.names (resolve · l))
    (right : Resolves here c₁ c' [r'] (materializeLogged · r') Node.names (resolve · r))
    (h : Standing C c c' ctx here env spans [⟨span, some here, type, .infixOp op l' r'⟩]) :
    Follows (materializeLogged ctx ⟨span, some here, type, .infixOp op l' r'⟩)
      (resolve env ⟨span, scope, type, .infixOp op l r⟩).1 fun a =>
        Result c c' ctx here (resolve env ⟨span, scope, type, .infixOp op l r⟩) a.1.names a.2 := by
  exact left.seq right (h.children rfl) fun a b hresult => .pure hresult

theorem Resolves.statement (inner : Resolves here c c' [y] (materializeLogged · y) Node.names (resolve · x))
    (h : Standing C c c' ctx here env spans [⟨span, some here, type, .statement y⟩]) :
    Follows (materializeLogged ctx ⟨span, some here, type, .statement y⟩)
      (resolve env ⟨span, scope, type, .statement x⟩).1 fun a =>
        Result c c' ctx here (resolve env ⟨span, scope, type, .statement x⟩) a.1.names a.2 := by
  refine (inner.follows (h.children rfl)).map ?_
  rintro ⟨y', ctx'⟩ - hresult
  exact .pure hresult

theorem Resolves.root (items : Resolves here c c' ys (materializeLoggedList · ys) Node.namesList (resolveList · xs))
    (h : Standing C c c' ctx here env spans [⟨span, some here, type, .root ys⟩]) :
    Follows (materializeLogged ctx ⟨span, some here, type, .root ys⟩)
      (resolve env ⟨span, scope, type, .root xs⟩).1 fun a =>
        Result c c' ctx here (resolve env ⟨span, scope, type, .root xs⟩) a.1.names a.2 := by
  refine (items.follows (h.children rfl)).map ?_
  rintro ⟨ys', ctx'⟩ - hresult
  exact .pure hresult

theorem Resolves.functionCall (callee : Resolves here c c₁ [y] (materializeLogged · y) Node.names (resolve · x))
    (arguments : Resolves here c₁ c' ys (materializeLoggedList · ys) Node.namesList (resolveList · xs))
    (h : Standing C c c' ctx here env spans [⟨span, some here, type, .functionCall y ys⟩]) :
    Follows (materializeLogged ctx ⟨span, some here, type, .functionCall y ys⟩)
      (resolve env ⟨span, scope, type, .functionCall x xs⟩).1 fun a =>
        Result c c' ctx here (resolve env ⟨span, scope, type, .functionCall x xs⟩) a.1.names a.2 := by
  refine callee.seq arguments (h.children rfl) fun a b hresult => ?_
  exact .lift_bind (not_failsUnknown_callType _ _) fun t _ => .pure hresult

theorem Resolves.cons (first : Resolves here c c₁ [y] (materializeLogged · y) Node.names (resolve · x))
    (others : Resolves here c₁ c' ys (materializeLoggedList · ys) Node.namesList (resolveList · xs))
    (h : Standing C c c' ctx here env spans (y :: ys)) :
    Follows (materializeLoggedList ctx (y :: ys)) (resolveList env (x :: xs)).1 fun a =>
      Result c c' ctx here (resolveList env (x :: xs)) (Node.namesList a.1) a.2 :=
  first.seq others h fun _ _ hresult => .pure hresult

/-- The items of a block and its value, in the scope of the block. -/
theorem Resolves.parts {inner : ScopeId} {o o' : Option Node}
    (items : Resolves inner c c₁ ys (materializeLoggedList · ys) Node.namesList (resolveList · xs))
    (trailing : Resolves inner c₁ c' o'.toList (materializeLoggedOption · o') Node.namesOption (resolveOption · o))
    (h : Standing C c c' ctx inner env spans (ys ++ o'.toList)) :
    Follows (materializeLogged ctx ⟨span, scope, type, .block ys o'⟩)
      ((resolveList env xs).1 ++ (resolveOption (resolveList env xs).2 o).1) fun a =>
        Result c c' ctx inner ((resolveList env xs).1 ++ (resolveOption (resolveList env xs).2 o).1,
          (resolveOption (resolveList env xs).2 o).2) a.1.names a.2 :=
  items.seq trailing h fun _ _ hresult => .pure hresult

theorem Resolves.block {inner : ScopeId} {c₀ : Context} {o o' : Option Node}
    (opens : c.openScope here = (inner, c₀)) (itemsStamped : Stamps inner c₀ (.list xs ys) c₁)
    (trailingStamped : Stamps inner c₁ (.option o o') c')
    (items : Resolves inner c₀ c₁ ys (materializeLoggedList · ys) Node.namesList (resolveList · xs))
    (trailing : Resolves inner c₁ c' o'.toList (materializeLoggedOption · o') Node.namesOption (resolveOption · o))
    (h : Standing C c c' ctx here env spans [⟨span, some here, type, .block ys o'⟩]) :
    Follows (materializeLogged ctx ⟨span, some here, type, .block ys o'⟩)
      (resolve env ⟨span, scope, type, .block xs o⟩).1 fun a =>
        Result c c' ctx here (resolve env ⟨span, scope, type, .block xs o⟩) a.1.names a.2 := by
  obtain ⟨hinner, hlength, -⟩ := Context.opens_of_openScope opens
  have hitems := items.opens.length_le
  have htrailing := trailing.opens.length_le
  have hparts : Standing C c c' ctx here env _ (ys ++ o'.toList) := h.children rfl
  have hshaped : ∀ y ∈ ys ++ o'.toList, y.Everywhere fun z => z.form.Shaped := hparts.sane.shaped
  have hC : c₀.Opens C := items.opens.trans (trailing.opens.trans h.opens)
  have hbelow : inner.index < c₀.scopes.length := by omega
  have hdefs : ∀ e, (inner, e) ∈ (ys ++ o'.toList).flatMap definitions ↔ e ∈ hoistedList xs ++ hoistedOption o :=
    fun e => by
      rw [List.flatMap_append, List.mem_append, List.mem_append,
        mem_definitionsList_iff e xs itemsStamped hbelow fun y hy => hshaped y (List.mem_append_left _ hy),
        mem_definitionsOption_iff e o trailingStamped (by omega)
          fun y hy => hshaped y (List.mem_append_right _ (Option.mem_toList.2 hy))]
  have hagrees : Agrees ctx inner ((hoistedList xs ++ hoistedOption o) :: env) := by
    refine agrees_of_enter opens hC h.parents h.below h.agrees fun name t => ?_
    rw [← hdefs]
    exact ⟨hparts.fresh inner (by omega) (by omega) name t, hparts.loaded inner name t⟩
  have hstanding : Standing C c₀ c' ctx inner ((hoistedList xs ++ hoistedOption o) :: env) _ (ys ++ o'.toList) :=
    ⟨hparts.sane, hagrees, hbelow, h.opens, h.parents, hparts.loaded, fun s hlo hhi =>
      hparts.fresh s (by omega) hhi⟩
  have hparent : (ctx.scope? inner).map (·.parent) = some (some here) :=
    (h.parents inner).trans (parent_of_openScope opens hC)
  exact (items.parts trailing hstanding).imp fun a hresult =>
    hresult.leave opens (.refl _) (items.opens.trans trailing.opens) (.refl _) hparent

/-- A variable is bound behind its initializer. -/
theorem Resolves.variableDef {c₂ : Context} {n n' t t' : Node} {i i' : Option Node}
    (nameStamped : Stamps here c (.node n n') c₁) (typeStamped : Stamps here c₁ (.node t t') c₂)
    (initializer : Resolves here c₂ c' i'.toList (materializeLoggedOption · i') Node.namesOption (resolveOption · i))
    (h : Standing C c c' ctx here env spans [⟨span, some here, type, .variableDef n' t' i'⟩]) :
    Follows (materializeLogged ctx ⟨span, some here, type, .variableDef n' t' i'⟩)
      (resolve env ⟨span, scope, type, .variableDef n t i⟩).1 fun a =>
        Result c c' ctx here (resolve env ⟨span, scope, type, .variableDef n t i⟩) a.1.names a.2 := by
  have hopens := nameStamped.opens.trans typeStamped.opens
  have hlow := hopens.length_le
  obtain ⟨hname, htype⟩ : (Form.variableDef n' t' i').Shaped := (h.sane.shaped _ List.mem_cons_self).self
  obtain ⟨hsane, hnew⟩ := h.sane.initializer rfl
  have hdefs : List.flatMap definitions [⟨span, some here, type, .variableDef n' t' i'⟩] =
      i'.toList.flatMap definitions := by
    rw [List.flatMap_singleton, definitions_eq]
    simp [ownDefinitions, Node.children, Form.parts, definitions_of_isName hname, definitions_of_isName htype]
  have hstanding : Standing C c₂ c' ctx here env spans i'.toList :=
    ⟨hsane, h.agrees, by have := h.below; omega, h.opens, h.parents, hdefs ▸ h.loaded, fun s hlo hhi =>
      hdefs ▸ h.fresh s (by omega) hhi⟩
  refine .lift_bind (not_failsUnknown_typeNamedBy _) fun declared hdeclared => ?_
  refine (initializer.follows hstanding).map ?_
  rintro ⟨i'', ctx₁⟩ hrun hresult
  refine .lift_bind (not_failsUnknown_declare _ _ _) fun ctx₂ hctx₂ => .pure ?_
  obtain ⟨ns', ho⟩ := initializer.outcome hsane hrun
  have hscope : here.index < ctx₁.scopes.length := ho.step.length ▸ (h.sane.placed _ List.mem_cons_self).self
  obtain ⟨-, hentered⟩ := entered_of_value ho.ready hnew rfl hscope hctx₂
  have hstep := Context.step_declare hscope hctx₂
  have hbind : ∀ env, Lexical.bindNamed env n t =
      Lexical.bind env (n'.identifier?.getD "") (ctx₁.type declared) := fun env => by
    rw [Lexical.bindNamed, ← typeNamedBy_of_likeness likeness_stampedAs typeStamped.stampedAs, hdeclared,
      identifier?_of_likeness likeness_stampedAs nameStamped.stampedAs,
      ho.ready.regular.type_builtin (builtin_of_typeNamedBy hdeclared)]
  obtain ⟨es, hes, hin⟩ := hresult.enters
  refine ⟨?_, hresult.step.trans hstep, ⟨_, hes.trans hentered, fun e he => ?_⟩, fun ctx'' hext =>
    hresult.uses ctx'' (hstep.grows.trans hext)⟩
  · change Agrees ctx₂ here (Lexical.bindNamed (resolveOption env i).2 n t)
    rw [hbind]
    exact hresult.agrees.bind hstep.parents hentered
  · rcases List.mem_append.1 he with he | he
    · exact (hin e he).imp_right fun ⟨hlo, hhi⟩ => ⟨by omega, hhi⟩
    · rw [List.mem_singleton.1 he]
      exact .inl rfl

/-! ## functions -/

theorem scope_of_stamps (h : Stamps here c (.node x y) c') : y.scopeId = here := by
  cases h <;> rfl

/-- The names of parameters stand in the scope of their function. -/
theorem scope_of_params {ps qs : List (Param Node)} (h : Stamps here c (.params ps qs) c') :
    ∀ q ∈ qs, q.name.scopeId = here := by
  induction ps generalizing c qs with
  | nil =>
    cases h
    exact fun _ hq => absurd hq List.not_mem_nil
  | cons p ps ih =>
    cases h with | moreParams name type others =>
    intro q hq
    rcases List.mem_cons.1 hq with rfl | hq
    · exact scope_of_stamps name
    · exact ih others q hq

/-- Parameters are bound on entry. -/
theorem agrees_of_declareParams {ps qs qs' : List (Param Node)} {ts : List TypeId} (hr : Ready ctx spans)
    (halike : List.Forall₂ (Param.Rel StampedAs) ps qs) (hscope : ∀ q ∈ qs, q.name.scopeId = here)
    (hplaced : here.index < ctx.scopes.length) (hnodup : (qs.map (·.name.span)).Nodup)
    (hnew : ∀ span ∈ qs.map (·.name.span), span ∉ spans)
    (htypes : List.Forall₂ (fun q t => typeNamedBy q.type = .ok t) qs ts)
    (h : declareParams ctx qs ts = .ok (qs', ctx')) (hagrees : Agrees ctx here env) :
    Agrees ctx' here (Lexical.bindParams env ps) ∧ ∃ es, Entered ctx ctx' es ∧ ∀ e ∈ es, e.1 = here := by
  induction halike generalizing ctx env spans ts qs' with
  | nil =>
    obtain ⟨rfl, rfl⟩ := Prod.mk.inj (Except.ok.inj h)
    exact ⟨hagrees, [], .refl ctx, fun _ he => absurd he List.not_mem_nil⟩
  | @cons p q ps qs hpq _ ih =>
    cases htypes with
    | @cons _ t _ ts ht hts =>
      simp only [declareParams, bind_eq_ok, Prod.exists, pure, Except.pure, Except.ok.injEq, Prod.mk.injEq,
        hscope q List.mem_cons_self] at h
      obtain ⟨ctx₁, hdeclare, qs', ctx₂, hrest, rfl, rfl⟩ := h
      have hbuiltin := builtin_of_typeNamedBy ht
      have hstep := Context.step_declare hplaced hdeclare
      have hready := hr.declare hplaced (hr.regular.builtin_lt hbuiltin) hdeclare
      obtain ⟨-, hentered⟩ := entered_of_value hr (hnew _ List.mem_cons_self) rfl hplaced hdeclare
      obtain ⟨hfirst, hnodup⟩ := List.nodup_cons.1 hnodup
      have hbind : Lexical.bindNamed env p.name p.type =
          Lexical.bind env (q.name.identifier?.getD "") (ctx.type t) := by
        rw [Lexical.bindNamed, ← typeNamedBy_of_likeness likeness_stampedAs hpq.type, ht,
          identifier?_of_likeness likeness_stampedAs hpq.name, hr.regular.type_builtin hbuiltin]
      have hagrees₁ : Agrees ctx₁ here (Lexical.bindNamed env p.name p.type) := by
        rw [hbind]
        exact hagrees.bind hstep.parents hentered
      have hlater : ∀ span ∈ qs.map (·.name.span), span ∉ q.name.span :: spans := fun span hspan hmem => by
        rcases List.mem_cons.1 hmem with rfl | hmem
        · exact hfirst hspan
        · exact hnew span (List.mem_cons_of_mem _ hspan) hmem
      obtain ⟨hagrees', es, hes, hin⟩ := ih hready (fun q hq => hscope q (List.mem_cons_of_mem _ hq))
        (hstep.length ▸ hplaced) hnodup hlater hts hrest hagrees₁
      refine ⟨hagrees', _, hentered.trans hes, fun e he => ?_⟩
      rcases List.mem_append.1 he with he | he
      · rw [List.mem_singleton.1 he]
      · exact hin e he

/-- The body of a function stands in the scope of the function. -/
theorem Resolves.body {inner : ScopeId} {o o' : Option Node}
    (h : Stamps inner c (.body (some ⟨span, scope, type, .block xs o⟩)
      (some ⟨span, some inner, type, .block ys o'⟩)) c')
    (items : Resolves inner c c₁ ys (materializeLoggedList · ys) Node.namesList (resolveList · xs))
    (trailing : Resolves inner c₁ c' o'.toList (materializeLoggedOption · o') Node.namesOption (resolveOption · o)) :
    Resolves inner c c' (some (⟨span, some inner, type, .block ys o'⟩ : Node)).toList
      (materializeLoggedOption · (some ⟨span, some inner, type, .block ys o'⟩)) Node.namesOption
      (Lexical.resolveBody · (some ⟨span, scope, type, .block xs o⟩)) := by
  refine ⟨h.opens, h.inside, fun {ctx spans a} hs ha => ⟨a.1.toList, ?_⟩, fun {C ctx env spans} hstanding => ?_⟩
  · rw [result_materializeLoggedOption] at ha
    exact (materializes_of_materializeOption _ ha).outcome hs
  · refine (items.parts trailing (hstanding.children rfl)).map ?_
    rintro ⟨y', ctx'⟩ - hresult
    exact .pure hresult

/-- A function defines itself and what its body defines. -/
theorem definitions_functionDef {name : Token} {qs : List (Param Node)} {r' : Node} {b' : Option Node}
    (hs : (Form.functionDef name qs r' b').Shaped) :
    definitions ⟨span, some here, type, .functionDef name qs r' b'⟩ =
      (Lexical.function name qs r').map (here, ·) ++ b'.toList.flatMap definitions := by
  obtain ⟨-, hparams, hresult, -⟩ := hs
  have hps : (qs.flatMap fun q => [q.name, q.type]).flatMap definitions = [] := by
    simp only [List.flatMap_eq_nil_iff, List.mem_flatMap]
    rintro z ⟨q, hq, hz⟩
    simp only [List.mem_cons, List.not_mem_nil, or_false] at hz
    rcases hz with rfl | rfl
    · exact definitions_of_isName (hparams q hq).1
    · exact definitions_of_isName (hparams q hq).2
  rw [definitions_eq]
  simp only [ownDefinitions, Node.scopeId, Option.getD_some, Node.children, Form.parts, List.flatMap_append, hps,
    List.flatMap_singleton, definitions_of_isName hresult, List.nil_append, List.append_nil]

section

variable {inner : ScopeId} {c₀ c₂ ctx₂ : Context} {name : Token} {ps qs qs' : List (Param Node)} {r r' : Node}
  {b b' : Option Node} {sig : Signature}

/-- When a function is typed, it is there already. -/
theorem entered_of_known_function
    (h : Standing C c c' ctx here env spans [⟨span, some here, type, .functionDef name qs r' b'⟩])
    (hdeclare : declareFunction ctx here name qs r' b' = .ok (sig, ctx₁)) : Entered ctx ctx₁ [] := by
  have hshaped := h.sane.shaped _ List.mem_cons_self
  have hloaded := h.loaded
  rw [List.flatMap_singleton, definitions_functionDef hshaped.self] at hloaded
  have hfunction : Lexical.function name qs r' = [(name.identifier?.getD "", .function sig.params sig.result)] := by
    simp [Lexical.function, (declareFunction_eq_ok hdeclare).1]
  have hself : ctx.view here (name.identifier?.getD "") = some (.function sig.params sig.result) :=
    hloaded _ _ _ (List.mem_append_left _ (by simp [hfunction]))
  have hplaced : here.index < ctx.scopes.length := (h.sane.placed _ List.mem_cons_self).self
  refine (entered_of_declareFunction h.sane.ready hplaced (fun old hold _ => ?_) hdeclare).of_known
    fun s name' t he => hloaded s name' t (List.mem_append_left _ he)
  rw [Context.view, hold, Option.map_some] at hself
  exact Option.some.inj hself

/-- The body of a function is typed in a scope that holds the functions of the body and the parameters. -/
theorem Standing.body (opens : c.openScope here = (inner, c₀)) (paramsStamped : Stamps inner c₀ (.params ps qs) c₁)
    (bodyStamped : Stamps inner c₁ (.body b b') c₂) (resultStamped : Stamps here c₂ (.node r r') c')
    (h : Standing C c c' ctx here env spans [⟨span, some here, type, .functionDef name qs r' b'⟩])
    (hdeclare : declareFunction ctx here name qs r' b' = .ok (sig, ctx₁))
    (hdeclareParams : declareParams ctx₁ qs sig.params = .ok (qs', ctx₂)) :
    Standing C c₁ c₂ ctx₂ inner (Lexical.bindParams (hoistedBody b :: env) ps)
        (qs.map (·.name.span) ++ name.span :: spans) b'.toList ∧
      ∃ es, Entered ctx ctx₂ es ∧ ∀ e ∈ es, e.1 = inner := by
  obtain ⟨hinner, hlength, -⟩ := Context.opens_of_openScope opens
  have hlow := paramsStamped.opens.length_le
  have hmiddle := bodyStamped.opens.length_le
  have hhigh := resultStamped.opens.length_le
  have hbelow := h.below
  have hC : c₀.Opens C :=
    paramsStamped.opens.trans (bodyStamped.opens.trans (resultStamped.opens.trans h.opens))
  have hparent : (ctx.scope? inner).map (·.parent) = some (some here) :=
    (h.parents inner).trans (parent_of_openScope opens hC)
  have hshaped := h.sane.shaped _ List.mem_cons_self
  have hloaded := h.loaded
  have hfresh : ∀ s, c.scopes.length ≤ s.index → s.index < c'.scopes.length → ∀ name t, ctx.view s name = some t →
      (s, name, t) ∈ b'.toList.flatMap definitions := fun s hlo hhi name' t hv => by
    have he := h.fresh s hlo hhi name' t hv
    rw [List.flatMap_singleton, definitions_functionDef hshaped.self] at he
    refine (List.mem_append.1 he).resolve_left fun he => ?_
    obtain ⟨_, -, heq⟩ := List.mem_map.1 he
    have : here.index = s.index := congrArg ScopeId.index (Prod.mk.inj heq).1
    omega
  rw [List.flatMap_singleton, definitions_functionDef hshaped.self] at hloaded
  have hbody : ∀ e, (inner, e) ∈ b'.toList.flatMap definitions ↔ e ∈ hoistedBody b := fun e => by
    refine mem_definitionsBody_iff e bodyStamped (by omega) hshaped.self.2.2.2 fun z hz => hshaped.child ?_
    simp [Node.children, Form.parts, Option.mem_def.1 hz]
  obtain ⟨hsane, hstep⟩ := h.sane.body rfl hdeclare hdeclareParams
  obtain ⟨hready₁, hstep₁⟩ := ready_of_declareFunction h.sane.ready (h.sane.placed _ List.mem_cons_self).self hdeclare
  have hentered₁ := entered_of_known_function h hdeclare
  have hsame : ∀ s name, ctx₁.view s name = ctx.view s name := fun s => hentered₁.view_eq (by simp)
  -- the level begins with the functions of the body, and the parameters are bound there
  have hagrees₁ : Agrees ctx₁ inner (hoistedBody b :: env) := by
    refine agrees_of_enter opens hC (fun s => (hstep₁.parents s).trans (h.parents s)) hbelow
      (h.agrees.congr hstep₁.parents fun s _ => hsame s) fun name t => ?_
    rw [hsame, ← hbody]
    exact ⟨hfresh inner (by omega) (by omega) name t, fun he => hloaded _ _ _ (List.mem_append_right _ he)⟩
  have hinner₁ : inner.index < ctx₁.scopes.length := by
    obtain ⟨scope, hscope, -⟩ := Option.map_eq_some_iff.1 ((hstep₁.parents inner).trans hparent)
    exact (List.getElem?_eq_some_iff.1 hscope).1
  obtain ⟨hnodup, hnew⟩ := h.sane.fresh.own
  obtain ⟨hfirst, hnodup⟩ := List.nodup_cons.1 hnodup
  have hlater : ∀ span ∈ qs.map (·.name.span), span ∉ name.span :: spans := fun span hspan hmem => by
    rcases List.mem_cons.1 hmem with rfl | hmem
    · exact hfirst hspan
    · exact (hnew span hspan).1 hmem
  obtain ⟨hagrees₂, es, hes, hin⟩ := agrees_of_declareParams hready₁ paramsStamped.alike
    (scope_of_params paramsStamped) hinner₁ hnodup hlater (builtin_of_signature (declareFunction_eq_ok hdeclare).1).2.2
    hdeclareParams hagrees₁
  have hentered : Entered ctx ctx₂ es := by simpa using hentered₁.trans hes
  refine ⟨⟨hsane, hagrees₂, by omega, resultStamped.opens.trans h.opens,
    fun s => (hstep.parents s).trans (h.parents s), fun s name t he => ?_, fun s hlo hhi name t hv => ?_⟩,
    es, hentered, hin⟩
  · exact hentered.mono (hloaded s name t (List.mem_append_right _ he))
  · rw [hentered.view_eq fun e he heq => ?_] at hv
    · exact hfresh s (by omega) (by omega) name t hv
    · have : inner.index = s.index := congrArg ScopeId.index ((hin e he).symm.trans heq)
      omega

theorem Resolves.functionDef (opens : c.openScope here = (inner, c₀))
    (paramsStamped : Stamps inner c₀ (.params ps qs) c₁) (bodyStamped : Stamps inner c₁ (.body b b') c₂)
    (resultStamped : Stamps here c₂ (.node r r') c')
    (body : Resolves inner c₁ c₂ b'.toList (materializeLoggedOption · b') Node.namesOption (Lexical.resolveBody · b))
    (h : Standing C c c' ctx here env spans [⟨span, some here, type, .functionDef name qs r' b'⟩]) :
    Follows (materializeLogged ctx ⟨span, some here, type, .functionDef name qs r' b'⟩)
      (resolve env ⟨span, scope, type, .functionDef name ps r b⟩).1 fun a =>
        Result c c' ctx here (resolve env ⟨span, scope, type, .functionDef name ps r b⟩) a.1.names a.2 := by
  refine .lift_bind (not_failsUnknown_declareFunction _ _ _ _ _ _) ?_
  rintro ⟨sig, ctx₁⟩ hdeclare
  refine .lift_bind (not_failsUnknown_declareParams _ _ _) ?_
  rintro ⟨qs', ctx₂⟩ hdeclareParams
  obtain ⟨hstanding, es, hentered, hin⟩ :=
    h.body opens paramsStamped bodyStamped resultStamped hdeclare hdeclareParams
  obtain ⟨-, hstep⟩ := h.sane.body rfl hdeclare hdeclareParams
  refine (body.follows hstanding).map ?_
  rintro ⟨b'', ctx₃⟩ - hresult
  have hopens := paramsStamped.opens.trans (bodyStamped.opens.trans (resultStamped.opens.trans h.opens))
  have hleave := hresult.leave opens paramsStamped.opens body.opens resultStamped.opens
    ((hstanding.parents inner).trans (parent_of_openScope opens hopens))
  refine .pure (hleave.after hstep hentered fun e he => .inr ?_)
  obtain ⟨hinner, hlength, -⟩ := Context.opens_of_openScope opens
  have := paramsStamped.opens.length_le
  have := body.opens.length_le
  have := resultStamped.opens.length_le
  rw [hin e he]
  omega

end

end

/-! ## every tree -/

mutual

theorem resolves_of_stamps : ∀ (x : Node) {y : Node} {here : ScopeId} {c c' : Context},
    Stamps here c (.node x y) c' → (y.Everywhere fun z => z.form.Shaped) →
    Resolves here c c' [y] (materializeLogged · y) Node.names (resolve · x)
  | ⟨_, _, _, .literal _⟩, _, _, _, _, h, _ => by
    have hstamps := h
    cases h with | plain _ _ parts => cases parts with | literal =>
    exact .node hstamps follows_literal
  | ⟨_, _, _, .prefixOp _ operand⟩, _, _, _, _, h, hs => by
    have hstamps := h
    cases h with | plain _ _ parts => cases parts with | prefixOp stamped =>
    have hoperand := resolves_of_stamps operand stamped (hs.child (by simp [Node.children, Form.parts]))
    exact .node hstamps hoperand.prefixOp
  | ⟨_, _, _, .infixOp _ left right⟩, _, _, _, _, h, hs => by
    have hstamps := h
    cases h with | plain _ _ parts => cases parts with | infixOp stampedLeft stampedRight =>
    have hleft := resolves_of_stamps left stampedLeft (hs.child (by simp [Node.children, Form.parts]))
    have hright := resolves_of_stamps right stampedRight (hs.child (by simp [Node.children, Form.parts]))
    exact .node hstamps (hleft.infixOp hright)
  | ⟨_, _, _, .statement inner⟩, _, _, _, _, h, hs => by
    have hstamps := h
    cases h with | plain _ _ parts => cases parts with | statement stamped =>
    have hinner := resolves_of_stamps inner stamped (hs.child (by simp [Node.children, Form.parts]))
    exact .node hstamps hinner.statement
  | ⟨_, _, _, .block items trailing⟩, _, _, _, _, h, hs => by
    have hstamps := h
    cases h with
    | plain hnot => exact absurd rfl hnot
    | block opens parts =>
      cases parts with | blockParts stampedItems stampedTrailing =>
      have hitems := resolvesList_of_stamps items stampedItems fun z hz =>
        hs.child (by simp [Node.children, Form.parts, hz])
      have htrailing := resolvesOption_of_stamps trailing stampedTrailing fun z hz =>
        hs.child (by simp [Node.children, Form.parts, Option.mem_def.1 hz])
      exact .node hstamps (Resolves.block opens stampedItems stampedTrailing hitems htrailing)
  | ⟨_, _, _, .functionDef _ _ _ body⟩, _, _, _, _, h, hs => by
    have hstamps := h
    cases h with
    | plain _ hnot => exact absurd rfl hnot
    | functionDef opens stampedParams stampedBody stampedResult =>
      have hbody := resolvesBody_of_stamps body stampedBody fun z hz =>
        ⟨hs.self.2.2.2 z hz, hs.child (by simp [Node.children, Form.parts, Option.mem_def.1 hz])⟩
      exact .node hstamps (hbody.functionDef opens stampedParams stampedBody stampedResult)
  | ⟨_, _, _, .functionCall callee arguments⟩, _, _, _, _, h, hs => by
    have hstamps := h
    cases h with | plain _ _ parts => cases parts with | functionCall stampedCallee stampedArguments =>
    have hcallee := resolves_of_stamps callee stampedCallee (hs.child (by simp [Node.children, Form.parts]))
    have harguments := resolvesList_of_stamps arguments stampedArguments fun z hz =>
      hs.child (by simp [Node.children, Form.parts, hz])
    exact .node hstamps (hcallee.functionCall harguments)
  | ⟨_, _, _, .variableDef _ _ initializer⟩, _, _, _, _, h, hs => by
    have hstamps := h
    cases h with | plain _ _ parts => cases parts with | variableDef stampedName stampedType stamped =>
    have hinitializer := resolvesOption_of_stamps initializer stamped fun z hz =>
      hs.child (by simp [Node.children, Form.parts, Option.mem_def.1 hz])
    exact .node hstamps (Resolves.variableDef stampedName stampedType hinitializer)
  | ⟨_, _, _, .root items⟩, _, _, _, _, h, hs => by
    have hstamps := h
    cases h with | plain _ _ parts => cases parts with | root stamped =>
    have hitems := resolvesList_of_stamps items stamped fun z hz => hs.child (by simp [Node.children, Form.parts, hz])
    exact .node hstamps hitems.root

theorem resolvesList_of_stamps : ∀ (xs : List Node) {ys : List Node} {here : ScopeId} {c c' : Context},
    Stamps here c (.list xs ys) c' → (∀ y ∈ ys, y.Everywhere fun z => z.form.Shaped) →
    Resolves here c c' ys (materializeLoggedList · ys) Node.namesList (resolveList · xs)
  | [], _, _, _, _, h, _ => by
    have hstamps := h
    cases h
    exact .list hstamps fun h => .pure (.refl h.agrees)
  | x :: xs, _, _, _, _, h, hs => by
    have hstamps := h
    cases h with | cons first others =>
    have hfirst := resolves_of_stamps x first (hs _ List.mem_cons_self)
    have hothers := resolvesList_of_stamps xs others fun y hy => hs y (List.mem_cons_of_mem _ hy)
    exact .list hstamps (hfirst.cons hothers)

theorem resolvesOption_of_stamps : ∀ (x : Option Node) {y : Option Node} {here : ScopeId} {c c' : Context},
    Stamps here c (.option x y) c' → (∀ z ∈ y, z.Everywhere fun z => z.form.Shaped) →
    Resolves here c c' y.toList (materializeLoggedOption · y) Node.namesOption (resolveOption · x)
  | none, _, _, _, _, h, _ => by
    have hstamps := h
    cases h
    exact .option hstamps fun h => .pure (.refl h.agrees)
  | some x, _, _, _, _, h, hs => by
    have hstamps := h
    cases h with | some inner =>
    have hinner := resolves_of_stamps x inner (hs _ rfl)
    exact .option hstamps fun h => (hinner.follows h).map fun _ _ hresult => .pure hresult

theorem resolvesBody_of_stamps : ∀ (b : Option Node) {b' : Option Node} {here : ScopeId} {c c' : Context},
    Stamps here c (.body b b') c' → (∀ z ∈ b', z.tag = .block ∧ z.Everywhere fun z => z.form.Shaped) →
    Resolves here c c' b'.toList (materializeLoggedOption · b') Node.namesOption (Lexical.resolveBody · b)
  | none, _, _, _, _, h, _ => by
    cases h
    exact ⟨.refl _, fun _ hn => absurd hn List.not_mem_nil, fun hs ha => ⟨[], Except.ok.inj ha ▸ .refl hs⟩,
      fun h => .pure (.refl h.agrees)⟩
  | some ⟨_, _, _, .block items trailing⟩, _, _, _, _, h, hs => by
    have hstamps := h
    cases h with | body parts => cases parts with | blockParts stampedItems stampedTrailing =>
    obtain ⟨-, hshaped⟩ := hs _ rfl
    have hitems := resolvesList_of_stamps items stampedItems fun z hz =>
      hshaped.child (by simp [Node.children, Form.parts, hz])
    have htrailing := resolvesOption_of_stamps trailing stampedTrailing fun z hz =>
      hshaped.child (by simp [Node.children, Form.parts, Option.mem_def.1 hz])
    exact .body hstamps hitems htrailing
  | some ⟨_, _, _, .literal _⟩, _, _, _, _, h, hs | some ⟨_, _, _, .prefixOp _ _⟩, _, _, _, _, h, hs
  | some ⟨_, _, _, .infixOp _ _ _⟩, _, _, _, _, h, hs | some ⟨_, _, _, .statement _⟩, _, _, _, _, h, hs
  | some ⟨_, _, _, .functionDef _ _ _ _⟩, _, _, _, _, h, hs | some ⟨_, _, _, .functionCall _ _⟩, _, _, _, _, h, hs
  | some ⟨_, _, _, .variableDef _ _ _⟩, _, _, _, _, h, hs | some ⟨_, _, _, .root _⟩, _, _, _, _, h, hs => by
    cases h with | body parts => cases parts; exact absurd (hs _ rfl).1 nofun

end

/-! ## whole programs -/

/-- The run for a program begins in the scope around it, which holds the functions of the program. -/
theorem standing_of_signatures {n : Node} (hshaped : n.Everywhere fun z => z.form.Shaped) (hnodup : n.declared.Nodup)
    (h : signatures (scopes .new n).2 (scopes .new n).1 = .ok ctx) :
    Standing (scopes .new n).2 .new (scopes .new n).2 ctx .root [hoisted n] (scopes .new n).1.functions
      [(scopes .new n).1] := by
  have hstamps := stamps_of_stamp .root .new n
  obtain ⟨hsane, -⟩ := sane_of_signatures hshaped hnodup h
  obtain ⟨hready, hplaced⟩ := ready_of_scopes n
  obtain ⟨-, hstep⟩ := ready_of_signatures hready hplaced h
  have hfunctions : (scopes .new n).1.functions.Nodup := by
    have hperm := (scopes .new n).1.declared_perm.nodup_iff.1
      (by rwa [scopes, likeness_stampedAs.declared hstamps.stampedAs])
    exact (List.nodup_append.1 hperm).1
  have hentered := entered_of_signatures hready hplaced hfunctions h
  have hview : ∀ s name t, ctx.view s name = some t ↔ (s, name, t) ∈ definitions (scopes .new n).1 := by
    intro s name t
    rw [hentered s name t, Context.view, scopes, symbolIn?_of_opens_new hstamps.opens]
    exact or_iff_right (by rintro ⟨⟩)
  have hroot : (ctx.scope? .root).map (·.parent) = some none := by
    obtain ⟨more, hmore, -⟩ := hstamps.opens
    rw [hstep.parents, scopes, hmore]
    rfl
  have hnames : ∀ name, (hoisted n).lookup name = ctx.view .root name := fun name => by
    refine lookup_eq_of_mem_iff fun t => ?_
    rw [hview]
    exact mem_definitions_iff (name, t) n hstamps (by decide) (hsane.shaped _ List.mem_cons_self)
  refine ⟨hsane, .root hnames hroot, by decide, .refl _, hstep.parents, fun s name t he => ?_,
    fun s _ _ name t hv => ?_⟩
  · rw [List.flatMap_singleton] at he
    exact (hview s name t).2 he
  · rw [List.flatMap_singleton]
    exact (hview s name t).1 hv

/-- **Names mean what lexical scoping says.** In a program whose functions can be declared, identifiers get the types that
the reference finds, in its order, as far as the checker comes; it fails for an unknown identifier only where the
reference finds nothing. When it comes to the end, all identifiers in expressions are noted with the types that the
reference finds. -/
theorem resolves_lexically {source : String} {n : Node} (hn : parseSource source = .ok n)
    (hsignatures : signatures (scopes .new n).2 (scopes .new n).1 = .ok ctx) :
    (materializeLogged ctx (scopes .new n).1).result = materialize .nominal ctx (scopes .new n).1 ∧
      Follows (materializeLogged ctx (scopes .new n).1) (Lexical.uses n) fun r =>
        r.1.names.map (Node.use r.2) = Lexical.uses n := by
  refine ⟨result_materializeLogged _ _, ?_⟩
  have hstanding := standing_of_signatures (shaped_of_parseSource hn) (declared_nodup_of_parseSource hn) hsignatures
  have hresolves := resolves_of_stamps n (stamps_of_stamp .root .new n) (hstanding.sane.shaped _ List.mem_cons_self)
  exact (hresolves.follows hstanding).imp fun r hr => hr.uses r.2 (.refl _)

theorem resolves_lexically_shadowed : ∃ n ctx,
    parseSource "fn f(a: i32) -> i32 { let x: float = 2.0; g(x) } fn g(b: float) -> i32 { 1 } let x: i32 = f(1); x" =
        .ok n ∧
      signatures (scopes .new n).2 (scopes .new n).1 = .ok ctx ∧
      (Lexical.uses n).map (fun use => (use.name, use.type)) =
        [("g", some (.function [.float] ⟨6⟩)), ("x", some .float), ("f", some (.function [⟨6⟩] ⟨6⟩)),
          ("x", some (.sizedInt 32))] ∧
      Follows (materializeLogged ctx (scopes .new n).1) (Lexical.uses n) fun r =>
        r.1.names.map (Node.use r.2) = Lexical.uses n := by
  have hn : Yields (fun n => (Lexical.uses n).map (fun use => (use.name, use.type)) =
        [("g", some (.function [.float] ⟨6⟩)), ("x", some .float), ("f", some (.function [⟨6⟩] ⟨6⟩)),
          ("x", some (.sizedInt 32))] ∧ Yields (fun _ => True) (signatures (scopes .new n).2 (scopes .new n).1))
      (parseSource
        "fn f(a: i32) -> i32 { let x: float = 2.0; g(x) } fn g(b: float) -> i32 { 1 } let x: i32 = f(1); x") := by
    decide +kernel
  obtain ⟨n, hn, huses, hsignatures⟩ := yields_iff.1 hn
  obtain ⟨ctx, hctx, -⟩ := yields_iff.1 hsignatures
  exact ⟨n, ctx, hn, hctx, huses, (resolves_lexically hn hctx).2⟩

/-- A variable is unknown in its own initializer, where a function is known before its definition. -/
example : Yields (fun n => (Lexical.uses n).map (·.type.isSome) = [true, false])
    (parseSource "let x: i32 = f() + x; fn f() -> i32") := by decide +kernel

end LetFn.Check
