import LetFn.Proofs.Check.Lifting

/-!
# No node is left out

Every node of a tree gets a note with its first type: names and type expressions from the definition they belong to,
results from the function, everything else by itself. The three checks after that leave no node without its note. With
unification the type variables are gone by then; without it there never was one.

* `Labelled mode bound n` — the notes that a node has with its first type;
* `Complete ctx n` — the scope and the type of a node are ones that the context gave out, and the type is no variable.

Main facts: `labelled_of_firstTypes`, `analysis_complete`.
-/

namespace LetFn.Check

open Node (Revised Everywhere)

variable {mode : Mode} {ctx ctx' : Context} {n x y : Node} {bound : Nat}

/-! ## notes of the first types -/

/-- A node stands in one of the first scopes. -/
def Scoped (bound : Nat) (n : Node) : Prop := ∃ s, n.scope = some s ∧ s.index < bound

/-- A node has a scope and a type, and a variable the type that its definition names. -/
structure Labelled (mode : Mode) (bound : Nat) (n : Node) : Prop where
  inside : Scoped bound n
  noted : n.type.isSome
  declared : ∀ name type initializer, n.form = .variableDef name type initializer →
    typeNamedBy type = .ok type.typeId ∧ (mode = .nominal → name.typeId = type.typeId)

theorem leafType_isSome {s : ScopeId} {token : Token} {span : Span} {noted type : Option TypeId}
    (hkind : token.kind ∈ Grammar.primaryKinds) (h : leafType ctx s token span noted = .ok type) : type.isSome := by
  unfold leafType at h
  split at h
  · rw [← Except.ok.inj h]; rfl
  · rw [← Except.ok.inj h]; rfl
  · rw [← Except.ok.inj h]; rfl
  · simp only [bind_eq_ok, pure, Except.pure, Except.ok.injEq] at h
    obtain ⟨symbol, -, rfl⟩ := h
    rfl
  · simp_all [Grammar.primaryKinds]

/-- A name with a type noted on it. -/
theorem labelled_of_isName (hn : n.IsName) (hs : Scoped bound n) (t : TypeId) :
    Everywhere (Labelled mode bound) { n with type := some t } := by
  obtain ⟨token, -, hform⟩ := hn
  exact Node.everywhere_iff.2 ⟨⟨hs, rfl, by simp [hform]⟩, by simp [Node.children, hform, Form.parts]⟩

/-- What the notes of a definition of a function are made from. -/
theorem labelled_functionDef {ctx₁ ctx₂ : Context} {span : Span} {scope : Option ScopeId} {type : Option TypeId}
    {name : Token} {ps qs : List (Param Node)} {r : Node} {b b' : Option Node} {sig : Signature}
    (hx : Everywhere (fun z => z.form.Shaped ∧ Scoped bound z) ⟨span, scope, type, .functionDef name ps r b⟩)
    (declares : declareFunction ctx (scope.getD .root) name ps r b = .ok (sig, ctx₁))
    (params : declareParams ctx₁ ps sig.params = .ok (qs, ctx₂))
    (hb : ∀ c ∈ b'.toList, c.Everywhere (Labelled mode bound)) :
    Everywhere (Labelled mode bound)
      ⟨span, scope, some .void, .functionDef name qs { r with type := some sig.result } b'⟩ := by
  obtain ⟨⟨-, hparams, hresult, -⟩, hscoped⟩ := hx.self
  have hpart : ∀ c ∈ (Form.functionDef name ps r b).parts, Scoped bound c := fun c hc => (hx.child hc).self.2
  obtain ⟨hps, -, hr⟩ := Form.forall_functionDef.1 hpart
  have hqs := (declareParams_notes (builtin_of_signature (declareFunction_eq_ok declares).1).2.2 params).2
  refine Node.everywhere_iff.2 ⟨⟨hscoped, rfl, nofun⟩, Form.forall_functionDef.2 ⟨fun q hq => ?_, fun c hc => ?_, ?_⟩⟩
  · obtain ⟨p, hp, t, -, rfl⟩ := forall₂_of_mem hqs hq
    exact ⟨labelled_of_isName (hparams p hp).1 (hps p hp).1 t, labelled_of_isName (hparams p hp).2 (hps p hp).2 t⟩
  · exact hb c (Option.mem_toList.2 hc)
  · exact labelled_of_isName hresult hr _

/-- What the notes of a definition of a variable are made from. -/
theorem labelled_variableDef {ctx₁ ctx₂ : Context} {span : Span} {scope : Option ScopeId} {noted : Option TypeId}
    {name type : Node} {i i' : Option Node} {declared t : TypeId}
    (hx : Everywhere (fun z => z.form.Shaped ∧ Scoped bound z) ⟨span, scope, noted, .variableDef name type i⟩)
    (named : typeNamedBy type = .ok declared)
    (settles : variableType mode ctx₁ declared type.span i' = .ok (t, ctx₂))
    (hi : ∀ c ∈ i'.toList, c.Everywhere (Labelled mode bound)) :
    Everywhere (Labelled mode bound)
      ⟨span, scope, some .void, .variableDef { name with type := some t } { type with type := some declared } i'⟩ := by
  obtain ⟨⟨hname, htype⟩, hscoped⟩ := hx.self
  obtain ⟨hscopedName, hscopedType, -⟩ := Form.forall_variableDef.1 fun c hc => (hx.child hc).self.2
  refine Node.everywhere_iff.2 ⟨⟨hscoped, rfl, fun name' type' i'' heq => ?_⟩, Form.forall_variableDef.2 ⟨?_, ?_, ?_⟩⟩
  · obtain ⟨rfl, rfl, rfl⟩ := Form.variableDef.inj heq
    refine ⟨named, fun hmode => ?_⟩
    subst hmode
    obtain ⟨rfl, -⟩ := Prod.mk.inj (Except.ok.inj settles)
    rfl
  · exact labelled_of_isName hname hscopedName t
  · exact labelled_of_isName htype hscopedType declared
  · exact fun c hc => hi c (Option.mem_toList.2 hc)

/-- **Every node has its notes** when a tree has its first types. -/
theorem Materializes.labelled {job : Typing} (h : Materializes mode ctx job ctx')
    (hx : ∀ x ∈ job.before, x.Everywhere fun z => z.form.Shaped ∧ Scoped bound z) :
    ∀ y ∈ job.after, y.Everywhere (Labelled mode bound) := by
  have hnode : ∀ {x y : Node}, (∀ z ∈ [x], z.Everywhere fun z => z.form.Shaped ∧ Scoped bound z) →
      y.scope = x.scope → y.type.isSome → (∀ name type i, y.form ≠ .variableDef name type i) →
      (∀ c ∈ y.children, c.Everywhere (Labelled mode bound)) →
      ∀ z ∈ [y], z.Everywhere (Labelled mode bound) := fun hx hscope hnoted hform hc z hz => by
    obtain rfl := List.mem_singleton.1 hz
    have hscoped := (hx _ List.mem_cons_self).self.2
    rw [Scoped, ← hscope] at hscoped
    exact Node.everywhere_iff.2 ⟨⟨hscoped, hnoted, fun name type i h => absurd h (hform name type i)⟩, hc⟩
  have hchild : ∀ {x : Node}, (∀ z ∈ [x], z.Everywhere fun z => z.form.Shaped ∧ Scoped bound z) →
      ∀ c ∈ x.children, c.Everywhere fun z => z.form.Shaped ∧ Scoped bound z := fun hx c hc =>
    (hx _ List.mem_cons_self).child hc
  induction h with
  | literal leaf =>
    exact hnode hx rfl (leafType_isSome (hx _ List.mem_cons_self).self.1 leaf) nofun nofun
  | prefixOp _ ih => exact hnode hx rfl rfl nofun (ih (hchild hx))
  | infixOp _ _ ihl ihr =>
    obtain ⟨hl, hr⟩ := List.forall_mem_cons.1 (hchild hx)
    have hl := ihl (List.forall_mem_singleton.2 hl) _ List.mem_cons_self
    exact hnode hx rfl rfl nofun (List.forall_mem_cons.2 ⟨hl, ihr hr⟩)
  | statement _ ih => exact hnode hx rfl rfl nofun (ih (hchild hx))
  | block _ _ ihi iht =>
    have hparts := List.forall_mem_append.1 (hchild hx)
    exact hnode hx rfl rfl nofun (List.forall_mem_append.2 ⟨ihi hparts.1, iht hparts.2⟩)
  | functionDef declares params _ ihb =>
    have hb : ∀ c ∈ _, _ := fun c hc => hchild hx c (List.mem_append_left _ (List.mem_append_right _ hc))
    exact List.forall_mem_singleton.2 (labelled_functionDef (hx _ List.mem_cons_self) declares params (ihb hb))
  | functionCall _ _ _ ihc iha =>
    obtain ⟨hf, hxs⟩ := List.forall_mem_cons.1 (hchild hx)
    have hf := ihc (List.forall_mem_singleton.2 hf) _ List.mem_cons_self
    exact hnode hx rfl rfl nofun (List.forall_mem_cons.2 ⟨hf, iha hxs⟩)
  | variableDef named _ settles _ ihi =>
    have hi : ∀ c ∈ _, _ := fun c hc => hchild hx c (List.mem_cons_of_mem _ (List.mem_cons_of_mem _ hc))
    exact List.forall_mem_singleton.2 (labelled_variableDef (hx _ List.mem_cons_self) named settles (ihi hi))
  | root _ ih => exact hnode hx rfl rfl nofun (ih (hchild hx))
  | nil | none => exact nofun
  | cons _ _ ihf iho =>
    obtain ⟨hf, ho⟩ := List.forall_mem_cons.1 hx
    exact List.forall_mem_cons.2 ⟨ihf (List.forall_mem_singleton.2 hf) _ List.mem_cons_self, iho ho⟩
  | some _ ih => exact ih hx

/-! ## notes without type variables -/

/-- Every node stands in a scope of the context when the scopes are made. -/
theorem scoped_of_scopes (n : Node) : (scopes .new n).1.Everywhere (Scoped (scopes .new n).2.scopes.length) := by
  have hstamps := stamps_of_stamp .root .new n
  intro x hx
  rw [scopes] at hx
  obtain ⟨s, hs, hin⟩ := hstamps.inside x (by simpa [Stamping.nodes] using hx)
  refine ⟨s, hs, ?_⟩
  rcases hin with rfl | ⟨-, hlt⟩
  · exact Nat.lt_of_lt_of_le (by decide) hstamps.opens.length_le
  · exact hlt

/-- The notes are all there when type variables are replaced. -/
theorem Labelled.substitute {spans : List Span} (hr : Context.Ready ctx spans) (h : Labelled mode bound n) :
    Labelled mode bound (n.mapType (·.map ctx.resolve)) := by
  rw [Node.mapType_eq]
  refine ⟨h.inside, by simpa using h.noted, fun name type initializer hform => ?_⟩
  cases hn : n.form <;> simp only [hn, Node.mapTypeParts, reduceCtorEq, Form.variableDef.injEq] at hform
  next name₀ type₀ initializer₀ =>
  obtain ⟨rfl, rfl, -⟩ := hform
  obtain ⟨hnamed, hname⟩ := h.declared _ _ _ hn
  have hnamed' : typeNamedBy (type₀.mapType (·.map ctx.resolve)) = typeNamedBy type₀ :=
    typeNamedBy_of_likeness (likeness_mapType _) rfl
  rw [typeId_mapType hr.regular, typeId_mapType hr.regular, hr.regular.resolve_builtin (builtin_of_typeNamedBy hnamed)]
  refine ⟨hnamed'.trans hnamed, fun hmode => ?_⟩
  rw [hname hmode, hr.regular.resolve_builtin (builtin_of_typeNamedBy hnamed)]

/-- No symbol of the context has a type variable for its type, and each symbol has a type that the context gave out. -/
structure Closed (ctx : Context) : Prop where
  symbols : ∀ scope ∈ ctx.scopes, ∀ symbol ∈ scope.symbols, (ctx.type symbol.type).isHole = false
  typed : ∀ {s name symbol}, ctx.symbolIn? s name = some symbol → symbol.type.index < ctx.types.length

/-- **With its first types a program has all its notes**, and no type variable is left in it. -/
theorem labelled_of_firstTypes {n s : Node} (hshaped : n.Everywhere fun x => x.form.Shaped) (hnodup : n.declared.Nodup)
    (h : firstTypes mode n = .ok (s, ctx)) :
    s.Everywhere (Labelled mode ctx.scopes.length) ∧ (∀ z ∈ s.preorder, (ctx.type z.typeId).isHole = false) ∧
      Closed ctx := by
  simp only [firstTypes, bind_eq_ok, Prod.exists, pure, Except.pure, Except.ok.injEq] at h
  obtain ⟨c, hc, m, c', hm, h⟩ := h
  obtain ⟨hsane, hbindings⟩ := sane_of_signatures hshaped hnodup hc
  obtain ⟨hready, hplaced⟩ := ready_of_scopes n
  obtain ⟨-, hstep⟩ := ready_of_signatures hready hplaced hc
  have hruns := materializes_of_materialize _ hm
  have ho := hruns.outcome hsane
  have hlength : c'.scopes.length = (scopes .new n).2.scopes.length := ho.step.length.trans hstep.length
  have hlabelled : m.Everywhere (Labelled mode c'.scopes.length) := by
    refine hruns.labelled (fun x hx => ?_) m List.mem_cons_self
    obtain rfl := List.mem_singleton.1 hx
    rw [hlength]
    exact fun z hz => ⟨hsane.shaped _ List.mem_cons_self z hz, scoped_of_scopes n z hz⟩
  cases mode with
  | nominal =>
    obtain ⟨rfl, rfl⟩ := Prod.mk.inj h
    have hnone := ho.ready.regular.not_hole_of_no_bindings ((ho.nominal rfl).trans hbindings)
    exact ⟨hlabelled, fun z _ => hnone _, fun _ _ _ _ => hnone _, ho.ready.typed⟩
  | unification =>
    obtain ⟨rfl, rfl⟩ := Prod.mk.inj h
    have htype : ∀ t, c'.resolveSymbols.type t = c'.type t := Context.type_of_types rfl
    have hres : c'.resolveSymbols.resolve = c'.resolve := funext (Context.resolve_of_types rfl rfl)
    have hends : ∀ t, (c'.resolveSymbols.type (c'.resolve t)).isHole = false := fun t => by
      rw [htype]
      exact ho.ready.regular.resolve_not_hole t
    refine ⟨fun z hz => ?_, fun z hz => ?_, fun scope hscope symbol hsymbol => ?_, fun hsymbol => ?_⟩
    · rw [hres, Node.preorder_mapType] at hz
      obtain ⟨x, hx, rfl⟩ := List.mem_map.1 hz
      have hx := (hlabelled x hx).substitute ho.ready
      rwa [show c'.scopes.length = c'.resolveSymbols.scopes.length by simp [Context.resolveSymbols]] at hx
    · rw [hres, Node.preorder_mapType] at hz
      obtain ⟨x, -, rfl⟩ := List.mem_map.1 hz
      rw [typeId_mapType ho.ready.regular]
      exact hends _
    · simp only [Context.resolveSymbols, List.mem_map] at hscope
      obtain ⟨scope, -, rfl⟩ := hscope
      obtain ⟨symbol, -, rfl⟩ := List.mem_map.1 hsymbol
      exact hends _
    · rw [symbolIn?_resolveSymbols] at hsymbol
      obtain ⟨symbol, hs, rfl⟩ := Option.map_eq_some_iff.1 hsymbol
      exact ho.ready.regular.resolve_lt (ho.ready.typed hs)

/-! ## notes that stay -/

/-- The scope and the type of the node are ones that the context gave out, and the type is no variable. -/
structure Complete (ctx : Context) (n : Node) : Prop where
  scope : ∃ s, n.scope = some s ∧ s.index < ctx.scopes.length
  type : ∃ t, n.type = some t ∧ t.index < ctx.types.length ∧ (ctx.type t).isHole = false

theorem numeric_of_coerces_ne {a b : TypeId} (h : ctx.coerces a b = true) (hne : a ≠ b) : ctx.isNumeric b = true := by
  rcases Context.coerces_iff.1 h with heq | ⟨_, r, _, hb, _⟩
  · exact absurd heq hne
  · exact Option.isSome_iff_exists.2 ⟨r, hb⟩

theorem Complete.noted {t : TypeId} (h : Complete ctx n) (hn : n.type = some t) :
    t.index < ctx.types.length ∧ (ctx.type t).isHole = false := by
  obtain ⟨u, hu, hknown⟩ := h.type
  obtain rfl := Option.some.inj (hu.symm.trans hn)
  exact hknown

theorem Complete.typeId (h : Complete ctx n) : n.type = some n.typeId := by
  obtain ⟨t, ht, -⟩ := h.type
  rw [Node.typeId, ht, Option.getD_some]

theorem Complete.lifted (h : Complete ctx x) (hxy : Lifted ctx x y) : Complete ctx y := by
  rcases hxy with rfl | ⟨t, ht, rfl⟩
  · exact h
  · refine ⟨h.scope, t, rfl, ?_⟩
    by_cases heq : x.typeId = t
    · subst heq
      exact h.noted h.typeId
    · exact Context.known_of_numeric (numeric_of_coerces_ne ht heq)

theorem complete_of_arithmetic (hr : ctx.Regular) (hx : x.Everywhere (Complete ctx))
    (h : Revised (arithmeticRule ctx) x y) : y.Everywhere (Complete ctx) := by
  refine everywhere_revised (lifts_arithmeticRule hr) (fun hxy hc => hc.lifted hxy) ?_ hx h
  intro n n' form hn _ hparts hrule
  rcases arithmeticRule_cases hrule with ⟨_, l, r, t, _, _, _, _, ht, rfl⟩ | ⟨_, _, _, _, _, rfl⟩ |
    ⟨operator, operand, _, hnumeric, rfl⟩ | ⟨_, trailing, hform, rfl⟩ | ⟨_, _, _, rfl⟩
  · obtain ⟨-, -, hnumeric⟩ := Context.numeric_of_promote ht
    exact ⟨hn.scope, t, rfl, Context.known_of_numeric hnumeric⟩
  · exact ⟨hn.scope, hn.type⟩
  · split
    · exact ⟨hn.scope, _, rfl, Context.known_of_numeric hnumeric⟩
    · exact ⟨hn.scope, hn.type⟩
  · obtain rfl : form = _ := hform
    exact ⟨hn.scope, (hparts trailing (by simp [Form.parts])).type⟩
  · exact ⟨hn.scope, hn.type⟩

theorem complete_of_assignment (hx : x.Everywhere (Complete ctx)) (h : Revised (assignmentRule mode ctx) x y) :
    y.Everywhere (Complete ctx) := by
  refine everywhere_revised lifts_assignmentRule (fun hxy hc => hc.lifted hxy) ?_ hx h
  intro n n' form hn _ _ hrule
  rcases assignmentRule_cases hrule with ⟨_, _, _, _, _, _, rfl⟩ | ⟨rfl, _⟩ <;> exact ⟨hn.scope, hn.type⟩

theorem complete_of_calls (hx : x.Everywhere (Complete ctx)) (h : Revised (callRule ctx) x y) :
    y.Everywhere (Complete ctx) := by
  refine everywhere_revised lifts_callRule (fun hxy hc => hc.lifted hxy) ?_ hx h
  intro n n' form hn _ _ hrule
  rcases callRule_cases hrule with ⟨_, _, _, _, _, _, _, _, _, rfl⟩ | ⟨rfl, _⟩ <;> exact ⟨hn.scope, hn.type⟩

/-- Every node has a scope and a type with its first type. -/
theorem complete_of_firstTypes {n s : Node} (hshaped : n.Everywhere fun x => x.form.Shaped) (hnodup : n.declared.Nodup)
    (h : firstTypes mode n = .ok (s, ctx)) : s.Everywhere (Complete ctx) := by
  obtain ⟨htyped, -, -⟩ := typed_of_firstTypes hshaped hnodup h
  obtain ⟨hlabelled, hends, -⟩ := labelled_of_firstTypes hshaped hnodup h
  intro z hz
  obtain ⟨u, hu⟩ := Option.isSome_iff_exists.1 (hlabelled z hz).noted
  have hknown := (htyped z hz).known
  have hend := hends z hz
  rw [Node.typeId, hu, Option.getD_some] at hknown hend
  exact ⟨(hlabelled z hz).inside, u, hu, hknown, hend⟩

/-- Every node of an accepted program has a scope and a type. -/
theorem everywhere_complete {source : String} {t : Node} (h : analyze source mode = .ok (t, ctx)) :
    t.Everywhere (Complete ctx) := by
  obtain ⟨n, s, a, b, hn, hs, ha, hb, ht⟩ := analyze_eq_ok h
  have hshaped := shaped_of_parseSource hn
  have hnodup := declared_nodup_of_parseSource hn
  obtain ⟨-, hr, -⟩ := typed_of_firstTypes hshaped hnodup hs
  have hcomplete := complete_of_firstTypes hshaped hnodup hs
  exact complete_of_calls (complete_of_assignment (complete_of_arithmetic hr hcomplete ha) hb) ht

/-- **An accepted program is complete**: every node of it has a scope and a type, the context gave out both, and neither
a node nor a symbol has a type variable for its type. -/
theorem analysis_complete {source : String} {t : Node} (h : analyze source mode = .ok (t, ctx)) :
    (∃ n, parseSource source = .ok n ∧ t.unnoted = n.unnoted) ∧ t.Everywhere (Complete ctx) ∧ Closed ctx := by
  obtain ⟨n, s, _, _, hn, hs, -⟩ := analyze_eq_ok h
  have hlabelled := labelled_of_firstTypes (shaped_of_parseSource hn) (declared_nodup_of_parseSource hn) hs
  exact ⟨unnoted_of_analyze h, everywhere_complete h, hlabelled.2.2⟩

/-- With unification, where the first variable takes on the `float` of the call. -/
theorem analysis_complete_half :
    let noted : List (Tag × Ty) :=
      [(.root, .void), (.functionDef, .void), (.literal, .float), (.literal, .float), (.block, .float),
        (.infixOp, .float), (.literal, .float), (.literal, .float), (.literal, .float), (.statement, .void),
        (.variableDef, .void), (.literal, .float), (.literal, .sizedInt 32), (.functionCall, .float),
        (.literal, .function [.float] .float), (.literal, .float), (.statement, .void), (.variableDef, .void),
        (.literal, .sizedInt 64), (.literal, .sizedInt 64), (.infixOp, .float), (.literal, .float), (.literal, .float)]
    ∃ t ctx,
      analyze "fn half(a: float) -> float { a / 2 } let x: i32 = half(3); let y: i64 = 1 + x;" .unification =
        .ok (t, ctx) ∧
      t.preorder.map (fun z => (z.tag, ctx.type z.typeId)) = noted ∧
      (∃ n, parseSource "fn half(a: float) -> float { a / 2 } let x: i32 = half(3); let y: i64 = 1 + x;" = .ok n ∧
        t.unnoted = n.unnoted) ∧
      t.Everywhere (Complete ctx) ∧ Closed ctx := by
  intro noted
  have haccepted : Yields (fun r => r.1.preorder.map (fun z => (z.tag, r.2.type z.typeId)) = noted)
      (analyze "fn half(a: float) -> float { a / 2 } let x: i32 = half(3); let y: i64 = 1 + x;" .unification) := by
    decide +kernel
  obtain ⟨⟨t, ctx⟩, h, hnoted⟩ := yields_iff.1 haccepted
  exact ⟨t, ctx, h, hnoted, analysis_complete h⟩

end LetFn.Check
