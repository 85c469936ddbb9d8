import LetFn.Proofs.Check.Redeclaring
import LetFn.Proofs.Types.Chains

/-!
# Every name is declared once

A `Naming` is a name that a definition brings into a scope: of a function, of a parameter or of a variable.

* `namings n` — the names that the definitions in a tree bring into scopes;
* `d.Held ctx` — the scope has the symbol of the definition, or that of another function in its place;
* `d.Shows ctx shown` — the same, read off the symbol that the scope has;
* `NamesValues ctx ctx' ns` — all parameters and variables of some trees are held when these got their first types;
* `DeclaredOnce ctx s name ds` — the names `ds` get along in one scope.

Main facts: `held_of_firstTypes` (in both modes), `declaredOnce_of_held`, `declared_once`.
-/

namespace LetFn

/-- A name that a definition brings into a scope. -/
structure Naming where
  scope : ScopeId
  name : String
  span : Span
  kind : SymbolKind
  /-- The type that the definition of a function spells out. -/
  signature : Option Ty

namespace Naming

/-- The symbol that is declared for a name. -/
def symbol (d : Naming) (t : TypeId) : Symbol := ⟨d.name, t, d.span, d.kind⟩

/-- The scope has the symbol of the definition, or in place of a function without a body one of the same type; a
function has the type that its definition spells out. -/
def Held (ctx : Context) (d : Naming) : Prop :=
  ∃ t, ctx.Holds d.scope (d.symbol t) ∧
    (d.kind.body?.isSome → ∃ params result, d.signature = some (.function params result) ∧
      ctx.type t = .function params result)

variable {ctx ctx' : Context} {d : Naming}

theorem Held.keeps (h : d.Held ctx) (hk : ctx.Keeps ctx') : d.Held ctx' := by
  obtain ⟨t, hholds, hfunction⟩ := h
  refine ⟨t, hk.holds hholds, fun hbody => ?_⟩
  obtain ⟨params, result, hsignature, htype⟩ := hfunction hbody
  refine ⟨params, result, hsignature, ?_⟩
  rw [hk.step.grows.type_of_ne (by simp [htype]), htype]

theorem held_of_value {t : TypeId} (hvalue : d.kind.body? = none) (h : ctx.Holds d.scope (d.symbol t)) : d.Held ctx :=
  ⟨t, h, by simp [hvalue]⟩

/-- What the scope has under the name of a definition: the symbol of the definition, or a function in place of one
without a body; a function has the type that its definition spells out. -/
structure Shows (ctx : Context) (d : Naming) (shown : Symbol) : Prop where
  signature : d.kind.body?.isSome → d.signature = some (ctx.type shown.type)
  symbol : shown = d.symbol shown.type ∨ shown.kind.body?.isSome ∧ d.kind.body? = some false

theorem Held.exists_shows (h : d.Held ctx) : ∃ shown, ctx.symbolIn? d.scope d.name = some shown ∧ d.Shows ctx shown := by
  obtain ⟨t, ⟨shown, hshown, hor⟩, hfunction⟩ := h
  have htype : shown.type = t := by
    rcases hor with rfl | ⟨-, htype, -⟩
    · rfl
    · exact htype
  subst htype
  refine ⟨shown, hshown, fun hbody => ?_, hor.imp_right fun ⟨hbody, _, hnone⟩ => ⟨hbody, hnone⟩⟩
  obtain ⟨params, result, hsignature, htype⟩ := hfunction hbody
  rw [hsignature, htype]

section

variable {shown : Symbol}

/-- A function with a body is shown as itself. -/
theorem Shows.eq_of_body (h : d.Shows ctx shown) (hbody : d.kind.body? = some true) : shown = d.symbol shown.type :=
  h.symbol.resolve_right fun ⟨_, hnone⟩ => absurd (hbody.symm.trans hnone) (by simp)

/-- Only functions are shown as functions. -/
theorem Shows.isSome_body? (h : d.Shows ctx shown) (hfunction : shown.kind.body?.isSome) : d.kind.body?.isSome := by
  rcases h.symbol with heq | ⟨-, hnone⟩
  · rw [heq] at hfunction
    exact hfunction
  · simp [hnone]

/-- What is no function is shown at its place. -/
theorem Shows.span_eq (h : d.Shows ctx shown) (hvalue : ¬ shown.kind.body?.isSome) : d.span = shown.span := by
  rw [h.symbol.resolve_right fun hfunction => hvalue hfunction.1, Naming.symbol]

end

/-- Names are held when every type variable is replaced by what it stands for. -/
theorem Held.resolveSymbols (h : d.Held ctx) : d.Held ctx.resolveSymbols := by
  obtain ⟨t, ⟨old, hold, hor⟩, hfunction⟩ := h
  refine ⟨ctx.resolve t, ⟨{ old with type := ctx.resolve old.type }, ?_, ?_⟩, fun hbody => ?_⟩
  · rw [Check.symbolIn?_resolveSymbols]
    exact congrArg _ hold
  · rcases hor with rfl | ⟨hbody, htype, hnone⟩
    · exact .inl rfl
    · exact .inr ⟨hbody, congrArg ctx.resolve htype, hnone⟩
  · obtain ⟨params, result, hsignature, htype⟩ := hfunction hbody
    refine ⟨params, result, hsignature, ?_⟩
    rw [Context.resolve_of_not_hole (by rw [htype]; rfl)]
    exact htype

end Naming

namespace Check

open Context (Ready Step Builtin Holds Keeps)

variable {mode : Mode} {ctx ctx' ctx₁ ctx₂ : Context} {spans : List Span} {n : Node}

/-! ## the names of a tree -/

/-- The type of a function from its parameters and its result. -/
def functionType (params : List (Param Node)) (result : Node) : Option Ty :=
  match signature params result with
  | .ok sig => some (.function sig.params sig.result)
  | .error _ => none

/-- The function that the node itself declares. -/
def functionNamings (n : Node) : List Naming :=
  match n.form with
  | .functionDef name params result body =>
    [⟨n.scopeId, name.identifier?.getD "", name.span, .function (params.map (·.name.span)) body.isSome,
      functionType params result⟩]
  | _ => []

/-- The parameters or the variable that the node itself declares. -/
def valueNamings (n : Node) : List Naming :=
  match n.form with
  | .functionDef _ params _ _ =>
    params.map fun p => ⟨p.name.scopeId, p.name.identifier?.getD "", p.name.span, .parameter, none⟩
  | .variableDef name _ _ => [⟨n.scopeId, name.identifier?.getD "", name.span, .variable, none⟩]
  | _ => []

def ownNamings (n : Node) : List Naming := functionNamings n ++ valueNamings n

/-- The names that the definitions in a tree bring into scopes. -/
def namings (n : Node) : List Naming := n.preorder.flatMap ownNamings

/-- The names stand where the tree declares names. -/
theorem span_namings (n : Node) : (namings n).map (·.span) = n.declared := by
  unfold namings Node.declared
  rw [List.map_flatMap]
  refine List.flatMap_congr fun x _ => ?_
  unfold ownNamings functionNamings valueNamings Node.ownNames
  cases x.form <;> simp

section

variable {R : Node → Node → Prop} {x y : Node}

theorem Renotes.ownNamings (hR : Renotes R) (h : R x y) : ownNamings y = ownNamings x := by
  have hrel := hR.form h
  have hname : ∀ {a b}, R a b → b.identifier? = a.identifier? := identifier?_of_likeness hR.toLikeness
  unfold Check.ownNamings functionNamings valueNamings
  rw [hR.scopeId h]
  generalize x.form = f, y.form = g at hrel
  cases hrel with
  | @functionDef _ ps qs _ _ b b' params result body =>
    have hbody : b'.isSome = b.isSome := by cases body <;> rfl
    have hparams : qs.map (fun q => (⟨q.name.scopeId, q.name.identifier?.getD "", q.name.span, .parameter, none⟩ : Naming)) =
        ps.map fun p => ⟨p.name.scopeId, p.name.identifier?.getD "", p.name.span, .parameter, none⟩ := by
      rw [← List.forall₂_eq_eq_eq]
      refine List.forall₂_map_left_iff.2 (List.forall₂_map_right_iff.2 (params.flip.imp fun q p hpq => ?_))
      rw [hR.scopeId hpq.name, hname hpq.name, hR.span hpq.name]
    simp only [functionType, signature_of_likeness hR.toLikeness params result, hR.span_params params, hbody, hparams]
  | variableDef name _ _ => simp only [hname name, hR.span name]
  | _ => rfl

/-- Notes on types do not matter to the names of a tree. -/
theorem Renotes.namings (hR : Renotes R) (h : R x y) : namings y = namings x := by
  have hpreorder := hR.preorder h
  unfold Check.namings
  generalize x.preorder = xs, y.preorder = ys at hpreorder
  induction hpreorder with
  | nil => rfl
  | cons hxy _ ih => rw [List.flatMap_cons, List.flatMap_cons, ih, hR.ownNamings hxy]

end

/-! ## functions -/

theorem held_of_functionRecorded (h : FunctionRecorded ctx n) : ∀ d ∈ functionNamings n, d.Held ctx := by
  intro d hd
  unfold functionNamings at hd
  split at hd
  · next name params result body hform =>
    obtain rfl := List.mem_singleton.1 hd
    obtain ⟨sig, t, hsig, ht, hholds⟩ := h name params result body hform
    have htype := ctx.type_intern (.function sig.params sig.result)
    rw [ht] at htype
    exact ⟨t, hholds, fun _ => ⟨sig.params, sig.result, by rw [functionType, hsig], htype⟩⟩
  · exact absurd hd List.not_mem_nil

/-! ## parameters and variables -/

/-- What is true of some trees when they got their first types: all their parameters and variables are held. -/
structure NamesValues (ctx ctx' : Context) (ns : List Node) : Prop where
  keeps : Keeps ctx ctx'
  held : ∀ n ∈ ns, n.Everywhere fun m => ∀ d ∈ valueNamings m, d.Held ctx'

theorem NamesValues.refl (ctx : Context) : NamesValues ctx ctx [] := ⟨.refl ctx, fun _ hn => absurd hn List.not_mem_nil⟩

theorem NamesValues.before {ns : List Node} (h : NamesValues ctx ctx₁ ns) (hk : Keeps ctx₁ ctx') :
    NamesValues ctx ctx' ns :=
  ⟨h.keeps.trans hk, fun n hn => (h.held n hn).mono fun _ hm d hd => (hm d hd).keeps hk⟩

theorem NamesValues.after {ns : List Node} (h : NamesValues ctx₁ ctx' ns) (hk : Keeps ctx ctx₁) :
    NamesValues ctx ctx' ns := ⟨hk.trans h.keeps, h.held⟩

theorem NamesValues.append {xs ys : List Node} (h : NamesValues ctx ctx₁ xs) (h' : NamesValues ctx₁ ctx' ys) :
    NamesValues ctx ctx' (xs ++ ys) :=
  ⟨h.keeps.trans h'.keeps, List.forall_mem_append.2 ⟨(h.before h'.keeps).held, h'.held⟩⟩

/-- Pieces of a tree that get their first types one after the other. -/
theorem NamesValues.seq {job job' : Typing} (hs : Sane ctx spans (job.before ++ job'.before))
    (hjob : Materializes mode ctx job ctx₁) (h : ∀ {spans}, Sane ctx spans job.before → NamesValues ctx ctx₁ job.before)
    (h' : ∀ {spans}, Sane ctx₁ spans job'.before → NamesValues ctx₁ ctx' job'.before) :
    NamesValues ctx ctx' (job.before ++ job'.before) :=
  have first := hjob.outcome hs.left
  (h hs.left).append (h' (hs.right first.ready first.step))

theorem valueNamings_of_isName (h : n.IsName) : n.Everywhere fun m => ∀ d ∈ valueNamings m, d.Held ctx := by
  obtain ⟨token, -, hform⟩ := h
  refine Node.everywhere_iff.2 ⟨?_, ?_⟩
  · simp [valueNamings, hform]
  · simp [Node.children, hform, Form.parts]

/-- A node with its own values over parts whose values are held. -/
theorem NamesValues.node (hs : Sane ctx spans [n]) (h : NamesValues ctx ctx' n.form.expressions)
    (hown : ∀ d ∈ valueNamings n, d.Held ctx') : NamesValues ctx ctx' [n] := by
  have hshaped := (hs.shaped n List.mem_cons_self).self
  refine ⟨h.keeps, fun m hm => ?_⟩
  obtain rfl := List.mem_singleton.1 hm
  refine Node.everywhere_iff.2 ⟨hown, fun c hc => ?_⟩
  rcases mem_expressions_or_isName hshaped _ hc with hc | hc
  · exact h.held c hc
  · exact valueNamings_of_isName hc

/-- A variable may get a type of its own, which changes no scope. -/
theorem scopes_of_variableType {declared t : TypeId} {span : Span} {initializer : Option Node}
    (h : variableType mode ctx declared span initializer = .ok (t, ctx')) : ctx'.scopes = ctx.scopes := by
  cases mode with
  | nominal =>
    obtain ⟨rfl, rfl⟩ := Prod.mk.inj (Except.ok.inj h)
    rfl
  | unification =>
    have hfresh : ctx.fresh.2.scopes = ctx.scopes := Context.intern_scopes _ _
    simp only [variableType, bind_eq_ok, Prod.exists] at h
    obtain ⟨u, ctx₁, hdeclared, h⟩ := h
    have hdeclared := Context.scopes_of_unify hdeclared
    cases initializer with
    | none =>
      obtain ⟨rfl, rfl⟩ := Prod.mk.inj (Except.ok.inj h)
      rw [hdeclared, hfresh]
    | some x =>
      simp only [bind_eq_ok, Prod.exists, pure, Except.pure, Except.ok.injEq, Prod.mk.injEq] at h
      obtain ⟨u, ctx₂, hx, rfl, rfl⟩ := h
      rw [Context.scopes_of_unify hx, hdeclared, hfresh]

theorem keeps_variableType (hr : Ready ctx spans) {declared t : TypeId} (hd : Builtin declared) {span : Span}
    {initializer : Option Node} (hi : ∀ x ∈ initializer, x.typeId.index < ctx.types.length)
    (h : variableType mode ctx declared span initializer = .ok (t, ctx')) : Keeps ctx ctx' :=
  ⟨(ready_of_variableType hr hd hi h).2.1, .of_scopes (scopes_of_variableType h)⟩

/-- The definition of a function, when the values of its body are held. -/
theorem namesValues_functionDef {name : Token} {ps qs : List (Param Node)} {r : Node} {b : Option Node}
    {sig : Signature} (hform : n.form = .functionDef name ps r b) (hs : Sane ctx spans [n])
    (declares : declareFunction ctx n.scopeId name ps r b = .ok (sig, ctx₁))
    (params : declareParams ctx₁ ps sig.params = .ok (qs, ctx₂))
    (body : ∀ {spans}, Sane ctx₂ spans b.toList → NamesValues ctx₂ ctx' b.toList) : NamesValues ctx ctx' [n] := by
  obtain ⟨hkeeps, hholds⟩ := holds_of_functionDef hform hs declares params
  have hbody := body (hs.body hform declares params).1
  refine .node hs ?_ fun d hd => ?_
  · rw [hform]
    exact hbody.after hkeeps
  · rw [valueNamings, hform] at hd
    obtain ⟨p, hp, rfl⟩ := List.mem_map.1 hd
    obtain ⟨t, -, ht⟩ := forall₂_exists hholds hp
    exact Naming.held_of_value rfl (hbody.keeps.holds ht)

/-- The definition of a variable, when the values of its initializer are held. -/
theorem namesValues_variableDef {name type : Node} {i i' : Option Node} {declared t : TypeId}
    (hform : n.form = .variableDef name type i) (hs : Sane ctx spans [n]) (named : typeNamedBy type = .ok declared)
    (hi : Materializes mode ctx (.option i i') ctx₁)
    (initializer : ∀ {spans}, Sane ctx spans i.toList → NamesValues ctx ctx₁ i.toList)
    (settles : variableType mode ctx₁ declared type.span i' = .ok (t, ctx₂))
    (declares : ctx₂.declare n.scopeId (variableSymbol name t) = .ok ctx') : NamesValues ctx ctx' [n] := by
  obtain ⟨hsane, hnew⟩ := hs.initializer hform
  have ho := hi.outcome hsane
  have hbuiltin := builtin_of_typeNamedBy named
  have hknown : ∀ x ∈ i', x.typeId.index < ctx₁.types.length := fun x hx =>
    (ho.typed x (Option.mem_toList.2 hx)).self.known
  have hkeeps := keeps_variableType ho.ready hbuiltin hknown settles
  have hready := (ready_of_variableType ho.ready hbuiltin hknown settles).1
  have hscope : n.scopeId.index < ctx₂.scopes.length := by
    rw [hkeeps.step.length, ho.step.length]
    exact (hs.placed n List.mem_cons_self).self
  refine .node hs ?_ fun d hd => ?_
  · rw [hform]
    exact (initializer hsane).before (hkeeps.trans (Context.keeps_declare hscope declares))
  · rw [valueNamings, hform] at hd
    obtain rfl := List.mem_singleton.1 hd
    exact Naming.held_of_value rfl (Context.holds_of_declare hready.known hnew hscope declares)

/-- **First types leave behind all parameters and variables that they met**, in either mode. -/
theorem Materializes.namesValues {job : Typing} (h : Materializes mode ctx job ctx') (hs : Sane ctx spans job.before) :
    NamesValues ctx ctx' job.before := by
  have hnone : ∀ ctx, ∀ d ∈ ([] : List Naming), d.Held ctx := fun _ _ hd => absurd hd List.not_mem_nil
  induction h generalizing spans with
  | literal leaf => exact .node hs (.refl _) (hnone _)
  | prefixOp operand ih => exact .node hs (ih hs.children) (hnone _)
  | infixOp left right ihl ihr => exact .node hs (.seq hs.children left ihl ihr) (hnone _)
  | statement inner ih => exact .node hs (ih hs.children) (hnone _)
  | block items trailing ihi iht => exact .node hs (.seq hs.children items ihi iht) (hnone _)
  | functionDef declares params _ ihb => exact namesValues_functionDef rfl hs declares params ihb
  | functionCall callee arguments _ ihc iha => exact .node hs (.seq hs.children callee ihc iha) (hnone _)
  | variableDef named initializer settles declares ihi =>
    exact namesValues_variableDef rfl hs named initializer ihi settles declares
  | root items ih => exact .node hs (ih hs.children) (hnone _)
  | nil => exact .refl _
  | cons first others ihf iho => exact .seq hs first ihf iho
  | none => exact .refl _
  | some inner ih => exact ih hs

/-! ## whole programs -/

theorem renotes_mapType (f : Option TypeId → Option TypeId) : Renotes fun x y => y = x.mapType f where
  toLikeness := likeness_mapType f
  scope := by
    rintro x _ rfl
    rw [Node.mapType_eq]

/-- **Every name of a program with first types is held**, and each stands at a place of its own, in the scope that it
was stamped with. -/
theorem held_of_firstTypes {s : Node} (hshaped : n.Everywhere fun x => x.form.Shaped) (hnodup : n.declared.Nodup)
    (h : firstTypes mode n = .ok (s, ctx)) :
    (∀ d ∈ namings s, d.Held ctx) ∧ ((namings s).map (·.span)).Nodup ∧ namings s = namings (scopes .new n).1 := by
  simp only [firstTypes, bind_eq_ok, Prod.exists, pure, Except.pure, Except.ok.injEq] at h
  obtain ⟨c, hc, m, c', hm, h⟩ := h
  obtain ⟨hsane, -⟩ := sane_of_signatures hshaped hnodup hc
  have hrun := materializes_of_materialize _ hm
  have hvalues := hrun.namesValues hsane
  -- functions are there from the signatures on
  have hheld : ∀ d ∈ namings (scopes .new n).1, d.Held c' := fun d hd => by
    obtain ⟨x, hx, hd⟩ := List.mem_flatMap.1 hd
    rcases List.mem_append.1 hd with hd | hd
    · exact (held_of_functionRecorded (recorded_of_signatures hnodup hc x hx) d hd).keeps hvalues.keeps
    · exact hvalues.held _ List.mem_cons_self x hx d hd
  have hspans : ((namings (scopes .new n).1).map (·.span)).Nodup := by
    rwa [span_namings, scopes, likeness_stampedAs.declared (stamps_of_stamp .root .new n).stampedAs]
  have hrenotes : Renotes (MaterializedAs mode) := renotes_materializedAs
  have hnamings : namings m = namings (scopes .new n).1 := hrenotes.namings (.inl ⟨_, _, hrun⟩)
  rw [← hnamings] at hheld hspans
  cases mode with
  | nominal =>
    obtain ⟨rfl, rfl⟩ := Prod.mk.inj h
    exact ⟨hheld, hspans, hnamings⟩
  | unification =>
    obtain ⟨rfl, rfl⟩ := Prod.mk.inj h
    rw [(renotes_mapType _).namings rfl]
    exact ⟨fun d hd => (hheld d hd).resolveSymbols, hspans, hnamings⟩

/-- Names in one scope that get along. -/
structure DeclaredOnce (ctx : Context) (s : ScopeId) (name : String) (ds : List Naming) : Prop where
  /-- There is one declaration at most, or all are functions of one type. -/
  single : ds.length ≤ 1 ∨ ∃ t, ∀ d ∈ ds, d.kind.body?.isSome ∧ d.signature = some t
  bodies : ds.countP (·.kind.body? = some true) ≤ 1
  /-- A function with a body is the symbol of the scope. -/
  symbol : ∀ d ∈ ds, d.kind.body? = some true →
    ∃ t, ctx.symbolIn? s name = some (d.symbol t) ∧ d.signature = some (ctx.type t)

/-- Different names cannot all be declared at one place. -/
theorem length_le_one {ds : List Naming} (span : Span) (hnodup : (ds.map (·.span)).Nodup)
    (h : ∀ d ∈ ds, d.span = span) : ds.length ≤ 1 := by
  have hall : ds.map (·.span) = List.replicate ds.length span :=
    List.eq_replicate_iff.2 ⟨by simp, fun s hs => by
      obtain ⟨d, hd, rfl⟩ := List.mem_map.1 hs
      exact h d hd⟩
  rw [hall] at hnodup
  exact List.nodup_replicate.1 hnodup

/-- Names that one symbol is shown for get along. -/
theorem declaredOnce_of_shows {s : ScopeId} {name : String} {ds : List Naming} {shown : Symbol}
    (hshown : ctx.symbolIn? s name = some shown) (hshows : ∀ d ∈ ds, d.Shows ctx shown)
    (hnodup : (ds.map (·.span)).Nodup) : DeclaredOnce ctx s name ds where
  single := by
    by_cases hfunction : shown.kind.body?.isSome
    · refine .inr ⟨ctx.type shown.type, fun d hd => ?_⟩
      have hbody := (hshows d hd).isSome_body? hfunction
      exact ⟨hbody, (hshows d hd).signature hbody⟩
    · exact .inl (length_le_one shown.span hnodup fun d hd => (hshows d hd).span_eq hfunction)
  bodies := by
    rw [List.countP_eq_length_filter]
    refine length_le_one shown.span (hnodup.sublist (List.filter_sublist.map _)) fun d hd => ?_
    obtain ⟨hd, hbody⟩ := List.mem_filter.1 hd
    rw [(hshows d hd).eq_of_body (by simpa using hbody), Naming.symbol]
  symbol d hd hbody :=
    ⟨shown.type, hshown.trans (congrArg some ((hshows d hd).eq_of_body hbody)), (hshows d hd).signature (by simp [hbody])⟩

/-- **Names that are all held by one scope get along in it.** -/
theorem declaredOnce_of_held {s : ScopeId} {name : String} {ds : List Naming}
    (hds : ∀ d ∈ ds, d.scope = s ∧ d.name = name) (hheld : ∀ d ∈ ds, d.Held ctx)
    (hnodup : (ds.map (·.span)).Nodup) : DeclaredOnce ctx s name ds := by
  have hshows : ∀ d ∈ ds, ∃ shown, ctx.symbolIn? s name = some shown ∧ d.Shows ctx shown := fun d hd => by
    obtain ⟨rfl, rfl⟩ := hds d hd
    exact (hheld d hd).exists_shows
  obtain _ | ⟨d, others⟩ := ds
  · exact ⟨.inl (Nat.zero_le _), Nat.zero_le _, fun _ hd => absurd hd List.not_mem_nil⟩
  · -- all names look at the symbol of the first one
    obtain ⟨shown, hshown, -⟩ := hshows d List.mem_cons_self
    refine declaredOnce_of_shows hshown (fun d' hd' => ?_) hnodup
    obtain ⟨shown', hshown', hd'⟩ := hshows d' hd'
    exact Option.some.inj (hshown'.symm.trans hshown) ▸ hd'

/-- **No accepted program declares a name twice** in one scope, but for functions without a body. The names are those of
the program, in the scopes that they were stamped with. -/
theorem declared_once {source : String} {t : Node} (h : analyze source mode = .ok (t, ctx)) :
    (∃ n, parseSource source = .ok n ∧ t.unnoted = n.unnoted ∧ namings t = namings (scopes .new n).1) ∧
      ∀ s name, DeclaredOnce ctx s name ((namings t).filter fun d => d.scope = s ∧ d.name = name) := by
  obtain ⟨n, f, a, b, hn, hf, ha, hb, ht⟩ := analyze_eq_ok h
  obtain ⟨hheld, hnodup, hstamped⟩ :=
    held_of_firstTypes (shaped_of_parseSource hn) (declared_nodup_of_parseSource hn) hf
  have hnamings : namings t = namings f := by
    rw [(renotes_revisedAs onlyNotes_callRule).namings ⟨t, ht, .refl t⟩,
      (renotes_revisedAs onlyNotes_assignmentRule).namings ⟨b, hb, .refl b⟩,
      (renotes_revisedAs onlyNotes_arithmeticRule).namings ⟨a, ha, .refl a⟩]
  rw [hnamings]
  refine ⟨⟨n, hn, unnoted_of_checks hf ha hb ht, hstamped⟩, fun s name => ?_⟩
  exact declaredOnce_of_held (fun d hd => by simpa using (List.mem_filter.1 hd).2)
    (fun d hd => hheld d (List.mem_filter.1 hd).1) (hnodup.sublist (List.filter_sublist.map _))

/-- With a function that is declared without a body in front of its definition and behind it. -/
theorem prototypes_declared_once : ∃ t ctx,
    analyze "fn f(a: int) -> int fn f(b: int) -> int { b } fn f(c: int) -> int let x: int = f(1);" .unification =
      .ok (t, ctx) ∧
    ((namings t).filter fun d => d.scope = .root ∧ d.name = "f").length = 3 ∧
    DeclaredOnce ctx .root "f" ((namings t).filter fun d => d.scope = .root ∧ d.name = "f") := by
  have haccepted : Yields (fun r => ((namings r.1).filter fun d => d.scope = .root ∧ d.name = "f").length = 3)
      (analyze "fn f(a: int) -> int fn f(b: int) -> int { b } fn f(c: int) -> int let x: int = f(1);"
        .unification) := by decide +kernel
  obtain ⟨⟨t, ctx⟩, h, hlength⟩ := yields_iff.1 haccepted
  exact ⟨t, ctx, h, hlength, (declared_once h).2 .root "f"⟩

end Check

end LetFn
