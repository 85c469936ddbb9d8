import LetFn.Proofs.Check.Declaring
import LetFn.Proofs.Check.Lexical

/-!
# Scopes as levels of names

* `Context.view ctx s name` — the type of what a name means right in a scope;
* `Entered ctx ctx' entries` — the second context has the entries beside those of the first, and no others;
* `Agrees ctx s env` — the frames hold what the scopes hold, from `s` outwards.

Main facts: `lookup_of_agrees` (a name is then found alike), `entered_of_signatures`, `entered_of_declareFunction`,
`entered_of_value` (what each declaration enters).
-/

namespace LetFn

/-- The type of what a name means right in the scope. -/
def Context.view (ctx : Context) (s : ScopeId) (name : String) : Option Ty :=
  (ctx.symbolIn? s name).map fun symbol => ctx.type symbol.type

/-- A name in a scope, with the type of what it means there. -/
abbrev Entry := ScopeId × String × Ty

/-- The names of the second context are those of the first and the entries. -/
def Entered (ctx ctx' : Context) (entries : List Entry) : Prop :=
  ∀ s name t, ctx'.view s name = some t ↔ ctx.view s name = some t ∨ (s, name, t) ∈ entries

variable {ctx ctx' ctx'' : Context} {s s' : ScopeId} {name : String} {t : Ty} {symbol : Symbol} {spans : List Span}
  {es es' : List Entry}

theorem Entered.refl (ctx : Context) : Entered ctx ctx [] := by simp [Entered]

theorem Entered.trans (h : Entered ctx ctx' es) (h' : Entered ctx' ctx'' es') :
    Entered ctx ctx'' (es ++ es') := by
  intro s name t
  rw [h' s name t, h s name t, List.mem_append, or_assoc]

theorem Entered.mono (h : Entered ctx ctx' es) (ht : ctx.view s name = some t) : ctx'.view s name = some t :=
  (h s name t).2 (.inl ht)

theorem Entered.of_mem (h : Entered ctx ctx' es) (he : (s, name, t) ∈ es) : ctx'.view s name = some t :=
  (h s name t).2 (.inr he)

/-- Where no entry is made, a scope stays as it was. -/
theorem Entered.view_eq (h : Entered ctx ctx' es) (hs : ∀ e ∈ es, e.1 ≠ s) (name : String) :
    ctx'.view s name = ctx.view s name := by
  refine Option.ext fun t => ?_
  rw [h s name t]
  exact or_iff_left fun he => hs _ he rfl

/-- Entries that were there already are none. -/
theorem Entered.of_known (h : Entered ctx ctx' es)
    (hknown : ∀ s name t, (s, name, t) ∈ es → ctx.view s name = some t) : Entered ctx ctx' [] := by
  intro s name t
  rw [h s name t, or_iff_left_of_imp (hknown s name t)]
  simp

/-! ## declarations -/

open Context (Ready Step Builtin)

theorem view_of_scopes (hr : Ready ctx spans) (hgrows : ctx.Extends ctx') (h : ctx'.scopes = ctx.scopes)
    (s : ScopeId) (name : String) : ctx'.view s name = ctx.view s name := by
  unfold Context.view
  rw [Context.symbolIn?_of_scopes h]
  refine Option.map_congr fun symbol hs => ?_
  exact hgrows.type_eq (hr.typed hs)

theorem view_put (hs : s.index < ctx.scopes.length) :
    (ctx.put s symbol).view s' name =
      if s' = s ∧ name = symbol.name then some (ctx.type symbol.type) else ctx.view s' name := by
  have htype : ∀ t, (ctx.put s symbol).type t = ctx.type t := Context.type_of_types rfl
  unfold Context.view
  rw [Context.symbolIn?_put hs]
  split
  · rw [Option.map_some, htype]
  · rw [funext fun symbol : Symbol => htype symbol.type]

theorem entered_put (hs : s.index < ctx.scopes.length)
    (hold : ∀ t, ctx.view s symbol.name = some t → t = ctx.type symbol.type) :
    Entered ctx (ctx.put s symbol) [(s, symbol.name, ctx.type symbol.type)] := by
  intro s' name t
  rw [view_put hs, List.mem_singleton, Prod.mk.injEq, Prod.mk.injEq]
  split
  · next hself =>
    obtain ⟨rfl, rfl⟩ := hself
    rw [Option.some.injEq]
    constructor
    · exact fun ht => .inr ⟨rfl, rfl, ht.symm⟩
    · rintro (ht | ⟨-, -, rfl⟩)
      · exact (hold t ht).symm
      · rfl
  · next hother => exact (or_iff_left fun ⟨hs', hname, _⟩ => hother ⟨hs', hname⟩).symm

/-- A variable or a parameter at a new place is entered. -/
theorem entered_of_value (hr : Ready ctx spans) (hnew : symbol.span ∉ spans) (hvalue : symbol.kind.body? = none)
    (hs : s.index < ctx.scopes.length) (h : ctx.declare s symbol = .ok ctx') :
    ctx.view s symbol.name = none ∧ Entered ctx ctx' [(s, symbol.name, ctx.type symbol.type)] := by
  obtain ⟨hnone, rfl⟩ := Context.declare_new_value hr.known hnew hvalue h
  have hview : ctx.view s symbol.name = none := by rw [Context.view, hnone, Option.map_none]
  exact ⟨hview, entered_put hs fun t ht => absurd (hview.symm.trans ht) nofun⟩

namespace Check

/-- The function that a node defines, in the scope where the node stands. -/
def ownDefinitions (n : Node) : List Entry :=
  match n.form with
  | .functionDef name params result _ => (Lexical.function name params result).map (n.scopeId, ·)
  | _ => []

/-- The functions that a tree defines. -/
def definitions (n : Node) : List Entry := n.preorder.flatMap ownDefinitions

theorem definitions_eq (n : Node) : definitions n = ownDefinitions n ++ n.children.flatMap definitions := by
  unfold definitions
  rw [Node.preorder_eq, List.flatMap_cons, List.flatMap_assoc]

/-- A definition of a function is entered, unless its place is taken. -/
theorem entered_of_declareFunction (hr : Ready ctx spans) (hs : s.index < ctx.scopes.length) {name : Token}
    {ps : List (Param Node)} {result : Node} {body : Option Node} {sig : Signature}
    (hknown : ∀ old, ctx.symbolIn? s (name.identifier?.getD "") = some old → old.span = name.span →
      ctx.type old.type = .function sig.params sig.result)
    (h : declareFunction ctx s name ps result body = .ok (sig, ctx')) :
    Entered ctx ctx' ((Lexical.function name ps result).map (s, ·)) := by
  obtain ⟨hsig, hdeclare⟩ := declareFunction_eq_ok h
  have hscopes := ctx.intern_scopes (.function sig.params sig.result)
  have hgrows := ctx.extends_intern (.function sig.params sig.result)
  have htype := ctx.type_intern (.function sig.params sig.result)
  have hview := view_of_scopes hr hgrows hscopes
  have hlength := hscopes ▸ hs
  generalize ctx.intern (.function sig.params sig.result) = r at hdeclare hscopes hgrows htype hview hlength
  have hfunction : (Lexical.function name ps result).map (s, ·) =
      [(s, name.identifier?.getD "", Ty.function sig.params sig.result)] := by
    simp [Lexical.function, hsig]
  have hsame : Entered ctx r.2 [] := fun s name t => by simp [hview]
  -- the same type again, or a first one
  have hold : ∀ {old : Symbol}, ctx.symbolIn? s (name.identifier?.getD "") = some old →
      ctx.type old.type = .function sig.params sig.result →
      ctx.view s (name.identifier?.getD "") = some (.function sig.params sig.result) := fun ho ht => by
    rw [Context.view, ho, Option.map_some, ht]
  rw [hfunction]
  have hput : (∀ t, ctx.view s (name.identifier?.getD "") = some t → t = .function sig.params sig.result) →
      Entered ctx (r.2.put s (functionSymbol name ps body r.1))
        [(s, name.identifier?.getD "", Ty.function sig.params sig.result)] := fun hfirst => by
    have hagree : ∀ t, r.2.view s (functionSymbol name ps body r.1).name = some t →
        t = r.2.type (functionSymbol name ps body r.1).type := fun t ht => by
      rw [hview] at ht
      rw [hfirst t ht]
      exact htype.symm
    have hentered := hsame.trans (entered_put hlength hagree)
    rwa [List.nil_append, show r.2.type (functionSymbol name ps body r.1).type = .function sig.params sig.result
      from htype] at hentered
  have hstays : ctx.view s (name.identifier?.getD "") = some (.function sig.params sig.result) →
      Entered ctx r.2 [(s, name.identifier?.getD "", Ty.function sig.params sig.result)] := fun hfirst => by
    intro s' name' t
    rw [hview, List.mem_singleton, Prod.mk.injEq, Prod.mk.injEq, or_iff_left_of_imp]
    rintro ⟨rfl, rfl, rfl⟩
    exact hfirst
  rcases Context.declare_eq_ok hdeclare with ⟨old, hsymbol, hspan, rfl⟩ | ⟨hnone, rfl⟩ | ⟨old, hsymbol, _, _, hsym, hctx⟩
  · rw [Context.symbolIn?_of_scopes hscopes] at hsymbol
    exact hstays (hold hsymbol (hknown old hsymbol hspan))
  · rw [Context.symbolIn?_of_scopes hscopes] at hnone
    refine hput fun t ht => ?_
    rw [Context.view, show ctx.symbolIn? s (name.identifier?.getD "") = none from hnone] at ht
    exact absurd ht nofun
  · rw [Context.symbolIn?_of_scopes hscopes] at hsymbol
    have hfirst : ctx.view s (name.identifier?.getD "") = some (.function sig.params sig.result) := by
      refine hold hsymbol ?_
      rw [← hgrows.type_eq (hr.typed hsymbol), hsym]
      exact htype
    rcases hctx with rfl | rfl
    · exact hstays hfirst
    · exact hput fun t ht => Option.some.inj (ht.symm.trans hfirst)

/-- The functions of a list of nodes are entered. -/
theorem entered_of_declareDefinitions {ns : List Node} (hr : Ready ctx spans)
    (hplaced : ∀ n ∈ ns, n.scopeId.index < ctx.scopes.length) (hnodup : (ns.flatMap Node.ownFunctions).Nodup)
    (hnew : ∀ span ∈ ns.flatMap Node.ownFunctions, span ∉ spans) (h : ns.foldlM declareDefinition ctx = .ok ctx') :
    Entered ctx ctx' (ns.flatMap ownDefinitions) := by
  induction ns generalizing ctx spans with
  | nil =>
    obtain rfl : ctx = ctx' := by simpa [pure, Except.pure] using h
    exact .refl ctx
  | cons n ns ih =>
    simp only [List.foldlM_cons, bind_eq_ok] at h
    obtain ⟨ctx₁, hn, h⟩ := h
    rw [List.flatMap_cons] at hnodup hnew ⊢
    obtain ⟨-, hnodup', hdisjoint⟩ := List.nodup_append.1 hnodup
    have hlater : ∀ span ∈ ns.flatMap Node.ownFunctions, span ∉ n.ownFunctions ++ spans := fun span hspan hmem => by
      rcases List.mem_append.1 hmem with hmem | hmem
      · exact hdisjoint span hmem span hspan rfl
      · exact hnew span (List.mem_append_right _ hspan) hmem
    rcases declareDefinition_cases hn with ⟨name, ps, result, body, sig, hform, hc⟩ | ⟨hform, rfl⟩
    · have hself : n.ownFunctions = [name.span] := by rw [Node.ownFunctions, hform]
      obtain ⟨hready, hstep⟩ := ready_of_declareFunction hr (hplaced n List.mem_cons_self) hc
      have hfirst := entered_of_declareFunction hr (hplaced n List.mem_cons_self) (fun old hold hspan => by
        refine absurd (hspan ▸ hr.known _ _ _ hold) (hnew name.span ?_)
        rw [hself]
        exact List.mem_append_left _ List.mem_cons_self) hc
      have hown : ownDefinitions n = (Lexical.function name ps result).map (n.scopeId, ·) := by
        rw [ownDefinitions, hform]
      rw [hown]
      refine hfirst.trans (ih hready (fun m hm => ?_) hnodup' (by simpa [hself] using hlater) h)
      exact hstep.length ▸ hplaced m (List.mem_cons_of_mem _ hm)
    · have hown : ownDefinitions n = [] := by
        unfold ownDefinitions
        split
        · next hf => exact absurd hf (hform _ _ _ _)
        · rfl
      rw [hown]
      refine (Entered.refl _).trans (ih (hr.mono (List.subset_append_right n.ownFunctions _))
        (fun m hm => hplaced m (List.mem_cons_of_mem _ hm)) hnodup' hlater h)

/-- **Signatures enter the functions of a tree** and nothing else. -/
theorem entered_of_signatures {n : Node} (hr : Ready ctx []) (hplaced : Placed ctx n) (hnodup : n.functions.Nodup)
    (h : signatures ctx n = .ok ctx') : Entered ctx ctx' (definitions n) :=
  entered_of_declareDefinitions hr hplaced hnodup (fun _ _ => List.not_mem_nil) h

end Check

/-! ## frames and scopes -/

open Lexical (Frame)

/-- The frames hold what the scopes hold, from the scope outwards. -/
inductive Agrees (ctx : Context) : ScopeId → List Frame → Prop
  | root {s frame} (names : ∀ name, frame.lookup name = ctx.view s name)
      (parent : (ctx.scope? s).map (·.parent) = some none) : Agrees ctx s [frame]
  | inner {s outer frame env} (names : ∀ name, frame.lookup name = ctx.view s name)
      (parent : (ctx.scope? s).map (·.parent) = some (some outer)) (lt : outer.index < s.index)
      (others : Agrees ctx outer env) : Agrees ctx s (frame :: env)

variable {env : List Frame}

/-- A name is found in the frames as it is found in the scopes. -/
theorem lookup_of_agrees (h : Agrees ctx s env) (name : String) :
    (ctx.lookup s name).map (fun found => ctx.type found.2.type) = Lexical.lookup env name := by
  have hlookup : ∀ fuel, s.index < fuel →
      (ctx.lookupWithin fuel s name).map (fun found => ctx.type found.2.type) = Lexical.lookup env name := by
    induction h with
    | @root s frame names parent =>
      intro fuel hfuel
      obtain ⟨fuel, rfl⟩ := Nat.exists_eq_succ_of_ne_zero (Nat.ne_of_gt (Nat.zero_lt_of_lt hfuel))
      obtain ⟨scope, hscope, hparent⟩ := Option.map_eq_some_iff.1 parent
      have hname := names name
      rw [Context.view, Context.symbolIn?, hscope, Option.bind_some] at hname
      simp only [Context.lookupWithin, hscope, Lexical.lookup, List.findSome?_cons, List.findSome?_nil, hname]
      cases scope.find? name with
      | some symbol => rfl
      | none => simp [hparent]
    | @inner s outer frame env names parent lt _ ih =>
      intro fuel hfuel
      obtain ⟨fuel, rfl⟩ := Nat.exists_eq_succ_of_ne_zero (Nat.ne_of_gt (Nat.zero_lt_of_lt hfuel))
      obtain ⟨scope, hscope, hparent⟩ := Option.map_eq_some_iff.1 parent
      have hname := names name
      rw [Context.view, Context.symbolIn?, hscope, Option.bind_some] at hname
      have houter := ih fuel (by omega)
      rw [Lexical.lookup] at houter
      simp only [Context.lookupWithin, hscope, Lexical.lookup, List.findSome?_cons, hname]
      cases scope.find? name with
      | some symbol => rfl
      | none => simpa [hparent] using houter
  exact hlookup _ (Nat.lt_succ_self _)

/-- Only the scopes from `s` outwards matter, and these have lower numbers. -/
theorem Agrees.congr (h : Agrees ctx s env) (hparents : ∀ s, (ctx'.scope? s).map (·.parent) = (ctx.scope? s).map (·.parent))
    (hviews : ∀ s', s'.index ≤ s.index → ∀ name, ctx'.view s' name = ctx.view s' name) : Agrees ctx' s env := by
  induction h with
  | root names parent =>
    exact .root (fun name => (names name).trans (hviews _ (Nat.le_refl _) name).symm) ((hparents _).trans parent)
  | inner names parent lt _ ih =>
    refine .inner (fun name => (names name).trans (hviews _ (Nat.le_refl _) name).symm) ((hparents _).trans parent) lt ?_
    exact ih fun s' hs' => hviews s' (by omega)

/-- A new name in the innermost scope is bound in the innermost frame. -/
theorem Agrees.bind (h : Agrees ctx s env)
    (hparents : ∀ s, (ctx'.scope? s).map (·.parent) = (ctx.scope? s).map (·.parent))
    (hentered : Entered ctx ctx' [(s, name, t)]) : Agrees ctx' s (Lexical.bind env name t) := by
  have hother : ∀ s', s' ≠ s → ∀ name', ctx'.view s' name' = ctx.view s' name' := fun s' hs' =>
    hentered.view_eq fun e he => by
      rw [List.mem_singleton.1 he]
      exact Ne.symm hs'
  have hnames : ∀ {frame : Frame}, (∀ name', frame.lookup name' = ctx.view s name') →
      ∀ name', ((name, t) :: frame).lookup name' = ctx'.view s name' := fun {frame} hframe name' => by
    rw [List.lookup_cons]
    by_cases hname : name' = name
    · subst hname
      rw [hentered.of_mem List.mem_cons_self]
      simp
    · rw [show (name' == name) = false by simpa using hname]
      refine (hframe name').trans (Option.ext fun u => ?_)
      rw [hentered s name' u]
      exact (or_iff_left fun he => hname (by simpa using (Prod.mk.inj (Prod.mk.inj (List.mem_singleton.1 he)).2).1)).symm
  cases h with
  | root names parent => exact .root (hnames names) ((hparents s).trans parent)
  | inner names parent lt others =>
    refine .inner (hnames names) ((hparents s).trans parent) lt (others.congr hparents fun s' hs' => ?_)
    exact hother s' fun heq => by
      subst heq
      omega

/-- The frames around the innermost one hold what the scopes around hold. -/
theorem Agrees.tail (h : Agrees ctx s env) {outer : ScopeId}
    (hparent : (ctx.scope? s).map (·.parent) = some (some outer)) : Agrees ctx outer env.tail := by
  cases h with
  | root _ parent => exact absurd (parent.symm.trans hparent) nofun
  | inner _ parent _ others =>
    obtain rfl := Option.some.inj (Option.some.inj (parent.symm.trans hparent))
    exact others

theorem lookup_eq_of_mem_iff {frame : Frame} {v : Option Ty} (h : ∀ t, v = some t ↔ (name, t) ∈ frame) :
    frame.lookup name = v := by
  cases hfound : frame.lookup name with
  | some t =>
    obtain ⟨before, after, hframe, -⟩ := List.lookup_eq_some_iff.1 hfound
    refine ((h t).2 ?_).symm
    rw [hframe]
    exact List.mem_append_right _ List.mem_cons_self
  | none =>
    refine (Option.eq_none_iff_forall_ne_some.2 fun t ht => ?_).symm
    have hmiss := List.lookup_eq_none_iff.1 hfound _ ((h t).1 ht)
    simp at hmiss

end LetFn
