import LetFn.Proofs.Check.Mirroring
import LetFn.Proofs.Check.Passes

/-!
# What a run declares is there for good

The passes that declare names leave everything behind that they met: a symbol for every name, and for every definition
its own symbol, or one in its place that may be declared instead. So they can declare all of it again.

* `Holds ctx s symbol` — to declare the symbol in the scope changes nothing;
* `Keeps ctx ctx'` — what the first context holds is held by the second;
* `Recorded ctx n` — all that a node declares or looks up is there;
* `Repeatable ctx n` — that is so everywhere in a tree.

Main facts: `Materializes.retained` (first types record what they meet), `repeatable_of_analyze`.
-/

namespace LetFn

namespace Context

variable {ctx ctx' : Context} {s s' : ScopeId} {symbol symbol' : Symbol}

/-! ## symbols that may be declared again -/

/-- The scope has the symbol, or in place of a function without a body one of the same type. -/
def Holds (ctx : Context) (s : ScopeId) (symbol : Symbol) : Prop :=
  ∃ old, ctx.symbolIn? s symbol.name = some old ∧
    (old = symbol ∨ old.kind.body?.isSome ∧ old.type = symbol.type ∧ symbol.kind.body? = some false)

/-- **To declare a symbol that the scope holds changes nothing.** -/
theorem Holds.declare_eq (h : Holds ctx s symbol) : ctx.declare s symbol = .ok ctx := by
  obtain ⟨old, hold, hor⟩ := h
  unfold declare
  rw [hold]
  rcases hor with rfl | ⟨hbody, htype, hnone⟩
  · simp
  · obtain ⟨b, hb⟩ := Option.isSome_iff_exists.1 hbody
    simp [hb, hnone, htype]

/-- What a declaration finds in its scope, and what it does then. -/
theorem declare_cases (h : ctx.declare s symbol = .ok ctx') :
    (∃ old, ctx.symbolIn? s symbol.name = some old ∧ old.span = symbol.span ∧ ctx' = ctx) ∨
    (∃ old, ctx.symbolIn? s symbol.name = some old ∧ old.kind.body?.isSome ∧ old.type = symbol.type ∧
      symbol.kind.body? = some false ∧ ctx' = ctx) ∨
    (ctx.symbolIn? s symbol.name = none ∧ ctx' = ctx.put s symbol) ∨
    ∃ old, ctx.symbolIn? s symbol.name = some old ∧ old.kind.body? = some false ∧ symbol.kind.body? = some true ∧
      old.type = symbol.type ∧ ctx' = ctx.put s symbol := by
  unfold declare at h
  split at h
  · next hnone => exact .inr (.inr (.inl ⟨hnone, (Except.ok.inj h).symm⟩))
  · next old hold =>
    split at h
    · next hspan => exact .inl ⟨old, hold, hspan, (Except.ok.inj h).symm⟩
    · split at h
      · next oldBody newBody holdBody hnewBody =>
        split at h
        · next hsame =>
          cases newBody with
          | false => exact .inr (.inl ⟨old, hold, by simp [holdBody], hsame.1, hnewBody, (Except.ok.inj h).symm⟩)
          | true =>
            have hold' : oldBody = false := by simpa using hsame.2
            exact .inr (.inr (.inr ⟨old, hold, hold' ▸ holdBody, hnewBody, hsame.1, (Except.ok.inj h).symm⟩))
        · simp at h
      · simp at h

theorem Holds.of_scopes (h : ctx'.scopes = ctx.scopes) (hs : Holds ctx s symbol) : Holds ctx' s symbol := by
  obtain ⟨old, hold, hor⟩ := hs
  exact ⟨old, (symbolIn?_of_scopes h s symbol.name).trans hold, hor⟩

/-- A scope that holds a symbol holds it after further declarations. -/
theorem Holds.declare (h : Holds ctx s symbol) (hs' : s'.index < ctx.scopes.length)
    (hd : ctx.declare s' symbol' = .ok ctx') : Holds ctx' s symbol := by
  obtain ⟨old, hold, hor⟩ := h
  rcases declare_cases hd with ⟨_, -, -, rfl⟩ | ⟨_, -, -, -, -, rfl⟩ | ⟨hnone, rfl⟩ | ⟨first, hfirst, hno, hyes, htype, rfl⟩
  · exact ⟨old, hold, hor⟩
  · exact ⟨old, hold, hor⟩
  · refine ⟨old, ?_, hor⟩
    rw [symbolIn?_put hs', if_neg]
    · exact hold
    · rintro ⟨rfl, hname⟩
      rw [hname] at hold
      exact absurd (hnone.symm.trans hold) nofun
  · by_cases hsame : s = s' ∧ symbol.name = symbol'.name
    · obtain ⟨rfl, hname⟩ := hsame
      rw [hname] at hold
      obtain rfl := Option.some.inj (hfirst.symm.trans hold)
      refine ⟨symbol', by rw [symbolIn?_put hs', if_pos ⟨rfl, hname⟩], .inr ⟨by simp [hyes], ?_⟩⟩
      rcases hor with rfl | ⟨-, htype', hnone⟩
      · exact ⟨htype.symm, hno⟩
      · exact ⟨htype.symm.trans htype', hnone⟩
    · exact ⟨old, by rwa [symbolIn?_put hs', if_neg hsame], hor⟩

/-- A symbol with a place of its own is held when it is declared. -/
theorem holds_of_declare {spans : List Span} (hk : Known ctx spans) (hnew : symbol.span ∉ spans)
    (hs : s.index < ctx.scopes.length) (hd : ctx.declare s symbol = .ok ctx') : Holds ctx' s symbol := by
  have hput : Holds (ctx.put s symbol) s symbol :=
    ⟨symbol, by rw [symbolIn?_put hs, if_pos ⟨rfl, rfl⟩], .inl rfl⟩
  rcases declare_cases hd with ⟨old, hold, hspan, -⟩ | ⟨old, hold, hbody, htype, hnone, rfl⟩ | ⟨-, rfl⟩ | ⟨_, -, -, -, -, rfl⟩
  · exact absurd (hspan ▸ hk _ _ _ hold) hnew
  · exact ⟨old, hold, .inr ⟨hbody, htype, hnone⟩⟩
  · exact hput
  · exact hput

/-! ## contexts that keep what they have -/

/-- The second context holds all that the first one holds; it has the same scopes inside each other and at least the
same types. -/
structure Keeps (ctx ctx' : Context) : Prop where
  step : Step ctx ctx'
  holds : ∀ {s symbol}, Holds ctx s symbol → Holds ctx' s symbol

theorem Keeps.refl (ctx : Context) : Keeps ctx ctx := ⟨.refl ctx, id⟩

theorem Keeps.trans {ctx'' : Context} (h : Keeps ctx ctx') (h' : Keeps ctx' ctx'') : Keeps ctx ctx'' :=
  ⟨h.step.trans h'.step, h'.holds ∘ h.holds⟩

theorem keeps_declare (hs : s.index < ctx.scopes.length) (h : ctx.declare s symbol = .ok ctx') : Keeps ctx ctx' :=
  ⟨step_declare hs h, fun hholds => hholds.declare hs h⟩

theorem keeps_intern (ctx : Context) (t : Ty) : Keeps ctx (ctx.intern t).2 :=
  ⟨ctx.step_intern t, .of_scopes (ctx.intern_scopes t)⟩

theorem Keeps.symbolIn?_isSome (h : Keeps ctx ctx') {name : String} (hs : (ctx.symbolIn? s name).isSome) :
    (ctx'.symbolIn? s name).isSome := by
  obtain ⟨old, hold⟩ := Option.isSome_iff_exists.1 hs
  have hname : old.name = name := by
    obtain ⟨scope, -, hfind⟩ := Option.bind_eq_some_iff.1 hold
    simpa using List.find?_some hfind
  subst hname
  obtain ⟨new, hnew, -⟩ := h.holds ⟨old, hold, .inl rfl⟩
  rw [hnew]
  rfl

/-- A name that is found once is found ever after. -/
theorem Keeps.lookup_isSome (h : Keeps ctx ctx') {name : String} (hs : (ctx.lookup s name).isSome) :
    (ctx'.lookup s name).isSome := by
  unfold lookup at hs ⊢
  generalize s.index + 1 = fuel at hs ⊢
  induction fuel generalizing s with
  | zero => exact hs
  | succ fuel ih =>
    have hparent := h.step.parents s
    have hsymbol : (ctx.symbolIn? s name).isSome → (ctx'.symbolIn? s name).isSome := h.symbolIn?_isSome
    unfold symbolIn? at hsymbol
    unfold lookupWithin at hs ⊢
    cases hscope : ctx.scope? s with
    | none => simp [hscope] at hs
    | some scope =>
      cases hscope' : ctx'.scope? s with
      | none => simp [hscope, hscope'] at hparent
      | some scope' =>
        have hparent : scope'.parent = scope.parent := by simpa [hscope, hscope'] using hparent
        have hsymbol : (scope.find? name).isSome → (scope'.find? name).isSome := by
          simpa [hscope, hscope'] using hsymbol
        simp only [hscope] at hs ⊢
        cases hfind' : scope'.find? name with
        | some _ => rfl
        | none =>
          have hfind : scope.find? name = none := by
            by_contra hne
            have := hsymbol (Option.isSome_iff_ne_none.2 hne)
            simp [hfind'] at this
          simp only [hfind] at hs
          rw [hparent]
          cases hp : scope.parent with
          | none => simp [hp] at hs
          | some parent => exact ih (by simpa [hp] using hs)

/-- A type that was just entered keeps its number. -/
theorem intern_intern (ctx : Context) (ty : Ty) :
    (ctx.intern ty).2.intern ty = ((ctx.intern ty).1, (ctx.intern ty).2) := by
  rcases ctx.intern_cases ty with ⟨i, -, h⟩ | ⟨hnew, h⟩
  · rw [h, h]
  · have hself : (ctx.types ++ [ty]).idxOf? ty = some ctx.types.length := by
      rw [List.idxOf?_eq_some_iff]
      refine ⟨by simp, by simp, fun j hj heq => hnew ?_⟩
      rw [List.getElem_append_left hj] at heq
      exact heq ▸ List.getElem_mem hj
    rw [h]
    simp only [intern, hself]

/-- A type that the table has keeps its number however the table grows. -/
theorem intern_eq_of_prefix {ty : Ty} {t : TypeId} (h : ctx.types <+: ctx'.types) (ht : ctx.intern ty = (t, ctx))
    (hne : ty ≠ .void) : ctx'.intern ty = (t, ctx') := by
  have hty : ty ∈ ctx.types := by
    have := ctx.type_intern ty
    rw [ht] at this
    exact type_mem this hne
  obtain ⟨i, hi, hi'⟩ := intern_of_prefix h hty
  obtain rfl := (Prod.mk.inj (ht.symm.trans hi)).1
  exact hi'

end Context

/-- The parts of a form that are expressions. -/
def Form.expressions {α : Type} : Form α → List α
  | functionDef _ _ _ body => body.toList
  | variableDef _ _ initializer => initializer.toList
  | form => form.parts

theorem Form.expressions_subset {α : Type} (f : Form α) : f.expressions ⊆ f.parts := by
  intro x hx
  cases f with
  | functionDef => exact List.mem_append_left _ (List.mem_append_right _ hx)
  | variableDef => exact List.mem_cons_of_mem _ (List.mem_cons_of_mem _ hx)
  | _ => exact hx

theorem Form.Rel.expressions {α β : Type} {R : α → β → Prop} {f : Form α} {g : Form β} (h : Form.Rel R f g) :
    List.Forall₂ R f.expressions g.expressions := by
  have hparts := h.parts
  cases h with
  | functionDef _ _ body => exact forall₂_toList body
  | variableDef _ _ initializer => exact forall₂_toList initializer
  | _ => exact hparts

namespace Check

open Context (Ready Step Holds Keeps)
open Node (Everywhere)

variable {mode : Mode} {ctx ctx' ctx₁ : Context} {spans : List Span} {n : Node}

/-! ## what a node needs to be gone over again -/

/-- If the node is a name, there is a symbol for it. -/
def Finds (ctx : Context) (n : Node) : Prop :=
  ∀ token, n.form = .literal token → token.kind = .identifier →
    (ctx.lookup n.scopeId (token.identifier?.getD "")).isSome

/-- The function that a node defines may be declared again. -/
def FunctionRecorded (ctx : Context) (n : Node) : Prop :=
  ∀ name params result body, n.form = .functionDef name params result body → ∃ sig t,
    signature params result = .ok sig ∧ ctx.intern (.function sig.params sig.result) = (t, ctx) ∧
      Holds ctx n.scopeId (functionSymbol name params body t)

/-- The parameters or the variable that a node declares may be declared again. -/
def OwnRecorded (ctx : Context) (n : Node) : Prop :=
  match n.form with
  | .functionDef _ params result _ => ∃ sig, signature params result = .ok sig ∧
    List.Forall₂ (fun p t => Holds ctx p.name.scopeId (parameterSymbol p.name t)) params sig.params
  | .variableDef name type _ => ∃ t, typeNamedBy type = .ok t ∧ Holds ctx n.scopeId (variableSymbol name t)
  | _ => True

/-- There are symbols for the names that are used right in a node, and its own may be declared again. -/
structure ValuesRecorded (ctx : Context) (n : Node) : Prop where
  finds : ∀ c ∈ n.form.expressions, Finds ctx c
  own : OwnRecorded ctx n

/-- All that a node declares or looks up is there. -/
structure Recorded (ctx : Context) (n : Node) : Prop where
  function : FunctionRecorded ctx n
  values : ValuesRecorded ctx n

theorem Finds.keeps (h : Finds ctx n) (hk : Keeps ctx ctx') : Finds ctx' n :=
  fun token hform hkind => hk.lookup_isSome (h token hform hkind)

theorem FunctionRecorded.keeps (h : FunctionRecorded ctx n) (hk : Keeps ctx ctx') : FunctionRecorded ctx' n := by
  intro name params result body hform
  obtain ⟨sig, t, hsig, ht, hholds⟩ := h name params result body hform
  exact ⟨sig, t, hsig, Context.intern_eq_of_prefix hk.step.grows.types ht nofun, hk.holds hholds⟩

theorem OwnRecorded.keeps (h : OwnRecorded ctx n) (hk : Keeps ctx ctx') : OwnRecorded ctx' n := by
  unfold OwnRecorded at h ⊢
  cases hform : n.form with
  | functionDef name params result body =>
    simp only [hform] at h ⊢
    obtain ⟨sig, hsig, hparams⟩ := h
    exact ⟨sig, hsig, hparams.imp fun _ _ => hk.holds⟩
  | variableDef name type initializer =>
    simp only [hform] at h ⊢
    obtain ⟨t, ht, hholds⟩ := h
    exact ⟨t, ht, hk.holds hholds⟩
  | _ => trivial

theorem ValuesRecorded.keeps (h : ValuesRecorded ctx n) (hk : Keeps ctx ctx') : ValuesRecorded ctx' n :=
  ⟨fun c hc => (h.finds c hc).keeps hk, h.own.keeps hk⟩

/-! ## the functions of a tree -/

theorem keeps_declareFunction {s : ScopeId} (hs : s.index < ctx.scopes.length) {name : Token}
    {ps : List (Param Node)} {result : Node} {body : Option Node} {sig : Signature}
    (h : declareFunction ctx s name ps result body = .ok (sig, ctx')) : Keeps ctx ctx' :=
  have hs' : s.index < (ctx.intern (.function sig.params sig.result)).2.scopes.length := by rwa [ctx.intern_scopes]
  (Context.keeps_intern ctx _).trans (Context.keeps_declare hs' (declareFunction_eq_ok h).2)

theorem recorded_of_declareFunction (hr : Ready ctx spans) {s : ScopeId} (hs : s.index < ctx.scopes.length)
    {name : Token} {ps : List (Param Node)} {result : Node} {body : Option Node} {sig : Signature}
    (hnew : name.span ∉ spans) (h : declareFunction ctx s name ps result body = .ok (sig, ctx')) :
    ∃ t, ctx'.intern (.function sig.params sig.result) = (t, ctx') ∧
      Holds ctx' s (functionSymbol name ps body t) := by
  obtain ⟨hsig, hdeclare⟩ := declareFunction_eq_ok h
  generalize hty : Ty.function sig.params sig.result = ty at hdeclare
  have hs' : s.index < (ctx.intern ty).2.scopes.length := by rwa [ctx.intern_scopes]
  have hready : Ready (ctx.intern ty).2 spans := hty ▸ hr.intern (builtin_of_signature hsig).1
  have htypes : (ctx.intern ty).2.types <+: ctx'.types := (Context.declare_types hdeclare).1 ▸ List.prefix_refl _
  exact ⟨_, Context.intern_eq_of_prefix htypes (ctx.intern_intern ty) (by rw [← hty]; exact nofun),
    Context.holds_of_declare hready.known hnew hs' hdeclare⟩

/-- The functions of a list of nodes are declared. -/
theorem recorded_of_declareDefinitions {ns : List Node} (hr : Ready ctx spans)
    (hplaced : ∀ n ∈ ns, n.scopeId.index < ctx.scopes.length) (hnodup : (ns.flatMap Node.ownFunctions).Nodup)
    (hnew : ∀ span ∈ ns.flatMap Node.ownFunctions, span ∉ spans) (h : ns.foldlM declareDefinition ctx = .ok ctx') :
    Keeps ctx ctx' ∧ ∀ n ∈ ns, FunctionRecorded ctx' n := by
  induction ns generalizing ctx spans with
  | nil =>
    obtain rfl : ctx = ctx' := by simpa [pure, Except.pure] using h
    exact ⟨.refl ctx, fun _ hn => absurd hn List.not_mem_nil⟩
  | cons n ns ih =>
    simp only [List.foldlM_cons, bind_eq_ok] at h
    obtain ⟨ctx₁, hn, h⟩ := h
    rw [List.flatMap_cons] at hnodup hnew
    obtain ⟨-, hnodup', hdisjoint⟩ := List.nodup_append.1 hnodup
    have hrun : [n].foldlM declareDefinition ctx = .ok ctx₁ := by
      simp [List.foldlM_cons, bind, Except.bind, pure, Except.pure, hn]
    have hready := (ready_of_declareDefinitions hr
      (fun m hm => hplaced m (List.mem_singleton.1 hm ▸ List.mem_cons_self)) hrun).1
    have hfirst : Keeps ctx ctx₁ ∧ FunctionRecorded ctx₁ n := by
      rcases declareDefinition_cases hn with ⟨name, ps, result, body, sig, hform, hc⟩ | ⟨hnot, rfl⟩
      · have hfresh : name.span ∉ spans := hnew name.span (by simp [Node.ownFunctions, hform])
        have hscope := hplaced n List.mem_cons_self
        obtain ⟨t, ht, hholds⟩ := recorded_of_declareFunction hr hscope hfresh hc
        refine ⟨keeps_declareFunction hscope hc, fun name' ps' result' body' hform' => ?_⟩
        obtain ⟨rfl, rfl, rfl, rfl⟩ := Form.functionDef.inj (hform.symm.trans hform')
        exact ⟨sig, t, (declareFunction_eq_ok hc).1, ht, hholds⟩
      · exact ⟨.refl _, fun _ _ _ _ hform => absurd hform (hnot _ _ _ _)⟩
    obtain ⟨hkeeps, hrecorded⟩ := hfirst
    obtain ⟨hkeeps', hrest⟩ := ih hready
      (fun m hm => hkeeps.step.length ▸ hplaced m (List.mem_cons_of_mem _ hm)) hnodup' (fun span hspan hmem => by
        rcases List.mem_append.1 hmem with hmem | hmem
        · exact hdisjoint span (by simpa using hmem) span hspan rfl
        · exact hnew span (List.mem_append_right _ hspan) hmem) h
    exact ⟨hkeeps.trans hkeeps', List.forall_mem_cons.2 ⟨hrecorded.keeps hkeeps', hrest⟩⟩

/-! ## the names and the values of a tree -/

theorem holds_of_declareParams {ps qs : List (Param Node)} {ts : List TypeId} (hk : Context.Known ctx spans)
    (hplaced : ∀ p ∈ ps, p.name.scopeId.index < ctx.scopes.length) (hlength : ps.length = ts.length)
    (hnodup : (ps.map (·.name.span)).Nodup) (hnew : ∀ span ∈ ps.map (·.name.span), span ∉ spans)
    (h : declareParams ctx ps ts = .ok (qs, ctx')) :
    Keeps ctx ctx' ∧ List.Forall₂ (fun p t => Holds ctx' p.name.scopeId (parameterSymbol p.name t)) ps ts := by
  induction ps generalizing ctx spans ts qs with
  | nil =>
    obtain rfl := List.length_eq_zero_iff.1 hlength.symm
    obtain ⟨rfl, rfl⟩ := Prod.mk.inj (Except.ok.inj h)
    exact ⟨.refl ctx, .nil⟩
  | cons p ps ih =>
    obtain ⟨t, ts, rfl⟩ := List.exists_cons_of_length_eq_add_one hlength.symm
    simp only [declareParams, bind_eq_ok, Prod.exists, pure, Except.pure, Except.ok.injEq, Prod.mk.injEq] at h
    obtain ⟨ctx₁, hdeclare, qs, ctx₂, hrest, rfl, rfl⟩ := h
    have hscope := hplaced p List.mem_cons_self
    have hkeeps := Context.keeps_declare hscope hdeclare
    have hholds : Holds ctx₁ p.name.scopeId (parameterSymbol p.name t) :=
      Context.holds_of_declare hk (hnew _ List.mem_cons_self) hscope hdeclare
    obtain ⟨hfirst, hnodup⟩ := List.nodup_cons.1 hnodup
    obtain ⟨hkeeps', hrest⟩ := ih (hk.declare hscope hdeclare)
      (fun q hq => hkeeps.step.length ▸ hplaced q (List.mem_cons_of_mem _ hq)) (Nat.succ.inj hlength) hnodup
      (fun span hspan hmem => by
        rcases List.mem_cons.1 hmem with rfl | hmem
        · exact hfirst hspan
        · exact hnew span (List.mem_cons_of_mem _ hspan) hmem) hrest
    exact ⟨hkeeps.trans hkeeps', .cons (hkeeps'.holds hholds) hrest⟩

/-- What is true of some trees when they got their first types. -/
structure Retained (ctx ctx' : Context) (ns : List Node) : Prop where
  keeps : Keeps ctx ctx'
  finds : ∀ n ∈ ns, Finds ctx' n
  values : ∀ n ∈ ns, n.Everywhere (ValuesRecorded ctx')

theorem Retained.refl (ctx : Context) : Retained ctx ctx [] :=
  ⟨.refl ctx, fun _ hn => absurd hn List.not_mem_nil, fun _ hn => absurd hn List.not_mem_nil⟩

theorem Retained.append {xs ys : List Node} (h : Retained ctx ctx₁ xs) (h' : Retained ctx₁ ctx' ys) :
    Retained ctx ctx' (xs ++ ys) :=
  ⟨h.keeps.trans h'.keeps,
    List.forall_mem_append.2 ⟨fun n hn => (h.finds n hn).keeps h'.keeps, h'.finds⟩,
    List.forall_mem_append.2 ⟨fun n hn => (h.values n hn).mono fun _ hx => hx.keeps h'.keeps, h'.values⟩⟩

/-- Pieces of a tree that get their first types one after the other. -/
theorem Retained.seq {job job' : Typing} (hs : Sane ctx spans (job.before ++ job'.before))
    (hjob : Materializes .nominal ctx job ctx₁)
    (h : ∀ {spans}, Sane ctx spans job.before → Retained ctx ctx₁ job.before)
    (h' : ∀ {spans}, Sane ctx₁ spans job'.before → Retained ctx₁ ctx' job'.before) :
    Retained ctx ctx' (job.before ++ job'.before) :=
  have first := hjob.outcome hs.left
  (h hs.left).append (h' (hs.right first.ready first.step))

/-- The parts of a shaped form are expressions and names. -/
theorem mem_expressions_or_isName {f : Form Node} (hf : f.Shaped) : ∀ c ∈ f.parts, c ∈ f.expressions ∨ c.IsName := by
  cases f with
  | functionDef name params result body =>
    obtain ⟨-, hparams, hresult, -⟩ := hf
    exact Form.forall_functionDef.2 ⟨fun p hp => ⟨.inr (hparams p hp).1, .inr (hparams p hp).2⟩,
      fun b hb => .inl (Option.mem_toList.2 hb), .inr hresult⟩
  | variableDef name type initializer =>
    exact Form.forall_variableDef.2 ⟨.inr hf.1, .inr hf.2, fun x hx => .inl (Option.mem_toList.2 hx)⟩
  | _ => exact fun _ hc => .inl hc

theorem valuesRecorded_of_leaf {token : Token} (hform : n.form = .literal token) :
    n.Everywhere (ValuesRecorded ctx) := by
  refine Node.everywhere_iff.2 ⟨⟨?_, ?_⟩, ?_⟩
  · simp [hform, Form.expressions, Form.parts]
  · simp [OwnRecorded, hform]
  · simp [Node.children, hform, Form.parts]

/-- A node with its own parameters or variable over parts that are retained. -/
theorem Retained.node (hshaped : n.form.Shaped) (hform : ∀ token, n.form ≠ .literal token)
    (h : Retained ctx ctx' n.form.expressions) (hown : OwnRecorded ctx' n) : Retained ctx ctx' [n] := by
  refine ⟨h.keeps, fun m hm token htoken => ?_, fun m hm => ?_⟩
  · obtain rfl := List.mem_singleton.1 hm
    exact absurd htoken (hform token)
  · obtain rfl := List.mem_singleton.1 hm
    refine Node.everywhere_iff.2 ⟨⟨h.finds, hown⟩, fun c hc => ?_⟩
    rcases mem_expressions_or_isName hshaped _ hc with hc | ⟨token, -, htoken⟩
    · exact h.values c hc
    · exact valuesRecorded_of_leaf htoken

theorem Retained.after {ns : List Node} (h : Retained ctx₁ ctx' ns) (hk : Keeps ctx ctx₁) : Retained ctx ctx' ns :=
  ⟨hk.trans h.keeps, h.finds, h.values⟩

theorem Retained.before {ns : List Node} (h : Retained ctx ctx₁ ns) (hk : Keeps ctx₁ ctx') : Retained ctx ctx' ns :=
  ⟨h.keeps.trans hk, fun n hn => (h.finds n hn).keeps hk, fun n hn => (h.values n hn).mono fun _ hx => hx.keeps hk⟩

/-- A leaf that got a type is found. -/
theorem retained_leaf {span : Span} {scope : Option ScopeId} {noted type : Option TypeId} {token : Token}
    (h : leafType ctx (scope.getD .root) token span noted = .ok type) :
    Retained ctx ctx [⟨span, scope, noted, .literal token⟩] := by
  refine ⟨.refl ctx, fun n hn token' hform hkind => ?_, fun n hn => ?_⟩
  · obtain rfl := List.mem_singleton.1 hn
    obtain rfl := Form.literal.inj hform
    simp only [leafType, hkind, bind_eq_ok] at h
    obtain ⟨symbol, hsymbol, -⟩ := h
    unfold Context.resolveSymbol at hsymbol
    split at hsymbol
    · next hlookup => simp [Node.scopeId, hlookup]
    · simp at hsymbol
  · obtain rfl := List.mem_singleton.1 hn
    exact valuesRecorded_of_leaf rfl

/-- A function and its parameters are declared before its body gets its types. -/
theorem holds_of_functionDef {ctx₂ : Context} {name : Token} {ps qs : List (Param Node)} {r : Node} {b : Option Node}
    {sig : Signature} (hform : n.form = .functionDef name ps r b) (hs : Sane ctx spans [n])
    (declares : declareFunction ctx n.scopeId name ps r b = .ok (sig, ctx₁))
    (params : declareParams ctx₁ ps sig.params = .ok (qs, ctx₂)) :
    Keeps ctx ctx₂ ∧ List.Forall₂ (fun p t => Holds ctx₂ p.name.scopeId (parameterSymbol p.name t)) ps sig.params := by
  have hscope := (hs.placed n List.mem_cons_self).self
  obtain ⟨hsig, -⟩ := declareFunction_eq_ok declares
  obtain ⟨hready, hstep⟩ := ready_of_declareFunction hs.ready hscope declares
  have hplaced : ∀ p ∈ ps, p.name.scopeId.index < ctx₁.scopes.length := fun p hp => by
    rw [hstep.length]
    exact ((hs.placed n List.mem_cons_self).child (Node.mem_children_of_param hform hp).1).self
  -- the names of the parameters are new beside that of the function
  obtain ⟨hnodup, hnew⟩ := hs.fresh.own
  rw [Node.ownNames, hform] at hnodup
  rw [Node.ownValues, hform] at hnew
  obtain ⟨hname, hnodup⟩ := List.nodup_cons.1 hnodup
  obtain ⟨hkeeps, hholds⟩ := holds_of_declareParams hready.known hplaced
    (builtin_of_signature hsig).2.2.length_eq hnodup (fun span hspan hmem => by
      rcases List.mem_cons.1 hmem with rfl | hmem
      · exact hname hspan
      · exact (hnew span hspan).1 hmem) params
  exact ⟨(keeps_declareFunction hscope declares).trans hkeeps, hholds⟩

/-- The definition of a function, when its body is retained. -/
theorem retained_functionDef {ctx₂ : Context} {name : Token} {ps qs : List (Param Node)} {r : Node} {b : Option Node}
    {sig : Signature} (hform : n.form = .functionDef name ps r b) (hs : Sane ctx spans [n])
    (declares : declareFunction ctx n.scopeId name ps r b = .ok (sig, ctx₁))
    (params : declareParams ctx₁ ps sig.params = .ok (qs, ctx₂))
    (body : ∀ {spans}, Sane ctx₂ spans b.toList → Retained ctx₂ ctx' b.toList) : Retained ctx ctx' [n] := by
  obtain ⟨hsig, -⟩ := declareFunction_eq_ok declares
  obtain ⟨hkeeps, hholds⟩ := holds_of_functionDef hform hs declares params
  have hbody := body (hs.body hform declares params).1
  refine .node (hs.shaped n List.mem_cons_self).self (by simp [hform]) ?_ ?_
  · rw [hform]
    exact hbody.after hkeeps
  · rw [OwnRecorded, hform]
    exact ⟨sig, hsig, hholds.imp fun _ _ => hbody.keeps.holds⟩

/-- The definition of a variable, when its initializer is retained. -/
theorem retained_variableDef {name type : Node} {i i' : Option Node} {t : TypeId}
    (hform : n.form = .variableDef name type i) (hs : Sane ctx spans [n]) (named : typeNamedBy type = .ok t)
    (hi : Materializes .nominal ctx (.option i i') ctx₁)
    (initializer : ∀ {spans}, Sane ctx spans i.toList → Retained ctx ctx₁ i.toList)
    (declares : ctx₁.declare n.scopeId (variableSymbol name t) = .ok ctx') : Retained ctx ctx' [n] := by
  obtain ⟨hsane, hnew⟩ := hs.initializer hform
  have ho := hi.outcome hsane
  have hscope : n.scopeId.index < ctx₁.scopes.length := by
    rw [ho.step.length]
    exact (hs.placed n List.mem_cons_self).self
  refine .node (hs.shaped n List.mem_cons_self).self (by simp [hform]) ?_ ?_
  · rw [hform]
    exact (initializer hsane).before (Context.keeps_declare hscope declares)
  · rw [OwnRecorded, hform]
    exact ⟨t, named, Context.holds_of_declare ho.ready.known hnew hscope declares⟩

/-- **First types leave all names and values behind that they met.** -/
theorem Materializes.retained {job : Typing} (h : Materializes .nominal ctx job ctx') (hs : Sane ctx spans job.before) :
    Retained ctx ctx' job.before := by
  induction h generalizing spans with
  | literal leaf => exact retained_leaf leaf
  | prefixOp operand ih =>
    exact .node (hs.shaped _ List.mem_cons_self).self nofun (ih hs.children) trivial
  | infixOp left right ihl ihr =>
    exact .node (hs.shaped _ List.mem_cons_self).self nofun (.seq hs.children left ihl ihr) trivial
  | statement inner ih =>
    exact .node (hs.shaped _ List.mem_cons_self).self nofun (ih hs.children) trivial
  | block items trailing ihi iht =>
    exact .node (hs.shaped _ List.mem_cons_self).self nofun (.seq hs.children items ihi iht) trivial
  | functionDef declares params _ ihb => exact retained_functionDef rfl hs declares params ihb
  | functionCall callee arguments _ ihc iha =>
    exact .node (hs.shaped _ List.mem_cons_self).self nofun (.seq hs.children callee ihc iha) trivial
  | variableDef named initializer settles declares ihi =>
    obtain ⟨rfl, rfl⟩ := Prod.mk.inj (Except.ok.inj settles)
    exact retained_variableDef rfl hs named initializer ihi declares
  | root items ih =>
    exact .node (hs.shaped _ List.mem_cons_self).self nofun (ih hs.children) trivial
  | nil => exact .refl _
  | cons first others ihf iho => exact .seq hs first ihf iho
  | none => exact .refl _
  | some inner ih => exact ih hs

/-! ## changes of type notes -/

/-- Related nodes are the same but for type notes. -/
structure Renotes (R : Node → Node → Prop) : Prop extends Likeness R where
  scope : ∀ {x y}, R x y → y.scope = x.scope

section

variable {R : Node → Node → Prop} {x y : Node}

theorem Renotes.scopeId (hR : Renotes R) (h : R x y) : y.scopeId = x.scopeId := by
  rw [Node.scopeId, Node.scopeId, hR.scope h]

theorem Renotes.finds (hR : Renotes R) (h : R x y) (hx : Finds ctx x) : Finds ctx y := by
  intro token hform hkind
  have hrel := hR.form h
  rw [hform] at hrel
  generalize hf : x.form = f at hrel
  cases hrel
  rw [hR.scopeId h]
  exact hx token hf hkind

theorem Renotes.functionRecorded (hR : Renotes R) (h : R x y) (hx : FunctionRecorded ctx x) :
    FunctionRecorded ctx y := by
  intro name qs r' b' hform
  have hrel := hR.form h
  rw [hform] at hrel
  generalize hf : x.form = f at hrel
  cases hrel with
  | @functionDef _ ps _ r _ b _ params result body =>
    obtain ⟨sig, t, hsig, ht, hholds⟩ := hx name ps r b hf
    have hbody : b'.isSome = b.isSome := by cases body <;> rfl
    have hsymbol : functionSymbol name qs b' t = functionSymbol name ps b t := by
      rw [functionSymbol, functionSymbol, hR.span_params params, hbody]
    exact ⟨sig, t, (signature_of_likeness hR.toLikeness params result).trans hsig, ht, by rwa [hsymbol, hR.scopeId h]⟩

theorem Renotes.own (hR : Renotes R) (h : R x y) (hx : OwnRecorded ctx x) : OwnRecorded ctx y := by
  have hrel := hR.form h
  unfold OwnRecorded at hx ⊢
  rw [hR.scopeId h]
  generalize x.form = f, y.form = g at hrel hx
  cases hrel with
  | functionDef params result body =>
    obtain ⟨sig, hsig, hholds⟩ := hx
    refine ⟨sig, (signature_of_likeness hR.toLikeness params result).trans hsig, ?_⟩
    refine (Node.forall₂_comp params.flip hholds).imp ?_
    rintro q t ⟨p, hpq, hp⟩
    rwa [parameterSymbol, identifier?_of_likeness hR.toLikeness hpq.name, hR.span hpq.name, hR.scopeId hpq.name]
  | variableDef name type initializer =>
    obtain ⟨t, ht, hholds⟩ := hx
    refine ⟨t, (typeNamedBy_of_likeness hR.toLikeness type).trans ht, ?_⟩
    rwa [variableSymbol, identifier?_of_likeness hR.toLikeness name, hR.span name]
  | _ => trivial

theorem Renotes.recorded (hR : Renotes R) (h : R x y) (hx : Recorded ctx x) : Recorded ctx y := by
  refine ⟨hR.functionRecorded h hx.function, fun d hd => ?_, hR.own h hx.values.own⟩
  obtain ⟨c, hc, hcd⟩ := forall₂_of_mem (hR.form h).expressions hd
  exact hR.finds hcd (hx.values.finds c hc)

end

theorem renotes_materializedAs : Renotes (MaterializedAs mode) where
  toLikeness := likeness_materializedAs
  scope := by
    rintro x y (⟨_, _, h⟩ | ⟨type, rfl⟩)
    · cases h <;> rfl
    · rfl

theorem renotes_revisedAs {rule : Node → Except Error Node} (hrule : Node.OnlyNotes rule) :
    Renotes (Node.RevisedAs rule) where
  toLikeness := likeness_revisedAs hrule
  scope := by
    rintro x _ ⟨z, hz, type, rfl⟩
    exact (hrule.scope_eq hz :)

/-! ## whole programs -/

/-- What lets the passes that declare names go over a tree again. -/
structure Repeatable (ctx : Context) (n : Node) : Prop where
  shaped : n.Everywhere fun x => x.form.Shaped
  finds : Finds ctx n
  recorded : n.Everywhere (Recorded ctx)

theorem Repeatable.renotes {R : Node → Node → Prop} (hR : Renotes R) {x y : Node} (h : R x y)
    (hx : Repeatable ctx x) : Repeatable ctx y :=
  ⟨hR.everywhere_shaped h hx.shaped, hR.finds h hx.finds, hR.everywhere hR.recorded h hx.recorded⟩

theorem Repeatable.revised {rule : Node → Except Error Node} (hrule : Node.OnlyNotes rule) {x y : Node}
    (h : x.revise rule = .ok y) (hx : Repeatable ctx x) : Repeatable ctx y :=
  hx.renotes (renotes_revisedAs hrule) ⟨y, h, .refl y⟩

/-- The functions of a program are declared with it. -/
theorem recorded_of_signatures {n : Node} (hnodup : n.declared.Nodup)
    (h : signatures (scopes .new n).2 (scopes .new n).1 = .ok ctx) :
    (scopes .new n).1.Everywhere (FunctionRecorded ctx) := by
  obtain ⟨hready, hplaced⟩ := ready_of_scopes n
  have hlike := (stamps_of_stamp .root .new n).stampedAs
  have hdeclared : (scopes .new n).1.declared.Nodup := by rwa [scopes, likeness_stampedAs.declared hlike]
  have hfunctions := (List.nodup_append.1 ((Node.declared_perm _).nodup_iff.1 hdeclared)).1
  exact (recorded_of_declareDefinitions hready hplaced hfunctions (fun _ _ => List.not_mem_nil) h).2

/-- **A tree with first types may be declared again.** -/
theorem repeatable_of_firstTypes {n s : Node} (hshaped : n.Everywhere fun x => x.form.Shaped) (hnodup : n.declared.Nodup)
    (h : firstTypes .nominal n = .ok (s, ctx)) : Repeatable ctx s ∧ ctx.bindings = [] := by
  simp only [firstTypes, bind_eq_ok, Prod.exists, pure, Except.pure, Except.ok.injEq] at h
  obtain ⟨c, hc, m, c', hm, h⟩ := h
  obtain ⟨rfl, rfl⟩ := Prod.mk.inj h
  obtain ⟨hsane, hbindings⟩ := sane_of_signatures hshaped hnodup hc
  have hrun := materializes_of_materialize _ hm
  have hretained := hrun.retained hsane
  have hbefore : Repeatable c' (scopes .new n).1 :=
    ⟨hsane.shaped _ List.mem_cons_self, hretained.finds _ List.mem_cons_self, fun x hx =>
      ⟨(recorded_of_signatures hnodup hc x hx).keeps hretained.keeps, hretained.values _ List.mem_cons_self x hx⟩⟩
  exact ⟨hbefore.renotes renotes_materializedAs (.inl ⟨_, _, hrun⟩), ((hrun.outcome hsane).nominal rfl).trans hbindings⟩

/-- **A program that is accepted may be declared again.** -/
theorem repeatable_of_analyze {source : String} (h : analyze source .nominal = .ok (n, ctx)) :
    Repeatable ctx n ∧ ctx.bindings = [] := by
  obtain ⟨p, s, a, b, hp, hs, ha, hb, ht⟩ := analyze_eq_ok h
  obtain ⟨hrepeatable, hbindings⟩ :=
    repeatable_of_firstTypes (shaped_of_parseSource hp) (declared_nodup_of_parseSource hp) hs
  exact ⟨((hrepeatable.revised onlyNotes_arithmeticRule ha).revised onlyNotes_assignmentRule hb).revised
    onlyNotes_callRule ht, hbindings⟩

end Check

end LetFn
