import LetFn.Proofs.Check.Redeclaring

/-!
# Declaring again

The passes that declare names may go over a checked tree once more. All declarations are known by then and change
nothing. A name is looked up in scopes that are full now, though, so that a variable declared behind the use of a
function is found in the place of the function; that is all that can go wrong.

* `Node.typeIn ctx n` — the first type of a node when its names are looked up in the finished scopes;
* `Callable ctx n` — if the node is a call, what is called has the type of a function then;
* `Repeats ctx ns P r` — the result `r` of going over some trees again.

Main facts: `repeats_materialize`, `declares_again`, `shadowed_function_refused`.
-/

namespace LetFn

def Ty.isFunction : Ty → Bool
  | function _ _ => true
  | _ => false

namespace Node

section

variable (ctx : Context)

mutual

/-- The first type of a node in a context that stays as it is. -/
def typeIn : Node → TypeId
  | ⟨_, scope, type, .literal token⟩ =>
    match token.kind with
    | .integer => .int
    | .float => .float
    | .string => .string
    | .identifier => ((ctx.lookup (scope.getD .root) (token.identifier?.getD "")).map (·.2.type)).getD .void
    | _ => type.getD .void
  | ⟨_, _, _, .prefixOp operator operand⟩ => if operator.kind = .not then .int else typeIn operand
  | ⟨_, _, _, .infixOp operator left _⟩ =>
    if operator.kind.isComparison || operator.kind.isLogical then .int else typeIn left
  | ⟨_, _, _, .block _ trailing⟩ => typeInOption trailing
  | ⟨_, _, _, .functionCall callee _⟩ =>
    match ctx.type (typeIn callee) with
    | .function _ result => result
    | _ => .void
  | _ => .void

def typeInOption : Option Node → TypeId
  | none => .void
  | some x => typeIn x

end

end

end Node

namespace Check

open Context (Holds)
open Node (Everywhere)

variable {ctx ctx' : Context} {n : Node} {ns : List Node}

/-- If the node is a call, what is called has the type of a function when its names are looked up. -/
def Callable (ctx : Context) (n : Node) : Prop :=
  match n.form with
  | .functionCall callee _ => (ctx.type (callee.typeIn ctx)).isFunction
  | _ => True

instance (ctx : Context) : (n : Node) → Decidable (Callable ctx n)
  | ⟨_, _, _, .functionCall callee _⟩ => inferInstanceAs (Decidable ((ctx.type (callee.typeIn ctx)).isFunction = true))
  | ⟨_, _, _, .literal _⟩ | ⟨_, _, _, .prefixOp _ _⟩ | ⟨_, _, _, .infixOp _ _ _⟩ | ⟨_, _, _, .statement _⟩
  | ⟨_, _, _, .block _ _⟩ | ⟨_, _, _, .functionDef _ _ _ _⟩ | ⟨_, _, _, .variableDef _ _ _⟩
  | ⟨_, _, _, .root _⟩ => .isTrue trivial

/-- The error for a call of something that is no function. -/
def Refuses (ctx : Context) (n : Node) (e : Error) : Prop :=
  ∃ callee arguments, n.form = .functionCall callee arguments ∧ (ctx.type (callee.typeIn ctx)).isFunction = false ∧
    e = ⟨.notCallable (ctx.display (callee.typeIn ctx)), callee.span, none⟩

theorem Refuses.not_callable {e : Error} (h : Refuses ctx n e) : ¬ Callable ctx n := by
  obtain ⟨callee, arguments, hform, hnot, -⟩ := h
  simp [Callable, hform, hnot]

/-! ## results of going over trees again -/

section

variable {α β : Type} {P : α → Prop} {Q : β → Prop} {ms : List Node}

/-- Over some trees, the step gives a value with `P` and the context as it was, if every call in them is one of a
function, and is refused at another call otherwise. -/
def Repeats (ctx : Context) (ns : List Node) (P : α → Prop) : Except Error (α × Context) → Prop
  | .ok (a, ctx') => ctx' = ctx ∧ P a ∧ ∀ n ∈ ns, n.Everywhere (Callable ctx)
  | .error e => ∃ n ∈ ns, ∃ c ∈ n.preorder, Refuses ctx c e

theorem ok_bind {ε : Type} (a : α) (f : α → Except ε β) : (Except.ok a >>= f) = f a := rfl

theorem repeats_ok {a : α} (h : P a) : Repeats ctx [] P (.ok (a, ctx)) :=
  ⟨rfl, h, fun _ hn => absurd hn List.not_mem_nil⟩

theorem Repeats.bind {x : Except Error (α × Context)} {f : α × Context → Except Error (β × Context)}
    (hx : Repeats ctx ns P x) (hf : ∀ a, P a → Repeats ctx ms Q (f (a, ctx))) :
    Repeats ctx (ns ++ ms) Q (x >>= f) := by
  cases x with
  | error e =>
    obtain ⟨n, hn, hc⟩ := hx
    exact ⟨n, List.mem_append_left _ hn, hc⟩
  | ok r =>
    obtain ⟨a, _⟩ := r
    obtain ⟨rfl, ha, hns⟩ := hx
    have hfa := hf a ha
    simp only [bind, Except.bind]
    generalize f (a, _) = y at hfa
    cases y with
    | error e =>
      obtain ⟨n, hn, hc⟩ := hfa
      exact ⟨n, List.mem_append_right _ hn, hc⟩
    | ok r =>
      obtain ⟨hctx, hb, hms⟩ := hfa
      exact ⟨hctx, hb, List.forall_mem_append.2 ⟨hns, hms⟩⟩

/-- A step that changes the value only. -/
theorem Repeats.map {x : Except Error (α × Context)} {f : α × Context → Except Error (β × Context)}
    (hx : Repeats ctx ns P x) (hf : ∀ a, P a → ∃ b, f (a, ctx) = .ok (b, ctx) ∧ Q b) :
    Repeats ctx ns Q (x >>= f) := by
  rw [← List.append_nil ns]
  refine hx.bind fun a ha => ?_
  obtain ⟨b, hb, hQ⟩ := hf a ha
  rw [hb]
  exact repeats_ok hQ

/-- All parts of a node but its names are gone over. -/
theorem callable_of_expressions (hshaped : n.form.Shaped) (hn : Callable ctx n)
    (h : ∀ c ∈ n.form.expressions, c.Everywhere (Callable ctx)) : n.Everywhere (Callable ctx) := by
  refine Node.everywhere_iff.2 ⟨hn, fun c hc => ?_⟩
  rcases mem_expressions_or_isName hshaped _ hc with hc | ⟨token, -, hform⟩
  · exact h c hc
  · refine Node.everywhere_iff.2 ⟨?_, ?_⟩
    · simp [Callable, hform]
    · simp [Node.children, hform, Form.parts]

theorem mem_preorder_of_expression {c x : Node} (hc : c ∈ n.form.expressions) (hx : x ∈ c.preorder) :
    x ∈ n.preorder := by
  rw [Node.preorder_eq]
  exact List.mem_cons_of_mem _ (List.mem_flatMap.2 ⟨c, Form.expressions_subset _ hc, hx⟩)

/-- A node that is no call. -/
theorem Repeats.node {x : Except Error (α × Context)} (hshaped : n.form.Shaped) (hn : Callable ctx n)
    (hx : Repeats ctx n.form.expressions P x) : Repeats ctx [n] P x := by
  cases x with
  | error e =>
    obtain ⟨c, hc, d, hd, he⟩ := hx
    exact ⟨n, List.mem_cons_self, d, mem_preorder_of_expression hc hd, he⟩
  | ok r =>
    obtain ⟨hctx, ha, hall⟩ := hx
    exact ⟨hctx, ha, List.forall_mem_singleton.2 (callable_of_expressions hshaped hn hall)⟩

/-- A call, where the last step looks at the type of what is called. -/
theorem Repeats.call {x : Except Error (α × Context)} {f : α × Context → Except Error (β × Context)}
    (hshaped : n.form.Shaped) (hx : Repeats ctx n.form.expressions P x)
    (hok : ∀ a, P a → Callable ctx n → ∃ b, f (a, ctx) = .ok (b, ctx) ∧ Q b)
    (herror : ∀ a, P a → ¬ Callable ctx n → ∃ e, f (a, ctx) = .error e ∧ Refuses ctx n e) :
    Repeats ctx [n] Q (x >>= f) := by
  cases x with
  | error e =>
    obtain ⟨c, hc, d, hd, he⟩ := hx
    exact ⟨n, List.mem_cons_self, d, mem_preorder_of_expression hc hd, he⟩
  | ok r =>
    obtain ⟨a, _⟩ := r
    obtain ⟨rfl, ha, hall⟩ := hx
    change Repeats _ [n] Q (f (a, _))
    rename Context => ctx
    by_cases hn : Callable ctx n
    · obtain ⟨b, hb, hQ⟩ := hok a ha hn
      rw [hb]
      exact ⟨rfl, hQ, List.forall_mem_singleton.2 (callable_of_expressions hshaped hn hall)⟩
    · obtain ⟨e, he, hrefuses⟩ := herror a ha hn
      rw [he]
      exact ⟨n, List.mem_cons_self, n, n.mem_preorder_self, hrefuses⟩

end

/-! ## steps that find everything there -/

theorem Repeatable.expression {c : Node} (h : Repeatable ctx n) (hc : c ∈ n.form.expressions) : Repeatable ctx c :=
  have hpart := Form.expressions_subset _ hc
  ⟨h.shaped.child hpart, h.recorded.self.values.finds c hc, h.recorded.child hpart⟩

theorem declareFunction_of_recorded {s : ScopeId} {name : Token} {ps : List (Param Node)} {r : Node}
    {b : Option Node} {sig : Signature} {t : TypeId} (hsig : signature ps r = .ok sig)
    (ht : ctx.intern (.function sig.params sig.result) = (t, ctx)) (hholds : Holds ctx s (functionSymbol name ps b t)) :
    declareFunction ctx s name ps r b = .ok (sig, ctx) := by
  have hdeclare := hholds.declare_eq
  unfold functionSymbol at hdeclare
  simp [declareFunction, hsig, ht, hdeclare, bind, Except.bind, pure, Except.pure]

theorem declareParams_of_recorded {ps : List (Param Node)} {ts : List TypeId}
    (h : List.Forall₂ (fun p t => Holds ctx p.name.scopeId (parameterSymbol p.name t)) ps ts) :
    ∃ qs, declareParams ctx ps ts = .ok (qs, ctx) := by
  induction h with
  | nil => exact ⟨[], rfl⟩
  | cons hholds _ ih =>
    obtain ⟨qs, hqs⟩ := ih
    have hdeclare := hholds.declare_eq
    unfold parameterSymbol at hdeclare
    exact ⟨_, by simp [declareParams, hdeclare, hqs, bind, Except.bind, pure, Except.pure]; rfl⟩

/-- Every function of the tree is found declared. -/
theorem declareDefinitions_of_recorded (h : ∀ n ∈ ns, FunctionRecorded ctx n) :
    ns.foldlM declareDefinition ctx = .ok ctx := by
  induction ns with
  | nil => rfl
  | cons n ns ih =>
    have hn : declareDefinition ctx n = .ok ctx := by
      unfold declareDefinition
      split
      · next name ps r b hform =>
        obtain ⟨sig, t, hsig, ht, hholds⟩ := h n List.mem_cons_self name ps r b hform
        simp [declareFunction_of_recorded hsig ht hholds, bind, Except.bind, pure, Except.pure]
      · rfl
    rw [List.foldlM_cons, hn]
    exact ih fun m hm => h m (List.mem_cons_of_mem _ hm)

theorem leafType_of_finds {span : Span} {scope : Option ScopeId} {noted : Option TypeId} {token : Token}
    (h : Finds ctx ⟨span, scope, noted, .literal token⟩) :
    ∃ type, leafType ctx (scope.getD .root) token span noted = .ok type ∧
      type.getD .void = Node.typeIn ctx ⟨span, scope, noted, .literal token⟩ := by
  unfold leafType
  split
  · next hkind => exact ⟨_, rfl, by simp [Node.typeIn, hkind]⟩
  · next hkind => exact ⟨_, rfl, by simp [Node.typeIn, hkind]⟩
  · next hkind => exact ⟨_, rfl, by simp [Node.typeIn, hkind]⟩
  · next hkind =>
    obtain ⟨⟨s, symbol⟩, hsymbol⟩ := Option.isSome_iff_exists.1 (h token rfl hkind)
    rw [Node.scopeId] at hsymbol
    exact ⟨some symbol.type, by simp [Context.resolveSymbol, hsymbol, bind, Except.bind, pure, Except.pure],
      by simp [Node.typeIn, hkind, hsymbol]⟩
  · exact ⟨_, rfl, by simp [Node.typeIn, *]⟩

/-- The node has the type in the finished scopes, at the place of the other. -/
structure Retyped (ctx : Context) (x y : Node) : Prop where
  span : y.span = x.span
  type : y.typeId = x.typeIn ctx

/-- The tree is typed again. -/
def Rerun (ctx : Context) (n : Node) : Prop := Repeats ctx [n] (Retyped ctx n) (materialize .nominal ctx n)

theorem repeats_materializeList {xs : List Node} (h : ∀ x ∈ xs, Rerun ctx x) :
    Repeats ctx xs (fun _ => True) (materializeList .nominal ctx xs) := by
  induction xs with
  | nil => exact repeats_ok trivial
  | cons x xs ih =>
    have hxs := ih fun y hy => h y (List.mem_cons_of_mem _ hy)
    exact (h x List.mem_cons_self).bind fun y _ => hxs.map fun _ _ => ⟨_, rfl, trivial⟩

theorem repeats_materializeOption {x : Option Node} (h : ∀ y ∈ x.toList, Rerun ctx y) :
    Repeats ctx x.toList (fun y => blockType y = Node.typeInOption ctx x) (materializeOption .nominal ctx x) := by
  cases x with
  | none => exact repeats_ok rfl
  | some x => exact (h x List.mem_cons_self).map fun y hy => ⟨_, rfl, hy.type⟩

/-- What is called is looked at when the arguments are typed as well. -/
theorem materialize_functionCall {mode : Mode} {span : Span} {scope : Option ScopeId} {type : Option TypeId} {f : Node}
    {xs : List Node} : materialize mode ctx ⟨span, scope, type, .functionCall f xs⟩ = (do
      let r ← (do
        let (f, c) ← materialize mode ctx f
        let (xs, c) ← materializeList mode c xs
        return ((f, xs), c))
      let t ← callType r.2 r.1.1
      return (⟨span, scope, some t, .functionCall r.1.1 r.1.2⟩, r.2)) := by
  rw [materialize]
  simp only [bind_assoc, pure_bind]

theorem callType_of_callable {f f' : Node} (hb : ctx.bindings = []) (hf : Retyped ctx f f')
    (h : (ctx.type (f.typeIn ctx)).isFunction) :
    ∃ params result, ctx.type (f.typeIn ctx) = .function params result ∧ callType ctx f' = .ok result := by
  cases hty : ctx.type (f.typeIn ctx) with
  | function params result => exact ⟨params, result, rfl, by simp [callType, hf.type, resolve_of_no_bindings hb, hty, pure, Except.pure]⟩
  | _ => simp [hty, Ty.isFunction] at h

theorem callType_of_not_callable {f f' : Node} (hb : ctx.bindings = []) (hf : Retyped ctx f f')
    (h : (ctx.type (f.typeIn ctx)).isFunction = false) :
    callType ctx f' = .error ⟨.notCallable (ctx.display (f.typeIn ctx)), f.span, none⟩ := by
  simp only [callType, hf.type, hf.span, resolve_of_no_bindings hb]
  split
  · next hty => simp [hty, Ty.isFunction] at h
  · rfl

theorem rerun_functionCall {span : Span} {scope : Option ScopeId} {type : Option TypeId} {f : Node} {xs : List Node}
    (hb : ctx.bindings = []) (hshaped : (Form.functionCall f xs).Shaped) (hf : Rerun ctx f)
    (hxs : ∀ x ∈ xs, Rerun ctx x) : Rerun ctx ⟨span, scope, type, .functionCall f xs⟩ := by
  have hparts : Repeats ctx (f :: xs) (fun r => Retyped ctx f r.1) (do
      let (f, c) ← materialize .nominal ctx f
      let (ys, c) ← materializeList .nominal c xs
      return ((f, ys), c)) :=
    hf.bind fun f' hf' => (repeats_materializeList hxs).map fun ys _ => ⟨_, rfl, hf'⟩
  unfold Rerun
  rw [materialize_functionCall]
  refine .call hshaped hparts (fun r hr hcallable => ?_) fun r hr hnot => ?_
  · obtain ⟨params, result, hty, hcall⟩ := callType_of_callable hb hr hcallable
    refine ⟨⟨span, scope, some result, .functionCall r.1 r.2⟩, by rw [hcall, ok_bind]; rfl, rfl, ?_⟩
    rw [Node.typeIn, hty]
    rfl
  · have hnot : (ctx.type (f.typeIn ctx)).isFunction = false := by simpa [Callable] using hnot
    have hcall := callType_of_not_callable hb hr hnot
    exact ⟨_, by rw [hcall]; rfl, f, xs, rfl, hnot, rfl⟩

/-- **Every step of the second run finds what it needs**, so that nothing but a call can be refused. -/
theorem rerun_of_repeatable (hb : ctx.bindings = []) (h : Repeatable ctx n) : Rerun ctx n := by
  induction n using Node.childInduction with
  | step n ih =>
    have hparts : ∀ c ∈ n.form.expressions, Rerun ctx c := fun c hc =>
      ih c (Form.expressions_subset _ hc) (h.expression hc)
    have hshaped := h.shaped.self
    have hrecorded := h.recorded.self
    obtain ⟨span, scope, type, form⟩ := n
    cases form with
    | functionCall f xs =>
      exact rerun_functionCall hb hshaped (hparts f List.mem_cons_self) fun x hx => hparts x (List.mem_cons_of_mem _ hx)
    | literal token =>
      obtain ⟨type', hleaf, htype⟩ := leafType_of_finds h.finds
      refine .node hshaped trivial ?_
      rw [materialize, hleaf]
      exact repeats_ok ⟨rfl, htype⟩
    | prefixOp op x =>
      have hx : Rerun ctx x := hparts x List.mem_cons_self
      refine .node hshaped trivial ?_
      rw [materialize]
      refine hx.map fun y hy => ⟨_, rfl, rfl, ?_⟩
      rw [Node.typeIn, ← hy.type]
      rfl
    | infixOp op l r =>
      have hl : Rerun ctx l := hparts l List.mem_cons_self
      have hr : Rerun ctx r := hparts r (List.mem_cons_of_mem _ List.mem_cons_self)
      refine .node hshaped trivial ?_
      rw [materialize]
      refine hl.bind fun l' hl' => hr.map fun r' _ => ⟨_, rfl, rfl, ?_⟩
      rw [Node.typeIn, ← hl'.type]
      rfl
    | statement x =>
      have hx : Rerun ctx x := hparts x List.mem_cons_self
      refine .node hshaped trivial ?_
      rw [materialize]
      exact hx.map fun _ _ => ⟨_, rfl, rfl, rfl⟩
    | block xs x =>
      refine .node hshaped trivial ?_
      rw [materialize]
      exact (repeats_materializeList fun y hy => hparts y (List.mem_append_left _ hy)).bind fun ys _ =>
        (repeats_materializeOption fun y hy => hparts y (List.mem_append_right _ hy)).map fun y hy => ⟨_, rfl, rfl, hy⟩
    | functionDef name ps r b =>
      obtain ⟨sig, t, hsig, ht, hholds⟩ := hrecorded.function name ps r b rfl
      obtain ⟨sig', hsig', hparams⟩ := hrecorded.values.own
      obtain rfl := Except.ok.inj (hsig.symm.trans hsig')
      obtain ⟨qs, hqs⟩ := declareParams_of_recorded hparams
      have hdeclare : declareFunction ctx (scope.getD .root) name ps r b = .ok (sig, ctx) :=
        declareFunction_of_recorded hsig ht hholds
      refine .node hshaped trivial ?_
      rw [materialize, hdeclare]
      simp only [ok_bind, hqs]
      exact (repeats_materializeOption hparts).map fun _ _ => ⟨_, rfl, rfl, rfl⟩
    | variableDef name type i =>
      obtain ⟨t, ht, hholds⟩ := hrecorded.values.own
      have hdeclare : ctx.declare (scope.getD .root) (variableSymbol name t) = .ok ctx := hholds.declare_eq
      unfold variableSymbol at hdeclare
      refine .node hshaped trivial ?_
      rw [materialize, ht, ok_bind]
      refine (repeats_materializeOption hparts).map fun i' _ => ⟨⟨span, scope, some .void,
        .variableDef { name with type := some t } { type with type := some t } i'⟩, ?_, rfl, rfl⟩
      simp only [variableType, pure, Except.pure, ok_bind, hdeclare]
    | root xs =>
      refine .node hshaped trivial ?_
      rw [materialize]
      exact (repeats_materializeList hparts).map fun _ _ => ⟨_, rfl, rfl, rfl⟩

/-! ## whole programs -/

/-- How the passes that declare names go over a checked tree again, over the same context. -/
structure DeclaresAgain (ctx : Context) (n : Node) : Prop where
  signatures : signatures ctx n = .ok ctx
  /-- The first types are given again, and change no scope, exactly if every call is one of a function. -/
  succeeds : (∃ y, materialize .nominal ctx n = .ok (y, ctx)) ↔ n.Everywhere (Callable ctx)
  unchanged : ∀ {y ctx'}, materialize .nominal ctx n = .ok (y, ctx') → ctx' = ctx
  /-- Nothing is declared twice and no name is missing: what is refused is a call. -/
  refuses : ∀ {e}, materialize .nominal ctx n = .error e → ∃ c ∈ n.preorder, Refuses ctx c e

/-- **An accepted program is declared again without a change**, up to a call of a function in whose place a variable is
found by then. -/
theorem declares_again {source : String} (h : analyze source .nominal = .ok (n, ctx)) : DeclaresAgain ctx n := by
  obtain ⟨hrepeatable, hb⟩ := repeatable_of_analyze h
  have hrerun := rerun_of_repeatable hb hrepeatable
  unfold Rerun at hrerun
  refine ⟨declareDefinitions_of_recorded fun x hx => (hrepeatable.recorded x hx).function, ?_, ?_, ?_⟩
  · generalize materialize .nominal ctx n = x at hrerun
    cases x with
    | error e =>
      obtain ⟨m, hm, c, hc, hrefuses⟩ := hrerun
      obtain rfl := List.mem_singleton.1 hm
      exact ⟨nofun, fun hall => absurd (hall c hc) hrefuses.not_callable⟩
    | ok r =>
      obtain ⟨y, _⟩ := r
      obtain ⟨rfl, -, hall⟩ := hrerun
      exact ⟨fun _ => hall n List.mem_cons_self, fun _ => ⟨y, rfl⟩⟩
  · intro y ctx' hy
    rw [hy] at hrerun
    exact hrerun.1
  · intro e he
    rw [he] at hrerun
    obtain ⟨m, hm, hc⟩ := hrerun
    exact List.mem_singleton.1 hm ▸ hc

/-- With a function without a body first, a call in front of the function, and a variable in front of another of its
name in an inner scope. -/
theorem declares_again_shadowing : ∃ n ctx y,
    analyze "fn g(a: int) -> int fn g(a: int) -> int { h(a) } fn h(b: int) -> int { let c: int = b; c }
      let x: int = g(2); { let y: int = x; let x: float = 1.0; x }" .nominal = .ok (n, ctx) ∧
      signatures ctx n = .ok ctx ∧ materialize .nominal ctx n = .ok (y, ctx) := by
  have haccepted : Yields (fun r => ∀ c ∈ r.1.preorder, Callable r.2 c)
      (analyze "fn g(a: int) -> int fn g(a: int) -> int { h(a) } fn h(b: int) -> int { let c: int = b; c }
      let x: int = g(2); { let y: int = x; let x: float = 1.0; x }" .nominal) := by decide +kernel
  obtain ⟨⟨n, ctx⟩, h, hcallable⟩ := yields_iff.1 haccepted
  have hagain := declares_again h
  obtain ⟨y, hy⟩ := hagain.succeeds.2 hcallable
  exact ⟨n, ctx, y, h, hagain.signatures, hy⟩

instance decidableEqError {ε α : Type} [DecidableEq ε] (e : ε) : ∀ x : Except ε α, Decidable (x = .error e)
  | .ok _ => .isFalse nofun
  | .error e' => decidable_of_iff (e' = e) (.of_eq (Except.error.injEq e' e).symm)

/-- **The second run refuses a program that is accepted**: the function is called in a block that has a variable of its
name behind the call. -/
theorem shadowed_function_refused : ∃ n ctx,
    analyze "fn f() -> int { 1 } { f(); let f: int = 2; }" .nominal = .ok (n, ctx) ∧ signatures ctx n = .ok ctx ∧
      materialize .nominal ctx n = .error ⟨.notCallable "int", ⟨22, 23⟩, none⟩ := by
  have haccepted : Yields (fun r => signatures r.2 r.1 = .ok r.2 ∧
      materialize .nominal r.2 r.1 = .error ⟨.notCallable "int", ⟨22, 23⟩, none⟩)
      (analyze "fn f() -> int { 1 } { f(); let f: int = 2; }" .nominal) := by decide +kernel
  obtain ⟨⟨n, ctx⟩, h, hrun⟩ := yields_iff.1 haccepted
  exact ⟨n, ctx, h, hrun⟩

end Check

end LetFn
