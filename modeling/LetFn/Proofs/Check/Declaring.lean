import LetFn.Check.Materialize
import LetFn.Proofs.Grammar.Shape
import LetFn.Proofs.Types.Growth
import Mathlib.Data.List.Perm.Basic

/-!
# Declarations of a tree

* `Node.values n` — the spans of the names of variables and parameters that a tree declares;
* `Fresh spans ns` — the trees declare each name once, and no variable or parameter at one of the spans;
* `Placed ctx n` — every node of a tree stands in a scope of the context.

Main facts: `ready_of_declareFunction`, `ready_of_declareParams`, `ready_of_signatures` (the steps of the checker that
declare functions and parameters keep a context in order).
-/

namespace LetFn

/-! ## names at places of their own -/

namespace Node

/-- The spans of the variables and parameters that the node itself declares. -/
def ownValues (n : Node) : List Span :=
  match n.form with
  | .functionDef _ params _ _ => params.map (·.name.span)
  | .variableDef name _ _ => [name.span]
  | _ => []

/-- The spans of all variables and parameters that the tree declares. -/
def values (n : Node) : List Span := n.preorder.flatMap ownValues

theorem values_eq (n : Node) : n.values = n.ownValues ++ n.children.flatMap values := by
  unfold values
  rw [preorder_eq, List.flatMap_cons, List.flatMap_assoc]

/-- The span of the function that the node itself declares. -/
def ownFunctions (n : Node) : List Span :=
  match n.form with
  | .functionDef name _ _ _ => [name.span]
  | _ => []

/-- The spans of all functions that the tree declares. -/
def functions (n : Node) : List Span := n.preorder.flatMap ownFunctions

theorem ownNames_eq (n : Node) : n.ownNames = n.ownFunctions ++ n.ownValues := by
  obtain ⟨span, scope, type, form⟩ := n
  cases form <;> rfl

theorem ownValues_sublist (n : Node) : n.ownValues.Sublist n.ownNames := by
  rw [ownNames_eq]
  exact List.sublist_append_right _ _

theorem values_sublist (n : Node) : n.values.Sublist n.declared := by
  unfold values declared
  induction n.preorder with
  | nil => exact List.Sublist.refl _
  | cons x xs ih =>
    rw [List.flatMap_cons, List.flatMap_cons]
    exact x.ownValues_sublist.append ih

theorem declared_perm (n : Node) : n.declared.Perm (n.functions ++ n.values) := by
  unfold declared functions values
  rw [funext ownNames_eq]
  exact (List.flatMap_append_perm _ _ _).symm

end Node

/-- No name is declared twice in the trees, and no variable or parameter at one of the spans. -/
structure Fresh (spans : List Span) (ns : List Node) : Prop where
  nodup : (ns.flatMap Node.declared).Nodup
  values : ∀ n ∈ ns, ∀ s ∈ n.values, s ∉ spans

section

variable {spans spans' : List Span} {xs ys : List Node} {n : Node}

theorem Fresh.anti (h : Fresh spans xs) (hsub : spans' ⊆ spans) : Fresh spans' xs :=
  ⟨h.nodup, fun n hn s hs hmem => h.values n hn s hs (hsub hmem)⟩

theorem Fresh.left (h : Fresh spans (xs ++ ys)) : Fresh spans xs := by
  have hnodup := h.nodup
  rw [List.flatMap_append] at hnodup
  exact ⟨(List.nodup_append.1 hnodup).1, fun n hn => h.values n (List.mem_append_left _ hn)⟩

/-- What the first trees declare is new to the later ones. -/
theorem Fresh.right (h : Fresh spans (xs ++ ys)) : Fresh (xs.flatMap Node.declared ++ spans) ys := by
  have hnodup := h.nodup
  rw [List.flatMap_append] at hnodup
  obtain ⟨-, hys, hdisjoint⟩ := List.nodup_append.1 hnodup
  refine ⟨hys, fun n hn s hs hmem => ?_⟩
  rcases List.mem_append.1 hmem with hmem | hmem
  · exact hdisjoint s hmem s (List.mem_flatMap.2 ⟨n, hn, n.values_sublist.subset hs⟩) rfl
  · exact h.values n (List.mem_append_right _ hn) s hs hmem

/-- The parts of a tree declare names of their own beside those of its root. -/
theorem Fresh.children (h : Fresh spans [n]) : Fresh (n.ownNames ++ spans) n.children := by
  have hnodup := h.nodup
  rw [List.flatMap_singleton, Node.declared_eq] at hnodup
  obtain ⟨-, hparts, hdisjoint⟩ := List.nodup_append.1 hnodup
  refine ⟨hparts, fun c hc s hs hmem => ?_⟩
  rcases List.mem_append.1 hmem with hmem | hmem
  · exact hdisjoint s hmem s (List.mem_flatMap.2 ⟨c, hc, c.values_sublist.subset hs⟩) rfl
  · refine h.values n List.mem_cons_self s ?_ hmem
    rw [Node.values_eq]
    exact List.mem_append_right _ (List.mem_flatMap.2 ⟨c, hc, hs⟩)

/-- The names of the root are different ones, and its variables and parameters are new. -/
theorem Fresh.own (h : Fresh spans [n]) : n.ownNames.Nodup ∧
    ∀ s ∈ n.ownValues, s ∉ spans ∧ s ∉ n.children.flatMap Node.declared := by
  have hnodup := h.nodup
  rw [List.flatMap_singleton, Node.declared_eq] at hnodup
  obtain ⟨hown, -, hdisjoint⟩ := List.nodup_append.1 hnodup
  refine ⟨hown, fun s hs => ⟨fun hmem => ?_, fun hmem => ?_⟩⟩
  · refine h.values n List.mem_cons_self s ?_ hmem
    rw [Node.values_eq]
    exact List.mem_append_left _ hs
  · exact hdisjoint s (n.ownValues_sublist.subset hs) s hmem rfl

/-- In a tree that declares each name once, functions have names apart from those of variables and parameters. -/
theorem fresh_functions (h : n.declared.Nodup) : Fresh n.functions [n] := by
  refine ⟨by simpa using h, fun m hm s hs hmem => ?_⟩
  obtain rfl := List.mem_singleton.1 hm
  have hnodup := (m.declared_perm.nodup_iff).1 h
  exact (List.nodup_append.1 hnodup).2.2 s hmem s hs rfl

end

/-! ## scopes that are there -/

/-- Every node of the tree stands in a scope of the context. -/
def Placed (ctx : Context) (n : Node) : Prop := n.Everywhere fun x => x.scopeId.index < ctx.scopes.length

theorem Placed.mono {ctx ctx' : Context} {n : Node} (h : Placed ctx n)
    (hlength : ctx.scopes.length ≤ ctx'.scopes.length) : Placed ctx' n :=
  Node.Everywhere.mono (fun _ hx => Nat.lt_of_lt_of_le hx hlength) h

namespace Check

open Context (Ready Step Builtin)

variable {ctx ctx' : Context} {spans : List Span}

/-! ## signatures -/

theorem builtin_of_typeNamedBy {n : Node} {t : TypeId} (h : typeNamedBy n = .ok t) : Builtin t :=
  Context.builtin_of_resolveTypeName h

theorem builtin_of_signature {ps : List (Param Node)} {result : Node} {sig : Signature}
    (h : signature ps result = .ok sig) :
    Builtin sig.result ∧ typeNamedBy result = .ok sig.result ∧
      List.Forall₂ (fun p t => typeNamedBy p.type = .ok t) ps sig.params := by
  simp only [signature, bind_eq_ok, pure, Except.pure, Except.ok.injEq] at h
  obtain ⟨ts, hts, r, hr, rfl⟩ := h
  refine ⟨builtin_of_typeNamedBy hr, hr, ?_⟩
  induction ps generalizing ts with
  | nil =>
    obtain rfl : [] = ts := by simpa [pure, Except.pure] using hts
    exact .nil
  | cons p ps ih =>
    simp only [List.mapM_cons, bind_eq_ok, pure, Except.pure, Except.ok.injEq] at hts
    obtain ⟨t, ht, ts, hts, rfl⟩ := hts
    exact .cons ht (ih ts hts)

/-- The symbol that a definition of a function declares. -/
def functionSymbol (name : Token) (params : List (Param Node)) (body : Option Node) (t : TypeId) : Symbol :=
  { name := name.identifier?.getD "", type := t, span := name.span,
    kind := .function (params.map (·.name.span)) body.isSome }

theorem declareFunction_eq_ok {s : ScopeId} {name : Token} {ps : List (Param Node)} {result : Node}
    {body : Option Node} {sig : Signature} (h : declareFunction ctx s name ps result body = .ok (sig, ctx')) :
    signature ps result = .ok sig ∧
      (ctx.intern (.function sig.params sig.result)).2.declare s
        (functionSymbol name ps body (ctx.intern (.function sig.params sig.result)).1) = .ok ctx' := by
  simp only [declareFunction, bind_eq_ok, pure, Except.pure, Except.ok.injEq, Prod.mk.injEq] at h
  obtain ⟨sig, hsig, c, hc, rfl, rfl⟩ := h
  exact ⟨hsig, hc⟩

theorem intern_lt_length (ctx : Context) (t : Ty) (h : t ≠ .void) :
    (ctx.intern t).1.index < (ctx.intern t).2.types.length :=
  Context.lt_length_of_type_ne (by rwa [Context.type_intern])

/-- A definition of a function is declared. -/
theorem ready_of_declareFunction (hr : Ready ctx spans) {s : ScopeId} (hs : s.index < ctx.scopes.length)
    {name : Token} {ps : List (Param Node)} {result : Node} {body : Option Node} {sig : Signature}
    (h : declareFunction ctx s name ps result body = .ok (sig, ctx')) :
    Ready ctx' (name.span :: spans) ∧ Step ctx ctx' := by
  obtain ⟨hsig, hdeclare⟩ := declareFunction_eq_ok h
  have hstep := ctx.step_intern (.function sig.params sig.result)
  have hs' := hstep.length ▸ hs
  have hlt := intern_lt_length ctx (.function sig.params sig.result) nofun
  exact ⟨(hr.intern (builtin_of_signature hsig).1).declare hs' hlt hdeclare,
    hstep.trans (Context.step_declare hs' hdeclare)⟩

/-- A node that defines a function declares it, any other node changes nothing. -/
theorem declareDefinition_cases {n : Node} (h : declareDefinition ctx n = .ok ctx') :
    (∃ name ps result body sig, n.form = .functionDef name ps result body ∧
      declareFunction ctx n.scopeId name ps result body = .ok (sig, ctx')) ∨
    (∀ name ps result body, n.form ≠ .functionDef name ps result body) ∧ ctx' = ctx := by
  unfold declareDefinition at h
  split at h
  · next name ps result body hform =>
    simp only [bind_eq_ok, Prod.exists, pure, Except.pure, Except.ok.injEq] at h
    obtain ⟨sig, c, hc, rfl⟩ := h
    exact .inl ⟨name, ps, result, body, sig, hform, hc⟩
  · next hnot => exact .inr ⟨hnot, (Except.ok.inj h).symm⟩

/-- The functions of a list of nodes are declared. -/
theorem ready_of_declareDefinitions {ns : List Node} (hr : Ready ctx spans)
    (hplaced : ∀ n ∈ ns, n.scopeId.index < ctx.scopes.length) (h : ns.foldlM declareDefinition ctx = .ok ctx') :
    Ready ctx' (ns.flatMap Node.ownFunctions ++ spans) ∧ Step ctx ctx' := by
  induction ns generalizing ctx spans with
  | nil =>
    obtain rfl : ctx = ctx' := by simpa [pure, Except.pure] using h
    exact ⟨hr, .refl ctx⟩
  | cons n ns ih =>
    simp only [List.foldlM_cons, bind_eq_ok] at h
    obtain ⟨ctx₁, hn, h⟩ := h
    have hfirst : Ready ctx₁ (n.ownFunctions ++ spans) ∧ Step ctx ctx₁ := by
      rcases declareDefinition_cases hn with ⟨name, ps, result, body, sig, hform, hc⟩ | ⟨-, rfl⟩
      · have := ready_of_declareFunction hr (hplaced n List.mem_cons_self) hc
        simpa [Node.ownFunctions, hform] using this
      · exact ⟨hr.mono (List.subset_append_right _ _), .refl _⟩
    obtain ⟨hready, hstep⟩ := hfirst
    obtain ⟨hready', hstep'⟩ := ih hready (fun m hm => hstep.length ▸ hplaced m (List.mem_cons_of_mem _ hm)) h
    refine ⟨hready'.mono fun s hs => ?_, hstep.trans hstep'⟩
    simp only [List.flatMap_cons, List.mem_append] at hs ⊢
    rcases hs with hs | hs | hs
    · exact .inl (.inr hs)
    · exact .inl (.inl hs)
    · exact .inr hs

theorem bindings_of_declareFunction {s : ScopeId} {name : Token} {ps : List (Param Node)} {result : Node}
    {body : Option Node} {sig : Signature} (h : declareFunction ctx s name ps result body = .ok (sig, ctx')) :
    ctx'.bindings = ctx.bindings := by
  rw [(Context.declare_types (declareFunction_eq_ok h).2).2.1]
  rcases ctx.intern_cases (.function sig.params sig.result) with ⟨i, -, h⟩ | ⟨-, h⟩ <;> rw [h]

theorem bindings_of_signatures {n : Node} (h : signatures ctx n = .ok ctx') : ctx'.bindings = ctx.bindings := by
  unfold signatures at h
  generalize n.preorder = ns at h
  induction ns generalizing ctx with
  | nil =>
    obtain rfl : ctx = ctx' := by simpa [pure, Except.pure] using h
    rfl
  | cons n ns ih =>
    simp only [List.foldlM_cons, bind_eq_ok] at h
    obtain ⟨ctx₁, hn, h⟩ := h
    rw [ih h]
    rcases declareDefinition_cases hn with ⟨_, _, _, _, _, -, hc⟩ | ⟨-, rfl⟩
    · exact bindings_of_declareFunction hc
    · rfl

/-- All functions of a tree are declared. -/
theorem ready_of_signatures {n : Node} (hr : Ready ctx []) (hplaced : Placed ctx n)
    (h : signatures ctx n = .ok ctx') : Ready ctx' n.functions ∧ Step ctx ctx' := by
  have := ready_of_declareDefinitions hr hplaced h
  rwa [List.append_nil] at this

/-! ## names of definitions -/

section

variable {R : Node → Node → Prop} {x y : Node}

theorem identifier?_of_likeness (hR : Likeness R) (h : R x y) : y.identifier? = x.identifier? := by
  have hform := hR.form h
  unfold Node.identifier?
  generalize x.form = f, y.form = g at hform
  cases hform <;> rfl

theorem typeNamedBy_of_likeness (hR : Likeness R) (h : R x y) : typeNamedBy y = typeNamedBy x := by
  rw [typeNamedBy, typeNamedBy, identifier?_of_likeness hR h, hR.span h]

theorem signature_of_likeness (hR : Likeness R) {ps qs : List (Param Node)} {r r' : Node}
    (hps : List.Forall₂ (Param.Rel R) ps qs) (hr : R r r') : signature qs r' = signature ps r := by
  have hparams : qs.mapM (fun q => typeNamedBy q.type) = ps.mapM fun p => typeNamedBy p.type := by
    induction hps with
    | nil => rfl
    | cons hp _ ih => rw [List.mapM_cons, List.mapM_cons, ih, typeNamedBy_of_likeness hR hp.type]
  rw [signature, signature, hparams, typeNamedBy_of_likeness hR hr]

end

/-! ## parameters -/

/-- The parameters of a function are declared, at places of their own, and all is noted on their names and types. -/
theorem ready_of_declareParams {ps qs : List (Param Node)} {ts : List TypeId} (hr : Ready ctx spans)
    (hplaced : ∀ p ∈ ps, p.name.scopeId.index < ctx.scopes.length) (hts : ∀ t ∈ ts, Builtin t)
    (h : declareParams ctx ps ts = .ok (qs, ctx')) :
    Ready ctx' (ps.map (·.name.span) ++ spans) ∧ Step ctx ctx' := by
  induction ps generalizing ctx spans ts qs with
  | nil =>
    obtain ⟨rfl, rfl⟩ := Prod.mk.inj (Except.ok.inj h)
    exact ⟨hr, .refl ctx⟩
  | cons p ps ih =>
    cases ts with
    | nil =>
      obtain ⟨rfl, rfl⟩ := Prod.mk.inj (Except.ok.inj h)
      exact ⟨hr.mono (List.subset_append_right _ _), .refl ctx⟩
    | cons t ts =>
      simp only [declareParams, bind_eq_ok, Prod.exists, pure, Except.pure, Except.ok.injEq, Prod.mk.injEq] at h
      obtain ⟨ctx₁, hdeclare, qs, ctx₂, hrest, rfl, rfl⟩ := h
      have hs := hplaced p List.mem_cons_self
      have hready := hr.declare hs (hr.regular.builtin_lt (hts t List.mem_cons_self)) hdeclare
      have hstep := Context.step_declare hs hdeclare
      obtain ⟨hready', hstep'⟩ := ih hready (fun q hq => hstep.length ▸ hplaced q (List.mem_cons_of_mem _ hq))
        (fun u hu => hts u (List.mem_cons_of_mem _ hu)) hrest
      refine ⟨hready'.mono fun s hs => ?_, hstep.trans hstep'⟩
      simp only [List.map_cons, List.mem_append, List.mem_cons] at hs ⊢
      rcases hs with hs | rfl | hs
      · exact .inl (.inr hs)
      · exact .inl (.inl rfl)
      · exact .inr hs

end Check

end LetFn
