import LetFn.Check.Analyze
import LetFn.Proofs.Check.Declaring
import LetFn.Proofs.Check.Scoping
import LetFn.Proofs.Tree.Unnoted

/-!
# Notes from before

A tree may come to the checker with notes on its nodes. Each step of the check is followed on a tree with and without
what was noted before:

* `stamp_unnoted` — noting the scopes replaces all scopes, and neither reads nor changes a type;
* `signatures_mapType` — declaring functions reads no types;
* `materialize_mapType` — first types replace all types of a tree that the grammar made.

Main facts: `typeCheck_congr_unnoted`.
-/

namespace LetFn

theorem bind_congr_ok {ε α β : Type} {x : Except ε α} {g h : α → Except ε β} (hgh : ∀ a, x = .ok a → g a = h a) :
    x >>= g = x >>= h := by
  cases x with
  | error => rfl
  | ok a => exact hgh a rfl

namespace Node

/-! ## scopes -/

mutual

theorem stamp_unnoted (here : ScopeId) : ∀ (n : Node) (ctx : Context),
    stamp here n.unnoted ctx = (mapType (fun _ => none) (stamp here n ctx).1, (stamp here n ctx).2)
  | ⟨_, _, _, .block items trailing⟩, ctx => by
    simp [unnoted, unnotedParts, stamp, stampList_unnoted, stampOption_unnoted, mapType, mapTypeParts]
  | ⟨_, _, _, .functionDef _ params result body⟩, ctx => by
    simp [unnoted, unnotedParts, stamp, stampParams_unnoted, stampBody_unnoted, stamp_unnoted here result, mapType,
      mapTypeParts]
  | ⟨_, _, _, .literal token⟩, ctx => by
    simp [unnoted, unnotedParts, stamp, stampParts, mapType, mapTypeParts]
  | ⟨_, _, _, .prefixOp _ operand⟩, ctx => by
    simp [unnoted, unnotedParts, stamp, stampParts, stamp_unnoted here operand, mapType, mapTypeParts]
  | ⟨_, _, _, .infixOp _ left right⟩, ctx => by
    simp [unnoted, unnotedParts, stamp, stampParts, stamp_unnoted here left, stamp_unnoted here right, mapType,
      mapTypeParts]
  | ⟨_, _, _, .statement inner⟩, ctx => by
    simp [unnoted, unnotedParts, stamp, stampParts, stamp_unnoted here inner, mapType, mapTypeParts]
  | ⟨_, _, _, .functionCall callee arguments⟩, ctx => by
    simp [unnoted, unnotedParts, stamp, stampParts, stamp_unnoted here callee, stampList_unnoted, mapType, mapTypeParts]
  | ⟨_, _, _, .variableDef name type initializer⟩, ctx => by
    simp [unnoted, unnotedParts, stamp, stampParts, stamp_unnoted here name, stamp_unnoted here type,
      stampOption_unnoted, mapType, mapTypeParts]
  | ⟨_, _, _, .root items⟩, ctx => by
    simp [unnoted, unnotedParts, stamp, stampParts, stampList_unnoted, mapType, mapTypeParts]

theorem stampList_unnoted (here : ScopeId) : ∀ (xs : List Node) (ctx : Context),
    stampList here (unnotedList xs) ctx =
      (mapTypeList (fun _ => none) (stampList here xs ctx).1, (stampList here xs ctx).2)
  | [], ctx => rfl
  | x :: xs, ctx => by
    simp [unnotedList, stampList, stamp_unnoted here x, stampList_unnoted here xs, mapTypeList]

theorem stampOption_unnoted (here : ScopeId) : ∀ (x : Option Node) (ctx : Context),
    stampOption here (unnotedOption x) ctx =
      (mapTypeOption (fun _ => none) (stampOption here x ctx).1, (stampOption here x ctx).2)
  | none, ctx => rfl
  | some x, ctx => by simp [unnotedOption, stampOption, stamp_unnoted here x, mapTypeOption]

theorem stampParams_unnoted (here : ScopeId) : ∀ (ps : List (Param Node)) (ctx : Context),
    stampParams here (unnotedParams ps) ctx =
      (mapTypeParams (fun _ => none) (stampParams here ps ctx).1, (stampParams here ps ctx).2)
  | [], ctx => rfl
  | ⟨name, type⟩ :: ps, ctx => by
    simp [unnotedParams, stampParams, stamp_unnoted here name, stamp_unnoted here type, stampParams_unnoted here ps,
      mapTypeParams]

theorem stampBody_unnoted (here : ScopeId) : ∀ (x : Option Node) (ctx : Context),
    stampBody here (unnotedOption x) ctx =
      (mapTypeOption (fun _ => none) (stampBody here x ctx).1, (stampBody here x ctx).2)
  | none, ctx => rfl
  | some ⟨_, _, _, form⟩, ctx => by
    simp [unnotedOption, unnoted, stampBody, stampParts_unnoted here form, mapTypeOption, mapType]

theorem stampParts_unnoted (here : ScopeId) : ∀ (form : Form Node) (ctx : Context),
    stampParts here (unnotedParts form) ctx =
      (mapTypeParts (fun _ => none) (stampParts here form ctx).1, (stampParts here form ctx).2)
  | .literal token, ctx => by simp [unnotedParts, stampParts, mapTypeParts]
  | .prefixOp _ operand, ctx => by simp [unnotedParts, stampParts, stamp_unnoted here operand, mapTypeParts]
  | .infixOp _ left right, ctx => by
    simp [unnotedParts, stampParts, stamp_unnoted here left, stamp_unnoted here right, mapTypeParts]
  | .statement inner, ctx => by simp [unnotedParts, stampParts, stamp_unnoted here inner, mapTypeParts]
  | .block items trailing, ctx => by
    simp [unnotedParts, stampParts, stampList_unnoted here items, stampOption_unnoted here trailing, mapTypeParts]
  | .functionDef _ params result body, ctx => by
    simp [unnotedParts, stampParts, stampParams_unnoted here params, stampOption_unnoted here body,
      stamp_unnoted here result, mapTypeParts]
  | .functionCall callee arguments, ctx => by
    simp [unnotedParts, stampParts, stamp_unnoted here callee, stampList_unnoted here arguments, mapTypeParts]
  | .variableDef name type initializer, ctx => by
    simp [unnotedParts, stampParts, stamp_unnoted here name, stamp_unnoted here type,
      stampOption_unnoted here initializer, mapTypeParts]
  | .root items, ctx => by simp [unnotedParts, stampParts, stampList_unnoted here items, mapTypeParts]

end

section

variable (f : Option TypeId → Option TypeId) (n : Node)

theorem span_mapType : (n.mapType f).span = n.span := by rw [mapType_eq]

theorem scope_mapType : (n.mapType f).scope = n.scope := by rw [mapType_eq]

theorem form_mapType {n : Node} (h : n.IsName) : (n.mapType f).form = n.form := by
  obtain ⟨token, -, hform⟩ := h
  rw [mapType_eq, hform, mapTypeParts]

end

end Node

namespace Check

open Node (mapType mapTypeList mapTypeOption mapTypeParams mapTypeParts)

variable {f : Option TypeId → Option TypeId} {mode : Mode}

/-! ## functions -/

theorem declareFunction_mapType (ctx : Context) (s : ScopeId) (name : Token) (ps : List (Param Node)) (result : Node)
    (body : Option Node) :
    declareFunction ctx s name (mapTypeParams f ps) (mapType f result) (mapTypeOption f body) =
      declareFunction ctx s name ps result body := by
  have hlike := likeness_mapType f
  have hparams : List.Forall₂ (Param.Rel fun x y => y = mapType f x) ps (mapTypeParams f ps) := by
    rw [Node.mapTypeParams_eq]
    exact List.forall₂_map_right_iff.2 (List.forall₂_same.2 fun _ _ => ⟨rfl, rfl⟩)
  have hbody : (mapTypeOption f body).isSome = body.isSome := by cases body <;> rfl
  rw [declareFunction, declareFunction, signature_of_likeness hlike hparams rfl, hlike.span_params hparams, hbody]

/-- Declaring functions reads no types. -/
theorem signatures_mapType (ctx : Context) (n : Node) : signatures ctx (n.mapType f) = signatures ctx n := by
  have hdeclare : ∀ (ctx : Context) (m : Node), declareDefinition ctx (m.mapType f) = declareDefinition ctx m := by
    rintro ctx ⟨span, scope, type, form⟩
    cases form with
    | functionDef => simp only [mapType, mapTypeParts, declareDefinition, declareFunction_mapType, Node.scopeId]
    | _ => rfl
  rw [signatures, signatures, Node.preorder_mapType, List.foldlM_map]
  simp only [hdeclare]

/-! ## first types -/

theorem declareParams_mapType {ctx : Context} {ps : List (Param Node)} {ts : List TypeId}
    (h : ∀ p ∈ ps, p.name.IsName ∧ p.type.IsName) (hlength : ps.length = ts.length) :
    declareParams ctx (mapTypeParams f ps) ts = declareParams ctx ps ts := by
  induction ps generalizing ctx ts with
  | nil => rfl
  | cons p ps ih =>
    cases ts with
    | nil => exact absurd hlength nofun
    | cons t ts =>
      obtain ⟨name, type⟩ := p
      obtain ⟨hname, htype⟩ := h _ List.mem_cons_self
      have hrest : ∀ ctx, declareParams ctx (mapTypeParams f ps) ts = declareParams ctx ps ts := fun ctx =>
        ih (fun q hq => h q (List.mem_cons_of_mem _ hq)) (Nat.succ.inj hlength)
      simp only [mapTypeParams, declareParams, hrest, Node.scopeId, Node.span_mapType, Node.scope_mapType,
        Node.form_mapType f hname, Node.form_mapType f htype, identifier?_of_likeness (likeness_mapType f) rfl]

/-- The type of a primary expression is read off its token or looked up. -/
theorem leafType_of_primary {ctx : Context} {s : ScopeId} {token : Token} {span : Span}
    (h : token.kind ∈ Grammar.primaryKinds) (noted noted' : Option TypeId) :
    leafType ctx s token span noted = leafType ctx s token span noted' := by
  unfold leafType
  simp only [Grammar.primaryKinds, List.mem_cons, List.not_mem_nil, or_false] at h
  rcases h with h | h | h | h <;> simp only [h]

mutual

theorem materialize_mapType : ∀ (n : Node) (ctx : Context), n.Everywhere (fun m => m.form.Shaped) →
    materialize mode ctx (n.mapType fun _ => none) = materialize mode ctx n
  | ⟨_, _, type, .literal token⟩, ctx, h => by
    simp only [mapType, mapTypeParts, materialize, leafType_of_primary h.self none type]
  | ⟨_, _, _, .prefixOp operator operand⟩, ctx, h => by
    have hoperand := materialize_mapType operand ctx (h.child (by simp [Node.children, Form.parts]))
    simp only [mapType, mapTypeParts, materialize, hoperand]
  | ⟨_, _, _, .infixOp operator left right⟩, ctx, h => by
    have hleft := materialize_mapType left ctx (h.child (by simp [Node.children, Form.parts]))
    have hright := fun ctx => materialize_mapType right ctx (h.child (by simp [Node.children, Form.parts]))
    simp only [mapType, mapTypeParts, materialize, hleft, hright]
  | ⟨_, _, _, .statement inner⟩, ctx, h => by
    have hinner := materialize_mapType inner ctx (h.child (by simp [Node.children, Form.parts]))
    simp only [mapType, mapTypeParts, materialize, hinner]
  | ⟨_, _, _, .block items trailing⟩, ctx, h => by
    have hitems := materializeList_mapType items ctx fun x hx => h.child (by simp [Node.children, Form.parts, hx])
    have htrailing := fun ctx => materializeOption_mapType trailing ctx fun x hx =>
      h.child (by simp [Node.children, Form.parts, Option.mem_def.1 hx])
    simp only [mapType, mapTypeParts, materialize, hitems, htrailing]
  | ⟨_, _, _, .functionDef name params result body⟩, ctx, h => by
    have hshaped := h.self
    have hbody := fun ctx => materializeOption_mapType body ctx fun x hx =>
      h.child (by simp [Node.children, Form.parts, Option.mem_def.1 hx])
    simp only [mapType, mapTypeParts, materialize, declareFunction_mapType, hbody, Node.span_mapType,
      Node.scope_mapType, Node.form_mapType _ hshaped.2.2.1]
    refine bind_congr_ok fun r hr => ?_
    have hlength := (builtin_of_signature (declareFunction_eq_ok hr).1).2.2.length_eq
    rw [declareParams_mapType hshaped.2.1 hlength]
  | ⟨_, _, _, .functionCall callee arguments⟩, ctx, h => by
    have hcallee := materialize_mapType callee ctx (h.child (by simp [Node.children, Form.parts]))
    have harguments := fun ctx => materializeList_mapType arguments ctx fun x hx =>
      h.child (by simp [Node.children, Form.parts, hx])
    simp only [mapType, mapTypeParts, materialize, hcallee, harguments]
  | ⟨_, _, _, .variableDef name type initializer⟩, ctx, h => by
    obtain ⟨hname, htype⟩ := h.self
    have hinitializer := materializeOption_mapType initializer ctx fun x hx =>
      h.child (by simp [Node.children, Form.parts, Option.mem_def.1 hx])
    have hlike := likeness_mapType fun _ => none
    simp only [mapType, mapTypeParts, materialize, hinitializer, typeNamedBy_of_likeness hlike rfl, Node.span_mapType,
      Node.scope_mapType, identifier?_of_likeness hlike rfl, Node.form_mapType _ hname, Node.form_mapType _ htype]
  | ⟨_, _, _, .root items⟩, ctx, h => by
    have hitems := materializeList_mapType items ctx fun x hx => h.child (by simpa [Node.children, Form.parts] using hx)
    simp only [mapType, mapTypeParts, materialize, hitems]

theorem materializeList_mapType : ∀ (xs : List Node) (ctx : Context),
    (∀ x ∈ xs, x.Everywhere fun m => m.form.Shaped) →
      materializeList mode ctx (mapTypeList (fun _ => none) xs) = materializeList mode ctx xs
  | [], ctx, h => rfl
  | x :: xs, ctx, h => by
    simp only [mapTypeList, materializeList, materialize_mapType x ctx (h x List.mem_cons_self),
      fun ctx => materializeList_mapType xs ctx fun y hy => h y (List.mem_cons_of_mem _ hy)]

theorem materializeOption_mapType : ∀ (x : Option Node) (ctx : Context),
    (∀ y ∈ x, y.Everywhere fun m => m.form.Shaped) →
      materializeOption mode ctx (mapTypeOption (fun _ => none) x) = materializeOption mode ctx x
  | none, ctx, h => rfl
  | some x, ctx, h => by
    simp only [mapTypeOption, materializeOption, materialize_mapType x ctx (h x rfl)]

end

/-! ## the whole check -/

/-- What was noted before the check has no influence on it. -/
theorem typeCheck_unnoted {n : Node} (h : n.Everywhere fun m => m.form.Shaped) :
    typeCheck mode n.unnoted = typeCheck mode n := by
  have hstamped := likeness_stampedAs.everywhere_shaped (stamps_of_stamp .root .new n).stampedAs h
  unfold typeCheck scopes
  rw [Node.stamp_unnoted]
  simp only [signatures_mapType, materialize_mapType _ _ hstamped]

/-- **Notes from before never reach a result**: two assignments of notes to the tree of a program are checked with the
same error, or with the same context and the same notes on every node. -/
theorem typeCheck_congr_unnoted {source : String} {n : Node} (h : parseSource source = .ok n) {a b : Node}
    (ha : a.unnoted = n.unnoted) (hb : b.unnoted = n.unnoted) : typeCheck mode a = typeCheck mode b := by
  have hshaped := shaped_of_parseSource h
  have hlike := Node.likeness_unnoted
  rw [← typeCheck_unnoted (hlike.everywhere_shaped ha.symm hshaped),
    ← typeCheck_unnoted (hlike.everywhere_shaped hb.symm hshaped), ha, hb]

/-- With `string` noted on every node of a program, and with the scopes of a tree that stands in another scope. -/
theorem noted_programs_checked_alike : ∃ n, parseSource "fn f(a: int) -> int { a } let x: int = f(1);" = .ok n ∧
    typeCheck .nominal (n.mapType fun _ => some .string) = typeCheck .nominal (n.stamp ⟨5⟩ .new).1 := by
  have hparsed : Yields (fun _ => True) (parseSource "fn f(a: int) -> int { a } let x: int = f(1);") := by
    decide +kernel
  obtain ⟨n, hn, -⟩ := yields_iff.1 hparsed
  have hstamped := (stamps_of_stamp ⟨5⟩ .new n).stampedAs
  exact ⟨n, hn, typeCheck_congr_unnoted hn (Node.unnoted_of_likeness (likeness_mapType _) rfl).symm
    (Node.unnoted_of_likeness likeness_stampedAs hstamped).symm⟩

end Check

end LetFn
