import LetFn.Check.Analyze
import LetFn.Proofs.Check.Declaring
import LetFn.Proofs.Check.Scoping

/-!
# First types, step by step

`Materializes mode ctx job ctx'` says that the pieces of `job` got their first types, from the context `ctx` on, and
that this left the context `ctx'`.

`FirstTyped mode ctx ends n` says how the type of a node comes from the types of its parts, and a variable's symbol from
its definition; `ends` leads a type variable to its end.

Main facts: `materializes_of_materialize`, `Materializes.outcome` (a context stays in order, and every node is typed so).
-/

namespace LetFn.Check

/-- A piece of a tree, before and after it got its first types. -/
inductive Typing where
  | node (x y : Node)
  | list (xs ys : List Node)
  | option (x y : Option Node)

/-- The symbol that a definition of a variable declares. -/
def variableSymbol (name : Node) (t : TypeId) : Symbol :=
  { name := name.identifier?.getD "", type := t, span := name.span, kind := .variable }

inductive Materializes (mode : Mode) : Context → Typing → Context → Prop where
  | literal {ctx span scope type type' token} (leaf : leafType ctx (scope.getD .root) token span type = .ok type') :
      Materializes mode ctx (.node ⟨span, scope, type, .literal token⟩ ⟨span, scope, type', .literal token⟩) ctx
  | prefixOp {ctx ctx' span scope type op x y} (operand : Materializes mode ctx (.node x y) ctx') :
      Materializes mode ctx (.node ⟨span, scope, type, .prefixOp op x⟩
        ⟨span, scope, some (prefixType op y), .prefixOp op y⟩) ctx'
  | infixOp {ctx ctx₁ ctx' span scope type op l l' r r'} (left : Materializes mode ctx (.node l l') ctx₁)
      (right : Materializes mode ctx₁ (.node r r') ctx') :
      Materializes mode ctx (.node ⟨span, scope, type, .infixOp op l r⟩
        ⟨span, scope, some (infixType op l'), .infixOp op l' r'⟩) ctx'
  | statement {ctx ctx' span scope type x y} (inner : Materializes mode ctx (.node x y) ctx') :
      Materializes mode ctx (.node ⟨span, scope, type, .statement x⟩ ⟨span, scope, some .void, .statement y⟩) ctx'
  | block {ctx ctx₁ ctx' span scope type xs ys x y} (items : Materializes mode ctx (.list xs ys) ctx₁)
      (trailing : Materializes mode ctx₁ (.option x y) ctx') :
      Materializes mode ctx (.node ⟨span, scope, type, .block xs x⟩ ⟨span, scope, some (blockType y), .block ys y⟩) ctx'
  | functionDef {ctx ctx₁ ctx₂ ctx' span scope type name ps qs r b b' sig}
      (declares : declareFunction ctx (scope.getD .root) name ps r b = .ok (sig, ctx₁))
      (params : declareParams ctx₁ ps sig.params = .ok (qs, ctx₂))
      (body : Materializes mode ctx₂ (.option b b') ctx') :
      Materializes mode ctx (.node ⟨span, scope, type, .functionDef name ps r b⟩
        ⟨span, scope, some .void, .functionDef name qs { r with type := some sig.result } b'⟩) ctx'
  | functionCall {ctx ctx₁ ctx' span scope type f f' xs ys t} (callee : Materializes mode ctx (.node f f') ctx₁)
      (arguments : Materializes mode ctx₁ (.list xs ys) ctx') (result : callType ctx' f' = .ok t) :
      Materializes mode ctx (.node ⟨span, scope, type, .functionCall f xs⟩
        ⟨span, scope, some t, .functionCall f' ys⟩) ctx'
  | variableDef {ctx ctx₁ ctx₂ ctx' span scope noted name type i i' declared t}
      (named : typeNamedBy type = .ok declared) (initializer : Materializes mode ctx (.option i i') ctx₁)
      (settles : variableType mode ctx₁ declared type.span i' = .ok (t, ctx₂))
      (declares : ctx₂.declare (scope.getD .root) (variableSymbol name t) = .ok ctx') :
      Materializes mode ctx (.node ⟨span, scope, noted, .variableDef name type i⟩
        ⟨span, scope, some .void,
          .variableDef { name with type := some t } { type with type := some declared } i'⟩) ctx'
  | root {ctx ctx' span scope type xs ys} (items : Materializes mode ctx (.list xs ys) ctx') :
      Materializes mode ctx (.node ⟨span, scope, type, .root xs⟩ ⟨span, scope, some .void, .root ys⟩) ctx'
  | nil {ctx} : Materializes mode ctx (.list [] []) ctx
  | cons {ctx ctx₁ ctx' x y xs ys} (first : Materializes mode ctx (.node x y) ctx₁)
      (others : Materializes mode ctx₁ (.list xs ys) ctx') : Materializes mode ctx (.list (x :: xs) (y :: ys)) ctx'
  | none {ctx} : Materializes mode ctx (.option none none) ctx
  | some {ctx ctx' x y} (inner : Materializes mode ctx (.node x y) ctx') :
      Materializes mode ctx (.option (some x) (some y)) ctx'

variable {mode : Mode}

mutual

theorem materializes_of_materialize {ctx ctx' : Context} {y : Node} :
    ∀ x : Node, materialize mode ctx x = .ok (y, ctx') → Materializes mode ctx (.node x y) ctx'
  | ⟨span, scope, type, .literal token⟩, h => by
    simp only [materialize, bind_eq_ok, pure, Except.pure, Except.ok.injEq, Prod.mk.injEq] at h
    obtain ⟨type', hleaf, rfl, rfl⟩ := h
    exact .literal hleaf
  | ⟨span, scope, type, .prefixOp operator operand⟩, h => by
    simp only [materialize, bind_eq_ok, Prod.exists, pure, Except.pure, Except.ok.injEq, Prod.mk.injEq] at h
    obtain ⟨y, c, hx, rfl, rfl⟩ := h
    exact .prefixOp (materializes_of_materialize _ hx)
  | ⟨span, scope, type, .infixOp operator left right⟩, h => by
    simp only [materialize, bind_eq_ok, Prod.exists, pure, Except.pure, Except.ok.injEq, Prod.mk.injEq] at h
    obtain ⟨l, c, hl, r, c', hr, rfl, rfl⟩ := h
    exact .infixOp (materializes_of_materialize _ hl) (materializes_of_materialize _ hr)
  | ⟨span, scope, type, .statement inner⟩, h => by
    simp only [materialize, bind_eq_ok, Prod.exists, pure, Except.pure, Except.ok.injEq, Prod.mk.injEq] at h
    obtain ⟨y, c, hx, rfl, rfl⟩ := h
    exact .statement (materializes_of_materialize _ hx)
  | ⟨span, scope, type, .block items trailing⟩, h => by
    simp only [materialize, bind_eq_ok, Prod.exists, pure, Except.pure, Except.ok.injEq, Prod.mk.injEq] at h
    obtain ⟨ys, c, hxs, y, c', hx, rfl, rfl⟩ := h
    exact .block (materializes_of_materializeList _ hxs) (materializes_of_materializeOption _ hx)
  | ⟨span, scope, type, .functionDef name params result body⟩, h => by
    simp only [materialize, bind_eq_ok, Prod.exists, pure, Except.pure, Except.ok.injEq, Prod.mk.injEq] at h
    obtain ⟨sig, c, hsig, qs, c', hps, b, c'', hb, rfl, rfl⟩ := h
    exact .functionDef hsig hps (materializes_of_materializeOption _ hb)
  | ⟨span, scope, type, .functionCall callee arguments⟩, h => by
    simp only [materialize, bind_eq_ok, Prod.exists, pure, Except.pure, Except.ok.injEq, Prod.mk.injEq] at h
    obtain ⟨f, c, hf, ys, c', hxs, t, ht, rfl, rfl⟩ := h
    exact .functionCall (materializes_of_materialize _ hf) (materializes_of_materializeList _ hxs) ht
  | ⟨span, scope, noted, .variableDef name type initializer⟩, h => by
    simp only [materialize, bind_eq_ok, Prod.exists, pure, Except.pure, Except.ok.injEq, Prod.mk.injEq] at h
    obtain ⟨declared, hnamed, i, c, hi, t, c', ht, c'', hc, rfl, rfl⟩ := h
    exact .variableDef hnamed (materializes_of_materializeOption _ hi) ht hc
  | ⟨span, scope, type, .root items⟩, h => by
    simp only [materialize, bind_eq_ok, Prod.exists, pure, Except.pure, Except.ok.injEq, Prod.mk.injEq] at h
    obtain ⟨ys, c, hxs, rfl, rfl⟩ := h
    exact .root (materializes_of_materializeList _ hxs)

theorem materializes_of_materializeList {ctx ctx' : Context} {ys : List Node} :
    ∀ xs : List Node, materializeList mode ctx xs = .ok (ys, ctx') → Materializes mode ctx (.list xs ys) ctx'
  | [], h => by
    obtain ⟨rfl, rfl⟩ := Prod.mk.inj (Except.ok.inj h)
    exact .nil
  | x :: xs, h => by
    simp only [materializeList, bind_eq_ok, Prod.exists, pure, Except.pure, Except.ok.injEq, Prod.mk.injEq] at h
    obtain ⟨y, c, hx, ys, c', hxs, rfl, rfl⟩ := h
    exact .cons (materializes_of_materialize _ hx) (materializes_of_materializeList _ hxs)

theorem materializes_of_materializeOption {ctx ctx' : Context} {y : Option Node} :
    ∀ x : Option Node, materializeOption mode ctx x = .ok (y, ctx') → Materializes mode ctx (.option x y) ctx'
  | none, h => by
    obtain ⟨rfl, rfl⟩ := Prod.mk.inj (Except.ok.inj h)
    exact .none
  | some x, h => by
    simp only [materializeOption, bind_eq_ok, Prod.exists, pure, Except.pure, Except.ok.injEq, Prod.mk.injEq] at h
    obtain ⟨y, c, hx, rfl, rfl⟩ := h
    exact .some (materializes_of_materialize _ hx)

end

/-- The pieces got their first types. -/
def Typing.Ran (mode : Mode) (ctx ctx' : Context) : Typing → Prop
  | .node x y => materialize mode ctx x = .ok (y, ctx')
  | .list xs ys => materializeList mode ctx xs = .ok (ys, ctx')
  | .option x y => materializeOption mode ctx x = .ok (y, ctx')

theorem Materializes.ran {ctx ctx' : Context} {job : Typing} (h : Materializes mode ctx job ctx') :
    job.Ran mode ctx ctx' := by
  induction h with
  | literal leaf => simp [Typing.Ran, materialize, leaf, bind, Except.bind, pure, Except.pure]
  | prefixOp _ ih | statement _ ih | root _ ih =>
    simp only [Typing.Ran] at ih
    simp [Typing.Ran, materialize, ih, bind, Except.bind, pure, Except.pure]
  | infixOp _ _ ihl ihr =>
    simp only [Typing.Ran] at ihl ihr
    simp [Typing.Ran, materialize, ihl, ihr, bind, Except.bind, pure, Except.pure]
  | block _ _ ihi iht =>
    simp only [Typing.Ran] at ihi iht
    simp [Typing.Ran, materialize, ihi, iht, bind, Except.bind, pure, Except.pure]
  | functionDef declares params _ ihb =>
    simp only [Typing.Ran] at ihb
    simp [Typing.Ran, materialize, declares, params, ihb, bind, Except.bind, pure, Except.pure]
  | functionCall _ _ result ihc iha =>
    simp only [Typing.Ran] at ihc iha
    simp [Typing.Ran, materialize, ihc, iha, result, bind, Except.bind, pure, Except.pure]
  | variableDef named _ settles declares ihi =>
    simp only [Typing.Ran] at ihi
    simp only [variableSymbol] at declares
    simp [Typing.Ran, materialize, named, ihi, settles, declares, bind, Except.bind, pure, Except.pure]
  | nil => rfl
  | cons _ _ ihf iho =>
    simp only [Typing.Ran] at ihf iho
    simp [Typing.Ran, materializeList, ihf, iho, bind, Except.bind, pure, Except.pure]
  | none => rfl
  | some _ ih =>
    simp only [Typing.Ran] at ih
    simp [Typing.Ran, materializeOption, ih, bind, Except.bind, pure, Except.pure]

/-! ## what the first types are -/

open Context (Ready Step Builtin)

/-- What a variable comes to stand for: its declared type, raised to that of the initializer if that is higher. -/
def Settles (mode : Mode) (ctx : Context) (declared : TypeId) (initializer : Option TypeId) (t : TypeId) : Prop :=
  match mode, initializer with
  | .unification, some x => t = declared ∧ x = declared ∨ ctx.promote declared x = some t
  | _, _ => t = declared

/-- The type of a node is made of those of its parts. -/
def TypedByParts (mode : Mode) (ctx : Context) (ends : TypeId → TypeId) (n : Node) : Prop :=
  match n.form with
  | .literal token =>
    (token.kind = .integer → n.typeId = .int) ∧ (token.kind = .float → n.typeId = .float) ∧
      (token.kind = .string → n.typeId = .string)
  | .prefixOp operator operand => n.typeId = prefixType operator operand
  | .infixOp operator left _ => n.typeId = infixType operator left
  | .block _ trailing => n.typeId = blockType trailing
  | .functionDef _ _ result _ => n.typeId = .void ∧ Builtin result.typeId
  | .functionCall callee _ => ∃ params, ctx.type (ends callee.typeId) = .function params n.typeId
  | .variableDef name type initializer => n.typeId = .void ∧ Builtin type.typeId ∧
    ∃ symbol, ctx.symbolIn? n.scopeId (name.identifier?.getD "") = some symbol ∧ symbol.span = name.span ∧
      symbol.kind = .variable ∧
      Settles mode ctx type.typeId (initializer.map fun x => ends x.typeId) (ends symbol.type)
  | .statement _ | .root _ => n.typeId = .void

structure FirstTyped (mode : Mode) (ctx : Context) (ends : TypeId → TypeId) (n : Node) : Prop where
  known : n.typeId.index < ctx.types.length
  byParts : TypedByParts mode ctx ends n

section

variable {ctx ctx' ctx₁ ctx₂ : Context} {spans : List Span}

theorem Settles.mono {declared t : TypeId} {initializer : Option TypeId} (hstep : Step ctx ctx')
    (hdeclared : declared.index < ctx.types.length) (hi : ∀ x ∈ initializer, x.index < ctx.types.length)
    (h : Settles mode ctx declared initializer t) : Settles mode ctx' declared initializer t := by
  unfold Settles at h ⊢
  split at h
  · next x =>
    refine h.imp_right fun h => ?_
    rw [← h, Context.promote, Context.promote, hstep.grows.type_eq hdeclared, hstep.grows.type_eq (hi x rfl)]
  · exact h

/-- A variable gets a type that its declaration and its initializer settle. -/
theorem ready_of_variableType (hr : Ready ctx spans) {declared t : TypeId} (hd : Builtin declared) {span : Span}
    {initializer : Option Node} (hi : ∀ x ∈ initializer, x.typeId.index < ctx.types.length)
    (h : variableType mode ctx declared span initializer = .ok (t, ctx')) :
    Ready ctx' spans ∧ Step ctx ctx' ∧ (mode = .nominal → ctx'.bindings = ctx.bindings) ∧
      t.index < ctx'.types.length ∧
      Settles mode ctx' declared (initializer.map fun x => ctx'.resolve x.typeId) (ctx'.resolve t) := by
  have hlt := hr.regular.builtin_lt hd
  have hnot := hr.regular.builtin_not_hole hd
  cases mode with
  | nominal =>
    obtain ⟨rfl, rfl⟩ := Prod.mk.inj (Except.ok.inj h)
    exact ⟨hr, .refl ctx, fun _ => rfl, hlt, hr.regular.resolve_builtin hd⟩
  | unification =>
    have hnext : ctx.fresh.1 = ctx.nextType := by rw [hr.regular.fresh_eq]
    have hready : ∀ u, u.index < ctx.types.length → (ctx.type u).isHole = false →
        Ready (ctx.withHole u) spans ∧ Step ctx (ctx.withHole u) ∧
          ctx.nextType.index < (ctx.withHole u).types.length ∧ (ctx.withHole u).resolve ctx.nextType = u := by
      intro u hu hnu
      have hready := hr.withHole hu hnu
      exact ⟨hready, ctx.step_withHole u, by simp [Context.nextType, Context.withHole],
        hready.regular.resolve_withHole⟩
    simp only [variableType, bind_eq_ok, Prod.exists, hr.regular.unify_fresh hlt hnot] at h
    obtain ⟨u, c, huc, h⟩ := h
    obtain ⟨rfl, rfl⟩ := Prod.mk.inj (Except.ok.inj huc)
    cases initializer with
    | none =>
      obtain ⟨rfl, rfl⟩ := Prod.mk.inj (Except.ok.inj h)
      obtain ⟨hready, hstep, hnextlt, hres⟩ := hready _ hlt hnot
      rw [hnext]
      exact ⟨hready, hstep, by rintro ⟨⟩, hnextlt, hres⟩
    | some x =>
      have hx := hi x rfl
      simp only [bind_eq_ok, Prod.exists, pure, Except.pure, Except.ok.injEq, Prod.mk.injEq] at h
      obtain ⟨u, c, huc, rfl, rfl⟩ := h
      rw [hnext] at huc ⊢
      obtain ⟨w, hw, hjoin⟩ := hr.regular.unify_withHole hlt hnot hx huc
      obtain ⟨rfl, rfl⟩ := Prod.mk.inj hw
      have hwlt : u.index < ctx.types.length ∧ (ctx.type u).isHole = false := by
        rcases hjoin with ⟨rfl, -⟩ | hjoin
        · exact ⟨hlt, hnot⟩
        · obtain ⟨-, -, hnumeric⟩ := Context.numeric_of_promote hjoin
          exact Context.known_of_numeric hnumeric
      obtain ⟨hready, hstep, hnextlt, hres⟩ := hready _ hwlt.1 hwlt.2
      have hxres := hstep.grows.resolve_eq hr.regular hready.regular hx
      refine ⟨hready, hstep, by rintro ⟨⟩, hnextlt, ?_⟩
      rw [Option.map_some, hxres, hres]
      exact Settles.mono hstep hlt (fun y hy => by
        obtain rfl := Option.some.inj hy
        exact hr.regular.resolve_lt hx) hjoin

/-! ## the outcome of a run -/

/-- Types that were given stay right while the context grows. -/
theorem FirstTyped.mono (hr : Ready ctx spans) {spans' : List Span} (hr' : Ready ctx' spans') (hstep : Step ctx ctx')
    {n : Node} (h : n.Everywhere (FirstTyped mode ctx ctx.resolve)) :
    n.Everywhere (FirstTyped mode ctx' ctx'.resolve) := by
  intro x hx
  have hbelow := h.below hx
  obtain ⟨hknown, hparts⟩ := h x hx
  refine ⟨Nat.lt_of_lt_of_le hknown hstep.grows.types.length_le, ?_⟩
  have hres : ∀ c ∈ x.children, ctx'.resolve c.typeId = ctx.resolve c.typeId := fun c hc =>
    hstep.grows.resolve_eq hr.regular hr'.regular (hbelow.child hc).self.known
  unfold TypedByParts at hparts ⊢
  cases hform : x.form with
  | functionCall callee arguments =>
    simp only [hform] at hparts ⊢
    obtain ⟨params, hparams⟩ := hparts
    refine ⟨params, ?_⟩
    rw [hres callee (by simp [Node.children, hform, Form.parts]), hstep.grows.type_of_ne (by simp [hparams]), hparams]
  | variableDef name type initializer =>
    simp only [hform] at hparts ⊢
    obtain ⟨hvoid, hbuiltin, symbol, hsymbol, hspan, hkind, hsettles⟩ := hparts
    have hi : ∀ c ∈ initializer, c ∈ x.children := fun c hc => by
      simp [Node.children, hform, Form.parts, Option.mem_def.1 hc]
    have hmap : (initializer.map fun c => ctx'.resolve c.typeId) = initializer.map fun c => ctx.resolve c.typeId :=
      Option.map_congr fun c hc => hres c (hi c hc)
    refine ⟨hvoid, hbuiltin, symbol, hstep.values (by simp [hkind, SymbolKind.body?]) hsymbol, hspan, hkind, ?_⟩
    rw [hmap, hstep.grows.resolve_eq hr.regular hr'.regular (hr.typed hsymbol)]
    refine hsettles.mono hstep (hr.regular.builtin_lt hbuiltin) fun t ht => ?_
    obtain ⟨c, hc, rfl⟩ := Option.map_eq_some_iff.1 ht
    exact hr.regular.resolve_lt (hbelow.child (hi c hc)).self.known
  | _ => simpa only [hform] using hparts

/-- What the checker relies on when it comes to some trees. -/
structure Sane (ctx : Context) (spans : List Span) (ns : List Node) : Prop where
  ready : Ready ctx spans
  fresh : Fresh spans ns
  placed : ∀ n ∈ ns, Placed ctx n
  shaped : ∀ n ∈ ns, n.Everywhere fun x => x.form.Shaped

/-- What is true when some trees got their first types. -/
structure Outcome (mode : Mode) (ctx ctx' : Context) (spans : List Span) (before after : List Node) : Prop where
  ready : Ready ctx' (before.flatMap Node.declared ++ spans)
  step : Step ctx ctx'
  nominal : mode = .nominal → ctx'.bindings = ctx.bindings
  typed : ∀ y ∈ after, y.Everywhere (FirstTyped mode ctx' ctx'.resolve)

section

variable {xs xs' ys ys' : List Node} {n y : Node}

theorem Sane.left (h : Sane ctx spans (xs ++ xs')) : Sane ctx spans xs :=
  ⟨h.ready, h.fresh.left, fun n hn => h.placed n (List.mem_append_left _ hn),
    fun n hn => h.shaped n (List.mem_append_left _ hn)⟩

theorem Sane.right (h : Sane ctx spans (xs ++ xs')) (hr : Ready ctx' (xs.flatMap Node.declared ++ spans))
    (hstep : Step ctx ctx') : Sane ctx' (xs.flatMap Node.declared ++ spans) xs' :=
  ⟨hr, h.fresh.right, fun n hn => (h.placed n (List.mem_append_right _ hn)).mono (Nat.le_of_eq hstep.length.symm),
    fun n hn => h.shaped n (List.mem_append_right _ hn)⟩

/-- The parts of a tree are as sane as the tree; the names of its root count as known. -/
theorem Sane.children (h : Sane ctx spans [n]) : Sane ctx (n.ownNames ++ spans) n.children :=
  ⟨h.ready.mono (List.subset_append_right _ _), h.fresh.children,
    fun _ hc => Node.Everywhere.child (h.placed n List.mem_cons_self) hc,
    fun _ hc => Node.Everywhere.child (h.shaped n List.mem_cons_self) hc⟩

/-- With more names known, as long as those are not declared again. -/
theorem Sane.advance {spans' : List Span} (h : Sane ctx spans xs) (hr : Ready ctx' spans') (hsub : spans' ⊆ spans)
    (hstep : Step ctx ctx') : Sane ctx' spans' xs :=
  ⟨hr, h.fresh.anti hsub, fun n hn => (h.placed n hn).mono (Nat.le_of_eq hstep.length.symm), h.shaped⟩

theorem Outcome.refl (h : Sane ctx spans []) : Outcome mode ctx ctx spans [] [] :=
  ⟨h.ready, .refl ctx, fun _ => rfl, fun _ hy => absurd hy List.not_mem_nil⟩

theorem Outcome.append (h : Outcome mode ctx ctx₁ spans xs ys)
    (h' : Outcome mode ctx₁ ctx' (xs.flatMap Node.declared ++ spans) xs' ys') :
    Outcome mode ctx ctx' spans (xs ++ xs') (ys ++ ys') := by
  refine ⟨h'.ready.mono fun s hs => ?_, h.step.trans h'.step, fun hm => (h'.nominal hm).trans (h.nominal hm),
    fun y hy => ?_⟩
  · simp only [List.flatMap_append, List.mem_append] at hs ⊢
    tauto
  · rcases List.mem_append.1 hy with hy | hy
    · exact FirstTyped.mono h.ready h'.ready h'.step (h.typed y hy)
    · exact h'.typed y hy

/-- A node with typed parts and a type of its own is typed. -/
theorem Outcome.node (h : Outcome mode ctx ctx' (n.ownNames ++ spans) n.children y.children)
    (hown : FirstTyped mode ctx' ctx'.resolve y) : Outcome mode ctx ctx' spans [n] [y] := by
  refine ⟨h.ready.mono fun s hs => ?_, h.step, h.nominal, fun z hz => ?_⟩
  · rw [List.flatMap_singleton, Node.declared_eq]
    simp only [List.mem_append] at hs ⊢
    tauto
  · obtain rfl := List.mem_singleton.1 hz
    exact Node.everywhere_iff.2 ⟨hown, h.typed⟩

end

/-! ## every step -/

/-- The trees of a piece before their first types. -/
def Typing.before : Typing → List Node
  | .node x _ => [x]
  | .list xs _ => xs
  | .option x _ => x.toList

def Typing.after : Typing → List Node
  | .node _ y => [y]
  | .list _ ys => ys
  | .option _ y => y.toList

theorem leafType_eq_ok (hr : Ready ctx spans) {s : ScopeId} {token : Token} {span : Span} {noted type : Option TypeId}
    (hkind : token.kind ∈ Grammar.primaryKinds) (h : leafType ctx s token span noted = .ok type) :
    ∃ t, type = some t ∧ t.index < ctx.types.length ∧ (token.kind = .integer → t = .int) ∧
      (token.kind = .float → t = .float) ∧ (token.kind = .string → t = .string) := by
  have hbuiltin : ∀ {t}, Builtin t → t.index < ctx.types.length := hr.regular.builtin_lt
  unfold leafType at h
  split at h
  · next hk => exact ⟨_, (Except.ok.inj h).symm, hbuiltin (by decide), by simp [hk]⟩
  · next hk => exact ⟨_, (Except.ok.inj h).symm, hbuiltin (by decide), by simp [hk]⟩
  · next hk => exact ⟨_, (Except.ok.inj h).symm, hbuiltin (by decide), by simp [hk]⟩
  · next hk =>
    simp only [bind_eq_ok, pure, Except.pure, Except.ok.injEq] at h
    obtain ⟨symbol, hsymbol, rfl⟩ := h
    obtain ⟨s', hs'⟩ := Context.symbolIn?_of_resolveSymbol hsymbol
    exact ⟨symbol.type, rfl, hr.typed hs', by simp [hk]⟩
  · simp_all [Grammar.primaryKinds]

/-- A name on which a built-in type is noted. -/
theorem typed_of_isName {ends : TypeId → TypeId} {n : Node} {t : TypeId} (hn : n.IsName)
    (ht : t.index < ctx.types.length) :
    Node.Everywhere (FirstTyped mode ctx ends) { n with type := some t } := by
  obtain ⟨token, hkind, hform⟩ := hn
  refine Node.everywhere_iff.2 ⟨⟨ht, ?_⟩, by simp [Node.children, hform, Form.parts]⟩
  simp [TypedByParts, hform, hkind]

theorem declareParams_notes {ps qs : List (Param Node)} {ts : List TypeId}
    (hts : List.Forall₂ (fun p t => typeNamedBy p.type = .ok t) ps ts)
    (h : declareParams ctx ps ts = .ok (qs, ctx')) :
    ctx'.bindings = ctx.bindings ∧ List.Forall₂ (fun p q => ∃ t, typeNamedBy p.type = .ok t ∧
      q = (⟨{ p.name with type := some t }, { p.type with type := some t }⟩ : Param Node)) ps qs := by
  induction hts generalizing ctx qs with
  | nil =>
    obtain ⟨rfl, rfl⟩ := Prod.mk.inj (Except.ok.inj h)
    exact ⟨rfl, .nil⟩
  | cons ht _ ih =>
    simp only [declareParams, bind_eq_ok, Prod.exists, pure, Except.pure, Except.ok.injEq, Prod.mk.injEq] at h
    obtain ⟨ctx₁, hdeclare, qs, ctx₂, hrest, rfl, rfl⟩ := h
    obtain ⟨hbindings, hqs⟩ := ih hrest
    exact ⟨hbindings.trans (Context.declare_types hdeclare).2.1, .cons ⟨_, ht, rfl⟩ hqs⟩

/-- Trees that are typed one part after the other. -/
theorem Outcome.seq {xs xs' ys ys' : List Node} (hs : Sane ctx spans (xs ++ xs'))
    (h : ∀ {spans}, Sane ctx spans xs → Outcome mode ctx ctx₁ spans xs ys)
    (h' : ∀ {spans}, Sane ctx₁ spans xs' → Outcome mode ctx₁ ctx' spans xs' ys') :
    Outcome mode ctx ctx' spans (xs ++ xs') (ys ++ ys') :=
  have first := h hs.left
  first.append (h' (hs.right first.ready first.step))

theorem void_lt (hr : Ready ctx spans) : TypeId.void.index < ctx.types.length :=
  hr.regular.builtin_lt (show Builtin .void by decide)

theorem int_lt (hr : Ready ctx spans) : TypeId.int.index < ctx.types.length :=
  hr.regular.builtin_lt (show Builtin .int by decide)

theorem callType_eq_ok {callee : Node} {t : TypeId} (h : callType ctx callee = .ok t) :
    ∃ params, ctx.type (ctx.resolve callee.typeId) = .function params t := by
  simp only [callType] at h
  split at h
  · next params result hfunction =>
    obtain rfl := Except.ok.inj h
    exact ⟨params, hfunction⟩
  · simp at h

section

variable {n : Node}

/-- A function and its parameters are declared when the checker comes to the body. -/
theorem Sane.body {name : Token} {ps qs : List (Param Node)} {r : Node} {b : Option Node} {sig : Signature}
    (hform : n.form = .functionDef name ps r b) (hs : Sane ctx spans [n])
    (declares : declareFunction ctx n.scopeId name ps r b = .ok (sig, ctx₁))
    (params : declareParams ctx₁ ps sig.params = .ok (qs, ctx₂)) :
    Sane ctx₂ (ps.map (·.name.span) ++ name.span :: spans) b.toList ∧ Step ctx ctx₂ := by
  have hchildren : n.children = (ps.flatMap fun p => [p.name, p.type]) ++ b.toList ++ [r] := by
    rw [Node.children, hform, Form.parts]
  have hown : n.ownNames = name.span :: ps.map (·.name.span) := by rw [Node.ownNames, hform]
  have hsane := hs.children
  rw [hchildren] at hsane
  obtain ⟨hready₁, hstep₁⟩ := ready_of_declareFunction hs.ready (hs.placed n List.mem_cons_self).self declares
  have hscopes : ∀ p ∈ ps, p.name.scopeId.index < ctx₁.scopes.length := fun p hp => by
    rw [hstep₁.length]
    refine (hsane.placed p.name ?_).self
    simp only [List.mem_append, List.mem_flatMap]
    exact .inl (.inl ⟨p, hp, List.mem_cons_self⟩)
  have hbuiltins : ∀ t ∈ sig.params, Builtin t := fun t ht => by
    obtain ⟨p, -, hp⟩ := forall₂_of_mem (builtin_of_signature (declareFunction_eq_ok declares).1).2.2 ht
    exact builtin_of_typeNamedBy hp
  obtain ⟨hready₂, hstep₂⟩ := ready_of_declareParams hready₁ hscopes hbuiltins params
  refine ⟨?_, hstep₁.trans hstep₂⟩
  refine (hsane.left.right (hs.children.ready.mono (List.subset_append_right _ _)) (.refl ctx)).advance hready₂
    (fun s hs => ?_) (hstep₁.trans hstep₂)
  simp only [hown, List.mem_append, List.mem_cons] at hs ⊢
  tauto

/-- The definition of a function, from the outcome of its body. -/
theorem outcome_functionDef {ctx₃ : Context} {name : Token} {ps qs : List (Param Node)} {r : Node}
    {b b' : Option Node} {sig : Signature} (hform : n.form = .functionDef name ps r b) (hs : Sane ctx spans [n])
    (declares : declareFunction ctx n.scopeId name ps r b = .ok (sig, ctx₁))
    (params : declareParams ctx₁ ps sig.params = .ok (qs, ctx₂))
    (body : ∀ {spans}, Sane ctx₂ spans b.toList → Outcome mode ctx₂ ctx₃ spans b.toList b'.toList) :
    Outcome mode ctx ctx₃ spans [n] [{ n with
      type := some .void, form := .functionDef name qs { r with type := some sig.result } b' }] := by
  have hchildren : n.children = (ps.flatMap fun p => [p.name, p.type]) ++ b.toList ++ [r] := by
    rw [Node.children, hform, Form.parts]
  have hown : n.ownNames = name.span :: ps.map (·.name.span) := by rw [Node.ownNames, hform]
  obtain ⟨-, hparams, hresult, -⟩ : (Form.functionDef name ps r b).Shaped :=
    hform ▸ (hs.shaped n List.mem_cons_self).self
  obtain ⟨hbuiltin, -, htypes⟩ := builtin_of_signature (declareFunction_eq_ok declares).1
  obtain ⟨hbindings, hqs⟩ := declareParams_notes htypes params
  obtain ⟨hsane, hstep⟩ := hs.body hform declares params
  have ho := body hsane
  refine ⟨ho.ready.mono fun s hs => ?_, hstep.trans ho.step, fun hm => ?_, fun y hy => ?_⟩
  · rw [List.flatMap_singleton, Node.declared_eq, hown, hchildren]
    simp only [List.flatMap_append, List.mem_append, List.mem_cons] at hs ⊢
    tauto
  · rw [ho.nominal hm, hbindings, bindings_of_declareFunction declares]
  · obtain rfl := List.mem_singleton.1 hy
    refine Node.everywhere_iff.2 ⟨⟨void_lt ho.ready, rfl, hbuiltin⟩, Form.forall_functionDef.2
      ⟨fun q hq => ?_, fun c hc => ho.typed c (Option.mem_toList.2 hc), ?_⟩⟩
    · obtain ⟨p, hp, t, ht, rfl⟩ := forall₂_of_mem hqs hq
      have hlt := ho.ready.regular.builtin_lt (builtin_of_typeNamedBy ht)
      exact ⟨typed_of_isName (hparams p hp).1 hlt, typed_of_isName (hparams p hp).2 hlt⟩
    · exact typed_of_isName hresult (ho.ready.regular.builtin_lt hbuiltin)

/-- The initializer of a variable is typed before the variable is declared, whose place is new behind it. -/
theorem Sane.initializer {name type : Node} {i : Option Node} (hform : n.form = .variableDef name type i)
    (hs : Sane ctx spans [n]) : Sane ctx spans i.toList ∧ name.span ∉ i.toList.flatMap Node.declared ++ spans := by
  have hchildren : n.children = [name, type] ++ i.toList := by
    rw [Node.children, hform, Form.parts]
    rfl
  have hsane := hs.children
  rw [hchildren] at hsane
  refine ⟨(hsane.right (hs.children.ready.mono (List.subset_append_right _ _)) (.refl ctx)).advance hs.ready
    (fun s hs => List.mem_append_right _ (List.mem_append_right _ hs)) (.refl ctx), fun hmem => ?_⟩
  obtain ⟨hspans, hparts⟩ := hs.fresh.own.2 name.span (by simp [Node.ownValues, hform])
  rw [hchildren, List.flatMap_append] at hparts
  rcases List.mem_append.1 hmem with hmem | hmem
  · exact hparts (List.mem_append_right _ hmem)
  · exact hspans hmem

/-- The definition of a variable, from the outcome of its initializer. -/
theorem outcome_variableDef {ctx₃ : Context} {name type : Node} {i i' : Option Node} {declared t : TypeId}
    (hform : n.form = .variableDef name type i) (hs : Sane ctx spans [n])
    (named : typeNamedBy type = .ok declared)
    (initializer : ∀ {spans}, Sane ctx spans i.toList → Outcome mode ctx ctx₁ spans i.toList i'.toList)
    (settles : variableType mode ctx₁ declared type.span i' = .ok (t, ctx₂))
    (declares : ctx₂.declare n.scopeId (variableSymbol name t) = .ok ctx₃) :
    Outcome mode ctx ctx₃ spans [n] [{ n with
      type := some .void,
      form := .variableDef { name with type := some t } { type with type := some declared } i' }] := by
  obtain ⟨hname, htype⟩ : (Form.variableDef name type i).Shaped := hform ▸ (hs.shaped n List.mem_cons_self).self
  have hbuiltin := builtin_of_typeNamedBy named
  obtain ⟨hsane, hnew⟩ := hs.initializer hform
  have ho := initializer hsane
  have hknown : ∀ x ∈ i', x.typeId.index < ctx₁.types.length := fun x hx =>
    (ho.typed x (Option.mem_toList.2 hx)).self.known
  obtain ⟨hready, hstep, hbindings, hlt, hsettles⟩ := ready_of_variableType ho.ready hbuiltin hknown settles
  -- the symbol is new
  have hscope : n.scopeId.index < ctx₂.scopes.length := by
    rw [hstep.length, ho.step.length]
    exact (hs.placed n List.mem_cons_self).self
  obtain ⟨-, hput⟩ := Context.declare_new_value hready.known hnew rfl declares
  have hsymbol : ctx₃.symbolIn? n.scopeId (name.identifier?.getD "") = some (variableSymbol name t) := by
    rw [hput, Context.symbolIn?_put hscope, if_pos ⟨rfl, rfl⟩]
  have hstep₃ := Context.step_declare hscope declares
  have hready₃ := hready.declare hscope hlt declares
  have hlt₃ := Nat.lt_of_lt_of_le hlt hstep₃.grows.types.length_le
  refine ⟨hready₃.mono fun s hs => ?_, ho.step.trans (hstep.trans hstep₃), fun hm => ?_, fun y hy => ?_⟩
  · rw [List.flatMap_singleton, Node.declared_eq, Node.ownNames, Node.children, hform, Form.parts]
    simp only [variableSymbol, List.flatMap_cons, List.mem_append, List.mem_cons, List.not_mem_nil] at hs ⊢
    tauto
  · rw [(Context.declare_types declares).2.1, hbindings hm, ho.nominal hm]
  · obtain rfl := List.mem_singleton.1 hy
    have htyped : ∀ x ∈ i', x.Everywhere (FirstTyped mode ctx₃ ctx₃.resolve) := fun x hx =>
      FirstTyped.mono ho.ready hready₃ (hstep.trans hstep₃) (ho.typed x (Option.mem_toList.2 hx))
    refine Node.everywhere_iff.2 ⟨⟨void_lt hready₃, rfl, hbuiltin, _, hsymbol, rfl, rfl, ?_⟩, Form.forall_variableDef.2
      ⟨typed_of_isName hname hlt₃, typed_of_isName htype (hready₃.regular.builtin_lt hbuiltin), htyped⟩⟩
    have hmap : (i'.map fun x => ctx₃.resolve x.typeId) = i'.map fun x => ctx₂.resolve x.typeId :=
      Option.map_congr fun x hx => hstep₃.grows.resolve_eq hready.regular hready₃.regular
        (Nat.lt_of_lt_of_le (hknown x hx) hstep.grows.types.length_le)
    have hself : ctx₃.resolve (variableSymbol name t).type = ctx₂.resolve t :=
      hstep₃.grows.resolve_eq hready.regular hready₃.regular hlt
    rw [hmap, hself]
    refine hsettles.mono hstep₃ (hready.regular.builtin_lt hbuiltin) fun u hu => ?_
    obtain ⟨x, hx, rfl⟩ := Option.map_eq_some_iff.1 hu
    exact hready.regular.resolve_lt (Nat.lt_of_lt_of_le (hknown x hx) hstep.grows.types.length_le)

end

/-- **A context stays in order while a tree gets its first types**, and these are made of each other and of the symbols
as they should be. -/
theorem Materializes.outcome {job : Typing} (h : Materializes mode ctx job ctx') {spans : List Span}
    (hs : Sane ctx spans job.before) : Outcome mode ctx ctx' spans job.before job.after := by
  induction h generalizing spans with
  | literal leaf =>
    obtain ⟨t, rfl, hlt, hint, hfloat, hstring⟩ := leafType_eq_ok hs.ready (hs.shaped _ List.mem_cons_self).self leaf
    exact .node (.refl hs.children) ⟨hlt, hint, hfloat, hstring⟩
  | @prefixOp ctx ctx' span scope type op x y operand ih =>
    have ho := ih hs.children
    refine .node ho ⟨?_, rfl⟩
    change (prefixType op y).index < _
    unfold prefixType
    split
    · exact int_lt ho.ready
    · exact (ho.typed y List.mem_cons_self).self.known
  | @infixOp ctx ctx₁ ctx' span scope type op l l' r r' left right ihl ihr =>
    have ho := Outcome.seq hs.children ihl ihr
    refine .node ho ⟨?_, rfl⟩
    change (infixType op l').index < _
    unfold infixType
    split
    · exact int_lt ho.ready
    · exact (ho.typed l' List.mem_cons_self).self.known
  | statement inner ih =>
    have ho := ih hs.children
    exact .node ho ⟨void_lt ho.ready, rfl⟩
  | @block ctx ctx₁ ctx' span scope type xs ys x y items trailing ihi iht =>
    have ho := Outcome.seq hs.children ihi iht
    refine .node ho ⟨?_, rfl⟩
    change (blockType y).index < _
    cases y with
    | none => exact void_lt ho.ready
    | some y => exact (ho.typed y (List.mem_append_right _ List.mem_cons_self)).self.known
  | functionDef declares params _ ihb => exact outcome_functionDef rfl hs declares params ihb
  | functionCall callee arguments result ihc iha =>
    have ho := Outcome.seq hs.children ihc iha
    obtain ⟨params, hparams⟩ := callType_eq_ok result
    have hbuiltin := ho.ready.regular.functions (Context.type_mem hparams nofun)
    exact .node ho ⟨ho.ready.regular.builtin_lt hbuiltin, params, hparams⟩
  | variableDef named _ settles declares ihi => exact outcome_variableDef rfl hs named ihi settles declares
  | root items ih =>
    have ho := ih hs.children
    exact .node ho ⟨void_lt ho.ready, rfl⟩
  | nil => exact .refl hs
  | cons first others ihf iho => exact Outcome.seq hs ihf iho
  | none => exact .refl hs
  | some inner ih => exact ih hs

/-! ## only notes change -/

/-- The second node is the first with first types, or with a type noted on it from outside. -/
def MaterializedAs (mode : Mode) (x y : Node) : Prop :=
  (∃ ctx ctx', Materializes mode ctx (.node x y) ctx') ∨ Node.Renoted x y

theorem MaterializedAs.renoted (x : Node) (type : Option TypeId) : MaterializedAs mode x { x with type } :=
  .inr ⟨type, rfl⟩

/-- The pieces before and after are related in their order. -/
def Typing.Alike (mode : Mode) : Typing → Prop
  | .node x y => y.span = x.span ∧ Form.Rel (MaterializedAs mode) x.form y.form
  | .list xs ys => List.Forall₂ (MaterializedAs mode) xs ys
  | .option x y => Option.Rel (MaterializedAs mode) x y

theorem Materializes.alike {job : Typing} (h : Materializes mode ctx job ctx') : job.Alike mode := by
  induction h with
  | literal => exact ⟨rfl, .literal _⟩
  | prefixOp operand => exact ⟨rfl, .prefixOp (.inl ⟨_, _, operand⟩)⟩
  | infixOp left right => exact ⟨rfl, .infixOp (.inl ⟨_, _, left⟩) (.inl ⟨_, _, right⟩)⟩
  | statement inner => exact ⟨rfl, .statement (.inl ⟨_, _, inner⟩)⟩
  | block _ _ ihi iht => exact ⟨rfl, .block ihi iht⟩
  | functionDef declares params _ ihb =>
    refine ⟨rfl, .functionDef ?_ (.renoted _ _) ihb⟩
    obtain ⟨-, -, htypes⟩ := builtin_of_signature (declareFunction_eq_ok declares).1
    refine (declareParams_notes htypes params).2.imp fun p q hq => ?_
    obtain ⟨t, -, rfl⟩ := hq
    exact ⟨.renoted _ _, .renoted _ _⟩
  | functionCall callee _ _ _ iha => exact ⟨rfl, .functionCall (.inl ⟨_, _, callee⟩) iha⟩
  | variableDef _ _ _ _ ihi => exact ⟨rfl, .variableDef (.renoted _ _) (.renoted _ _) ihi⟩
  | root _ ih => exact ⟨rfl, .root ih⟩
  | nil => exact .nil
  | cons first _ _ iho => exact .cons (.inl ⟨_, _, first⟩) iho
  | none => exact .none
  | some inner => exact .some (.inl ⟨_, _, inner⟩)

/-- First types change no span and no form. -/
theorem likeness_materializedAs : Likeness (MaterializedAs mode) where
  span := by
    rintro x y (⟨_, _, h⟩ | ⟨type, rfl⟩)
    · exact h.alike.1
    · rfl
  form := by
    rintro x y (⟨_, _, h⟩ | ⟨type, rfl⟩)
    · exact h.alike.2
    · exact .refl (fun x => .inr (.refl x)) _

/-! ## substitution -/

theorem symbolIn?_resolveSymbols (ctx : Context) (s : ScopeId) (name : String) :
    ctx.resolveSymbols.symbolIn? s name =
      (ctx.symbolIn? s name).map fun symbol => { symbol with type := ctx.resolve symbol.type } := by
  unfold Context.symbolIn? Context.scope? Context.resolveSymbols
  rw [List.getElem?_map]
  cases ctx.scopes[s.index]? with
  | none => rfl
  | some scope =>
    simp only [Option.map_some, Option.bind_some, Scope.find?, List.find?_map]
    rfl

theorem resolve_of_no_bindings (h : ctx.bindings = []) (t : TypeId) : ctx.resolve t = t := by
  rw [Context.resolve, h]
  rfl

theorem typeId_mapType (hr : ctx.Regular) (n : Node) :
    (n.mapType (·.map ctx.resolve)).typeId = ctx.resolve n.typeId := by
  have hvoid : ctx.resolve .void = .void := hr.resolve_builtin (show Builtin .void by decide)
  rw [Node.mapType_eq, Node.typeId, Node.typeId]
  cases n.type with
  | none => exact hvoid.symm
  | some t => rfl

/-- With every type variable replaced by what it stands for, the type of a node is made of those of its parts as
before. -/
theorem TypedByParts.substitute (hr : ctx.Regular) {n : Node} (h : TypedByParts mode ctx ctx.resolve n) :
    TypedByParts mode ctx.resolveSymbols id (n.mapType (·.map ctx.resolve)) := by
  have hbuiltin : ∀ {t u}, Builtin u → t = u → ctx.resolve t = u := fun hu ht =>
    (congrArg ctx.resolve ht).trans (hr.resolve_builtin hu)
  have hself := typeId_mapType hr n
  have hpart := typeId_mapType hr
  unfold TypedByParts at h ⊢
  rw [hself, Node.mapType_eq]
  cases hform : n.form with
  | literal token =>
    simp only [hform] at h
    exact ⟨fun hk => hbuiltin (show Builtin .int by decide) (h.1 hk),
      fun hk => hbuiltin (show Builtin .float by decide) (h.2.1 hk),
      fun hk => hbuiltin (show Builtin .string by decide) (h.2.2 hk)⟩
  | prefixOp operator operand =>
    simp only [hform] at h
    simp only [Node.mapTypeParts, h, prefixType, hpart]
    split
    · exact hbuiltin (show Builtin .int by decide) rfl
    · rfl
  | infixOp operator left right =>
    simp only [hform] at h
    simp only [Node.mapTypeParts, h, infixType, hpart]
    split
    · exact hbuiltin (show Builtin .int by decide) rfl
    · rfl
  | block items trailing =>
    simp only [hform] at h
    simp only [Node.mapTypeParts, h, blockType, Node.mapTypeOption_eq]
    cases trailing with
    | none => exact hbuiltin (show Builtin .void by decide) rfl
    | some x => exact (hpart x).symm
  | functionDef name params result body =>
    simp only [hform] at h
    obtain ⟨hvoid, hresult⟩ := h
    simp only [Node.mapTypeParts, hpart, hbuiltin hresult rfl]
    exact ⟨hbuiltin (show Builtin .void by decide) hvoid, hresult⟩
  | functionCall callee arguments =>
    simp only [hform] at h
    obtain ⟨params, hparams⟩ := h
    simp only [Node.mapTypeParts, hpart, id]
    rw [hbuiltin (hr.functions (Context.type_mem hparams (by rintro ⟨⟩))) rfl]
    exact ⟨params, hparams⟩
  | variableDef name type initializer =>
    simp only [hform] at h
    obtain ⟨hvoid, htype, symbol, hsymbol, hspan, hkind, hsettles⟩ := h
    have hname : (name.mapType (·.map ctx.resolve)).identifier? = name.identifier? :=
      identifier?_of_likeness (likeness_mapType _) rfl
    have hends : ((fun x => id x.typeId) ∘ Node.mapType (·.map ctx.resolve)) = fun x => ctx.resolve x.typeId :=
      funext hpart
    simp only [Node.mapTypeParts, hpart, hbuiltin htype rfl, hname, Node.mapTypeOption_eq, Option.map_map, hends]
    refine ⟨hbuiltin (show Builtin .void by decide) hvoid, htype, _,
      (symbolIn?_resolveSymbols ctx _ _).trans (congrArg _ hsymbol), ?_, hkind, hsettles⟩
    rw [Node.mapType_eq]
    exact hspan
  | statement | root =>
    simp only [hform] at h
    exact hbuiltin (show Builtin .void by decide) h

theorem FirstTyped.substitute (hr : Ready ctx spans) {n : Node} (h : FirstTyped mode ctx ctx.resolve n) :
    FirstTyped mode ctx.resolveSymbols id (n.mapType (·.map ctx.resolve)) where
  known := by
    rw [typeId_mapType hr.regular]
    exact hr.regular.resolve_lt h.known
  byParts := h.byParts.substitute hr.regular

/-- The first types of a program, with no type variable left. -/
def firstTypes (mode : Mode) (n : Node) : Except Error (Node × Context) := do
  let (n, ctx) := scopes .new n
  let ctx ← signatures ctx n
  let (n, ctx) ← materialize mode ctx n
  return settle mode ctx n

/-- First types are notes on the tree. -/
theorem unnoted_of_firstTypes {n s : Node} (h : firstTypes mode n = .ok (s, ctx)) : s.unnoted = n.unnoted := by
  simp only [firstTypes, bind_eq_ok, Prod.exists, pure, Except.pure, Except.ok.injEq] at h
  obtain ⟨c, -, m, c', hm, h⟩ := h
  have hnoted : m.unnoted = n.unnoted :=
    (Node.unnoted_of_likeness likeness_materializedAs (.inl ⟨_, _, materializes_of_materialize _ hm⟩)).symm.trans
      (unnoted_scopes n)
  cases mode with
  | nominal =>
    obtain ⟨rfl, rfl⟩ := Prod.mk.inj h
    exact hnoted
  | unification =>
    obtain ⟨rfl, rfl⟩ := Prod.mk.inj h
    exact (Node.unnoted_of_likeness (likeness_mapType _) rfl).symm.trans hnoted

theorem typeCheck_eq_ok {n t : Node} (h : typeCheck mode n = .ok (t, ctx)) :
    ∃ s a b, firstTypes mode n = .ok (s, ctx) ∧ arithmetic ctx s = .ok a ∧ assignment mode ctx a = .ok b ∧
      calls ctx b = .ok t := by
  simp only [typeCheck, bind_eq_ok, Prod.exists, pure, Except.pure, Except.ok.injEq, Prod.mk.injEq] at h
  obtain ⟨c, hc, m, c', hm, a, ha, b, hb, t, ht, rfl, rfl⟩ := h
  refine ⟨_, a, b, ?_, ha, hb, ht⟩
  simp [firstTypes, hc, hm, bind, Except.bind, pure, Except.pure]

/-- A source that is accepted is parsed, gets first types and passes the three checks after that. -/
theorem analyze_eq_ok {source : String} {t : Node} (h : analyze source mode = .ok (t, ctx)) :
    ∃ n s a b, parseSource source = .ok n ∧ firstTypes mode n = .ok (s, ctx) ∧ arithmetic ctx s = .ok a ∧
      assignment mode ctx a = .ok b ∧ calls ctx b = .ok t := by
  simp only [analyze, bind_eq_ok, liftError_eq_ok] at h
  obtain ⟨n, hn, h⟩ := h
  obtain ⟨s, a, b, hs, ha, hb, ht⟩ := typeCheck_eq_ok h
  exact ⟨n, s, a, b, hn, hs, ha, hb, ht⟩

theorem analyze_of_checks {source : String} {n s a b t : Node} (hn : parseSource source = .ok n)
    (hs : firstTypes mode n = .ok (s, ctx)) (ha : arithmetic ctx s = .ok a) (hb : assignment mode ctx a = .ok b)
    (ht : calls ctx b = .ok t) : analyze source mode = .ok (t, ctx) := by
  simp only [firstTypes, bind_eq_ok, Prod.exists, pure, Except.pure, Except.ok.injEq] at hs
  obtain ⟨c, hc, m, c', hm, hsettle⟩ := hs
  simp only [analyze, bind_eq_ok, liftError_eq_ok]
  refine ⟨n, hn, ?_⟩
  simp [typeCheck, hc, hm, hsettle, ha, hb, ht, bind, Except.bind, pure, Except.pure]

theorem symbolIn?_of_opens_new (h : Context.new.Opens ctx) (s : ScopeId) (name : String) :
    ctx.symbolIn? s name = none := by
  obtain ⟨more, rfl, hmore⟩ := h
  unfold Context.symbolIn? Context.scope?
  cases hs : (Context.new.scopes ++ more)[s.index]? with
  | none => simp
  | some scope =>
    have hempty : scope.symbols = [] := by
      rcases List.mem_append.1 (List.mem_of_getElem? hs) with hs | hs
      · rw [List.mem_singleton.1 (show scope ∈ [(⟨none, []⟩ : Scope)] from hs)]
      · exact hmore scope hs
    simp [Scope.find?, hempty]

/-- The scopes of a program are there before anything is declared. -/
theorem ready_of_scopes (n : Node) : Ready (scopes .new n).2 [] ∧ Placed (scopes .new n).2 (scopes .new n).1 := by
  have hstamps := stamps_of_stamp .root .new n
  have hnone := symbolIn?_of_opens_new hstamps.opens
  obtain ⟨more, hmore, -⟩ := hstamps.opens
  have hregular : (scopes .new n).2.Regular := Context.regular_new.of_types (by rw [scopes, hmore]) (by rw [scopes, hmore])
  refine ⟨⟨hregular, fun s name symbol hs => ?_, fun {s name symbol} hs => ?_⟩, fun x hx => ?_⟩
  · exact absurd ((hnone s name).symm.trans hs) nofun
  · exact absurd ((hnone s name).symm.trans hs) nofun
  · obtain ⟨s, hs, hin⟩ := hstamps.inside x hx
    have hroot : ScopeId.root.index < (n.stamp .root .new).2.scopes.length :=
      Nat.lt_of_lt_of_le (by decide) hstamps.opens.length_le
    have hscope : x.scopeId = s := by rw [Node.scopeId, hs, Option.getD_some]
    rw [hscope]
    rcases hin with rfl | ⟨-, hlt⟩
    · exact hroot
    · exact hlt

/-- When its functions are declared, the first types of a tree can be given. -/
theorem sane_of_signatures {n : Node} (hshaped : n.Everywhere fun x => x.form.Shaped) (hnodup : n.declared.Nodup)
    (h : signatures (scopes .new n).2 (scopes .new n).1 = .ok ctx) :
    Sane ctx (scopes .new n).1.functions [(scopes .new n).1] ∧ ctx.bindings = [] := by
  have hstamps := stamps_of_stamp .root .new n
  obtain ⟨hready, hplaced⟩ := ready_of_scopes n
  obtain ⟨hready', hstep⟩ := ready_of_signatures hready hplaced h
  have hlike := hstamps.stampedAs
  refine ⟨⟨hready', fresh_functions ?_, fun x hx => ?_, fun x hx => ?_⟩, ?_⟩
  · rwa [scopes, likeness_stampedAs.declared hlike]
  · rw [List.mem_singleton.1 hx]
    exact hplaced.mono (Nat.le_of_eq hstep.length.symm)
  · rw [List.mem_singleton.1 hx]
    exact likeness_stampedAs.everywhere_shaped hlike hshaped
  · obtain ⟨more, hmore, -⟩ := hstamps.opens
    rw [bindings_of_signatures h, scopes, hmore]
    rfl

/-- The first types of a program. -/
theorem typed_of_firstTypes {n s : Node} (hshaped : n.Everywhere fun x => x.form.Shaped) (hnodup : n.declared.Nodup)
    (h : firstTypes mode n = .ok (s, ctx)) :
    s.Everywhere (FirstTyped mode ctx id) ∧ ctx.Regular ∧ s.Everywhere fun x => x.form.Shaped := by
  simp only [firstTypes, bind_eq_ok, Prod.exists, pure, Except.pure, Except.ok.injEq] at h
  obtain ⟨c, hc, m, c', hm, h⟩ := h
  obtain ⟨hsane, hbindings⟩ := sane_of_signatures hshaped hnodup hc
  have ho := (materializes_of_materialize _ hm).outcome hsane
  have htyped := ho.typed m List.mem_cons_self
  have hafter : m.Everywhere fun x => x.form.Shaped :=
    likeness_materializedAs.everywhere_shaped (.inl ⟨_, _, materializes_of_materialize _ hm⟩)
      (hsane.shaped _ List.mem_cons_self)
  cases mode with
  | nominal =>
    obtain ⟨rfl, rfl⟩ := Prod.mk.inj h
    have hid : c'.resolve = id := funext (resolve_of_no_bindings ((ho.nominal rfl).trans hbindings))
    rw [hid] at htyped
    exact ⟨htyped, ho.ready.regular, hafter⟩
  | unification =>
    obtain ⟨rfl, rfl⟩ := Prod.mk.inj h
    refine ⟨fun y hy => ?_, ho.ready.regular.of_types rfl rfl, (likeness_mapType _).everywhere_shaped rfl hafter⟩
    rw [Node.preorder_mapType] at hy
    obtain ⟨x, hx, rfl⟩ := List.mem_map.1 hy
    rw [funext (Context.resolve_of_types rfl rfl : ∀ t, c'.resolveSymbols.resolve t = c'.resolve t)]
    exact (htyped x hx).substitute ho.ready

end

end LetFn.Check
