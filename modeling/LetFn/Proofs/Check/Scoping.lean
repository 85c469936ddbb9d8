import LetFn.Check.Scopes
import LetFn.Proofs.Tree.Unnoted

/-!
# Scopes of a tree, step by step

`Stamps here ctx job ctx'` says that the work `job` was done in the scope `here`, from the context `ctx` on, and that
it left the context `ctx'`. Scopes are only ever opened at the end of the list, so the scopes below a node are those
between the two contexts.

Main facts: `stamps_of_stamp`, `likeness_stampedAs` (only notes change), `Stamps.inside` (which scopes the nodes stand
in).
-/

namespace LetFn

/-- A piece of a tree, before and after its scopes are noted. -/
inductive Stamping where
  | node (x y : Node)
  /-- The body of a function. -/
  | body (x y : Option Node)
  | form (f g : Form Node)
  | list (xs ys : List Node)
  | option (x y : Option Node)
  | params (ps qs : List (Param Node))

inductive Stamps : ScopeId → Context → Stamping → Context → Prop where
  | block {here inner ctx ctx₀ ctx' span scope type xs x g} (opens : ctx.openScope here = (inner, ctx₀))
      (parts : Stamps inner ctx₀ (.form (.block xs x) g) ctx') :
      Stamps here ctx (.node ⟨span, scope, type, .block xs x⟩ ⟨span, some here, type, g⟩) ctx'
  | functionDef {here inner ctx ctx₀ ctx₁ ctx₂ ctx' span scope type name ps qs r r' b b'}
      (opens : ctx.openScope here = (inner, ctx₀)) (params : Stamps inner ctx₀ (.params ps qs) ctx₁)
      (body : Stamps inner ctx₁ (.body b b') ctx₂) (result : Stamps here ctx₂ (.node r r') ctx') :
      Stamps here ctx (.node ⟨span, scope, type, .functionDef name ps r b⟩
        ⟨span, some here, type, .functionDef name qs r' b'⟩) ctx'
  | plain {here ctx ctx' span scope type} {f g : Form Node} (notBlock : f.tag ≠ .block)
      (notFunction : f.tag ≠ .functionDef) (parts : Stamps here ctx (.form f g) ctx') :
      Stamps here ctx (.node ⟨span, scope, type, f⟩ ⟨span, some here, type, g⟩) ctx'
  | noBody {here ctx} : Stamps here ctx (.body none none) ctx
  | body {here ctx ctx' span scope type f g} (parts : Stamps here ctx (.form f g) ctx') :
      Stamps here ctx (.body (some ⟨span, scope, type, f⟩) (some ⟨span, some here, type, g⟩)) ctx'
  | literal {here ctx t} : Stamps here ctx (.form (.literal t) (.literal t)) ctx
  | prefixOp {here ctx ctx' op x y} (operand : Stamps here ctx (.node x y) ctx') :
      Stamps here ctx (.form (.prefixOp op x) (.prefixOp op y)) ctx'
  | infixOp {here ctx ctx₁ ctx' op l l' r r'} (left : Stamps here ctx (.node l l') ctx₁)
      (right : Stamps here ctx₁ (.node r r') ctx') :
      Stamps here ctx (.form (.infixOp op l r) (.infixOp op l' r')) ctx'
  | statement {here ctx ctx' x y} (inner : Stamps here ctx (.node x y) ctx') :
      Stamps here ctx (.form (.statement x) (.statement y)) ctx'
  | blockParts {here ctx ctx₁ ctx' xs ys x y} (items : Stamps here ctx (.list xs ys) ctx₁)
      (trailing : Stamps here ctx₁ (.option x y) ctx') :
      Stamps here ctx (.form (.block xs x) (.block ys y)) ctx'
  | functionParts {here ctx ctx₁ ctx₂ ctx' name ps qs r r' b b'} (params : Stamps here ctx (.params ps qs) ctx₁)
      (body : Stamps here ctx₁ (.option b b') ctx₂) (result : Stamps here ctx₂ (.node r r') ctx') :
      Stamps here ctx (.form (.functionDef name ps r b) (.functionDef name qs r' b')) ctx'
  | functionCall {here ctx ctx₁ ctx' f f' xs ys} (callee : Stamps here ctx (.node f f') ctx₁)
      (arguments : Stamps here ctx₁ (.list xs ys) ctx') :
      Stamps here ctx (.form (.functionCall f xs) (.functionCall f' ys)) ctx'
  | variableDef {here ctx ctx₁ ctx₂ ctx' n n' t t' i i'} (name : Stamps here ctx (.node n n') ctx₁)
      (type : Stamps here ctx₁ (.node t t') ctx₂) (initializer : Stamps here ctx₂ (.option i i') ctx') :
      Stamps here ctx (.form (.variableDef n t i) (.variableDef n' t' i')) ctx'
  | root {here ctx ctx' xs ys} (items : Stamps here ctx (.list xs ys) ctx') :
      Stamps here ctx (.form (.root xs) (.root ys)) ctx'
  | nil {here ctx} : Stamps here ctx (.list [] []) ctx
  | cons {here ctx ctx₁ ctx' x y xs ys} (first : Stamps here ctx (.node x y) ctx₁)
      (others : Stamps here ctx₁ (.list xs ys) ctx') : Stamps here ctx (.list (x :: xs) (y :: ys)) ctx'
  | none {here ctx} : Stamps here ctx (.option none none) ctx
  | some {here ctx ctx' x y} (inner : Stamps here ctx (.node x y) ctx') :
      Stamps here ctx (.option (some x) (some y)) ctx'
  | noParams {here ctx} : Stamps here ctx (.params [] []) ctx
  | moreParams {here ctx ctx₁ ctx₂ ctx' n n' t t' ps qs} (name : Stamps here ctx (.node n n') ctx₁)
      (type : Stamps here ctx₁ (.node t t') ctx₂) (others : Stamps here ctx₂ (.params ps qs) ctx') :
      Stamps here ctx (.params (⟨n, t⟩ :: ps) (⟨n', t'⟩ :: qs)) ctx'

mutual

theorem stamps_of_stamp (here : ScopeId) (ctx : Context) :
    ∀ n : Node, Stamps here ctx (.node n (n.stamp here ctx).1) (n.stamp here ctx).2
  | ⟨_, _, _, .block items trailing⟩ => .block rfl (stamps_of_stampParts _ _ (.block items trailing))
  | ⟨_, _, _, .functionDef _ params result body⟩ =>
    .functionDef rfl (stamps_of_stampParams _ _ params) (stamps_of_stampBody _ _ body) (stamps_of_stamp here _ result)
  | ⟨_, _, _, .literal token⟩ => .plain nofun nofun (stamps_of_stampParts here ctx (.literal token))
  | ⟨_, _, _, .prefixOp operator operand⟩ =>
    .plain nofun nofun (stamps_of_stampParts here ctx (.prefixOp operator operand))
  | ⟨_, _, _, .infixOp operator left right⟩ =>
    .plain nofun nofun (stamps_of_stampParts here ctx (.infixOp operator left right))
  | ⟨_, _, _, .statement inner⟩ => .plain nofun nofun (stamps_of_stampParts here ctx (.statement inner))
  | ⟨_, _, _, .functionCall callee arguments⟩ =>
    .plain nofun nofun (stamps_of_stampParts here ctx (.functionCall callee arguments))
  | ⟨_, _, _, .variableDef name type initializer⟩ =>
    .plain nofun nofun (stamps_of_stampParts here ctx (.variableDef name type initializer))
  | ⟨_, _, _, .root items⟩ => .plain nofun nofun (stamps_of_stampParts here ctx (.root items))

theorem stamps_of_stampParts (here : ScopeId) (ctx : Context) :
    ∀ f : Form Node, Stamps here ctx (.form f (Node.stampParts here f ctx).1) (Node.stampParts here f ctx).2
  | .literal _ => .literal
  | .prefixOp _ operand => .prefixOp (stamps_of_stamp here ctx operand)
  | .infixOp _ left right => .infixOp (stamps_of_stamp here ctx left) (stamps_of_stamp here _ right)
  | .statement inner => .statement (stamps_of_stamp here ctx inner)
  | .block items trailing => .blockParts (stamps_of_stampList here ctx items) (stamps_of_stampOption here _ trailing)
  | .functionDef _ params result body =>
    .functionParts (stamps_of_stampParams here ctx params) (stamps_of_stampOption here _ body)
      (stamps_of_stamp here _ result)
  | .functionCall callee arguments =>
    .functionCall (stamps_of_stamp here ctx callee) (stamps_of_stampList here _ arguments)
  | .variableDef name type initializer =>
    .variableDef (stamps_of_stamp here ctx name) (stamps_of_stamp here _ type)
      (stamps_of_stampOption here _ initializer)
  | .root items => .root (stamps_of_stampList here ctx items)

theorem stamps_of_stampList (here : ScopeId) (ctx : Context) :
    ∀ xs : List Node, Stamps here ctx (.list xs (Node.stampList here xs ctx).1) (Node.stampList here xs ctx).2
  | [] => .nil
  | x :: xs => .cons (stamps_of_stamp here ctx x) (stamps_of_stampList here _ xs)

theorem stamps_of_stampOption (here : ScopeId) (ctx : Context) :
    ∀ x : Option Node, Stamps here ctx (.option x (Node.stampOption here x ctx).1) (Node.stampOption here x ctx).2
  | none => .none
  | some x => .some (stamps_of_stamp here ctx x)

theorem stamps_of_stampParams (here : ScopeId) (ctx : Context) :
    ∀ ps : List (Param Node),
      Stamps here ctx (.params ps (Node.stampParams here ps ctx).1) (Node.stampParams here ps ctx).2
  | [] => .noParams
  | ⟨name, type⟩ :: ps =>
    .moreParams (stamps_of_stamp here ctx name) (stamps_of_stamp here _ type) (stamps_of_stampParams here _ ps)

theorem stamps_of_stampBody (here : ScopeId) (ctx : Context) :
    ∀ x : Option Node, Stamps here ctx (.body x (Node.stampBody here x ctx).1) (Node.stampBody here x ctx).2
  | none => .noBody
  | some ⟨_, _, _, form⟩ => .body (stamps_of_stampParts here ctx form)

end

/-! ## only scopes are added -/

/-- The second context has more scopes, without symbols, and is the same otherwise. -/
def Context.Opens (ctx ctx' : Context) : Prop :=
  ∃ more, ctx' = { ctx with scopes := ctx.scopes ++ more } ∧ ∀ scope ∈ more, scope.symbols = []

theorem Context.Opens.refl (ctx : Context) : ctx.Opens ctx := ⟨[], by simp, by simp⟩

theorem Context.Opens.trans {ctx ctx' ctx'' : Context} (h : ctx.Opens ctx') (h' : ctx'.Opens ctx'') :
    ctx.Opens ctx'' := by
  obtain ⟨more, rfl, hmore⟩ := h
  obtain ⟨more', rfl, hmore'⟩ := h'
  refine ⟨more ++ more', by simp, fun scope hs => ?_⟩
  rcases List.mem_append.1 hs with hs | hs
  · exact hmore scope hs
  · exact hmore' scope hs

theorem Context.Opens.length_le {ctx ctx' : Context} (h : ctx.Opens ctx') :
    ctx.scopes.length ≤ ctx'.scopes.length := by
  obtain ⟨more, rfl, -⟩ := h
  simp

theorem Context.opens_of_openScope {ctx ctx' : Context} {here inner : ScopeId}
    (h : ctx.openScope here = (inner, ctx')) :
    inner.index = ctx.scopes.length ∧ ctx'.scopes.length = ctx.scopes.length + 1 ∧ ctx.Opens ctx' := by
  obtain ⟨rfl, rfl⟩ := Prod.mk.inj h
  exact ⟨rfl, by simp, [⟨some here, []⟩], rfl, by simp⟩

variable {here : ScopeId} {ctx ctx' : Context} {job : Stamping}

theorem Stamps.opens (h : Stamps here ctx job ctx') : ctx.Opens ctx' := by
  induction h with
  | block opens _ ih => exact (Context.opens_of_openScope opens).2.2.trans ih
  | functionDef opens _ _ _ ihp ihb ihr =>
    exact (Context.opens_of_openScope opens).2.2.trans (ihp.trans (ihb.trans ihr))
  | plain _ _ _ ih => exact ih
  | body _ ih => exact ih
  | prefixOp _ ih => exact ih
  | infixOp _ _ ihl ihr => exact ihl.trans ihr
  | statement _ ih => exact ih
  | blockParts _ _ ihi iht => exact ihi.trans iht
  | functionParts _ _ _ ihp ihb ihr => exact ihp.trans (ihb.trans ihr)
  | functionCall _ _ ihc iha => exact ihc.trans iha
  | variableDef _ _ _ ihn iht ihi => exact ihn.trans (iht.trans ihi)
  | root _ ih => exact ih
  | cons _ _ ihf iho => exact ihf.trans iho
  | some _ ih => exact ih
  | moreParams _ _ _ ihn iht iho => exact ihn.trans (iht.trans iho)
  | _ => exact .refl _

/-! ## only notes change -/

/-- The second node is the first with scopes noted, as a node or as the body of a function. -/
def StampedAs (x y : Node) : Prop :=
  ∃ here ctx ctx', Stamps here ctx (.node x y) ctx' ∨ Stamps here ctx (.body (some x) (some y)) ctx'

/-- The parts before and after are related in their order. -/
def Stamping.Alike : Stamping → Prop
  | .node _ _ => True
  | .form f g => Form.Rel StampedAs f g
  | .list xs ys => List.Forall₂ StampedAs xs ys
  | .body x y | .option x y => Option.Rel StampedAs x y
  | .params ps qs => List.Forall₂ (Param.Rel StampedAs) ps qs

theorem Stamps.stampedAs {x y : Node} (h : Stamps here ctx (.node x y) ctx') : StampedAs x y :=
  ⟨here, ctx, ctx', .inl h⟩

theorem Stamps.alike (h : Stamps here ctx job ctx') : job.Alike := by
  induction h with
  | block | functionDef | plain => trivial
  | noBody => exact .none
  | body parts => exact .some ⟨_, _, _, .inr (.body parts)⟩
  | literal => exact .literal _
  | prefixOp operand => exact .prefixOp operand.stampedAs
  | infixOp left right => exact .infixOp left.stampedAs right.stampedAs
  | statement inner => exact .statement inner.stampedAs
  | blockParts _ _ ihi iht => exact .block ihi iht
  | functionParts _ _ result ihp ihb => exact .functionDef ihp result.stampedAs ihb
  | functionCall callee _ _ iha => exact .functionCall callee.stampedAs iha
  | variableDef name type _ _ _ ihi => exact .variableDef name.stampedAs type.stampedAs ihi
  | root _ ih => exact .root ih
  | nil => exact .nil
  | cons first _ _ iho => exact .cons first.stampedAs iho
  | none => exact .none
  | some inner => exact .some inner.stampedAs
  | noParams => exact .nil
  | moreParams name type _ _ _ iho => exact .cons ⟨name.stampedAs, type.stampedAs⟩ iho

/-- Noting scopes changes no span and no form. -/
theorem likeness_stampedAs : Likeness StampedAs where
  span := by
    rintro x y ⟨here, ctx, ctx', h | h⟩ <;> cases h <;> rfl
  form := by
    rintro x y ⟨here, ctx, ctx', h | h⟩
    · cases h with
      | block _ parts => exact parts.alike
      | functionDef _ params body result => exact .functionDef params.alike result.stampedAs body.alike
      | plain _ _ parts => exact parts.alike
    · cases h with
      | body parts => exact parts.alike

theorem Check.unnoted_scopes (n : Node) : (Check.scopes .new n).1.unnoted = n.unnoted :=
  (Node.unnoted_of_likeness likeness_stampedAs (stamps_of_stamp .root .new n).stampedAs).symm

/-! ## where the nodes stand -/

/-- All nodes of the pieces after the scopes are noted. -/
def Stamping.nodes : Stamping → List Node
  | .node _ y => y.preorder
  | .form _ g => g.parts.flatMap Node.preorder
  | .list _ ys => ys.flatMap Node.preorder
  | .body _ y | .option _ y => y.toList.flatMap Node.preorder
  | .params _ qs => (qs.flatMap fun q => [q.name, q.type]).flatMap Node.preorder

/-- The node stands in the scope `here` or in one that the second context has beyond the first. -/
def StandsIn (here : ScopeId) (ctx ctx' : Context) (n : Node) : Prop :=
  ∃ s, n.scope = some s ∧ (s = here ∨ ctx.scopes.length ≤ s.index ∧ s.index < ctx'.scopes.length)

theorem StandsIn.widen {ctx₀ ctx₁ ctx₂ ctx₃ : Context} {n : Node} (h : StandsIn here ctx₁ ctx₂ n)
    (h₀ : ctx₀.Opens ctx₁) (h₃ : ctx₂.Opens ctx₃) : StandsIn here ctx₀ ctx₃ n := by
  obtain ⟨s, hs, hin⟩ := h
  have := h₀.length_le
  have := h₃.length_le
  exact ⟨s, hs, hin.imp_right fun ⟨hlo, hhi⟩ => ⟨by omega, by omega⟩⟩

theorem StandsIn.leave {inner : ScopeId} {ctx₀ ctx₁ ctx₂ : Context} {n : Node}
    (h : StandsIn inner ctx₁ ctx₂ n) (opens : ctx.openScope here = (inner, ctx₀)) (h₁ : ctx₀.Opens ctx₁)
    (h₂ : ctx₁.Opens ctx₂) (h' : ctx₂.Opens ctx') : StandsIn here ctx ctx' n := by
  obtain ⟨s, hs, hin⟩ := h
  obtain ⟨hinner, hlength, -⟩ := Context.opens_of_openScope opens
  have := h₁.length_le
  have := h₂.length_le
  have := h'.length_le
  refine ⟨s, hs, .inr ?_⟩
  rcases hin with rfl | ⟨hlo, hhi⟩ <;> omega

theorem standsIn_self {span : Span} {type : Option TypeId} {form : Form Node} :
    StandsIn here ctx ctx' ⟨span, some here, type, form⟩ := ⟨here, rfl, .inl rfl⟩

/-- Where two stretches of the walk follow each other, the nodes of both stand in scopes of the whole. -/
theorem standsIn_append {ctx₁ : Context} {xs ys : List Node} (hx : ∀ n ∈ xs, StandsIn here ctx ctx₁ n)
    (hy : ∀ n ∈ ys, StandsIn here ctx₁ ctx' n) (h : ctx.Opens ctx₁) (h' : ctx₁.Opens ctx') :
    ∀ n ∈ xs ++ ys, StandsIn here ctx ctx' n :=
  List.forall_mem_append.2 ⟨fun n hn => (hx n hn).widen (.refl _) h', fun n hn => (hy n hn).widen h (.refl _)⟩

/-- A node stands in the scope it is noted with, and the nodes below it there or in scopes opened on the way. -/
theorem Stamps.inside (h : Stamps here ctx job ctx') : ∀ n ∈ job.nodes, StandsIn here ctx ctx' n := by
  induction h with
  | block opens parts ih =>
    rw [Stamping.nodes, Node.preorder_eq]
    exact List.forall_mem_cons.2 ⟨standsIn_self, fun n hn => (ih n hn).leave opens (.refl _) parts.opens (.refl _)⟩
  | functionDef opens params body result ihp ihb ihr =>
    have hopen := (Context.opens_of_openScope opens).2.2
    rw [Stamping.nodes, Node.preorder_eq]
    refine List.forall_mem_cons.2 ⟨standsIn_self, ?_⟩
    simp only [Node.children, Form.parts, List.flatMap_append, List.flatMap_singleton, List.forall_mem_append]
    -- the parameters and the body stand in the scope of the function, the result beside it
    refine ⟨⟨fun n hn => ?_, fun n hn => ?_⟩, fun n hn => ?_⟩
    · exact (ihp n hn).leave opens (.refl _) params.opens (body.opens.trans result.opens)
    · exact (ihb n hn).leave opens params.opens body.opens result.opens
    · exact (ihr n hn).widen (hopen.trans (params.opens.trans body.opens)) (.refl _)
  | plain _ _ _ ih =>
    rw [Stamping.nodes, Node.preorder_eq]
    exact List.forall_mem_cons.2 ⟨standsIn_self, ih⟩
  | body _ ih =>
    simp only [Stamping.nodes, Option.toList_some, List.flatMap_singleton, Node.preorder_eq]
    exact List.forall_mem_cons.2 ⟨standsIn_self, ih⟩
  | noBody | literal | nil | none | noParams => exact nofun
  | prefixOp _ ih | statement _ ih | some _ ih =>
    simpa only [Stamping.nodes, Form.parts, Option.toList_some, List.flatMap_singleton] using ih
  | root _ ih => exact ih
  | infixOp left right ihl ihr =>
    simp only [Stamping.nodes, Form.parts, List.flatMap_cons, List.flatMap_nil, List.append_nil]
    exact standsIn_append ihl ihr left.opens right.opens
  | blockParts items trailing ihi iht =>
    simp only [Stamping.nodes, Form.parts, List.flatMap_append]
    exact standsIn_append ihi iht items.opens trailing.opens
  | functionParts params body result ihp ihb ihr =>
    simp only [Stamping.nodes, Form.parts, List.flatMap_append, List.flatMap_singleton]
    exact standsIn_append (standsIn_append ihp ihb params.opens body.opens) ihr
      (params.opens.trans body.opens) result.opens
  | functionCall callee arguments ihc iha => exact standsIn_append ihc iha callee.opens arguments.opens
  | variableDef name type initializer ihn iht ihi =>
    exact standsIn_append ihn (standsIn_append iht ihi type.opens initializer.opens) name.opens
      (type.opens.trans initializer.opens)
  | cons first others ihf iho => exact standsIn_append ihf iho first.opens others.opens
  | moreParams name type others ihn iht iho =>
    exact standsIn_append ihn (standsIn_append iht iho type.opens others.opens) name.opens
      (type.opens.trans others.opens)

end LetFn
