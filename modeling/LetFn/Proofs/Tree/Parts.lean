import LetFn.Tree.Revise
import LetFn.Tree.Walk
import Mathlib.Data.List.Forall2

/-!
# Trees node by node

* `Everywhere P n` — `P` holds of `n` and of every node below it;
* `Form.Rel R` — two forms of the same shape over the same tokens whose parts are related by `R`, in their order;
* `reviseParts_eq_ok` — a revision of parts is a form related to the old one by the revision of each part;
* `revised_preorder` — a rule that changes only type notes (`OnlyNotes`) revises a tree node by node: the nodes of the
  new tree are the revised nodes of the old one, in the same order, up to their own notes.
-/

namespace LetFn

/-! ## results of steps -/

theorem bind_eq_ok {ε α β : Type} {x : Except ε α} {f : α → Except ε β} {b : β} :
    x >>= f = .ok b ↔ ∃ a, x = .ok a ∧ f a = .ok b := by
  cases x <;> simp [bind, Except.bind]

theorem bind_eq_error {ε α β : Type} {x : Except ε α} {f : α → Except ε β} {e : ε} :
    x >>= f = .error e ↔ x = .error e ∨ ∃ a, x = .ok a ∧ f a = .error e := by
  cases x <;> simp [bind, Except.bind]

theorem throw_ne_ok {ε α : Type} {e : ε} {a : α} : (throw e : Except ε α) ≠ .ok a := nofun

/-- A step gives a result, and `p` holds of it. -/
def Yields {ε α : Type} (p : α → Prop) : Except ε α → Prop
  | .ok a => p a
  | .error _ => False

instance {ε α : Type} {p : α → Prop} [DecidablePred p] : ∀ x : Except ε α, Decidable (Yields p x)
  | .ok a => inferInstanceAs (Decidable (p a))
  | .error _ => inferInstanceAs (Decidable False)

theorem yields_iff {ε α : Type} {p : α → Prop} {x : Except ε α} : Yields p x ↔ ∃ a, x = .ok a ∧ p a := by
  cases x <;> simp [Yields]

/-! ## a property of all nodes -/

namespace Node

/-- `P` holds of the node and of all nodes below it. -/
def Everywhere (P : Node → Prop) (n : Node) : Prop := ∀ x ∈ n.preorder, P x

variable {P Q : Node → Prop}

theorem everywhere_iff {n : Node} : Everywhere P n ↔ P n ∧ ∀ c ∈ n.children, Everywhere P c := by
  unfold Everywhere
  rw [preorder_eq]
  simp only [List.mem_cons, List.mem_flatMap, forall_eq_or_imp, forall_exists_index, and_imp]
  exact and_congr_right fun _ => ⟨fun h c hc x hx => h x c hc hx, fun h x c hc hx => h c hc x hx⟩

theorem Everywhere.self {n : Node} (h : Everywhere P n) : P n := h n n.mem_preorder_self

theorem Everywhere.child {n c : Node} (h : Everywhere P n) (hc : c ∈ n.children) : Everywhere P c :=
  (everywhere_iff.1 h).2 c hc

theorem Everywhere.mono {n : Node} (hPQ : ∀ x, P x → Q x) (h : Everywhere P n) : Everywhere Q n :=
  fun x hx => hPQ x (h x hx)

theorem mem_preorder_trans {n x y : Node} (hx : x ∈ n.preorder) (hy : y ∈ x.preorder) : y ∈ n.preorder := by
  induction n using childInduction with
  | step n ih =>
    rw [preorder_eq, List.mem_cons] at hx
    rcases hx with rfl | hx
    · exact hy
    · obtain ⟨c, hc, hx⟩ := List.mem_flatMap.1 hx
      rw [preorder_eq]
      exact List.mem_cons_of_mem _ (List.mem_flatMap.2 ⟨c, hc, ih c hc hx⟩)

/-- What holds everywhere in a tree holds everywhere below each of its nodes. -/
theorem Everywhere.below {n x : Node} (h : Everywhere P n) (hx : x ∈ n.preorder) : Everywhere P x :=
  fun _ hy => h _ (mem_preorder_trans hx hy)

end Node

/-! ## a property of all parts -/

variable {α β γ : Type}

section

variable {P : α → Prop}

theorem Form.forall_infixOp {operator : Token} {left right : α} :
    (∀ c ∈ (infixOp operator left right).parts, P c) ↔ P left ∧ P right := by
  simp [parts]

theorem Form.forall_functionDef {name : Token} {params : List (Param α)} {result : α} {body : Option α} :
    (∀ c ∈ (functionDef name params result body).parts, P c) ↔
      (∀ p ∈ params, P p.name ∧ P p.type) ∧ (∀ b ∈ body, P b) ∧ P result := by
  simp only [parts, List.forall_mem_append, List.forall_mem_flatMap, List.forall_mem_cons, List.not_mem_nil,
    IsEmpty.forall_iff, implies_true, and_true, Option.mem_toList, Option.mem_def, and_assoc]

theorem Form.forall_functionCall {callee : α} {arguments : List α} :
    (∀ c ∈ (functionCall callee arguments).parts, P c) ↔ P callee ∧ ∀ x ∈ arguments, P x := List.forall_mem_cons

theorem Form.forall_variableDef {name type : α} {initializer : Option α} :
    (∀ c ∈ (variableDef name type initializer).parts, P c) ↔ P name ∧ P type ∧ ∀ x ∈ initializer, P x := by
  simp [parts]

end

theorem Node.mem_children_of_param {n : Node} {name : Token} {params : List (Param Node)} {result : Node}
    {body : Option Node} {p : Param Node} (hform : n.form = .functionDef name params result body) (hp : p ∈ params) :
    p.name ∈ n.children ∧ p.type ∈ n.children := by
  rw [children, hform]
  exact (Form.forall_functionDef.1 fun _ hc => hc).1 p hp

/-! ## forms of the same shape -/

structure Param.Rel (R : α → β → Prop) (p : Param α) (q : Param β) : Prop where
  name : R p.name q.name
  type : R p.type q.type

/-- Two forms of the same shape over the same tokens, with related parts. -/
inductive Form.Rel (R : α → β → Prop) : Form α → Form β → Prop where
  | literal (token) : Rel R (.literal token) (.literal token)
  | prefixOp {op x y} (operand : R x y) : Rel R (.prefixOp op x) (.prefixOp op y)
  | infixOp {op l l' r r'} (left : R l l') (right : R r r') : Rel R (.infixOp op l r) (.infixOp op l' r')
  | statement {x y} (inner : R x y) : Rel R (.statement x) (.statement y)
  | block {xs ys x y} (items : List.Forall₂ R xs ys) (trailing : Option.Rel R x y) : Rel R (.block xs x) (.block ys y)
  | functionDef {name ps qs r r' b b'} (params : List.Forall₂ (Param.Rel R) ps qs) (result : R r r')
      (body : Option.Rel R b b') : Rel R (.functionDef name ps r b) (.functionDef name qs r' b')
  | functionCall {f f' xs ys} (callee : R f f') (arguments : List.Forall₂ R xs ys) :
      Rel R (.functionCall f xs) (.functionCall f' ys)
  | variableDef {n n' t t' i i'} (name : R n n') (type : R t t') (initializer : Option.Rel R i i') :
      Rel R (.variableDef n t i) (.variableDef n' t' i')
  | root {xs ys} (items : List.Forall₂ R xs ys) : Rel R (.root xs) (.root ys)

theorem option_rel_refl {R : α → α → Prop} (hR : ∀ x, R x x) (x : Option α) : Option.Rel R x x := by
  cases x with
  | none => exact .none
  | some x => exact .some (hR x)

theorem Form.Rel.refl {R : α → α → Prop} (hR : ∀ x, R x x) (f : Form α) : Form.Rel R f f := by
  have hlist : ∀ xs : List α, List.Forall₂ R xs xs := fun xs => List.forall₂_same.2 fun x _ => hR x
  cases f with
  | literal token => exact .literal token
  | prefixOp => exact .prefixOp (hR _)
  | infixOp => exact .infixOp (hR _) (hR _)
  | statement => exact .statement (hR _)
  | block xs x => exact .block (hlist xs) (option_rel_refl hR x)
  | functionDef name ps r b =>
    exact .functionDef (List.forall₂_same.2 fun p _ => ⟨hR _, hR _⟩) (hR r) (option_rel_refl hR b)
  | functionCall f xs => exact .functionCall (hR f) (hlist xs)
  | variableDef n t i => exact .variableDef (hR n) (hR t) (option_rel_refl hR i)
  | root xs => exact .root (hlist xs)

section

variable {R : α → β → Prop} {f : Form α} {g : Form β}

theorem Form.Rel.tag (h : Form.Rel R f g) : g.tag = f.tag := by cases h <;> rfl

theorem Form.Rel.of_variable {name type : α} {i : Option α} (h : Form.Rel R (.variableDef name type i) g) :
    ∃ name' type' i', g = .variableDef name' type' i' ∧ R name name' ∧ R type type' ∧ Option.Rel R i i' := by
  cases h with
  | variableDef hname htype hi => exact ⟨_, _, _, rfl, hname, htype, hi⟩

theorem Form.Rel.of_initializer {name type i : α} (h : Form.Rel R (.variableDef name type (some i)) g) :
    ∃ name' type' i', g = .variableDef name' type' (some i') ∧ R type type' ∧ R i i' := by
  cases h with
  | variableDef _ htype hi =>
    cases hi with
    | some hi => exact ⟨_, _, _, rfl, htype, hi⟩

theorem Form.Rel.of_body {name : Token} {params : List (Param α)} {result body : α}
    (h : Form.Rel R (.functionDef name params result (some body)) g) :
    ∃ params' result' body', g = .functionDef name params' result' (some body') ∧ R result result' ∧ R body body' := by
  cases h with
  | functionDef _ hresult hbody =>
    cases hbody with
    | some hbody => exact ⟨_, _, _, rfl, hresult, hbody⟩

theorem Form.Rel.of_call {callee : α} {arguments : List α} (h : Form.Rel R (.functionCall callee arguments) g) :
    ∃ callee' arguments', g = .functionCall callee' arguments' ∧ R callee callee' ∧
      List.Forall₂ R arguments arguments' := by
  cases h with
  | functionCall hcallee harguments => exact ⟨_, _, rfl, hcallee, harguments⟩

end

/-- A relation of the parts may be replaced by one that follows from it. -/
theorem Form.Rel.imp {R S : α → β → Prop} {f : Form α} {g : Form β} (hRS : ∀ {x y}, R x y → S x y)
    (h : Form.Rel R f g) : Form.Rel S f g := by
  have hlist : ∀ {xs : List α} {ys : List β}, List.Forall₂ R xs ys → List.Forall₂ S xs ys := fun h =>
    h.imp fun _ _ => hRS
  have hoption : ∀ {x : Option α} {y : Option β}, Option.Rel R x y → Option.Rel S x y := fun h => by
    cases h with
    | none => exact .none
    | some h => exact .some (hRS h)
  cases h with
  | literal token => exact .literal token
  | prefixOp operand => exact .prefixOp (hRS operand)
  | infixOp left right => exact .infixOp (hRS left) (hRS right)
  | statement inner => exact .statement (hRS inner)
  | block items trailing => exact .block (hlist items) (hoption trailing)
  | functionDef params result body =>
    exact .functionDef (params.imp fun _ _ hp => ⟨hRS hp.name, hRS hp.type⟩) (hRS result) (hoption body)
  | functionCall callee arguments => exact .functionCall (hRS callee) (hlist arguments)
  | variableDef name type initializer => exact .variableDef (hRS name) (hRS type) (hoption initializer)
  | root items => exact .root (hlist items)

theorem forall₂_toList {R : α → β → Prop} {x : Option α} {y : Option β} (h : Option.Rel R x y) :
    List.Forall₂ R x.toList y.toList := by
  cases h with
  | some h => exact .cons h .nil
  | none => exact .nil

theorem forall₂_append {R : α → β → Prop} {xs xs' : List α} {ys ys' : List β} (h : List.Forall₂ R xs ys)
    (h' : List.Forall₂ R xs' ys') : List.Forall₂ R (xs ++ xs') (ys ++ ys') := List.rel_append h h'

theorem forall₂_params {R : α → β → Prop} {ps : List (Param α)} {qs : List (Param β)}
    (h : List.Forall₂ (Param.Rel R) ps qs) :
    List.Forall₂ R (ps.flatMap fun p => [p.name, p.type]) (qs.flatMap fun q => [q.name, q.type]) := by
  induction h with
  | nil => exact .nil
  | cons hp _ ih => exact forall₂_append (.cons hp.name (.cons hp.type .nil)) ih

theorem Form.Rel.parts {R : α → β → Prop} {f : Form α} {g : Form β} (h : Form.Rel R f g) :
    List.Forall₂ R f.parts g.parts := by
  cases h with
  | literal => exact .nil
  | prefixOp operand => exact .cons operand .nil
  | infixOp left right => exact .cons left (.cons right .nil)
  | statement inner => exact .cons inner .nil
  | block items trailing => exact forall₂_append items (forall₂_toList trailing)
  | functionDef params result body =>
    exact forall₂_append (forall₂_append (forall₂_params params) (forall₂_toList body)) (.cons result .nil)
  | functionCall callee arguments => exact .cons callee arguments
  | variableDef name type initializer => exact .cons name (.cons type (forall₂_toList initializer))
  | root items => exact items

/-! ## revisions -/

namespace Node

section

variable {ε : Type} {rule : Node → Except ε Node}

/-- One node is the revision of another. -/
def Revised (rule : Node → Except ε Node) (x y : Node) : Prop := x.revise rule = .ok y

/-- The same node but for its own type note. -/
def Renoted (x y : Node) : Prop := ∃ type, y = { x with type }

theorem Renoted.refl (x : Node) : Renoted x x := ⟨x.type, by cases x; rfl⟩

theorem reviseList_eq_ok {xs ys : List Node} (h : reviseList rule xs = .ok ys) :
    List.Forall₂ (Revised rule) xs ys := by
  induction xs generalizing ys with
  | nil =>
    obtain rfl := Except.ok.inj h
    exact .nil
  | cons x xs ih =>
    simp only [reviseList, bind_eq_ok, pure, Except.pure, Except.ok.injEq] at h
    obtain ⟨y, hy, ys, hys, rfl⟩ := h
    exact .cons hy (ih hys)

theorem reviseOption_eq_ok {x y : Option Node} (h : reviseOption rule x = .ok y) :
    Option.Rel (Revised rule) x y := by
  cases x with
  | none =>
    obtain rfl := Except.ok.inj h
    exact .none
  | some x =>
    simp only [reviseOption, bind_eq_ok, pure, Except.pure, Except.ok.injEq] at h
    obtain ⟨y, hy, rfl⟩ := h
    exact .some hy

theorem reviseParams_eq_ok {ps qs : List (Param Node)} (h : reviseParams rule ps = .ok qs) :
    List.Forall₂ (Param.Rel (Revised rule)) ps qs := by
  induction ps generalizing qs with
  | nil =>
    obtain rfl := Except.ok.inj h
    exact .nil
  | cons p ps ih =>
    simp only [reviseParams, bind_eq_ok, pure, Except.pure, Except.ok.injEq] at h
    obtain ⟨name, hn, type, ht, qs, hqs, rfl⟩ := h
    exact .cons ⟨hn, ht⟩ (ih hqs)

theorem reviseParts_eq_ok {f g : Form Node} (h : reviseParts rule f = .ok g) : Form.Rel (Revised rule) f g := by
  cases f with
  | literal token =>
    obtain rfl := Except.ok.inj h
    exact .literal token
  | prefixOp =>
    simp only [reviseParts, bind_eq_ok, pure, Except.pure, Except.ok.injEq] at h
    obtain ⟨y, hy, rfl⟩ := h
    exact .prefixOp hy
  | infixOp =>
    simp only [reviseParts, bind_eq_ok, pure, Except.pure, Except.ok.injEq] at h
    obtain ⟨l, hl, r, hr, rfl⟩ := h
    exact .infixOp hl hr
  | statement =>
    simp only [reviseParts, bind_eq_ok, pure, Except.pure, Except.ok.injEq] at h
    obtain ⟨y, hy, rfl⟩ := h
    exact .statement hy
  | block =>
    simp only [reviseParts, bind_eq_ok, pure, Except.pure, Except.ok.injEq] at h
    obtain ⟨ys, hys, y, hy, rfl⟩ := h
    exact .block (reviseList_eq_ok hys) (reviseOption_eq_ok hy)
  | functionDef =>
    simp only [reviseParts, bind_eq_ok, pure, Except.pure, Except.ok.injEq] at h
    obtain ⟨qs, hqs, b, hb, r, hr, rfl⟩ := h
    exact .functionDef (reviseParams_eq_ok hqs) hr (reviseOption_eq_ok hb)
  | functionCall =>
    simp only [reviseParts, bind_eq_ok, pure, Except.pure, Except.ok.injEq] at h
    obtain ⟨c, hc, ys, hys, rfl⟩ := h
    exact .functionCall hc (reviseList_eq_ok hys)
  | variableDef =>
    simp only [reviseParts, bind_eq_ok, pure, Except.pure, Except.ok.injEq] at h
    obtain ⟨n, hn, t, ht, i, hi, rfl⟩ := h
    exact .variableDef hn ht (reviseOption_eq_ok hi)
  | root =>
    simp only [reviseParts, bind_eq_ok, pure, Except.pure, Except.ok.injEq] at h
    obtain ⟨ys, hys, rfl⟩ := h
    exact .root (reviseList_eq_ok hys)

/-- A node is revised by the rule, after its parts. -/
theorem revise_eq_ok_iff {n n' : Node} :
    n.revise rule = .ok n' ↔ ∃ form, reviseParts rule n.form = .ok form ∧ rule { n with form } = .ok n' := by
  obtain ⟨span, scope, type, form⟩ := n
  simp only [revise, bind_eq_ok]

/-- The rule changes nothing but the type notes of its node and of the parts of that node. -/
structure OnlyNotes (rule : Node → Except ε Node) : Prop where
  span : ∀ {n n'}, rule n = .ok n' → n'.span = n.span
  scope : ∀ {n n'}, rule n = .ok n' → n'.scope = n.scope
  parts : ∀ {n n'}, rule n = .ok n' → Form.Rel Renoted n.form n'.form

section

variable (hrule : OnlyNotes rule) {x y : Node} (h : Revised rule x y)

include hrule h

theorem OnlyNotes.span_eq : y.span = x.span := by
  obtain ⟨form, -, h⟩ := revise_eq_ok_iff.1 h
  have hspan := hrule.span h
  exact hspan

theorem OnlyNotes.scope_eq : y.scope = x.scope := by
  obtain ⟨form, -, h⟩ := revise_eq_ok_iff.1 h
  have hscope := hrule.scope h
  exact hscope

theorem OnlyNotes.tag_eq : y.tag = x.tag := by
  obtain ⟨form, hform, h⟩ := revise_eq_ok_iff.1 h
  exact (hrule.parts h).tag.trans (reviseParts_eq_ok hform).tag

theorem OnlyNotes.form_of_leaf {token : Token} (hx : x.form = .literal token) : y.form = .literal token := by
  obtain ⟨form, hform, h⟩ := revise_eq_ok_iff.1 h
  rw [hx] at hform
  obtain rfl := Except.ok.inj hform
  have hparts := hrule.parts h
  generalize y.form = g at hparts ⊢
  cases hparts
  rfl

end

/-- A node with the revision of another that differs from it in its own note at most. -/
def RevisedAs (rule : Node → Except ε Node) (x y : Node) : Prop := ∃ z, Revised rule x z ∧ Renoted z y

theorem forall₂_comp {R : α → β → Prop} {S : β → γ → Prop} {xs : List α} {ys : List β} {zs : List γ}
    (h : List.Forall₂ R xs ys) (h' : List.Forall₂ S ys zs) :
    List.Forall₂ (fun x z => ∃ y, R x y ∧ S y z) xs zs := by
  induction h generalizing zs with
  | nil =>
    cases h'
    exact .nil
  | cons hxy _ ih =>
    cases h' with
    | cons hyz h' => exact .cons ⟨_, hxy, hyz⟩ (ih h')

/-- **A revised tree lists the revised nodes** of the old one, in the same order. -/
theorem revised_preorder (hrule : OnlyNotes rule) {n n' : Node} (h : n.revise rule = .ok n') :
    List.Forall₂ (RevisedAs rule) n.preorder n'.preorder := by
  induction n using childInduction generalizing n' with
  | step n ih =>
    obtain ⟨form, hform, hn⟩ := revise_eq_ok_iff.1 h
    have hparts := forall₂_comp (reviseParts_eq_ok hform).parts (hrule.parts hn).parts
    rw [preorder_eq, preorder_eq]
    refine .cons ⟨n', h, .refl n'⟩ ?_
    change List.Forall₂ _ n.children n'.children at hparts
    have below : ∀ c ∈ n.children, ∀ c', RevisedAs rule c c' →
        List.Forall₂ (RevisedAs rule) c.preorder c'.preorder := by
      rintro c hc c' ⟨z, hz, type, rfl⟩
      have := ih c hc hz
      rw [preorder_eq, preorder_eq] at this ⊢
      cases this with
      | cons _ hrest => exact .cons ⟨z, hz, type, rfl⟩ hrest
    clear h hform hn ih
    generalize n.children = xs, n'.children = ys at hparts below ⊢
    induction hparts with
    | nil => exact .nil
    | cons hx _ ih =>
      rw [List.flatMap_cons, List.flatMap_cons]
      exact forall₂_append (below _ (by simp) _ hx) (ih fun c hc => below c (List.mem_cons_of_mem _ hc))

end

/-! ## changes of type notes -/

section

variable (f : Option TypeId → Option TypeId)

theorem mapTypeList_eq (xs : List Node) : mapTypeList f xs = xs.map (mapType f) := by
  induction xs with
  | nil => rfl
  | cons x xs ih => rw [mapTypeList, ih, List.map_cons]

theorem mapTypeOption_eq (x : Option Node) : mapTypeOption f x = x.map (mapType f) := by cases x <;> rfl

theorem mapTypeParams_eq (ps : List (Param Node)) :
    mapTypeParams f ps = ps.map fun p => ⟨mapType f p.name, mapType f p.type⟩ := by
  induction ps with
  | nil => rfl
  | cons p ps ih => rw [mapTypeParams, ih, List.map_cons]

theorem mapType_eq (n : Node) : n.mapType f = ⟨n.span, n.scope, f n.type, mapTypeParts f n.form⟩ := by
  cases n
  rfl

theorem parts_mapTypeParts (form : Form Node) : (mapTypeParts f form).parts = form.parts.map (mapType f) := by
  cases form <;> simp [mapTypeParts, Form.parts, mapTypeList_eq, mapTypeOption_eq, mapTypeParams_eq,
    List.map_flatMap, List.flatMap_map, Option.toList_map]

theorem children_mapType (n : Node) : (n.mapType f).children = n.children.map (mapType f) := by
  rw [children, mapType_eq, parts_mapTypeParts, children]

theorem preorder_mapType (n : Node) : (n.mapType f).preorder = n.preorder.map (mapType f) := by
  induction n using childInduction with
  | step n ih =>
    rw [preorder_eq, preorder_eq, children_mapType, List.map_cons, List.map_flatMap, List.flatMap_map]
    congr 1
    exact List.flatMap_congr ih

end

end Node

end LetFn
