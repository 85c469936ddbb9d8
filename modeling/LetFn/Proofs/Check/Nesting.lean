import LetFn.Proofs.Check.Scoping
import Mathlib.Data.List.Perm.Basic

/-!
# Scopes and nesting

A block opens a scope, unless it is the body of a function, and so does a function definition. Such a node is an
*owner*.

* `n.besides` — the parts of a node that stand in the scope where the node stands;
* `n.opened` — the parts that stand in the scope that the node opens, with the parts of a body in place of the body;
* `n.level` — the nodes of a tree that stand where its root stands, `n.inside` — those in the scope that the root opens;
* `n.owners` — the owners in a tree, outer ones before those inside them;
* `Nested here ctx ctx' level owners` — what stamping leaves: `level` stands in `here`, and each owner got one scope, in
  the order of the owners, below the scope where the owner stands.

Main facts: `preorder_perm_scopes` (every node stands where the root stands or inside one owner), `Stamps.nested`,
`scopes_follow_nesting`.
-/

namespace LetFn

namespace Node

/-- The parts of a node that stand in the scope where the node stands. -/
def besides (n : Node) : List Node :=
  match n.form with
  | .block _ _ => []
  | .functionDef _ _ result _ => [result]
  | form => form.parts

/-- The body of a function, which stands in the function's scope and opens none itself. -/
def bodies (n : Node) : List Node :=
  match n.form with
  | .functionDef _ _ _ body => body.toList
  | _ => []

/-- The parts that stand in the scope that a node opens, with the parts of a body in place of the body. -/
def opened (n : Node) : List Node :=
  match n.form with
  | .block items trailing => items ++ trailing.toList
  | .functionDef _ params _ body =>
    params.flatMap (fun p => [p.name, p.type]) ++ body.toList.flatMap children
  | _ => []

/-- Blocks and function definitions open scopes, bodies of functions apart. -/
def opens (n : Node) : Bool := n.tag = .block || n.tag = .functionDef

theorem sizeOf_lt_of_mem_besides {n c : Node} (h : c ∈ n.besides) : sizeOf c < sizeOf n := by
  refine sizeOf_lt_of_mem_children ?_
  unfold besides at h
  unfold children
  split at h
  · exact absurd h List.not_mem_nil
  · next hform => simpa [hform, Form.parts] using .inr (.inr (List.mem_singleton.1 h))
  · exact h

theorem sizeOf_lt_of_mem_opened {n c : Node} (h : c ∈ n.opened) : sizeOf c < sizeOf n := by
  unfold opened at h
  split at h
  · next hform => exact sizeOf_lt_of_mem_children (by rwa [children, hform])
  · next hform =>
    rcases List.mem_append.1 h with h | h
    · refine sizeOf_lt_of_mem_children ?_
      rw [children, hform]
      exact List.mem_append_left _ (List.mem_append_left _ h)
    · -- a part of the body is smaller than the body
      obtain ⟨b, hb, hc⟩ := List.mem_flatMap.1 h
      refine Nat.lt_trans (sizeOf_lt_of_mem_children hc) (sizeOf_lt_of_mem_children ?_)
      rw [children, hform]
      exact List.mem_append_left _ (List.mem_append_right _ hb)
  · exact absurd h List.not_mem_nil

theorem sizeOf_lt_of_mem {n c : Node} (h : c ∈ n.opened ++ n.besides) : sizeOf c < sizeOf n :=
  (List.mem_append.1 h).elim sizeOf_lt_of_mem_opened sizeOf_lt_of_mem_besides

/-- The nodes of a tree that stand in the scope where its root stands. -/
def level (n : Node) : List Node := n :: n.besides.attach.flatMap fun c => level c.1
termination_by sizeOf n
decreasing_by exact sizeOf_lt_of_mem_besides c.2

/-- The nodes of a tree that stand in the scope that its root opens. -/
def inside (n : Node) : List Node := n.bodies ++ n.opened.flatMap level

/-- The owners of scopes in a tree, outer ones before those inside them. -/
def owners (n : Node) : List Node :=
  (if n.opens then [n] else []) ++ (n.opened ++ n.besides).attach.flatMap fun c => owners c.1
termination_by sizeOf n
decreasing_by exact sizeOf_lt_of_mem c.2

theorem level_eq (n : Node) : n.level = n :: n.besides.flatMap level := by
  rw [level, List.flatMap_subtype fun _ _ => rfl, List.unattach_attach]

theorem owners_eq (n : Node) :
    n.owners = (if n.opens then [n] else []) ++ (n.opened ++ n.besides).flatMap owners := by
  rw [owners, List.flatMap_subtype fun _ _ => rfl, List.unattach_attach]

/-- A property that passes to a node from the parts in the scope that it opens and from those besides it holds of every
tree. -/
theorem scopeInduction {P : Node → Prop} (step : ∀ n, (∀ c ∈ n.opened ++ n.besides, P c) → P n) (n : Node) : P n :=
  step n fun c _ => scopeInduction step c
termination_by sizeOf n
decreasing_by exact sizeOf_lt_of_mem ‹_›

/-! ## every node has one place -/

/-- The nodes below a node are its body and those in the parts inside and besides it. -/
theorem preorder_perm (n : Node) :
    n.preorder.Perm (n :: (n.bodies ++ (n.opened ++ n.besides).flatMap preorder)) := by
  rw [preorder_eq]
  refine .cons n ?_
  cases hform : n.form with
  | functionDef name params result body =>
    cases body with
    | none => simp [children, bodies, opened, besides, hform, Form.parts]
    | some b =>
      have hchildren : n.children = params.flatMap (fun p => [p.name, p.type]) ++ b :: [result] := by
        simp [children, hform, Form.parts]
      simp only [hchildren, bodies, opened, besides, hform, Option.toList_some, List.flatMap_append,
        List.append_assoc, List.singleton_append, List.flatMap_cons, preorder_eq b]
      exact List.perm_middle
  | _ => simp [children, bodies, opened, besides, hform, Form.parts]

theorem mem_preorder_of_mem {n c : Node} (h : c ∈ n.opened ++ n.besides) : c ∈ n.preorder := by
  refine n.preorder_perm.mem_iff.2 (List.mem_cons_of_mem _ (List.mem_append_right _ ?_))
  exact List.mem_flatMap.2 ⟨c, h, c.mem_preorder_self⟩

/-- A node that opens no scope has all its parts besides it. -/
theorem parts_of_opens_eq_false {n : Node} (h : n.opens = false) :
    n.besides = n.children ∧ n.opened = [] ∧ n.bodies = [] := by
  unfold besides opened bodies children
  cases hform : n.form <;> simp [opens, tag, hform, Form.tag] at h ⊢

theorem inside_eq_nil {n : Node} (h : n.opens = false) : n.inside = [] := by
  obtain ⟨-, hopened, hbodies⟩ := parts_of_opens_eq_false h
  rw [inside, hopened, hbodies, List.flatMap_nil, List.append_nil]

theorem flatMap_perm_append {α β : Type} {xs : List α} {f g h : α → List β}
    (hfgh : ∀ x ∈ xs, (f x).Perm (g x ++ h x)) : (xs.flatMap f).Perm (xs.flatMap g ++ xs.flatMap h) :=
  (List.Perm.flatMap_left xs hfgh).trans (List.flatMap_append_perm xs g h).symm

/-- **Every node of a tree stands where the root stands or in the scope of one owner.** -/
theorem preorder_perm_scopes (n : Node) : n.preorder.Perm (n.level ++ n.owners.flatMap inside) := by
  induction n using scopeInduction with
  | step n ih =>
    have hself : (if n.opens then [n] else []).flatMap inside = n.bodies ++ n.opened.flatMap level := by
      by_cases h : n.opens
      · simp [h, inside]
      · rw [if_neg h, List.flatMap_nil, ← inside, inside_eq_nil (eq_false_of_ne_true h)]
    have hparts := flatMap_perm_append ih
    rw [← List.flatMap_assoc] at hparts
    refine (n.preorder_perm.trans ((hparts.append_left _).cons n)).trans ?_
    rw [level_eq, owners_eq, List.flatMap_append (f := inside), hself, List.flatMap_append (f := level),
      List.append_assoc, ← List.append_assoc n.bodies, List.cons_append]
    exact (List.perm_append_comm_assoc _ _ _).cons n

/-- The body of every function in the tree is a block. -/
def Braced (n : Node) : Prop := n.Everywhere fun m => ∀ b ∈ m.bodies, b.tag = .block

theorem braced_of_shaped {n : Node} (h : n.Everywhere fun m => m.form.Shaped) : n.Braced := by
  refine h.mono fun m hm b hb => ?_
  unfold bodies at hb
  split at hb
  · next hform =>
    rw [hform] at hm
    exact hm.2.2.2 b (Option.mem_toList.1 hb)
  · exact absurd hb List.not_mem_nil

/-- **The blocks and function definitions of a tree** are its owners and the bodies of its functions. -/
theorem owners_perm {n : Node} (hbraced : n.Braced) :
    (n.owners ++ n.preorder.flatMap bodies).Perm (n.preorder.filter opens) := by
  induction n using scopeInduction with
  | step n ih =>
    have hbodies : n.bodies.filter opens = n.bodies ∧ n.bodies.flatMap bodies = [] := by
      refine ⟨List.filter_eq_self.2 fun b hb => ?_, List.flatMap_eq_nil_iff.2 fun b hb => ?_⟩
      · simp [opens, hbraced.self b hb]
      · have htag := hbraced.self b hb
        unfold bodies
        cases hform : b.form <;> simp [tag, hform, Form.tag] at htag ⊢
    have hparts := flatMap_perm_append fun c hc => (ih c hc (hbraced.below (mem_preorder_of_mem hc))).symm
    have hself : ∀ xs, (n :: xs).filter opens = (if n.opens then [n] else []) ++ xs.filter opens := fun xs => by
      by_cases h : n.opens <;> simp [h]
    have hnodes := (n.preorder_perm.flatMap_right bodies).append_left n.owners
    refine hnodes.trans (.trans ?_ (n.preorder_perm.filter opens).symm)
    rw [List.flatMap_cons, List.flatMap_append, hbodies.2, List.nil_append, List.flatMap_assoc, owners_eq,
      List.append_assoc, hself, List.filter_append, hbodies.1, List.filter_flatMap]
    exact ((List.perm_append_comm_assoc _ _ _).trans (hparts.symm.append_left _)).append_left _

theorem mem_level_of_mem_besides {n m c : Node} (hm : m ∈ n.level) (hc : c ∈ m.besides) : c ∈ n.level := by
  induction n using scopeInduction with
  | step n ih =>
    rw [level_eq, List.mem_cons, List.mem_flatMap] at hm ⊢
    rcases hm with rfl | ⟨d, hd, hm⟩
    · refine .inr ⟨c, hc, ?_⟩
      rw [level_eq]
      exact List.mem_cons_self
    · exact .inr ⟨d, hd, ih d (List.mem_append_right _ hd) hm⟩

theorem mem_inside_of_mem_besides {n m c : Node} (hbraced : ∀ b ∈ n.bodies, b.tag = .block) (hm : m ∈ n.inside)
    (hc : c ∈ m.besides) : c ∈ n.inside := by
  rcases List.mem_append.1 hm with hm | hm
  · have htag := hbraced m hm
    unfold besides at hc
    cases hform : m.form <;> simp [tag, hform, Form.tag] at htag hc
  · obtain ⟨d, hd, hm⟩ := List.mem_flatMap.1 hm
    exact List.mem_append_right _ (List.mem_flatMap.2 ⟨d, hd, mem_level_of_mem_besides hm hc⟩)

end Node

/-! ## what stamping leaves -/

/-- Between two contexts a scope was opened for each owner, in their order, below the scope where the owner stands; the
nodes of the level stand in the scope `here`, and those inside an owner in the scope that was opened for it. -/
structure Nested (here : ScopeId) (ctx ctx' : Context) (level owners : List Node) : Prop where
  scopes : ctx'.scopes = ctx.scopes ++ owners.map fun o => ⟨o.scope, []⟩
  level : ∀ m ∈ level, Node.scope m = some here
  inside : ∀ (k : Nat) (o : Node), owners[k]? = some o → ∀ m ∈ o.inside, m.scope = some ⟨ctx.scopes.length + k⟩

namespace Nested

variable {here inner : ScopeId} {ctx ctx₀ ctx₁ ctx' : Context} {level level' owners owners' : List Node} {n : Node}

theorem nil (here : ScopeId) (ctx : Context) : Nested here ctx ctx [] [] :=
  ⟨by simp, fun _ hm => absurd hm List.not_mem_nil, fun _ _ h => by simp at h⟩

theorem append (h : Nested here ctx ctx₁ level owners) (h' : Nested here ctx₁ ctx' level' owners') :
    Nested here ctx ctx' (level ++ level') (owners ++ owners') where
  scopes := by rw [h'.scopes, h.scopes, List.map_append, List.append_assoc]
  level m hm := (List.mem_append.1 hm).elim (h.level m) (h'.level m)
  inside k o ho m hm := by
    by_cases hk : k < owners.length
    · exact h.inside k o (by rwa [List.getElem?_append_left hk] at ho) m hm
    · rw [List.getElem?_append_right (Nat.le_of_not_lt hk)] at ho
      rw [h'.inside _ o ho m hm, h.scopes]
      simp only [List.length_append, List.length_map]
      congr 2
      omega

/-- A node is noted with the scope where its level stands. -/
theorem cons (h : Nested here ctx ctx' level owners) (hn : n.scope = some here) :
    Nested here ctx ctx' (n :: level) owners :=
  ⟨h.scopes, List.forall_mem_cons.2 ⟨hn, h.level⟩, h.inside⟩

/-- What stands in a scope that is opened for a node stands inside that node. -/
theorem enter (opens : ctx.openScope here = (inner, ctx₀)) (h : Nested inner ctx₀ ctx' level owners)
    (hn : n.scope = some here) (hinside : n.inside ⊆ level) : Nested here ctx ctx' [n] (n :: owners) := by
  obtain ⟨rfl, rfl⟩ := Prod.mk.inj opens
  refine ⟨?_, by simpa using hn, fun k o ho m hm => ?_⟩
  · simp [h.scopes, hn]
  · cases k with
    | zero =>
      obtain rfl : n = o := by simpa using ho
      exact h.level m (hinside hm)
    | succ k =>
      rw [h.inside k o (by simpa using ho) m hm]
      simp only [List.length_append, List.length_singleton]
      congr 2
      omega

/-- Parts for which no scope is opened stand where the node stands. -/
theorem besides (h : Nested here ctx ctx' n.level n.owners) (hbraced : n.Braced) :
    ∀ m ∈ n.preorder, ∀ c ∈ m.besides, c.scope = m.scope := by
  intro m hm c hc
  rcases List.mem_append.1 (n.preorder_perm_scopes.mem_iff.1 hm) with hm | hm
  · rw [h.level m hm, h.level c (Node.mem_level_of_mem_besides hm hc)]
  · obtain ⟨o, ho, hm⟩ := List.mem_flatMap.1 hm
    obtain ⟨k, hk⟩ := List.mem_iff_getElem?.1 ho
    have ho : o ∈ n.preorder :=
      (List.mem_filter.1 ((Node.owners_perm hbraced).mem_iff.1 (List.mem_append_left _ ho))).1
    rw [h.inside k o hk m hm, h.inside k o hk c (Node.mem_inside_of_mem_besides (hbraced o ho) hm hc)]

end Nested

/-- The trees of a piece that are stamped as nodes, afterwards: all but the body of a function. -/
def Stamping.trees : Stamping → List Node
  | .node _ y => [y]
  | .body _ y => y.toList.flatMap Node.children
  | .form _ g => g.parts
  | .list _ ys => ys
  | .option _ y => y.toList
  | .params _ qs => qs.flatMap fun q => [q.name, q.type]

def Stamping.bodies : Stamping → List Node
  | .body _ y => y.toList
  | _ => []

theorem Stamps.nested {here : ScopeId} {ctx ctx' : Context} {job : Stamping} (h : Stamps here ctx job ctx') :
    Nested here ctx ctx' (job.bodies ++ job.trees.flatMap Node.level) (job.trees.flatMap Node.owners) := by
  induction h with
  | @block here _ _ _ _ span _ type _ _ g opens parts ih =>
    cases parts with
    | @blockParts _ _ _ _ _ ys _ y _ _ =>
      have hnode := Nested.enter (n := ⟨span, Option.some here, type, .block ys y⟩) opens ih rfl (List.Subset.refl _)
      simpa [Stamping.bodies, Stamping.trees, Node.level_eq, Node.owners_eq, Node.besides, Node.opened, Node.opens,
        Node.tag, Form.tag, Form.parts] using hnode
  | @functionDef here _ _ _ _ _ _ span _ type name ps qs _ r' b b' opens _ _ _ ihp ihb ihr =>
    have hinside : Node.inside ⟨span, Option.some here, type, .functionDef name qs r' b'⟩ ⊆
        (Stamping.params ps qs).bodies ++ (Stamping.params ps qs).trees.flatMap Node.level ++
          ((Stamping.body b b').bodies ++ (Stamping.body b b').trees.flatMap Node.level) := by
      intro m
      simp only [Node.inside, Node.bodies, Node.opened, Stamping.bodies, Stamping.trees, List.flatMap_append,
        List.mem_append, List.not_mem_nil, false_or]
      tauto
    have hnode := (Nested.enter opens (ihp.append ihb) rfl hinside).append ihr
    simpa [Stamping.bodies, Stamping.trees, Node.level_eq, Node.owners_eq, Node.besides, Node.opened, Node.opens,
        Node.tag, Form.tag] using hnode
  | @plain here ctx ctx' span scope type f g notBlock notFunction parts ih =>
    have htag : g.tag = f.tag := Form.Rel.tag parts.alike
    have hopens : Node.opens ⟨span, Option.some here, type, g⟩ = false := by
      simp [Node.opens, Node.tag, htag, notBlock, notFunction]
    obtain ⟨hbesides, hopened, -⟩ := Node.parts_of_opens_eq_false hopens
    have hnode := ih.cons (n := ⟨span, Option.some here, type, g⟩) rfl
    simpa [Stamping.bodies, Stamping.trees, Node.level_eq, Node.owners_eq, hopens, hbesides, hopened,
      Node.children] using hnode
  | @body here _ _ span _ type _ g _ ih =>
    have hnode := ih.cons (n := ⟨span, Option.some here, type, g⟩) rfl
    simpa [Stamping.bodies, Stamping.trees, Node.children] using hnode
  | noBody | literal | nil | none | noParams => exact .nil _ _
  | prefixOp _ ih | statement _ ih | some _ ih | root _ ih => exact ih
  | infixOp _ _ ihl ihr => simpa [Stamping.bodies, Stamping.trees, Form.parts] using ihl.append ihr
  | blockParts _ _ ihi iht => simpa [Stamping.bodies, Stamping.trees, Form.parts] using ihi.append iht
  | functionParts _ _ _ ihp ihb ihr =>
    simpa [Stamping.bodies, Stamping.trees, Form.parts] using ihp.append (ihb.append ihr)
  | functionCall _ _ ihc iha => simpa [Stamping.bodies, Stamping.trees, Form.parts] using ihc.append iha
  | variableDef _ _ _ ihn iht ihi =>
    simpa [Stamping.bodies, Stamping.trees, Form.parts] using ihn.append (iht.append ihi)
  | cons _ _ ihf iho => simpa [Stamping.bodies, Stamping.trees] using ihf.append iho
  | moreParams _ _ _ ihn iht iho => simpa [Stamping.bodies, Stamping.trees] using ihn.append (iht.append iho)

/-! ## whole programs -/

section

variable {R : Node → Node → Prop} {x y : Node}

theorem Likeness.tags (hR : Likeness R) (h : R x y) : y.tags = x.tags := by
  have hpreorder := hR.preorder h
  unfold Node.tags
  generalize x.preorder = xs, y.preorder = ys at hpreorder
  induction hpreorder with
  | nil => rfl
  | cons hxy _ ih => rw [List.map_cons, List.map_cons, ih, hR.tag hxy]

theorem Likeness.length_bodies (hR : Likeness R) (h : R x y) :
    (y.preorder.flatMap Node.bodies).length = (x.preorder.flatMap Node.bodies).length := by
  have hbodies : ∀ {x y : Node}, R x y → y.bodies.length = x.bodies.length := fun {x y} hxy => by
    have hform := hR.form hxy
    unfold Node.bodies
    generalize x.form = f, y.form = g at hform
    cases hform with
    | functionDef _ _ body => cases body <;> rfl
    | _ => rfl
  have hpreorder := hR.preorder h
  generalize x.preorder = xs, y.preorder = ys at hpreorder
  induction hpreorder with
  | nil => rfl
  | cons hxy _ ih => rw [List.flatMap_cons, List.flatMap_cons, List.length_append, List.length_append, ih, hbodies hxy]

end

theorem countP_opens (ns : List Node) :
    ns.countP Node.opens = (ns.map Node.tag).count .functionDef + (ns.map Node.tag).count .block := by
  induction ns with
  | nil => rfl
  | cons n ns ih =>
    rw [List.countP_cons, ih, List.map_cons, List.count_cons, List.count_cons, Node.opens]
    cases n.tag <;> simp <;> omega

/-- The owners are as many as the function definitions and the blocks that are no bodies. -/
theorem length_owners {n : Node} (hbraced : n.Braced) :
    n.owners.length + (n.preorder.flatMap Node.bodies).length = n.tags.count .functionDef + n.tags.count .block := by
  rw [← List.length_append, (Node.owners_perm hbraced).length_eq, ← List.countP_eq_length_filter, countP_opens,
    ← Node.tags]

namespace Check

/-- The second tree is the first one with scopes noted, and these are the scopes of the context: one around the tree, and
one for each owner, below the scope where that stands. -/
structure FollowsNesting (n t : Node) (ctx : Context) : Prop where
  unnoted : t.unnoted = n.unnoted
  /-- The scope around the program is that of number 0, and owner number `k` has the scope of number `k + 1`. -/
  scopes : ctx.scopes = ⟨none, []⟩ :: t.owners.map fun o => ⟨o.scope, []⟩
  count : ctx.scopes.length + (n.preorder.flatMap Node.bodies).length =
    1 + n.tags.count .functionDef + n.tags.count .block
  /-- The owners are the function definitions and the blocks that are no bodies. -/
  owners : (t.owners ++ t.preorder.flatMap Node.bodies).Perm (t.preorder.filter Node.opens)
  inside : ∀ (k : Nat) (o : Node), t.owners[k]? = some o → ∀ m ∈ o.inside, m.scope = some ⟨k + 1⟩
  level : ∀ m ∈ t.level, m.scope = some .root
  /-- Every node stands inside one owner or around all of them. -/
  places : t.preorder.Perm (t.level ++ t.owners.flatMap Node.inside)
  /-- Parts for which no scope is opened, such as the return type of a function, stand where the node stands. -/
  besides : ∀ m ∈ t.preorder, ∀ c ∈ m.besides, c.scope = m.scope

/-- **The scopes of a program follow its nesting.** -/
theorem scopes_follow_nesting {tokens : List Token} {length : Nat} {n : Node} (h : parse tokens length = .ok n) :
    FollowsNesting n (scopes .new n).1 (scopes .new n).2 := by
  obtain ⟨xs, us, rfl, hreads⟩ := reads_of_parse h
  generalize hn : ({ span := ⟨0, length⟩, form := .root xs } : Node) = n
  have hshaped : n.Everywhere fun m => m.form.Shaped := hn ▸ Node.everywhere_iff.2 ⟨trivial, hreads.shaped⟩
  have hstamps := stamps_of_stamp .root .new n
  have hlike := likeness_stampedAs
  have hbraced := Node.braced_of_shaped (hlike.everywhere_shaped hstamps.stampedAs hshaped)
  have htags := hlike.tags hstamps.stampedAs
  have hbodies := hlike.length_bodies hstamps.stampedAs
  have hunnoted := unnoted_scopes n
  have hnested := hstamps.nested
  simp only [Stamping.bodies, Stamping.trees, List.flatMap_singleton, List.nil_append] at hnested
  unfold scopes at hunnoted ⊢
  generalize n.stamp .root .new = r at hbraced htags hbodies hunnoted hnested
  obtain ⟨t, ctx⟩ := r
  dsimp only at hbraced htags hbodies hunnoted hnested ⊢
  have hscopes : ctx.scopes = ⟨none, []⟩ :: t.owners.map fun o => ⟨o.scope, []⟩ := hnested.scopes
  refine ⟨hunnoted, hscopes, ?_, Node.owners_perm hbraced, fun k o ho m hm => ?_, hnested.level, t.preorder_perm_scopes,
    hnested.besides hbraced⟩
  · have hlength := length_owners hbraced
    rw [hbodies, htags] at hlength
    rw [hscopes, List.length_cons, List.length_map]
    omega
  · rw [hnested.inside k o ho m hm, Nat.add_comm]
    rfl

/-- With a function that has a block in its body, and a block behind it. -/
theorem blocks_follow_nesting : ∃ tokens n,
    tokenize "fn f(a: int) -> int { { a } } { f(1) }" = .ok tokens ∧ parse tokens 38 = .ok n ∧
      FollowsNesting n (scopes .new n).1 (scopes .new n).2 ∧
      (scopes .new n).2.scopes = [⟨none, []⟩, ⟨some ⟨0⟩, []⟩, ⟨some ⟨1⟩, []⟩, ⟨some ⟨0⟩, []⟩] := by
  have hparsed : Yields (fun tokens => Yields
      (fun n => (scopes .new n).2.scopes = [⟨none, []⟩, ⟨some ⟨0⟩, []⟩, ⟨some ⟨1⟩, []⟩, ⟨some ⟨0⟩, []⟩])
      (parse tokens 38)) (tokenize "fn f(a: int) -> int { { a } } { f(1) }") := by decide +kernel
  obtain ⟨tokens, htokens, hparsed⟩ := yields_iff.1 hparsed
  obtain ⟨n, hn, hscopes⟩ := yields_iff.1 hparsed
  exact ⟨tokens, n, htokens, hn, scopes_follow_nesting hn, hscopes⟩

end Check

end LetFn
