import LetFn.Tree.Walk
import Mathlib.Data.List.Basic

/-!
# Where a walk goes

A walk takes the parts of every form in an order of its own and may break off in the middle of any of them. All of this
comes down to `Node.children` and one list of nodes:

* `pruned visit n` — the nodes of `n`, parents before their children, without those below a node that the visitor skips;
* `trailAlong visit ns` — the walk that has the nodes `ns` before it and ends behind the first at which the visitor
  fails.

Main facts: `walkParts_eq` (parts are walked as the children are listed), `walk_eq_trailAlong` (a walk goes along the
pruned nodes), `walk_visits`.
-/

namespace LetFn.Node

variable {ε : Type}

/-! ## trails one after the other -/

namespace Trail

theorem andThen_nil (t : Trail ε) : (t.andThen fun _ => ⟨[], none⟩) = t := by
  obtain ⟨visited, _ | e⟩ := t
  · simp [andThen]
  · rfl

theorem andThen_assoc (t : Trail ε) (u v : Unit → Trail ε) :
    (t.andThen u).andThen v = t.andThen fun _ => (u ()).andThen v := by
  obtain ⟨visited, _ | e⟩ := t
  · cases h : (u ()).failure <;> simp [andThen, h]
  · rfl

end Trail

/-! ## parts are walked as the children are listed -/

section

variable (visit : Node → Step ε)

theorem walkList_cons (x : Node) (xs : List Node) :
    walkList visit (x :: xs) = (walk visit x).andThen fun _ => walkList visit xs := by rw [walkList]

theorem walkList_append (xs ys : List Node) :
    walkList visit (xs ++ ys) = (walkList visit xs).andThen fun _ => walkList visit ys := by
  induction xs with
  | nil => rfl
  | cons x xs ih => rw [List.cons_append, walkList_cons, walkList_cons, ih, Trail.andThen_assoc]

theorem walkList_singleton (x : Node) : walkList visit [x] = walk visit x := by
  rw [walkList_cons, walkList, Trail.andThen_nil]

theorem walkOption_eq (x : Option Node) : walkOption visit x = walkList visit x.toList := by
  cases x with
  | none => rfl
  | some x => exact (walkList_singleton visit x).symm

theorem walkParams_eq (ps : List (Param Node)) :
    walkParams visit ps = walkList visit (ps.flatMap fun p => [p.name, p.type]) := by
  induction ps with
  | nil => rfl
  | cons p ps ih =>
    rw [walkParams, ih, Trail.andThen_assoc, List.flatMap_cons, List.cons_append, List.singleton_append, walkList_cons,
      walkList_cons]

/-- The parts of a form are walked one by one in the order of the children. -/
theorem walkParts_eq (form : Form Node) : walkParts visit form = walkList visit form.parts := by
  cases form with
  | literal => rfl
  | prefixOp _ operand => exact (walkList_singleton visit operand).symm
  | infixOp _ left right =>
    have hright := walkList_singleton visit right
    simp only [walkParts, Form.parts, walkList_cons visit left, hright]
  | statement inner => exact (walkList_singleton visit inner).symm
  | block => simp only [walkParts, Form.parts, walkList_append, walkOption_eq]
  | functionDef =>
    simp only [walkParts, Form.parts, walkList_append, walkOption_eq, walkParams_eq, walkList_singleton]
  | functionCall => simp only [walkParts, Form.parts, walkList_cons]
  | variableDef => simp only [walkParts, Form.parts, walkList_cons, walkOption_eq, Trail.andThen_assoc]
  | root => rfl

/-- What a walk does at a node, and that it goes on with the children. -/
theorem walk_eq (n : Node) : walk visit n =
    match visit n with
    | .fail e => ⟨[n], some e⟩
    | .skip => ⟨[n], none⟩
    | .descend => (⟨[n], none⟩ : Trail ε).andThen fun _ => walkList visit n.children := by
  obtain ⟨span, scope, type, form⟩ := n
  rw [walk, walkParts_eq]
  rfl

end

/-! ## the nodes that a walk has before it -/

/-- What the visitor fails with. -/
def Step.error? : Step ε → Option ε
  | .fail e => some e
  | .descend | .skip => none

section

variable (visit : Node → Step ε)

/-- The nodes of a tree, parents before their children, without those below a node that the visitor skips. -/
def pruned (n : Node) : List Node :=
  n :: match visit n with
    | .skip => []
    | _ => n.children.attach.flatMap fun c => pruned c.val
termination_by sizeOf n
decreasing_by exact sizeOf_lt_of_mem_children c.property

theorem pruned_eq (n : Node) : pruned visit n =
    n :: match visit n with
      | .skip => []
      | _ => n.children.flatMap (pruned visit) := by
  rw [pruned, List.flatMap_subtype fun _ _ => rfl, List.unattach_attach]

/-- The walk that has these nodes before it: it comes to all up to the first at which the visitor fails. -/
def trailAlong (ns : List Node) : Trail ε where
  visited := ns.take (ns.findIdx (fun x => (visit x).error?.isSome) + 1)
  failure := ns.findSome? fun x => (visit x).error?

theorem trailAlong_cons (n : Node) (ns : List Node) : trailAlong visit (n :: ns) =
    match visit n with
    | .fail e => ⟨[n], some e⟩
    | .descend | .skip => (⟨[n], none⟩ : Trail ε).andThen fun _ => trailAlong visit ns := by
  cases h : visit n <;> simp [trailAlong, Trail.andThen, List.findIdx_cons, Step.error?, h]

theorem trailAlong_append (ms ns : List Node) :
    trailAlong visit (ms ++ ns) = (trailAlong visit ms).andThen fun _ => trailAlong visit ns := by
  induction ms with
  | nil => rfl
  | cons m ms ih =>
    rw [List.cons_append, trailAlong_cons, trailAlong_cons, ih]
    cases visit m with
    | fail => rfl
    | descend | skip => simp only [Trail.andThen_assoc]

theorem trailAlong_of_error?_eq_none {ns : List Node} (h : ∀ x ∈ ns, (visit x).error? = none) :
    trailAlong visit ns = ⟨ns, none⟩ := by
  induction ns with
  | nil => rfl
  | cons n ns ih =>
    have hself := h n List.mem_cons_self
    rw [trailAlong_cons, ih fun x hx => h x (List.mem_cons_of_mem _ hx)]
    cases hn : visit n with
    | fail e => simp [Step.error?, hn] at hself
    | descend | skip => rfl

/-- A list is walked along what its nodes have before them. -/
theorem walkList_eq_trailAlong {xs : List Node} (h : ∀ x ∈ xs, walk visit x = trailAlong visit (pruned visit x)) :
    walkList visit xs = trailAlong visit (xs.flatMap (pruned visit)) := by
  induction xs with
  | nil => rfl
  | cons x xs ih =>
    rw [walkList_cons, h x List.mem_cons_self, ih fun y hy => h y (List.mem_cons_of_mem _ hy), List.flatMap_cons,
      trailAlong_append]

/-- **A walk goes along the pruned nodes.** -/
theorem walk_eq_trailAlong (n : Node) : walk visit n = trailAlong visit (pruned visit n) := by
  induction n using childInduction with
  | step n ih =>
    rw [walk_eq, walkList_eq_trailAlong visit ih, pruned_eq, trailAlong_cons]
    cases visit n <;> rfl

/-- Where nothing is skipped nothing is left out. -/
theorem pruned_eq_preorder {n : Node} (h : ∀ x ∈ n.preorder, visit x ≠ .skip) : pruned visit n = n.preorder := by
  induction n using childInduction with
  | step n ih =>
    have hchildren : n.children.flatMap (pruned visit) = n.children.flatMap preorder := by
      refine List.flatMap_congr fun c hc => ih c hc fun x hx => h x ?_
      rw [preorder_eq]
      exact List.mem_cons_of_mem _ (List.mem_flatMap.2 ⟨c, hc, hx⟩)
    have hself := h n n.mem_preorder_self
    rw [pruned_eq, hchildren, preorder_eq]
    cases hn : visit n with
    | skip => exact absurd hn hself
    | descend | fail => rfl

/-- **A walk visits the pruned nodes up to the first at which the visitor fails**, and ends with the failure of that
node. If the visitor goes on at every node, the walk visits the shapes of the tree in their order. -/
theorem walk_visits (n : Node) :
    (walk visit n).visited =
        (pruned visit n).take ((pruned visit n).findIdx (fun x => (visit x).error?.isSome) + 1) ∧
      (walk visit n).failure = (pruned visit n).findSome? (fun x => (visit x).error?) ∧
      ((∀ x ∈ n.preorder, visit x = .descend) →
        (walk visit n).visited.map tag = n.tags ∧ (walk visit n).failure = none) := by
  have hwalk := walk_eq_trailAlong visit n
  refine ⟨congrArg Trail.visited hwalk, congrArg Trail.failure hwalk, fun hdescend => ?_⟩
  have hskip : ∀ x ∈ n.preorder, visit x ≠ .skip := fun x hx h => nomatch (hdescend x hx).symm.trans h
  have herror : ∀ x ∈ n.preorder, (visit x).error? = none := fun x hx => by rw [hdescend x hx, Step.error?]
  rw [hwalk, pruned_eq_preorder visit hskip, trailAlong_of_error?_eq_none visit herror]
  exact ⟨rfl, rfl⟩

end

/-- A visitor that skips calls and fails at statements comes to all of a definition that has neither: its parameter, the
body and, behind that, the type of the result. -/
theorem walk_visits_definition :
    let name (text : String) (start : Nat) : Node := leaf ⟨.identifier, some (.str text), ⟨start, start + text.length⟩⟩
    let body : Node := { span := ⟨20, 25⟩, form := .block [] (some (name "a" 22)) }
    let n : Node :=
      { span := ⟨0, 25⟩
        form := .functionDef ⟨.identifier, some (.str "f"), ⟨3, 4⟩⟩ [⟨name "a" 5, name "i32" 8⟩] (name "i32" 16)
          (some body) }
    let visit (x : Node) : Step Unit :=
      if x.tag = .functionCall then .skip else if x.tag = .statement then .fail () else .descend
    (∀ x ∈ n.preorder, visit x = .descend) ∧
      (walk visit n).visited.map tag = [.functionDef, .literal, .literal, .block, .literal, .literal] ∧
      (walk visit n).failure = none := by
  intro name body n visit
  have hdescend : ∀ x ∈ n.preorder, visit x = .descend := by
    simp [n, body, name, visit, preorder, preorderParts, preorderParams, preorderList, preorderOption, leaf, Node.tag,
      Form.tag]
  obtain ⟨htags, hfailure⟩ := (walk_visits visit n).2.2 hdescend
  exact ⟨hdescend, htags, hfailure⟩

/-- A skipped call hides its parts, and the walk ends behind the name that the visitor refuses. -/
example :
    let name (text : String) (start : Nat) : Node := leaf ⟨.identifier, some (.str text), ⟨start, start + text.length⟩⟩
    let call : Node := { span := ⟨2, 6⟩, form := .functionCall (name "g" 2) [name "bad" 4] }
    let n : Node := { span := ⟨0, 13⟩, form := .block [call, name "bad" 7] (some (name "x" 11)) }
    let visit (x : Node) : Step Span :=
      if x.tag = .functionCall then .skip else if x.identifier? = some "bad" then .fail x.span else .descend
    (walk visit n).visited.map span = [⟨0, 13⟩, ⟨2, 6⟩, ⟨7, 10⟩] ∧ (walk visit n).failure = some ⟨7, 10⟩ := by
  decide

end LetFn.Node
