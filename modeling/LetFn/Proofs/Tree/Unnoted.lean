import LetFn.Proofs.Grammar.Shape
import LetFn.Proofs.Tree.Revisions

/-!
# Trees without notes

`Node.unnoted` takes the notes off a tree. Two assignments of notes to the nodes of one tree are two trees that are the
same without notes, and these are the trees that differ in notes only (`likeness_unnoted`, `unnoted_of_likeness`).
-/

namespace LetFn

namespace Node

mutual

/-- The tree without notes. -/
def unnoted : Node → Node
  | ⟨span, _, _, form⟩ => { span, form := unnotedParts form }

def unnotedParts : Form Node → Form Node
  | .literal token => .literal token
  | .prefixOp operator operand => .prefixOp operator (unnoted operand)
  | .infixOp operator left right => .infixOp operator (unnoted left) (unnoted right)
  | .statement inner => .statement (unnoted inner)
  | .block items trailing => .block (unnotedList items) (unnotedOption trailing)
  | .functionDef name params result body =>
    .functionDef name (unnotedParams params) (unnoted result) (unnotedOption body)
  | .functionCall callee arguments => .functionCall (unnoted callee) (unnotedList arguments)
  | .variableDef name type initializer => .variableDef (unnoted name) (unnoted type) (unnotedOption initializer)
  | .root items => .root (unnotedList items)

def unnotedList : List Node → List Node
  | [] => []
  | x :: xs => unnoted x :: unnotedList xs

def unnotedOption : Option Node → Option Node
  | none => none
  | some x => some (unnoted x)

def unnotedParams : List (Param Node) → List (Param Node)
  | [] => []
  | ⟨name, type⟩ :: ps => ⟨unnoted name, unnoted type⟩ :: unnotedParams ps

end

theorem unnoted_eq (n : Node) : n.unnoted = { span := n.span, form := unnotedParts n.form } := by
  cases n
  rfl

theorem unnotedList_eq (xs : List Node) : unnotedList xs = xs.map unnoted := by
  induction xs with
  | nil => rfl
  | cons x xs ih => rw [unnotedList, ih, List.map_cons]

theorem unnotedParams_eq (ps : List (Param Node)) :
    unnotedParams ps = ps.map fun p => ⟨unnoted p.name, unnoted p.type⟩ := by
  induction ps with
  | nil => rfl
  | cons p ps ih => rw [unnotedParams, ih, List.map_cons]

variable {f g : Form Node}

theorem unnotedList_eq_iff {xs ys : List Node} :
    unnotedList xs = unnotedList ys ↔ List.Forall₂ (fun x y => x.unnoted = y.unnoted) xs ys := by
  rw [unnotedList_eq, unnotedList_eq, ← List.forall₂_eq_eq_eq, List.forall₂_map_left_iff, List.forall₂_map_right_iff]

theorem unnotedOption_eq_iff {x y : Option Node} :
    unnotedOption x = unnotedOption y ↔ Option.Rel (fun x y => x.unnoted = y.unnoted) x y := by
  constructor
  · intro h
    cases x <;> cases y <;> simp only [unnotedOption, reduceCtorEq, Option.some.injEq] at h
    · exact .none
    · exact .some h
  · rintro (h | _)
    · exact congrArg some h
    · rfl

theorem unnotedParams_eq_iff {ps qs : List (Param Node)} :
    unnotedParams ps = unnotedParams qs ↔ List.Forall₂ (Param.Rel fun x y => x.unnoted = y.unnoted) ps qs := by
  rw [unnotedParams_eq, unnotedParams_eq, ← List.forall₂_eq_eq_eq, List.forall₂_map_left_iff,
    List.forall₂_map_right_iff]
  simp only [Param.mk.injEq]
  exact ⟨fun h => h.imp fun _ _ hpq => ⟨hpq.1, hpq.2⟩, fun h => h.imp fun _ _ hpq => ⟨hpq.name, hpq.type⟩⟩

/-- Forms are the same without notes if they have the same shape over parts that are. -/
theorem unnotedParts_eq_iff : unnotedParts f = unnotedParts g ↔ Form.Rel (fun x y => x.unnoted = y.unnoted) f g := by
  constructor
  · intro h
    -- forms of different shapes differ without notes as well
    cases f <;> cases g <;> simp only [unnotedParts, reduceCtorEq, Form.literal.injEq, Form.prefixOp.injEq,
      Form.infixOp.injEq, Form.statement.injEq, Form.block.injEq, Form.functionDef.injEq, Form.functionCall.injEq,
      Form.variableDef.injEq, Form.root.injEq, unnotedList_eq_iff, unnotedOption_eq_iff, unnotedParams_eq_iff] at h
    case literal.literal => exact h ▸ .literal _
    case prefixOp.prefixOp => exact h.1 ▸ .prefixOp h.2
    case infixOp.infixOp => exact h.1 ▸ .infixOp h.2.1 h.2.2
    case statement.statement => exact .statement h
    case block.block => exact .block h.1 h.2
    case functionDef.functionDef => exact h.1 ▸ .functionDef h.2.1 h.2.2.1 h.2.2.2
    case functionCall.functionCall => exact .functionCall h.1 h.2
    case variableDef.variableDef => exact .variableDef h.1 h.2.1 h.2.2
    case root.root => exact .root h
  · intro h
    cases h with
    | literal => rfl
    | prefixOp operand => rw [unnotedParts, unnotedParts, operand]
    | infixOp left right => rw [unnotedParts, unnotedParts, left, right]
    | statement inner => rw [unnotedParts, unnotedParts, inner]
    | block items trailing =>
      rw [unnotedParts, unnotedParts, unnotedList_eq_iff.2 items, unnotedOption_eq_iff.2 trailing]
    | functionDef params result body =>
      rw [unnotedParts, unnotedParts, unnotedParams_eq_iff.2 params, result, unnotedOption_eq_iff.2 body]
    | functionCall callee arguments => rw [unnotedParts, unnotedParts, callee, unnotedList_eq_iff.2 arguments]
    | variableDef name type initializer =>
      rw [unnotedParts, unnotedParts, name, type, unnotedOption_eq_iff.2 initializer]
    | root items => rw [unnotedParts, unnotedParts, unnotedList_eq_iff.2 items]

/-- Trees that are the same without notes differ in notes only. -/
theorem likeness_unnoted : Likeness fun x y => x.unnoted = y.unnoted where
  span {x y} h := by
    rw [unnoted_eq, unnoted_eq] at h
    exact (Node.mk.inj h).1.symm
  form {x y} h := by
    rw [unnoted_eq, unnoted_eq] at h
    exact unnotedParts_eq_iff.1 (Node.mk.inj h).2.2.2

/-- Trees that differ in notes only are the same without notes. -/
theorem unnoted_of_likeness {R : Node → Node → Prop} (hR : Likeness R) {x y : Node} (h : R x y) :
    x.unnoted = y.unnoted := by
  induction x using childInduction generalizing y with
  | step x ih =>
    rw [unnoted_eq, unnoted_eq, hR.span h]
    congr 1
    exact unnotedParts_eq_iff.2 ((hR.form h).of_mem.imp fun ⟨hc, hcd⟩ => ih _ hc hcd)

end Node

end LetFn
