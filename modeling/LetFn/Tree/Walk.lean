import LetFn.Tree.Basic

/-!
# Walks over a tree

`Node.preorder` lists a tree from the root, a node before its children. `Node.find?` searches that list.
`Node.walk` is a guided walk: at every node a visitor decides whether to go on below it, to leave its children out
or to stop for good.

Main facts: `preorder_eq`, `mem_preorder_self`.
-/

namespace LetFn

namespace Node

mutual

/-- The node and all nodes below it, parents before their children. -/
def preorder : Node → List Node
  | ⟨span, scope, type, form⟩ => ⟨span, scope, type, form⟩ :: preorderParts form

def preorderParts : Form Node → List Node
  | .literal _ => []
  | .prefixOp _ operand => preorder operand
  | .infixOp _ left right => preorder left ++ preorder right
  | .statement inner => preorder inner
  | .block items trailing => preorderList items ++ preorderOption trailing
  | .functionDef _ params result body => preorderParams params ++ preorderOption body ++ preorder result
  | .functionCall callee arguments => preorder callee ++ preorderList arguments
  | .variableDef name type initializer => preorder name ++ preorder type ++ preorderOption initializer
  | .root items => preorderList items

def preorderList : List Node → List Node
  | [] => []
  | x :: xs => preorder x ++ preorderList xs

def preorderOption : Option Node → List Node
  | none => []
  | some x => preorder x

def preorderParams : List (Param Node) → List Node
  | [] => []
  | ⟨name, type⟩ :: ps => preorder name ++ preorder type ++ preorderParams ps

end

/-- The shapes of all nodes, the fingerprint of the structure of a tree. -/
def tags (n : Node) : List Tag := n.preorder.map tag

/-- The first node that satisfies the test, parents before their children. -/
def find? (p : Node → Bool) (n : Node) : Option Node := n.preorder.find? p

/-! ## the list by children -/

theorem preorderList_eq (xs : List Node) : preorderList xs = xs.flatMap preorder := by
  induction xs with
  | nil => rfl
  | cons x xs ih => simp [preorderList, ih]

theorem preorderOption_eq (x : Option Node) : preorderOption x = x.toList.flatMap preorder := by
  cases x <;> simp [preorderOption]

theorem preorderParams_eq (ps : List (Param Node)) :
    preorderParams ps = (ps.flatMap fun p => [p.name, p.type]).flatMap preorder := by
  induction ps with
  | nil => rfl
  | cons p ps ih => simp [preorderParams, ih]

theorem preorderParts_eq (form : Form Node) : preorderParts form = form.parts.flatMap preorder := by
  cases form <;>
    simp [preorderParts, Form.parts, preorderList_eq, preorderOption_eq, preorderParams_eq, List.flatMap_append]

theorem preorder_eq (n : Node) : n.preorder = n :: n.children.flatMap preorder := by
  obtain ⟨span, scope, type, form⟩ := n
  simp [preorder, preorderParts_eq, children]

theorem mem_preorder_self (n : Node) : n ∈ n.preorder := by simp [preorder_eq n]

/-! ## guided walks -/

/-- What a visitor decides at a node. -/
inductive Step (ε : Type) where
  | descend | skip
  | fail (e : ε)

/-- The nodes that a walk came to, in order, and what made it stop before the end. -/
structure Trail (ε : Type) where
  visited : List Node
  failure : Option ε := none

/-- The second trail goes on where the first ended, unless that one was stopped. -/
def Trail.andThen {ε : Type} (t : Trail ε) (u : Unit → Trail ε) : Trail ε :=
  match t.failure with
  | some _ => t
  | none => ⟨t.visited ++ (u ()).visited, (u ()).failure⟩

section

variable {ε : Type} (visit : Node → Step ε)

mutual

def walk : Node → Trail ε
  | ⟨span, scope, type, form⟩ =>
    let here : Node := ⟨span, scope, type, form⟩
    match visit here with
    | .fail e => ⟨[here], some e⟩
    | .skip => ⟨[here], none⟩
    | .descend => (⟨[here], none⟩ : Trail ε).andThen fun _ => walkParts form

def walkParts : Form Node → Trail ε
  | .literal _ => ⟨[], none⟩
  | .prefixOp _ operand => walk operand
  | .infixOp _ left right => (walk left).andThen fun _ => walk right
  | .statement inner => walk inner
  | .block items trailing => (walkList items).andThen fun _ => walkOption trailing
  | .functionDef _ params result body =>
    ((walkParams params).andThen fun _ => walkOption body).andThen fun _ => walk result
  | .functionCall callee arguments => (walk callee).andThen fun _ => walkList arguments
  | .variableDef name type initializer =>
    ((walk name).andThen fun _ => walk type).andThen fun _ => walkOption initializer
  | .root items => walkList items

def walkList : List Node → Trail ε
  | [] => ⟨[], none⟩
  | x :: xs => (walk x).andThen fun _ => walkList xs

def walkOption : Option Node → Trail ε
  | none => ⟨[], none⟩
  | some x => walk x

def walkParams : List (Param Node) → Trail ε
  | [] => ⟨[], none⟩
  | ⟨name, type⟩ :: ps => ((walk name).andThen fun _ => walk type).andThen fun _ => walkParams ps

end

end

end Node

end LetFn
