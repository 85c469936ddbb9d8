import LetFn.Token.Basic
import LetFn.Types.Id

/-!
# Trees

A `Node` has a span, two notes that the checker fills in, and a `Form`: one of nine shapes over its parts. The
children of a node are its parts in the order in which they are visited; a function definition has its body before
its return type.

Main facts: `Node.childInduction`.
-/

namespace LetFn

/-- A parameter of a function: its name and its type. -/
structure Param (α : Type) where
  name : α
  type : α

/-- The shape of a node over parts of type `α`. -/
inductive Form (α : Type) where
  | literal (token : Token)
  | prefixOp (operator : Token) (operand : α)
  | infixOp (operator : Token) (left right : α)
  | statement (inner : α)
  | block (items : List α) (trailing : Option α)
  | functionDef (name : Token) (params : List (Param α)) (result : α) (body : Option α)
  | functionCall (callee : α) (arguments : List α)
  | variableDef (name type : α) (initializer : Option α)
  | root (items : List α)

structure Node where
  span : Span
  /-- The scope the node was found in. -/
  scope : Option ScopeId := none
  /-- The type of the node. -/
  type : Option TypeId := none
  form : Form Node

/-- The nine shapes without their parts. -/
inductive Tag where
  | literal | prefixOp | infixOp | statement | block | functionDef | functionCall | variableDef | root
deriving DecidableEq, Repr

namespace Tag

def all : List Tag :=
  [literal, prefixOp, infixOp, statement, block, functionDef, functionCall, variableDef, root]

def name : Tag → String
  | literal => "Literal"
  | prefixOp => "PrefixOp"
  | infixOp => "InfixOp"
  | statement => "Statement"
  | block => "Block"
  | functionDef => "FunctionDef"
  | functionCall => "FunctionCall"
  | variableDef => "VariableDef"
  | root => "Root"

/-- A bare expression, as opposed to a statement, a definition or a whole program. -/
def isExpression : Tag → Bool
  | statement | functionDef | variableDef | root => false
  | _ => true

end Tag

namespace Form

variable {α : Type}

def tag : Form α → Tag
  | literal _ => .literal
  | prefixOp _ _ => .prefixOp
  | infixOp _ _ _ => .infixOp
  | statement _ => .statement
  | block _ _ => .block
  | functionDef _ _ _ _ => .functionDef
  | functionCall _ _ => .functionCall
  | variableDef _ _ _ => .variableDef
  | root _ => .root

/-- The parts in the order in which they are visited. -/
def parts : Form α → List α
  | literal _ => []
  | prefixOp _ operand => [operand]
  | infixOp _ left right => [left, right]
  | statement inner => [inner]
  | block items trailing => items ++ trailing.toList
  | functionDef _ params result body => params.flatMap (fun p => [p.name, p.type]) ++ body.toList ++ [result]
  | functionCall callee arguments => callee :: arguments
  | variableDef name type initializer => name :: type :: initializer.toList
  | root items => items

end Form

namespace Node

/-- The leaf that a token is by itself. -/
def leaf (token : Token) : Node := { span := token.span, form := .literal token }

def tag (n : Node) : Tag := n.form.tag

def children (n : Node) : List Node := n.form.parts

def isExpression (n : Node) : Bool := n.tag.isExpression

/-- The name that an identifier leaf holds. -/
def identifier? (n : Node) : Option String :=
  match n.form with
  | .literal token => token.identifier?
  | _ => none

/-! ## induction on children -/

theorem sizeOf_lt_of_mem_children {n c : Node} (h : c ∈ n.children) : sizeOf c < sizeOf n := by
  obtain ⟨span, scope, type, form⟩ := n
  have hp : ∀ ps : List (Param Node), c ∈ ps.flatMap (fun p => [p.name, p.type]) → sizeOf c < sizeOf ps := by
    intro ps hc
    obtain ⟨⟨x, y⟩, hm, hc⟩ := List.mem_flatMap.1 hc
    have := List.sizeOf_lt_of_mem hm
    simp only [List.mem_cons, List.not_mem_nil, or_false] at hc
    rcases hc with rfl | rfl <;> simp only [Param.mk.sizeOf_spec] at this <;> omega
  have hl : ∀ xs : List Node, c ∈ xs → sizeOf c < sizeOf xs := fun xs hc => List.sizeOf_lt_of_mem hc
  have ho : ∀ x : Option Node, c ∈ x → sizeOf c < sizeOf x := by
    rintro (_ | x) hc <;> simp at hc
    subst hc
    simp
  cases form with
  | literal => simp [children, Form.parts] at h
  | prefixOp => simp_all [children, Form.parts]; omega
  | infixOp => simp [children, Form.parts] at h; rcases h with rfl | rfl <;> simp <;> omega
  | statement => simp_all [children, Form.parts]; omega
  | block items trailing =>
    simp only [children, Form.parts, List.mem_append, Option.mem_toList] at h
    rcases h with h | h
    · have := hl _ h; simp; omega
    · have := ho _ h; simp; omega
  | functionDef name params result body =>
    simp only [children, Form.parts, List.mem_append, Option.mem_toList, List.mem_singleton] at h
    rcases h with (h | h) | rfl
    · have := hp _ h; simp; omega
    · have := ho _ h; simp; omega
    · simp; omega
  | functionCall callee arguments =>
    simp only [children, Form.parts, List.mem_cons] at h
    rcases h with rfl | h
    · simp; omega
    · have := hl _ h; simp; omega
  | variableDef name type initializer =>
    simp only [children, Form.parts, List.mem_cons, Option.mem_toList] at h
    rcases h with rfl | rfl | h
    · simp; omega
    · simp; omega
    · have := ho _ h; simp; omega
  | root items => have := hl items h; simp; omega

/-- A property of trees that passes from the children of a node to the node holds of every tree. -/
theorem childInduction {P : Node → Prop} (step : ∀ n, (∀ c ∈ n.children, P c) → P n) (n : Node) : P n :=
  step n fun c _ => childInduction step c
termination_by sizeOf n
decreasing_by exact sizeOf_lt_of_mem_children ‹_›

end Node

end LetFn
