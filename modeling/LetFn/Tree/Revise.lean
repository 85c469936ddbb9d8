import LetFn.Tree.Basic

/-!
# Changing a tree from its leaves upwards

`Node.revise` applies a rule to every node of a tree, to the parts of a node before the node itself. The first error
ends it. `Node.mapType` changes the type note of every node.
-/

namespace LetFn.Node

section

variable {ε : Type} (rule : Node → Except ε Node)

mutual

def revise : Node → Except ε Node
  | ⟨span, scope, type, form⟩ => do
    let form ← reviseParts form
    rule ⟨span, scope, type, form⟩

def reviseParts : Form Node → Except ε (Form Node)
  | .literal token => return .literal token
  | .prefixOp operator operand => return .prefixOp operator (← revise operand)
  | .infixOp operator left right => return .infixOp operator (← revise left) (← revise right)
  | .statement inner => return .statement (← revise inner)
  | .block items trailing => return .block (← reviseList items) (← reviseOption trailing)
  | .functionDef name params result body => do
    let params ← reviseParams params
    let body ← reviseOption body
    let result ← revise result
    return .functionDef name params result body
  | .functionCall callee arguments => return .functionCall (← revise callee) (← reviseList arguments)
  | .variableDef name type initializer =>
    return .variableDef (← revise name) (← revise type) (← reviseOption initializer)
  | .root items => return .root (← reviseList items)

def reviseList : List Node → Except ε (List Node)
  | [] => return []
  | x :: xs => return (← revise x) :: (← reviseList xs)

def reviseOption : Option Node → Except ε (Option Node)
  | none => return none
  | some x => return some (← revise x)

def reviseParams : List (Param Node) → Except ε (List (Param Node))
  | [] => return []
  | ⟨name, type⟩ :: ps => return ⟨← revise name, ← revise type⟩ :: (← reviseParams ps)

end

end

/-! ## notes -/

section

variable (f : Option TypeId → Option TypeId)

mutual

/-- The tree with another type note on every node. -/
def mapType : Node → Node
  | ⟨span, scope, type, form⟩ => ⟨span, scope, f type, mapTypeParts form⟩

def mapTypeParts : Form Node → Form Node
  | .literal token => .literal token
  | .prefixOp operator operand => .prefixOp operator (mapType operand)
  | .infixOp operator left right => .infixOp operator (mapType left) (mapType right)
  | .statement inner => .statement (mapType inner)
  | .block items trailing => .block (mapTypeList items) (mapTypeOption trailing)
  | .functionDef name params result body =>
    .functionDef name (mapTypeParams params) (mapType result) (mapTypeOption body)
  | .functionCall callee arguments => .functionCall (mapType callee) (mapTypeList arguments)
  | .variableDef name type initializer => .variableDef (mapType name) (mapType type) (mapTypeOption initializer)
  | .root items => .root (mapTypeList items)

def mapTypeList : List Node → List Node
  | [] => []
  | x :: xs => mapType x :: mapTypeList xs

def mapTypeOption : Option Node → Option Node
  | none => none
  | some x => some (mapType x)

def mapTypeParams : List (Param Node) → List (Param Node)
  | [] => []
  | ⟨name, type⟩ :: ps => ⟨mapType name, mapType type⟩ :: mapTypeParams ps

end

end

end LetFn.Node
