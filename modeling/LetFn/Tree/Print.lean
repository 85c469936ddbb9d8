import LetFn.Tree.Basic
import LetFn.Types.Context

/-!
# Printing trees

`Node.print` writes a tree as a source. Infix expressions stand in parentheses, and so do definitions of variables and
statements where they are operands, since they would take in what follows them. With a context, `Node.printTyped` marks
leaves and calls with their types; that form is for reading only.
-/

namespace LetFn.Node

def indentation (depth : Nat) : String := String.join (List.replicate depth "    ")

/-- Whether an operand of this shape has to stand in parentheses. -/
def capturesMore (n : Node) : Bool := n.tag = .variableDef || n.tag = .statement

def parenthesized (s : String) : String := "(" ++ s ++ ")"

/-- The text of a node as an operand. -/
def asOperand (n : Node) (s : String) : String := if n.capturesMore then parenthesized s else s

/-- The text of a node as the function of a call. -/
def asCallee (n : Node) (s : String) : String := if n.tag = .prefixOp then parenthesized s else n.asOperand s

section

variable (note : Option TypeId → String)

mutual

/-- The source of a node whose lines are indented `depth` times; `note` is written behind leaves and calls. -/
def printWith (depth : Nat) : Node → String
  | ⟨_, _, type, .literal token⟩ => token.lexeme ++ note type
  | ⟨_, _, _, .prefixOp operator operand⟩ => operator.kind.symbol ++ asOperand operand (printWith depth operand)
  | ⟨_, _, _, .infixOp operator left right⟩ =>
    parenthesized (asOperand left (printWith depth left) ++ " " ++ operator.kind.symbol ++ " " ++
      asOperand right (printWith depth right))
  | ⟨_, _, _, .statement inner⟩ => printWith depth inner ++ ";"
  | ⟨_, _, _, .block items trailing⟩ =>
    if items.isEmpty && trailing.isNone then "\x7b \x7d"
    else
      "\x7b\n" ++ printLines (depth + 1) items ++ printLastLine (depth + 1) trailing ++ indentation depth ++ "\x7d"
  | ⟨_, _, _, .functionDef name params result body⟩ =>
    "fn " ++ name.lexeme ++ "(" ++ ", ".intercalate (printParams depth params) ++ ") -> " ++ printWith depth result ++
      printBody depth body
  | ⟨_, _, type, .functionCall callee arguments⟩ =>
    asCallee callee (printWith depth callee) ++ parenthesized (", ".intercalate (printArguments depth arguments)) ++
      note type
  | ⟨_, _, _, .variableDef name type initializer⟩ =>
    "let " ++ printWith depth name ++ ": " ++ printWith depth type ++ printInitializer depth initializer
  | ⟨_, _, _, .root items⟩ => "\n".intercalate (printItems depth items)

def printItems (depth : Nat) : List Node → List String
  | [] => []
  | x :: xs => printWith depth x :: printItems depth xs

def printArguments (depth : Nat) : List Node → List String
  | [] => []
  | x :: xs => asOperand x (printWith depth x) :: printArguments depth xs

def printParams (depth : Nat) : List (Param Node) → List String
  | [] => []
  | ⟨name, type⟩ :: ps => (printWith depth name ++ ": " ++ printWith depth type) :: printParams depth ps

/-- The items of a block, each on a line of its own. -/
def printLines (depth : Nat) : List Node → String
  | [] => ""
  | x :: xs => indentation depth ++ printWith depth x ++ "\n" ++ printLines depth xs

def printLastLine (depth : Nat) : Option Node → String
  | none => ""
  | some x => indentation depth ++ printWith depth x ++ "\n"

def printBody (depth : Nat) : Option Node → String
  | none => ""
  | some x => " " ++ printWith depth x

def printInitializer (depth : Nat) : Option Node → String
  | none => ""
  | some x => " = " ++ printWith depth x

end

end

def print (n : Node) : String := n.printWith (fun _ => "") 0

def printTyped (ctx : Context) (n : Node) : String :=
  n.printWith
    (fun
      | some t => "@" ++ ctx.display t
      | none => "")
    0

end LetFn.Node
