import LetFn.Tree.Basic
import LetFn.Types.Context

/-!
# Scopes of a tree

`Node.stamp` opens a scope for every block and every function definition and notes on every node the scope it stands
in. A definition's parameters and the items of its body share the definition's scope, so the body opens none itself;
the definition and its return type stand in the scope around it.
-/

namespace LetFn

/-- The noted scope; a node without a note counts as standing in the scope around the program. -/
def Node.scopeId (n : Node) : ScopeId := n.scope.getD .root

namespace Node

mutual

/-- Notes the scope `here` on a node and the scopes below it on its parts. -/
def stamp (here : ScopeId) : Node → Context → Node × Context
  | ⟨span, _, type, .block items trailing⟩, ctx =>
    let (inner, ctx) := ctx.openScope here
    let (items, ctx) := stampList inner items ctx
    let (trailing, ctx) := stampOption inner trailing ctx
    (⟨span, some here, type, .block items trailing⟩, ctx)
  | ⟨span, _, type, .functionDef name params result body⟩, ctx =>
    let (inner, ctx) := ctx.openScope here
    let (params, ctx) := stampParams inner params ctx
    let (body, ctx) := stampBody inner body ctx
    let (result, ctx) := stamp here result ctx
    (⟨span, some here, type, .functionDef name params result body⟩, ctx)
  | ⟨span, _, type, form⟩, ctx =>
    let (form, ctx) := stampParts here form ctx
    (⟨span, some here, type, form⟩, ctx)

/-- Notes the scope `here` on the parts of a form. -/
def stampParts (here : ScopeId) : Form Node → Context → Form Node × Context
  | .literal token, ctx => (.literal token, ctx)
  | .prefixOp operator operand, ctx =>
    let (operand, ctx) := stamp here operand ctx
    (.prefixOp operator operand, ctx)
  | .infixOp operator left right, ctx =>
    let (left, ctx) := stamp here left ctx
    let (right, ctx) := stamp here right ctx
    (.infixOp operator left right, ctx)
  | .statement inner, ctx =>
    let (inner, ctx) := stamp here inner ctx
    (.statement inner, ctx)
  | .block items trailing, ctx =>
    let (items, ctx) := stampList here items ctx
    let (trailing, ctx) := stampOption here trailing ctx
    (.block items trailing, ctx)
  | .functionDef name params result body, ctx =>
    let (params, ctx) := stampParams here params ctx
    let (body, ctx) := stampOption here body ctx
    let (result, ctx) := stamp here result ctx
    (.functionDef name params result body, ctx)
  | .functionCall callee arguments, ctx =>
    let (callee, ctx) := stamp here callee ctx
    let (arguments, ctx) := stampList here arguments ctx
    (.functionCall callee arguments, ctx)
  | .variableDef name type initializer, ctx =>
    let (name, ctx) := stamp here name ctx
    let (type, ctx) := stamp here type ctx
    let (initializer, ctx) := stampOption here initializer ctx
    (.variableDef name type initializer, ctx)
  | .root items, ctx =>
    let (items, ctx) := stampList here items ctx
    (.root items, ctx)

def stampList (here : ScopeId) : List Node → Context → List Node × Context
  | [], ctx => ([], ctx)
  | x :: xs, ctx =>
    let (x, ctx) := stamp here x ctx
    let (xs, ctx) := stampList here xs ctx
    (x :: xs, ctx)

def stampOption (here : ScopeId) : Option Node → Context → Option Node × Context
  | none, ctx => (none, ctx)
  | some x, ctx =>
    let (x, ctx) := stamp here x ctx
    (some x, ctx)

def stampParams (here : ScopeId) : List (Param Node) → Context → List (Param Node) × Context
  | [], ctx => ([], ctx)
  | ⟨name, type⟩ :: ps, ctx =>
    let (name, ctx) := stamp here name ctx
    let (type, ctx) := stamp here type ctx
    let (ps, ctx) := stampParams here ps ctx
    (⟨name, type⟩ :: ps, ctx)

/-- The body of a function stands in the function's scope together with its parts. -/
def stampBody (here : ScopeId) : Option Node → Context → Option Node × Context
  | none, ctx => (none, ctx)
  | some ⟨span, _, type, form⟩, ctx =>
    let (form, ctx) := stampParts here form ctx
    (some ⟨span, some here, type, form⟩, ctx)

end

end Node

namespace Check

/-- The scopes of a whole tree, inside the scope around the program. -/
def scopes (ctx : Context) (n : Node) : Node × Context := n.stamp .root ctx

end Check

end LetFn
