import LetFn.Check.Scopes
import LetFn.Tree.Walk

/-!
# Signatures

The function definitions of a tree are declared before anything is typed, so that a call may stand before the
definition it means.
-/

namespace LetFn.Check

/-- The type that a type expression names; an expression that is no name names nothing. -/
def typeNamedBy (n : Node) : Except Error TypeId := Context.resolveTypeName (n.identifier?.getD "") n.span

/-- The types of the parameters and of the result of a function. -/
structure Signature where
  params : List TypeId
  result : TypeId

def signature (params : List (Param Node)) (result : Node) : Except Error Signature := do
  let params ← params.mapM fun p => typeNamedBy p.type
  let result ← typeNamedBy result
  return { params, result }

/-- Declares a function in a scope and returns its signature. -/
def declareFunction (ctx : Context) (s : ScopeId) (name : Token) (params : List (Param Node)) (result : Node)
    (body : Option Node) : Except Error (Signature × Context) := do
  let sig ← signature params result
  let (type, ctx) := ctx.intern (.function sig.params sig.result)
  let ctx ← ctx.declare s
    { name := name.identifier?.getD "", type, span := name.span,
      kind := .function (params.map (·.name.span)) body.isSome }
  return (sig, ctx)

/-- Declares the function that a node defines, if it defines one. -/
def declareDefinition (ctx : Context) (n : Node) : Except Error Context :=
  match n.form with
  | .functionDef name params result body => do
    let (_, ctx) ← declareFunction ctx n.scopeId name params result body
    return ctx
  | _ => return ctx

/-- Declares all functions of a tree, outer ones before those inside them. -/
def signatures (ctx : Context) (n : Node) : Except Error Context := n.preorder.foldlM declareDefinition ctx

end LetFn.Check
