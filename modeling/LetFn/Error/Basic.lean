import LetFn.Span
import LetFn.Text.Quoted

/-!
# Errors

An `Error` is a cause at a span, with the span of the other half of the story if there is one: the earlier
declaration of a name, the expression around a bad operand, the parameter of a bad argument. A cause has a name, a
category, a message for logs, which quotes what it cites, and a tip for people, which shows it as it is.
-/

namespace LetFn

/-- The operand of a binary expression that an error speaks of. -/
inductive Side where
  | left | right
deriving DecidableEq, Repr

def Side.text : Side → String
  | left => "left"
  | right => "right"

inductive Cause where
  | unrecognisedToken (token : String)
  | numberOutOfRange (token : String)
  | unexpectedToken (token expected : String)
  | unexpectedTokenDetailed (token message : String)
  | noPrefixRule (token : String)
  | unknownIdentifier (name : String)
  | unknownType (name : String)
  | alreadyDeclared (name : String)
  | nonNumericOperand (side : Side) (found : String)
  | noCommonAncestor (expected received : String)
  | arityMismatch (expected received : Nat)
  | argumentMismatch (index : Nat) (expected received : String)
  | assignmentMismatch (left right : String)
  | notCallable (found : String)
  | returnTypeMismatch (expected received : String)
deriving DecidableEq, Repr

/-- The part of the front end that rejects a program. -/
inductive Category where
  | lexical | syntactic | naming | typing
deriving DecidableEq, Repr

def Category.text : Category → String
  | lexical => "LexicalError"
  | syntactic => "SyntaxError"
  | naming => "NameError"
  | typing => "TypeError"

namespace Cause

open Text (quote)

def name : Cause → String
  | unrecognisedToken _ => "UnrecognisedToken"
  | numberOutOfRange _ => "NumberParseError"
  | unexpectedToken _ _ => "UnexpectedToken"
  | unexpectedTokenDetailed _ _ => "UnexpectedTokenDetailed"
  | noPrefixRule _ => "NoPrefixRule"
  | unknownIdentifier _ => "UnknownIdentifier"
  | unknownType _ => "UnknownType"
  | alreadyDeclared _ => "AlreadyDeclared"
  | nonNumericOperand _ _ => "NonNumericOperand"
  | noCommonAncestor _ _ => "NoCommonAncestor"
  | arityMismatch _ _ => "ArityMismatch"
  | argumentMismatch _ _ _ => "ArgumentMismatch"
  | assignmentMismatch _ _ => "AssignmentMismatch"
  | notCallable _ => "NotCallable"
  | returnTypeMismatch _ _ => "ReturnTypeMismatch"

def category : Cause → Category
  | unrecognisedToken _ | numberOutOfRange _ => .lexical
  | unexpectedToken _ _ | unexpectedTokenDetailed _ _ | noPrefixRule _ => .syntactic
  | unknownIdentifier _ | unknownType _ | alreadyDeclared _ => .naming
  | nonNumericOperand _ _ | noCommonAncestor _ _ | arityMismatch _ _ | argumentMismatch _ _ _
  | assignmentMismatch _ _ | notCallable _ | returnTypeMismatch _ _ => .typing

def message : Cause → String
  | unrecognisedToken token => s!"unrecognised token: {quote token}"
  | numberOutOfRange token => s!"error parsing number: {quote token}"
  | unexpectedToken token expected => s!"unexpected token {quote token}, expected {expected}"
  | unexpectedTokenDetailed token message => s!"unexpected token ({message}): {quote token}"
  | noPrefixRule token => s!"unable to find prefix rule for token {quote token}"
  | unknownIdentifier name => s!"unknown identifier {quote name}"
  | unknownType name => s!"unknown type {quote name}"
  | alreadyDeclared name => s!"{quote name} already declared in this scope"
  | nonNumericOperand side found => s!"{side.text} operand of arithmetic has non-numeric type {found}"
  | noCommonAncestor expected received => s!"no common ancestor: expected {expected}, received {received}"
  | arityMismatch expected received => s!"wrong number of arguments: expected {expected}, received {received}"
  | argumentMismatch index expected received =>
    s!"argument {index} does not match: expected {expected}, received {received}"
  | assignmentMismatch left right => s!"assignment types do not match: {left} = {right}"
  | notCallable found => s!"type {found} is not callable"
  | returnTypeMismatch expected received => s!"return type does not match: expected {expected}, received {received}"

/-- A hint for the author of the program; an unrecognised token has none. -/
def tip? : Cause → Option String
  | unrecognisedToken _ => none
  | numberOutOfRange token => s!"Invalid number: `{token}`, is it above the integer limit?"
  | unexpectedToken token expected => s!"Unexpected token: `{token}`, expected `{expected}`"
  | unexpectedTokenDetailed token message => s!"Unexpected token: `{token}`, {message}"
  | noPrefixRule token => s!"`{token}` cannot start an expression"
  | unknownIdentifier name => s!"Identifier `{name}` not declared"
  | unknownType name => s!"Unknown type `{name}` found"
  | alreadyDeclared name => s!"`{name}` already declared in this scope"
  | nonNumericOperand side found => s!"The {side.text} operand has type `{found}`, arithmetic needs a number"
  | noCommonAncestor expected received => s!"Cannot widen `{received}` to `{expected}`"
  | arityMismatch expected received => s!"Expected {expected} arguments, received {received}"
  | argumentMismatch index expected received => s!"Parameter {index} expects `{expected}`, received `{received}`"
  | assignmentMismatch left right => s!"Cannot assign `{right}` to `{left}`"
  | notCallable found => s!"Type `{found}` is not a function"
  | returnTypeMismatch expected received => s!"Function returns `{expected}`, body evaluates to `{received}`"

end Cause

structure Error where
  cause : Cause
  span : Span
  related : Option Span := none
deriving DecidableEq, Repr

namespace Error

def message (e : Error) : String :=
  let main := s!"{e.cause.category.text}: {e.cause.message} at {e.span.text}"
  match e.related with
  | none => main
  | some other => s!"{main} (see {other.text})"

end Error

end LetFn
