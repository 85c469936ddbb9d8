import LetFn.Error.Basic
import LetFn.Token.Basic

/-!
# Cursors

A `Cursor` is a place in a list of tokens: the tokens that are left, and the token that stands at the end, which is
read as often as one likes.
-/

namespace LetFn

structure Cursor where
  rest : List Token
  eof : Token

namespace Cursor

/-- The start of the tokens of a source of the given length. -/
def start (tokens : List Token) (length : Nat) : Cursor := ⟨tokens, .eof length⟩

def current (c : Cursor) : Token := c.rest.headD c.eof

def kind (c : Cursor) : Kind := c.current.kind

/-- The cursor behind the current token. -/
def next (c : Cursor) : Cursor := { c with rest := c.rest.tail }

def hasTokens (c : Cursor) : Bool := c.kind ≠ .eof

/-- The error of a token that stands where something else had to be. -/
def unexpected (c : Cursor) (expected : String) : Error :=
  ⟨.unexpectedToken c.current.lexeme expected, c.current.span, none⟩

def unexpectedDetailed (c : Cursor) (message : String) : Error :=
  ⟨.unexpectedTokenDetailed c.current.lexeme message, c.current.span, none⟩

/-- Takes a token of the given kind. -/
def expect (c : Cursor) (kind : Kind) : Except Error (Token × Cursor) :=
  if c.kind = kind then .ok (c.current, c.next) else .error (c.unexpected kind.symbol)

/-- Takes a token of the given kind, or says what was asked for. -/
def expectDetailed (c : Cursor) (kind : Kind) (message : String) : Except Error (Token × Cursor) :=
  if c.kind = kind then .ok (c.current, c.next) else .error (c.unexpectedDetailed message)

end Cursor

end LetFn
