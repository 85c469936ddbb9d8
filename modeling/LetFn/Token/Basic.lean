import LetFn.Span
import LetFn.Number.Shortest
import LetFn.Token.Kind
import LetFn.Token.Literal

/-!
# Tokens

A token has a kind, a value if its kind has many spellings, and a span. `Token.lexeme` is its spelling in a
source, `Token.text` the form in which token lists are shown.
-/

namespace LetFn

/-- What an identifier or a literal holds. -/
inductive Value where
  | str (text : String)
  | int (n : Int)
  | float (x : Binary64)
deriving DecidableEq, Repr

def Value.text : Value → String
  | .str s => s
  | .int n => toString n
  | .float x => x.text

structure Token where
  kind : Kind
  value : Option Value := none
  span : Span
deriving DecidableEq, Repr

namespace Token

/-- The end of the tokens. -/
def eof (offset : Nat) : Token := ⟨.eof, none, .point offset⟩

/-- The name that an identifier token holds. -/
def identifier? (t : Token) : Option String :=
  match t.kind, t.value with
  | .identifier, some (.str name) => some name
  | _, _ => none

/-- The spelling in a source; the text of a string is quoted and its escapes are put back. -/
def lexeme (t : Token) : String :=
  match t.kind, t.value with
  | .string, some (.str s) => "\"" ++ String.ofList (Literal.encode s.toList) ++ "\""
  | _, some v => v.text
  | k, none => k.symbol

def text (t : Token) : String :=
  match t.value with
  | some v => t.kind.name ++ "(" ++ v.text ++ ") @ " ++ t.span.text
  | none => t.kind.name ++ " @ " ++ t.span.text

end Token

end LetFn
