/-!
# Kinds of token

`Kind.symbol` is the spelling of marks and keywords; a kind that has many spellings shows its name in angle
brackets instead.
-/

namespace LetFn

inductive Kind where
  | eof
  | identifier | integer | float | string
  | openCurly | closeCurly | openParen | closeParen
  | assignment | equals | not | notEquals
  | less | lessEquals | greater | greaterEquals
  | or | and
  | semicolon | colon | comma | arrow
  | plus | dash | slash | star
  | letWord | fnWord
deriving DecidableEq, Repr, Inhabited

namespace Kind

def all : List Kind :=
  [eof, identifier, integer, float, string, openCurly, closeCurly, openParen, closeParen, assignment, equals, not,
    notEquals, less, lessEquals, greater, greaterEquals, or, and, semicolon, colon, comma, arrow, plus, dash, slash,
    star, letWord, fnWord]

theorem mem_all (k : Kind) : k ∈ all := by cases k <;> decide

def symbol : Kind → String
  | eof => "<eof>"
  | identifier => "<identifier>"
  | integer => "<integer>"
  | float => "<float>"
  | string => "<string>"
  | openCurly => "\x7b"
  | closeCurly => "\x7d"
  | openParen => "("
  | closeParen => ")"
  | assignment => "="
  | equals => "=="
  | not => "!"
  | notEquals => "!="
  | less => "<"
  | lessEquals => "<="
  | greater => ">"
  | greaterEquals => ">="
  | or => "||"
  | and => "&&"
  | semicolon => ";"
  | colon => ":"
  | comma => ","
  | arrow => "->"
  | plus => "+"
  | dash => "-"
  | slash => "/"
  | star => "*"
  | letWord => "let"
  | fnWord => "fn"

def name : Kind → String
  | eof => "EOF"
  | identifier => "Identifier"
  | integer => "Integer"
  | float => "Float"
  | string => "String"
  | openCurly => "OpenCurly"
  | closeCurly => "CloseCurly"
  | openParen => "OpenParen"
  | closeParen => "CloseParen"
  | assignment => "Assignment"
  | equals => "Equals"
  | not => "Not"
  | notEquals => "NotEquals"
  | less => "Less"
  | lessEquals => "LessEquals"
  | greater => "Greater"
  | greaterEquals => "GreaterEquals"
  | or => "Or"
  | and => "And"
  | semicolon => "Semicolon"
  | colon => "Colon"
  | comma => "Comma"
  | arrow => "Arrow"
  | plus => "Plus"
  | dash => "Dash"
  | slash => "Slash"
  | star => "Star"
  | letWord => "Let"
  | fnWord => "Fn"

def isArithmetic : Kind → Bool
  | plus | dash | star | slash => true
  | _ => false

def isComparison : Kind → Bool
  | less | lessEquals | greater | greaterEquals | equals | notEquals => true
  | _ => false

def isLogical : Kind → Bool
  | and | or => true
  | _ => false

/-- The words that are no identifiers. -/
def keywords : List Kind := [letWord, fnWord]

def keyword? (word : String) : Option Kind := keywords.find? (·.symbol = word)

end Kind

end LetFn
