import LetFn.Token.Pattern

/-!
# Tokens of a source

`tokenize` cuts the source by the table of patterns and reads a token off every match; blanks and comments give
none. The last token is the end of the source. The first text that no pattern matches, or that is a number
outside the range of its type, is an error.
-/

namespace LetFn

namespace Pattern

/-- The largest integer that a literal may hold. -/
def maxInteger : Nat := Nat.pow 2 63 - 1

/-- The token that a match stands for. -/
def read? (p : Pattern) (taken : List Char) (span : Span) : Except Error (Option Token) :=
  match p with
  | name =>
    let word := String.ofList taken
    match Kind.keyword? word with
    | some kind => .ok (some ⟨kind, none, span⟩)
    | none => .ok (some ⟨.identifier, some (.str word), span⟩)
  | float =>
    let whole := taken.takeWhile Char.isDigit
    let x := (Decimal.ofDigits whole (taken.drop (whole.length + 1))).toBinary64
    .ok (some ⟨.float, some (.float x), span⟩)
  | integer =>
    let n := Nat.ofDigitChars 10 taken 0
    if n ≤ maxInteger then .ok (some ⟨.integer, some (.int n), span⟩)
    else .error ⟨.numberOutOfRange (String.ofList taken), span, none⟩
  | string => .ok (some ⟨.string, some (.str (String.ofList (Literal.decode taken.tail.dropLast))), span⟩)
  | mark kind => .ok (some ⟨kind, none, span⟩)
  | blank | comment => .ok none

end Pattern

/-- Reads the tokens of a source that begins at the given offset. -/
def scan (offset : Nat) (cs : List Char) : Except Error (List Token) :=
  match cs with
  | [] => .ok [.eof offset]
  | c :: cs =>
    match h : Pattern.first? (c :: cs) with
    | none => .error ⟨.unrecognisedToken c.toString, ⟨offset, offset + c.utf8Size⟩, none⟩
    | some (p, taken, rest) => do
      have := Pattern.length_lt_of_split? (Pattern.split?_of_first? h)
      let stop := offset + Source.utf8Length taken
      let token ← p.read? taken ⟨offset, stop⟩
      let tokens ← scan stop rest
      return token.toList ++ tokens
termination_by cs.length
decreasing_by exact this

def tokenize (source : String) : Except Error (List Token) := scan 0 source.toList

end LetFn
