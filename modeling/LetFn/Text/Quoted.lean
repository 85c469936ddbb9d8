import LetFn.Text.Graphic

/-!
# Quoted text

Names and pieces of source stand in messages between double quotes. Quotes, backslashes and the four controls
that have a letter are written with a backslash, every other character that is not graphic by its code point
in braces, and all else as it is.
-/

namespace LetFn.Text

/-- The code point in lower-case hexadecimal, without leading zeros. -/
def hexCode (c : Char) : String := String.ofList (Nat.toDigits 16 c.toNat)

def quoteChar (c : Char) : String :=
  match c with
  | '\x00' => "\\0"
  | '\t' => "\\t"
  | '\n' => "\\n"
  | '\r' => "\\r"
  | '"' => "\\\""
  | '\\' => "\\\\"
  | c => if isGraphic c then c.toString else "\\u\x7b" ++ hexCode c ++ "\x7d"

def quote (s : String) : String := "\"" ++ String.join (s.toList.map quoteChar) ++ "\""

end LetFn.Text
