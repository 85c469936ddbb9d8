/-!
# String literals

What stands between the quotes of a string literal, as `List Char`. A backslash before `n`, `t`, `r`, `0` or
another backslash makes one character; before anything else it stands for itself.

Main fact: `decode_encode`.
-/

namespace LetFn.Literal

/-- The character that a backslash and this letter stand for. -/
def escaped? : Char → Option Char
  | 'n' => some '\n'
  | 't' => some '\t'
  | 'r' => some '\r'
  | '\\' => some '\\'
  | '0' => some '\x00'
  | _ => none

def decode : List Char → List Char
  | [] => []
  | '\\' :: d :: cs =>
    match escaped? d with
    | some c => c :: decode cs
    | none => '\\' :: decode (d :: cs)
  | c :: cs => c :: decode cs

def encodeChar : Char → List Char
  | '\\' => ['\\', '\\']
  | '\n' => ['\\', 'n']
  | '\t' => ['\\', 't']
  | '\r' => ['\\', 'r']
  | '\x00' => ['\\', '0']
  | c => [c]

def encode (cs : List Char) : List Char := cs.flatMap encodeChar

theorem decode_encodeChar_append (c : Char) (cs : List Char) : decode (encodeChar c ++ cs) = c :: decode cs := by
  unfold encodeChar
  split <;> simp_all [decode, escaped?]

theorem decode_encode (cs : List Char) : decode (encode cs) = cs := by
  induction cs with
  | nil => rfl
  | cons c cs ih => rw [encode, List.flatMap_cons, decode_encodeChar_append, ← encode, ih]

end LetFn.Literal
