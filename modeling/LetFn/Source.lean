/-!
# Places in the source

A source is a list of characters, and an offset counts bytes of its UTF-8 form. `splitLines` cuts the source
after every newline, `locate` turns an offset into the line, the text of that line and the column in bytes.
An offset at or past the end stands at the end of the last line, where errors about missing tokens point.

Main facts: `utf8Length_append`, `flatten_splitLines`.
-/

namespace LetFn.Source

/-- The number of bytes of the UTF-8 form. -/
def utf8Length (cs : List Char) : Nat := cs.foldr (fun c n => c.utf8Size + n) 0

@[simp] theorem utf8Length_nil : utf8Length [] = 0 := rfl

@[simp] theorem utf8Length_cons (c : Char) (cs : List Char) : utf8Length (c :: cs) = c.utf8Size + utf8Length cs := rfl

@[simp] theorem utf8Length_append (cs ds : List Char) : utf8Length (cs ++ ds) = utf8Length cs + utf8Length ds := by
  induction cs with
  | nil => simp
  | cons c cs ih => simp only [List.cons_append, utf8Length_cons, ih, Nat.add_assoc]

/-! ## lines -/

/-- The first line, with its newline if it has one, and what follows it. -/
def firstLine : List Char → List Char × List Char
  | [] => ([], [])
  | c :: cs => if c = '\n' then ([c], cs) else ((c :: (firstLine cs).1), (firstLine cs).2)

theorem firstLine_append (cs : List Char) : (firstLine cs).1 ++ (firstLine cs).2 = cs := by
  induction cs with
  | nil => rfl
  | cons c cs ih => by_cases h : c = '\n' <;> simp [firstLine, h, ih]

theorem length_firstLine_lt (c : Char) (cs : List Char) : (firstLine (c :: cs)).2.length < (c :: cs).length := by
  have h := congrArg List.length (firstLine_append cs)
  simp only [List.length_append] at h
  by_cases hc : c = '\n' <;> simp [firstLine, hc]
  omega

/-- Every line keeps its newline; a source that ends in one has no empty line after it. -/
def splitLines : List Char → List (List Char)
  | [] => []
  | c :: cs => (firstLine (c :: cs)).1 :: splitLines (firstLine (c :: cs)).2
termination_by cs => cs.length
decreasing_by exact length_firstLine_lt c cs

theorem flatten_splitLines (cs : List Char) : (splitLines cs).flatten = cs := by
  fun_induction splitLines cs with
  | case1 => rfl
  | case2 c cs ih => rw [List.flatten_cons, ih, firstLine_append]

/-! ## places -/

/-- A line by number and text, and a column in bytes from the start of that line. -/
structure Place where
  line : Nat
  text : List Char
  column : Nat
deriving DecidableEq, Repr

/-- The place after everything: the end of the last line, or the start of an empty one after a newline. -/
def endOf (number : Nat) (line : List Char) : Place :=
  if line.getLast? = some '\n' then ⟨number + 1, [], 0⟩ else ⟨number, line, utf8Length line⟩

/-- Finds the line that holds the offset among the lines from the given number on. -/
def locateIn (number offset : Nat) : List (List Char) → Place
  | [] => ⟨number, [], 0⟩
  | line :: rest =>
    if offset < utf8Length line then ⟨number, line, offset⟩
    else
      match rest with
      | [] => endOf number line
      | _ :: _ => locateIn (number + 1) (offset - utf8Length line) rest

/-- The place of a byte offset. -/
def locate (source : List Char) (offset : Nat) : Place := locateIn 1 offset (splitLines source)

end LetFn.Source
