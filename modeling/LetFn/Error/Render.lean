import LetFn.Error.Basic
import LetFn.Source
import LetFn.Text.Blank

/-!
# Diagnostics

The picture of an error: its name and tip, the file, the line it points into without its indentation, and a caret
under the place. Columns count bytes, so a caret that stands after characters of several bytes is further right.
A caret beyond the widest field cannot be set, and then there is no picture.
-/

namespace LetFn.Error

open Source Text

/-- The text moved to the right edge of a column of the given width. -/
def alignRight (width : Nat) (s : List Char) : List Char := List.replicate (width - s.length) ' ' ++ s

def isIndent (c : Char) : Bool := c == ' ' || c == '\t'

/-- The gutter left of the source line is as wide as the line number and the blanks around it. -/
def gutter (line : Nat) : Nat := (Nat.toDigits 10 line).length + 2

/-- The line number and the line from its first character that is no space or tab. -/
def sourceLine (p : Place) : List Char :=
  Nat.toDigits 10 p.line ++ [' ', '|', ' '] ++ trimEnd (p.text.dropWhile isIndent)

/-- The number of dashes before the caret. -/
def caretOffset (p : Place) : Nat := p.column - utf8Length (p.text.takeWhile isIndent)

/-- The dashes below that line and the caret under the column. -/
def caretLine (p : Place) : List Char :=
  alignRight (gutter p.line) ['|'] ++ ' ' :: List.replicate (caretOffset p) '-' ++ ['^']

def headline (e : Error) : String :=
  match e.cause.tip? with
  | none => s!"Error: {e.cause.name}"
  | some tip => s!"Error: {e.cause.name} ({tip})"

/-- The lines of the picture. -/
def diagnosticLines (e : Error) (file : String) (source : List Char) : List String :=
  let p := locate source e.span.start
  let note := e.related.map fun other =>
    let q := locate source other.start
    String.ofList (alignRight (gutter p.line) ['=']) ++ s!" note: see {file}:{q.line}:{q.column + 1}"
  [e.headline, s!"-> {file}", String.ofList (alignRight (gutter p.line) ['|']), String.ofList (sourceLine p),
    String.ofList (caretLine p)] ++ note.toList

def diagnostic (e : Error) (file : String) (source : String) : String :=
  String.join ((e.diagnosticLines file source.toList).map (· ++ "\n"))

/-- The widest field, which dashes and caret share. -/
def widthLimit : Nat := 65535

def tooWide : String := "Formatting argument out of range"

/-- The picture, unless its caret stands beyond the widest field. -/
def diagnostic? (e : Error) (file : String) (source : String) : Option String :=
  if caretOffset (locate source.toList e.span.start) < widthLimit then some (e.diagnostic file source) else none

end LetFn.Error
