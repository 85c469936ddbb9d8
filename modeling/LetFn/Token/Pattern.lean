import LetFn.Source
import LetFn.Text.Blank
import LetFn.Error.Basic
import LetFn.Token.Basic

/-!
# Patterns

A source is cut into pieces by a table of patterns, tried in order; the first one that matches decides. A pattern
is a class of texts, and `Pattern.split?` takes the longest text of that class off the front of the source. A
longer mark stands before the marks that it begins with.

Main facts: `append_of_split?`, `length_lt_of_split?`.
-/

namespace LetFn

inductive Pattern where
  | name | float | integer | blank | string | comment
  | mark (kind : Kind)
deriving DecidableEq, Repr

namespace Pattern

def isNameStart (c : Char) : Bool := c.isAlpha || c == '_'

def isNamePart (c : Char) : Bool := c.isAlphanum || c == '_'

/-- A run of at least one character of a class. -/
def run? (p : Char → Bool) (cs : List Char) : Option (List Char × List Char) :=
  if (cs.takeWhile p).isEmpty then none else some (cs.takeWhile p, cs.dropWhile p)

/-- Takes the longest match off the front; the match is never empty. -/
def split? : Pattern → List Char → Option (List Char × List Char)
  | name, c :: cs =>
    if isNameStart c then some (c :: cs.takeWhile isNamePart, cs.dropWhile isNamePart) else none
  | float, cs =>
    match run? Char.isDigit cs with
    | some (whole, '.' :: rest) =>
      (run? Char.isDigit rest).map fun (fraction, rest) => (whole ++ '.' :: fraction, rest)
    | _ => none
  | integer, cs => run? Char.isDigit cs
  | blank, cs => run? Text.isBlank cs
  | string, '"' :: cs =>
    match cs.dropWhile (· ≠ '"') with
    | [] => none
    | q :: rest => some ('"' :: cs.takeWhile (· ≠ '"') ++ [q], rest)
  | comment, '/' :: '/' :: cs => some ('/' :: '/' :: cs.takeWhile (· ≠ '\n'), cs.dropWhile (· ≠ '\n'))
  | mark kind, cs =>
    if kind.symbol.toList <+: cs then some (kind.symbol.toList, cs.drop kind.symbol.toList.length) else none
  | _, _ => none

/-- All patterns, in the order in which they are tried. -/
def table : List Pattern :=
  [name, float, integer, blank, string, comment, mark .openCurly, mark .closeCurly, mark .openParen,
    mark .closeParen, mark .equals, mark .notEquals, mark .not, mark .assignment, mark .lessEquals, mark .less,
    mark .greaterEquals, mark .greater, mark .or, mark .and, mark .semicolon, mark .colon, mark .comma, mark .arrow,
    mark .plus, mark .dash, mark .slash, mark .star]

/-- The first pattern of the table that matches, with its match and the rest. -/
def first? (cs : List Char) : Option (Pattern × List Char × List Char) :=
  table.findSome? fun p => (p.split? cs).map (p, ·)

/-! ## a match is a piece of the source -/

theorem append_of_run? {p : Char → Bool} {cs taken rest : List Char} (h : run? p cs = some (taken, rest)) :
    taken ++ rest = cs ∧ taken ≠ [] := by
  unfold run? at h
  split at h
  · simp at h
  · next hne =>
    obtain ⟨rfl, rfl⟩ := Prod.mk.inj (Option.some.inj h)
    exact ⟨List.takeWhile_append_dropWhile, by simpa using hne⟩

theorem symbol_ne_nil (kind : Kind) : kind.symbol.toList ≠ [] := by cases kind <;> decide

theorem append_of_split? {p : Pattern} {cs taken rest : List Char} (h : p.split? cs = some (taken, rest)) :
    taken ++ rest = cs ∧ taken ≠ [] := by
  unfold split? at h
  split at h
  · split at h
    · obtain ⟨rfl, rfl⟩ := Prod.mk.inj (Option.some.inj h)
      simp
    · simp at h
  · split at h
    · next whole rest' hw =>
      obtain ⟨⟨fraction, rest''⟩, hf, heq⟩ := Option.map_eq_some_iff.1 h
      obtain ⟨rfl, rfl⟩ := Prod.mk.inj heq
      have h1 := append_of_run? hw
      have h2 := append_of_run? hf
      refine ⟨?_, by simp⟩
      rw [List.append_assoc, List.cons_append, h2.1, h1.1]
    · simp at h
  · exact append_of_run? h
  · exact append_of_run? h
  · next cs =>
    split at h
    · simp at h
    · next q rest' hd =>
      obtain ⟨rfl, rfl⟩ := Prod.mk.inj (Option.some.inj h)
      refine ⟨?_, by simp⟩
      rw [List.append_assoc, List.singleton_append, ← hd, List.cons_append, List.takeWhile_append_dropWhile]
  · obtain ⟨rfl, rfl⟩ := Prod.mk.inj (Option.some.inj h)
    simp
  · next kind =>
    split at h
    · next hp =>
      obtain ⟨rfl, rfl⟩ := Prod.mk.inj (Option.some.inj h)
      exact ⟨(List.prefix_iff_eq_append.1 hp).symm ▸ rfl, symbol_ne_nil kind⟩
    · simp at h
  · simp at h

theorem length_lt_of_split? {p : Pattern} {cs taken rest : List Char} (h : p.split? cs = some (taken, rest)) :
    rest.length < cs.length := by
  obtain ⟨rfl, hne⟩ := append_of_split? h
  have := List.length_pos_iff.2 hne
  simp only [List.length_append]
  omega

theorem split?_of_first? {cs taken rest : List Char} {p : Pattern} (h : first? cs = some (p, taken, rest)) :
    p.split? cs = some (taken, rest) := by
  obtain ⟨q, _, hq⟩ := List.exists_of_findSome?_eq_some h
  obtain ⟨⟨taken', rest'⟩, hs, heq⟩ := Option.map_eq_some_iff.1 hq
  simp only [Prod.mk.injEq] at heq
  obtain ⟨rfl, rfl, rfl⟩ := heq
  exact hs

end Pattern

end LetFn
