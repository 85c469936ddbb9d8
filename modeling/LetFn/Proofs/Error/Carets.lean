import LetFn.CommandLine
import LetFn.Proofs.Error.Lines

/-!
# Where the caret stands

The picture of an error shows the line that the error points into, without its indentation, and below it dashes and a
caret. There are as many dashes as there are bytes between the indentation and the place, while the line above shows
characters. So the caret stands under the character that the error points at, as long as the characters in front of it
have one byte each; every further byte moves the caret on by one.

* `Offending source offset indent lead c trail` — the character `c` stands at an offset of the source, behind the
  indentation of its line and in front of the white space at the end;
* `Pictured text number lead c trail shown dashes` — the text shows `c` behind `shown`, in a line with that number, and
  the caret behind `dashes` one line below.

Main facts: `Offending.locate_eq`, `Offending.pictured`, `caret_columns`, `caret_beside_character`.
-/

namespace LetFn.Error

open Source Text

variable {source indent lead trail cs ds : List Char} {c d : Char} {offset : Nat} {e : Error}

/-! ## white space at the end of a line -/

theorem trimEnd_prefix (cs : List Char) : trimEnd cs <+: cs := by
  rw [trimEnd, ← List.reverse_suffix, List.reverse_reverse]
  exact List.dropWhile_suffix _

theorem dropWhile_reverse_ne_nil (h : ∃ d ∈ ds, isBlank d = false) : ds.reverse.dropWhile isBlank ≠ [] := by
  obtain ⟨d, hd, hblank⟩ := h
  intro hnil
  rw [List.dropWhile_eq_nil_iff.1 hnil d (List.mem_reverse.2 hd)] at hblank
  cases hblank

/-- What stands in front of a character that is not blank is kept. -/
theorem trimEnd_append (h : ∃ d ∈ ds, isBlank d = false) : trimEnd (cs ++ ds) = cs ++ trimEnd ds := by
  have hkept : ¬ (ds.reverse.dropWhile isBlank).isEmpty = true := by
    rw [List.isEmpty_iff]
    exact dropWhile_reverse_ne_nil h
  rw [trimEnd, trimEnd, List.reverse_append, List.dropWhile_append, if_neg hkept, List.reverse_append,
    List.reverse_reverse]

theorem trimEnd_concat (h : isBlank d = true) : trimEnd (cs ++ [d]) = trimEnd cs := by
  rw [trimEnd, trimEnd, List.reverse_append, List.reverse_singleton, List.singleton_append,
    List.dropWhile_cons_of_pos h]

/-- A character with something behind it that is not blank, or that is not blank itself, is kept. -/
theorem exists_trimEnd_cons (h : ∃ d ∈ c :: cs, isBlank d = false) :
    ∃ rest, rest <+: cs ∧ trimEnd (c :: cs) = c :: rest := by
  have hne : trimEnd (c :: cs) ≠ [] := by
    rw [trimEnd, ne_eq, List.reverse_eq_nil_iff]
    exact dropWhile_reverse_ne_nil h
  obtain ⟨c', rest, heq⟩ := List.exists_cons_of_ne_nil hne
  have hprefix := trimEnd_prefix (c :: cs)
  rw [heq, List.cons_prefix_cons] at hprefix
  obtain ⟨rfl, hrest⟩ := hprefix
  exact ⟨rest, hrest, heq⟩

/-! ## the line of a character -/

/-- The character `c` stands at the offset, in a line that is indented by `indent` and has `lead` and `trail` around the
character. The indentation ends at or in front of the character, and the white space at the end of the line begins
behind it. -/
structure Offending (source : List Char) (offset : Nat) (indent lead : List Char) (c : Char) (trail : List Char) :
    Prop where
  line : ∃ before after, source = before ++ (indent ++ lead ++ c :: trail ++ after) ∧
    offset = utf8Length (before ++ (indent ++ lead)) ∧ (∀ d ∈ before.getLast?, d = '\n') ∧ ∀ d ∈ after.head?, d = '\n'
  oneLine : '\n' ∉ indent ++ lead ++ c :: trail
  indented : ∀ d ∈ indent, isIndent d = true
  begins : ∀ d ∈ (lead ++ [c]).head?, isIndent d = false
  shown : ∃ d ∈ c :: trail, isBlank d = false

/-- The line of the character is the one that is found. -/
theorem Offending.locate_eq (h : Offending source offset indent lead c trail) : ∃ number ending,
    (ending = ['\n'] ∨ ending = []) ∧
    locate source offset = ⟨number, indent ++ lead ++ c :: trail ++ ending, utf8Length (indent ++ lead)⟩ := by
  obtain ⟨before, after, rfl, rfl, hbefore, hafter⟩ := h.line
  obtain ⟨ending, after', rfl, hends⟩ : ∃ ending after', after = ending ++ after' ∧
      (ending = ['\n'] ∨ ending = [] ∧ after' = []) := by
    cases after with
    | nil => exact ⟨[], [], rfl, .inr ⟨rfl, rfl⟩⟩
    | cons d after => exact ⟨['\n'], after, by rw [hafter d rfl, List.singleton_append], .inl rfl⟩
  refine ⟨1 + before.count '\n', ending, hends.imp_right And.left, Stands.locate_eq
    ⟨?_, rfl, rfl, hbefore, h.oneLine, hends, ?_, ?_⟩⟩
  · rfl
  · exact (utf8Length_append (indent ++ lead) (c :: trail)).symm ▸ Nat.le_add_right _ _
  · simp only [utf8Length_append]
    omega

/-- What the picture leaves out in front of the line is the indentation. -/
theorem Offending.split_indent (h : Offending source offset indent lead c trail) (ending : List Char) :
    (indent ++ lead ++ c :: trail ++ ending).takeWhile isIndent = indent ∧
      (indent ++ lead ++ c :: trail ++ ending).dropWhile isIndent = lead ++ c :: trail ++ ending := by
  have hbegins : ∀ d ∈ (lead ++ c :: trail ++ ending).head?, isIndent d = false := by
    intro d hd
    refine h.begins d ?_
    cases lead with
    | nil => exact hd
    | cons => exact hd
  rw [List.append_assoc, List.append_assoc, ← List.append_assoc lead]
  rw [List.takeWhile_append_of_pos h.indented, List.dropWhile_append_of_pos h.indented]
  cases hline : lead ++ c :: trail ++ ending with
  | nil => simp
  | cons d ds =>
    have hd : ¬ isIndent d = true := by simp [hbegins d (by rw [hline]; rfl)]
    rw [List.takeWhile_cons_of_neg hd, List.dropWhile_cons_of_neg hd, List.append_nil]
    exact ⟨rfl, rfl⟩

/-- The line is shown up to the character, and the rest of it but for white space at its end. -/
theorem Offending.exists_trimEnd (h : Offending source offset indent lead c trail) {ending : List Char}
    (hends : ending = ['\n'] ∨ ending = []) :
    ∃ rest, rest <+: trail ∧ trimEnd (lead ++ c :: trail ++ ending) = lead ++ c :: rest := by
  obtain ⟨rest, hrest, htrim⟩ := exists_trimEnd_cons h.shown
  refine ⟨rest, hrest, ?_⟩
  have hending : trimEnd (lead ++ c :: trail ++ ending) = trimEnd (lead ++ c :: trail) := by
    rcases hends with rfl | rfl
    · exact trimEnd_concat (by decide)
    · rw [List.append_nil]
  rw [hending, trimEnd_append h.shown, htrim]

/-! ## pictures -/

/-- The text has the character `c` behind `shown` in one line, and in the line below the caret behind `dashes`. What is
shown in front of the character is the number of the line, a separator and the line from its indentation on. -/
structure Pictured (text : String) (number : Nat) (lead : List Char) (c : Char) (trail shown dashes : List Char) :
    Prop where
  lines : ∃ above rest below, rest <+: trail ∧ text.toList =
    above ++ '\n' :: (shown ++ c :: rest) ++ '\n' :: (dashes ++ ['^']) ++ '\n' :: below
  shown_eq : shown = Nat.toDigits 10 number ++ [' ', '|', ' '] ++ lead
  dashes_mem : ∀ d ∈ dashes, d = ' ' ∨ d = '|' ∨ d = '-'
  columns : dashes.length + lead.length = shown.length + utf8Length lead

/-- The line of the source and the line with the caret stand below each other. -/
theorem toList_diagnostic (e : Error) (file source : String) : ∃ above below,
    (e.diagnostic file source).toList = above ++ '\n' :: sourceLine (locate source.toList e.span.start) ++
      '\n' :: caretLine (locate source.toList e.span.start) ++ '\n' :: below := by
  generalize hplace : locate source.toList e.span.start = p
  refine ⟨e.headline.toList ++ '\n' :: (s!"-> {file}").toList ++ '\n' :: alignRight (gutter p.line) ['|'],
    (e.related.map fun other =>
      let q := locate source.toList other.start
      alignRight (gutter p.line) ['='] ++ (s!" note: see {file}:{q.line}:{q.column + 1}").toList ++ ['\n']).getD [], ?_⟩
  unfold diagnostic diagnosticLines
  rw [hplace]
  cases e.related <;> simp [String.join]

/-- The caret stands as many bytes behind the separator as there are between the indentation and the character. -/
theorem Offending.pictured {source : String} (h : Offending source.toList e.span.start indent lead c trail)
    (file : String) : ∃ shown dashes,
      Pictured (e.diagnostic file source) (locate source.toList e.span.start).line lead c trail shown dashes ∧
      caretOffset (locate source.toList e.span.start) = utf8Length lead := by
  obtain ⟨number, ending, hends, hplace⟩ := h.locate_eq
  obtain ⟨hindent, hline⟩ := h.split_indent ending
  obtain ⟨rest, hrest, htrim⟩ := h.exists_trimEnd hends
  obtain ⟨above, below, htext⟩ := toList_diagnostic e file source
  have hoffset : caretOffset (locate source.toList e.span.start) = utf8Length lead := by
    rw [hplace, caretOffset, hindent, utf8Length_append, Nat.add_sub_cancel_left]
  have hgutter : (alignRight (gutter number) ['|']).length = (Nat.toDigits 10 number).length + 2 := by
    simp [alignRight, gutter]
  refine ⟨Nat.toDigits 10 number ++ [' ', '|', ' '] ++ lead,
    alignRight (gutter number) ['|'] ++ ' ' :: List.replicate (utf8Length lead) '-', ⟨?_, ?_, ?_, ?_⟩, hoffset⟩
  · refine ⟨above, rest, below, hrest, ?_⟩
    rw [htext, caretLine, hoffset, hplace, sourceLine, hline, htrim]
    simp
  · rw [hplace]
  · intro d hd
    rcases List.mem_append.1 hd with hgutter | hruler
    · rcases List.mem_append.1 hgutter with hblank | hbar
      · exact .inl (List.eq_of_mem_replicate hblank)
      · exact .inr (.inl (List.mem_singleton.1 hbar))
    · rcases List.mem_cons.1 hruler with hblank | hdash
      · exact .inl hblank
      · exact .inr (.inr (List.eq_of_mem_replicate hdash))
  · simp only [List.length_append, List.length_cons, List.length_replicate, hgutter, List.length_nil]
    omega

theorem length_le_utf8Length (cs : List Char) : cs.length ≤ utf8Length cs := by
  induction cs with
  | nil => exact Nat.le_refl _
  | cons c cs ih =>
    have := c.utf8Size_pos
    rw [List.length_cons, utf8Length_cons]
    omega

/-- A text has as many bytes as characters just if each character has one. -/
theorem utf8Length_eq_length_iff : utf8Length cs = cs.length ↔ ∀ d ∈ cs, d.utf8Size = 1 := by
  induction cs with
  | nil => simp
  | cons c cs ih =>
    have := c.utf8Size_pos
    have := length_le_utf8Length cs
    have hcons : utf8Length (c :: cs) = (c :: cs).length ↔ c.utf8Size = 1 ∧ utf8Length cs = cs.length := by
      rw [List.length_cons, utf8Length_cons]
      omega
    simp only [hcons, ih, List.forall_mem_cons]

/-- **The caret is set by bytes.** It stands under the character that the error points at if each of the characters
between the indentation and that one has a single byte, and under a later one if not. A caret that is as far off as the
widest field has no picture. -/
theorem caret_columns {source : String} (h : Offending source.toList e.span.start indent lead c trail) (file : String) :
    (e.diagnostic? file source = none ↔ widthLimit ≤ utf8Length lead) ∧
    ∀ text, e.diagnostic? file source = some text → ∃ shown dashes,
      Pictured text (locate source.toList e.span.start).line lead c trail shown dashes ∧
      (dashes.length = shown.length ↔ ∀ d ∈ lead, d.utf8Size = 1) := by
  obtain ⟨shown, dashes, hpictured, hoffset⟩ := h.pictured file
  rw [diagnostic?, hoffset]
  refine ⟨by simp, fun text htext => ⟨shown, dashes, ?_, ?_⟩⟩
  · split at htext
    · rwa [← Option.some.inj htext]
    · cases htext
  · have := hpictured.columns
    rw [← utf8Length_eq_length_iff]
    omega

/-- A character of two bytes stands in front of the name. -/
theorem caret_columns_accent :
    Offending "\"é\" + y;".toList 7 [] ['"', 'é', '"', ' ', '+', ' '] 'y' [';'] ∧
    ∃ text shown dashes, diagnostic? ⟨.unknownIdentifier "y", ⟨7, 8⟩, none⟩ "main.lang" "\"é\" + y;" = some text ∧
      Pictured text 1 ['"', 'é', '"', ' ', '+', ' '] 'y' [';'] shown dashes ∧ dashes.length ≠ shown.length := by
  have h : Offending "\"é\" + y;".toList 7 [] ['"', 'é', '"', ' ', '+', ' '] 'y' [';'] :=
    ⟨⟨[], [], by simp, by decide, by simp, by simp⟩, by simp, by simp, by simp [isIndent], ⟨'y', by simp, by decide⟩⟩
  have hcolumns := caret_columns (e := ⟨.unknownIdentifier "y", ⟨7, 8⟩, none⟩) h "main.lang"
  obtain ⟨text, htext⟩ := Option.ne_none_iff_exists'.1 (mt hcolumns.1.1 (by decide))
  obtain ⟨shown, dashes, hpictured, hunder⟩ := hcolumns.2 text htext
  have hline : (locate "\"é\" + y;".toList 7).line = 1 := by decide +kernel
  exact ⟨h, text, shown, dashes, htext, hline ▸ hpictured, fun heq => absurd (hunder.1 heq 'é' (by simp)) (by decide)⟩

/-- **The caret stands beside the name**: in front of the name there are six characters, and seven dashes. -/
theorem caret_beside_character :
    CommandLine.runOn { file := "main.lang" } (.ok "\"é\" + y;") = {
      success := false
      stderr := "Error: UnknownIdentifier (Identifier `y` not declared)\n-> main.lang\n  |\n" ++
        "1 | \"é\" + y;\n" ++
        "  | -------^\n" } := by
  decide +kernel

end LetFn.Error
