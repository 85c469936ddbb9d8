import LetFn.Source
import Mathlib.Data.List.DropRight

/-!
# Lines of a source and lines of its bytes

A place is found by going through the lines of a source, which are lists of characters, and adding up their bytes. What
is found can be said of the bytes alone: no byte of another character looks like a newline, so newlines may be counted
in any number of bytes from the start, wherever these end.

* `Stands number source offset place …` — a place stands in a source behind some lines, in a line of its own;
* `bytes cs` — the UTF-8 form of a text;
* `lineStart bs p`, `lineStop bs p` — where the line of byte `p` starts and where it ends;
* `Matches bs p place` — the place is that of byte `p`.

Main facts: `stands_locateIn`, `mem_utf8EncodeChar_iff`, `locate_matches`.
-/

namespace LetFn.Source

variable {number offset : Nat} {cs line body before ending after : List Char} {place : Place}

/-! ## the lines in front of a place -/

/-- A source is one line, or its first line ends with the first newline. -/
theorem firstLine_cases (cs : List Char) : firstLine cs = (cs, []) ∧ '\n' ∉ cs ∨
    ∃ body after, cs = body ++ '\n' :: after ∧ '\n' ∉ body ∧ firstLine cs = (body ++ ['\n'], after) := by
  induction cs with
  | nil => exact .inl ⟨rfl, List.not_mem_nil⟩
  | cons c cs ih =>
    by_cases hc : c = '\n'
    · exact .inr ⟨[], cs, by rw [hc, List.nil_append], List.not_mem_nil, by simp [firstLine, hc]⟩
    · rcases ih with ⟨heq, hnot⟩ | ⟨body, after, rfl, hnot, heq⟩
      · exact .inl ⟨by simp [firstLine, hc, heq], by simpa [hnot] using Ne.symm hc⟩
      · exact .inr ⟨c :: body, after, rfl, by simpa [hnot] using Ne.symm hc, by simp [firstLine, hc, heq]⟩

/-- A place stands in a source: behind the whole lines `before`, in the line that is made of `body` and of its newline,
if it has one. Lines are counted from the given number on. -/
structure Stands (number : Nat) (source : List Char) (offset : Nat) (place : Place)
    (before body ending after : List Char) : Prop where
  source_eq : source = before ++ (body ++ (ending ++ after))
  text_eq : place.text = body ++ ending
  line_eq : place.line = number + before.count '\n'
  begins : ∀ c ∈ before.getLast?, c = '\n'
  oneLine : '\n' ∉ body
  ends : ending = ['\n'] ∨ ending = [] ∧ after = []
  within : place.column ≤ utf8Length body
  offset_eq : utf8Length before + place.column = min offset (utf8Length source)

theorem utf8Size_newline : '\n'.utf8Size = 1 := rfl

/-- An offset that is not in a line with a newline is looked for behind it. -/
theorem locateIn_ended (lines : List (List Char)) : locateIn number offset ((body ++ ['\n']) :: lines) =
    if offset < utf8Length body + 1 then ⟨number, body ++ ['\n'], offset⟩
    else locateIn (number + 1) (offset - (utf8Length body + 1)) lines := by
  cases lines with
  | nil => simp [locateIn, endOf, utf8Size_newline]
  | cons => simp [locateIn, utf8Size_newline]

/-- An offset behind a line without a newline stands at the end of that line. -/
theorem locateIn_last (hnot : '\n' ∉ body) :
    locateIn number offset [body] = ⟨number, body, min offset (utf8Length body)⟩ := by
  have hlast : body.getLast? ≠ some '\n' := fun h => hnot (List.mem_of_getLast? h)
  rw [locateIn, endOf, if_neg hlast]
  split
  · next hlt => rw [Nat.min_eq_left (Nat.le_of_lt hlt)]
  · next hge => rw [Nat.min_eq_right (Nat.le_of_not_lt hge)]

/-- A place that stands in the source behind a line. -/
theorem Stands.behind {source : List Char} (hnot : '\n' ∉ line) (hoffset : utf8Length line + 1 ≤ offset)
    (h : Stands (number + 1) source (offset - (utf8Length line + 1)) place before body ending after) :
    Stands number (line ++ '\n' :: source) offset place (line ++ '\n' :: before) body ending after where
  source_eq := by
    rw [h.source_eq]
    simp
  text_eq := h.text_eq
  line_eq := by
    rw [h.line_eq, List.count_append, List.count_cons_self, List.count_eq_zero.2 hnot]
    omega
  begins c hc := by
    have hbegins := h.begins c
    rw [List.getLast?_append_cons, List.getLast?_cons] at hc
    cases hlast : before.getLast? with
    | none => simpa [hlast, eq_comm] using hc
    | some d => exact hbegins (by simpa [hlast] using hc)
  oneLine := h.oneLine
  ends := h.ends
  within := h.within
  offset_eq := by
    have := h.offset_eq
    simp only [utf8Length_append, utf8Length_cons, utf8Size_newline]
    omega

/-- **The place that is found stands in the source**, at the offset or at the end. -/
theorem stands_locateIn (number offset : Nat) (source : List Char) : ∃ before body ending after,
    Stands number source offset (locateIn number offset (splitLines source)) before body ending after := by
  fun_induction splitLines source generalizing number offset with
  | case1 =>
    refine ⟨[], [], [], [], ?_⟩
    constructor <;> simp [locateIn]
  | case2 c cs ih =>
    rcases firstLine_cases (c :: cs) with ⟨hfirst, hnot⟩ | ⟨body, after, hsource, hnot, hfirst⟩
    · rw [hfirst, splitLines, locateIn_last hnot]
      refine ⟨[], c :: cs, [], [], by simp, by simp, by simp, by simp, hnot, .inr ⟨rfl, rfl⟩, ?_, by simp⟩
      exact Nat.min_le_right _ _
    · rw [hfirst] at ih ⊢
      rw [locateIn_ended, hsource]
      split
      · next hlt =>
        refine ⟨[], body, ['\n'], after, by simp, rfl, by simp, by simp, hnot, .inl rfl, Nat.le_of_lt_succ hlt, ?_⟩
        simp only [utf8Length_nil, utf8Length_append, utf8Length_cons, utf8Size_newline]
        omega
      · next hge =>
        obtain ⟨before, body', ending, after', hstands⟩ := ih (number + 1) (offset - (utf8Length body + 1))
        exact ⟨_, body', ending, after', hstands.behind hnot (Nat.le_of_not_lt hge)⟩

/-! ## bytes -/

/-- The UTF-8 form of a text. -/
def bytes (cs : List Char) : List UInt8 := cs.flatMap String.utf8EncodeChar

/-- The byte of a newline. -/
def newline : UInt8 := 10

@[simp] theorem bytes_append (cs ds : List Char) : bytes (cs ++ ds) = bytes cs ++ bytes ds := List.flatMap_append

@[simp] theorem length_bytes (cs : List Char) : (bytes cs).length = utf8Length cs := by
  induction cs with
  | nil => rfl
  | cons c cs ih => simpa [bytes, String.length_utf8EncodeChar] using ih

/-- The bytes of a string. -/
theorem bytes_toList (s : String) : bytes s.toList = s.toByteArray.data.toList := by
  rw [← String.utf8Encode_toList, List.utf8Encode, List.toList_data_toByteArray, bytes]

theorem bytes_inj {cs ds : List Char} (h : bytes cs = bytes ds) : cs = ds := by
  rw [← String.ofList_inj, ← String.toByteArray_inj, String.toByteArray_ofList, String.toByteArray_ofList]
  exact congrArg List.toByteArray h

/-- **Only a newline has the byte of a newline**, for all bytes of a character that has several are above. -/
theorem mem_utf8EncodeChar_iff {c : Char} : newline ∈ String.utf8EncodeChar c ↔ c = '\n' := by
  constructor
  · intro h
    have hval : c.val.toNat = 10 := by
      unfold String.utf8EncodeChar newline at h
      generalize c.val.toNat = v at h
      dsimp only at h
      -- A character is one byte below 0x80, or two, three or four bytes from there on.
      split at h
      · simp [← UInt8.toNat_inj] at h
        omega
      · exfalso
        split at h
        · simp [← UInt8.toNat_inj] at h
          omega
        · split at h
          · simp [← UInt8.toNat_inj] at h
            omega
          · simp [← UInt8.toNat_inj] at h
            omega
    exact Char.ext (UInt32.toNat_inj.1 hval)
  · rintro rfl
    decide

theorem newline_mem_bytes_iff {cs : List Char} : newline ∈ bytes cs ↔ '\n' ∈ cs := by
  simp only [bytes, List.mem_flatMap, mem_utf8EncodeChar_iff, exists_eq_right]

theorem count_bytes (cs : List Char) : (bytes cs).count newline = cs.count '\n' := by
  induction cs with
  | nil => rfl
  | cons c cs ih =>
    have hcons : bytes (c :: cs) = String.utf8EncodeChar c ++ bytes cs := rfl
    rw [hcons, List.count_append, ih]
    by_cases hc : c = '\n'
    · subst hc
      rw [List.count_cons_self]
      exact Nat.add_comm _ _
    · rw [List.count_eq_zero.2 (mt mem_utf8EncodeChar_iff.1 hc), List.count_cons_of_ne hc, Nat.zero_add]

/-! ## lines of bytes -/

/-- Where the line of byte `p` starts: behind the last newline before `p`, or at the start of all bytes. -/
def lineStart (bs : List UInt8) (p : Nat) : Nat := ((bs.take p).rdropWhile (· != newline)).length

/-- Where the line of byte `p` ends: behind the first newline from `p` on, or at the end of all bytes. -/
def lineStop (bs : List UInt8) (p : Nat) : Nat := min bs.length (p + ((bs.drop p).takeWhile (· != newline)).length + 1)

section

variable {bs ls rest : List UInt8} {p : Nat}

theorem bne_of_not_mem (h : newline ∉ ls) : ∀ b ∈ ls, (b != newline) = true := by
  simpa using fun b hb (heq : b = newline) => h (heq ▸ hb)

theorem take_append_line (hp : p ≤ ls.length) : (bs ++ (ls ++ rest)).take (bs.length + p) = bs ++ ls.take p := by
  rw [List.take_length_add_append, List.take_append_of_le_length hp]

theorem lineStart_append (hbs : ∀ b ∈ bs.getLast?, b = newline) (hls : newline ∉ ls) (hp : p ≤ ls.length) :
    lineStart (bs ++ (ls ++ rest)) (bs.length + p) = bs.length := by
  have hdropped : ∀ b ∈ (ls.take p).reverse, (b != newline) = true :=
    bne_of_not_mem fun h => hls (List.mem_of_mem_take (List.mem_reverse.1 h))
  have hkept : bs.rdropWhile (· != newline) = bs := by
    rw [List.rdropWhile_eq_self_iff]
    intro hne
    rw [hbs (bs.getLast hne) (List.getLast?_eq_some_getLast hne)]
    simp
  rw [lineStart, take_append_line hp, List.rdropWhile, List.reverse_append, List.dropWhile_append_of_pos hdropped]
  exact congrArg List.length hkept

theorem lineStop_append (hls : newline ∉ ls) (hp : p ≤ ls.length) {ending : List UInt8}
    (hends : ending = [newline] ∨ ending = [] ∧ rest = []) :
    lineStop (bs ++ (ls ++ (ending ++ rest))) (bs.length + p) = bs.length + (ls ++ ending).length := by
  have hdrop : (bs ++ (ls ++ (ending ++ rest))).drop (bs.length + p) = ls.drop p ++ (ending ++ rest) := by
    rw [List.drop_length_add_append, List.drop_append_of_le_length hp]
  have htaken : ∀ b ∈ ls.drop p, (b != newline) = true := bne_of_not_mem fun h => hls (List.mem_of_mem_drop h)
  rw [lineStop, hdrop, List.takeWhile_append_of_pos htaken]
  rcases hends with rfl | ⟨rfl, rfl⟩
  · simp
    omega
  · simp
    omega

end

/-- The place is that of byte `p`: its line is counted by the newlines before `p`, its column is the distance from the
start of the line, and its text is the line with its newline, if that has one. -/
structure Matches (bs : List UInt8) (p : Nat) (place : Place) : Prop where
  line : place.line = 1 + (bs.take p).count newline
  column : place.column = p - lineStart bs p
  text : bytes place.text = (bs.take (lineStop bs p)).drop (lineStart bs p)

/-- A byte has one place. -/
theorem Matches.unique {bs : List UInt8} {p : Nat} {place' : Place} (h : Matches bs p place)
    (h' : Matches bs p place') : place = place' := by
  obtain ⟨line, text, column⟩ := place
  obtain ⟨line', text', column'⟩ := place'
  rw [Place.mk.injEq]
  exact ⟨h.line.trans h'.line.symm, bytes_inj (h.text.trans h'.text.symm), h.column.trans h'.column.symm⟩

theorem Stands.matches {source : List Char} (h : Stands 1 source offset place before body ending after) :
    Matches (bytes source) (min offset (bytes source).length) place := by
  have hp : min offset (bytes source).length = (bytes before).length + place.column := by
    rw [length_bytes, length_bytes, h.offset_eq]
  have hsource : bytes source = bytes before ++ (bytes body ++ (bytes ending ++ bytes after)) := by
    rw [h.source_eq]
    simp only [bytes_append]
  have hline : newline ∉ bytes body := mt newline_mem_bytes_iff.1 h.oneLine
  have hwithin : place.column ≤ (bytes body).length := by
    rw [length_bytes]
    exact h.within
  have hbegins : ∀ b ∈ (bytes before).getLast?, b = newline := by
    have hbegins := h.begins
    rcases before.eq_nil_or_concat with rfl | ⟨cs, c, rfl⟩
    · simp [bytes]
    · obtain rfl : c = '\n' := hbegins c (by simp)
      have hnewline : bytes ['\n'] = [newline] := rfl
      simp [hnewline]
  have hends : bytes ending = [newline] ∨ bytes ending = [] ∧ bytes after = [] := by
    rcases h.ends with rfl | ⟨rfl, rfl⟩
    · exact .inl rfl
    · exact .inr ⟨rfl, rfl⟩
  have hstart : lineStart (bytes before ++ (bytes body ++ (bytes ending ++ bytes after)))
      ((bytes before).length + place.column) = (bytes before).length := lineStart_append hbegins hline hwithin
  have hstop : lineStop (bytes before ++ (bytes body ++ (bytes ending ++ bytes after)))
      ((bytes before).length + place.column) = (bytes before).length + (bytes body ++ bytes ending).length :=
    lineStop_append hline hwithin hends
  rw [hp, hsource]
  refine ⟨?_, ?_, ?_⟩
  · rw [take_append_line hwithin, List.count_append, count_bytes,
      List.count_eq_zero.2 fun hmem => hline (List.mem_of_mem_take hmem), h.line_eq, Nat.add_zero]
  · rw [hstart, Nat.add_sub_cancel_left]
  · rw [hstart, hstop, List.take_length_add_append, List.drop_left', h.text_eq, bytes_append, ← List.append_assoc,
      List.take_left' rfl]
    rfl

/-- There is one place to be found. -/
theorem Stands.locate_eq {source : List Char} (h : Stands 1 source offset place before body ending after) :
    locate source offset = place := by
  obtain ⟨_, _, _, _, hstands⟩ := stands_locateIn 1 offset source
  exact hstands.matches.unique h.matches

/-- **Places are counted in bytes.** For every source and every offset, in the source, at its end or behind it, the line
that is found is the one of that byte of the source: its number, its text and the column in it. -/
theorem locate_matches (source : String) (position : Nat) :
    Matches source.toByteArray.data.toList (min position source.utf8ByteSize) (locate source.toList position) := by
  have hsize : source.utf8ByteSize = (bytes source.toList).length := by
    rw [bytes_toList, ← String.size_toByteArray]
    rfl
  obtain ⟨_, _, _, _, hstands⟩ := stands_locateIn 1 position source.toList
  rw [hsize, ← bytes_toList]
  exact hstands.matches

/-- The offset in the middle of a character, and one behind the end of a source that ends with a newline. -/
example : locate "a\n\tü\n".toList 4 = ⟨2, "\tü\n".toList, 2⟩ ∧ locate "a\n\tü\n".toList 99 = ⟨3, [], 0⟩ := by
  decide +kernel

end LetFn.Source
