import LetFn.Proofs.Token.Partition

/-!
# Lexemes that are read again

The lexemes of a source with single spaces between them are cut into the tokens of the source: a space ends every
lexeme, so neighbours do not fuse. Only an infinite number is read as something else, as its name.

* `spelling tokens` — the lexemes of the tokens with single spaces between them;
* `Token.Finite t` — `t` is no number beyond the range.

Main facts: `scans_spelling`, `lexemes_read_back`.
-/

namespace LetFn

/-- The lexemes of the tokens with single spaces between them; the end of the source has none. -/
def spelling (tokens : List Token) : String :=
  " ".intercalate ((tokens.filter (·.kind ≠ .eof)).map Token.lexeme)

namespace Token

/-- If the token is a float, its value is finite. -/
def Finite (t : Token) : Prop :=
  match t.value with
  | some (.float x) => x.isFinite = true
  | _ => True

instance (t : Token) : Decidable t.Finite := by
  unfold Finite
  split <;> infer_instance

theorem piece_of_finite {t : Token} (h : t.Finite) : t.piece = t.face := by
  refine if_neg fun hinfinite => ?_
  rw [Finite, hinfinite] at h
  exact absurd h (by decide)

theorem Spells.kind_ne_eof {t : Token} {text : List Char} (h : t.Spells text) : t.kind ≠ .eof := by
  obtain ⟨kind, value, span⟩ := t
  rintro rfl
  cases value with
  | none => exact h.1 rfl
  | some v => exact h

end Token

/-! ## a lexeme in front of a space or of the end -/

/-- A text that is empty or begins with a space. -/
def Spaced (cs : List Char) : Prop := ∀ c ∈ cs.head?, c = ' '

theorem Spaced.delimited {cs : List Char} (h : Spaced cs) : Pattern.Delimited cs := by
  intro c hc
  rw [h c hc]
  exact List.mem_cons_self

theorem Spaced.clear {cs : List Char} (h : Spaced cs) : Pattern.Clear cs := by
  intro c hc
  rw [h c hc]
  decide

theorem Spaced.nil : Spaced [] := fun _ hc => by cases hc

theorem Spaced.space {cs : List Char} : Spaced (' ' :: cs) := fun _ hc => (Option.some.inj hc).symm

/-- What is neither spelled in many ways nor the end is a mark or a keyword. -/
theorem mark_or_keyword {k : Kind} (hk : k ∉ Grammar.primaryKinds) (heof : k ≠ .eof) :
    Pattern.mark k ∈ Pattern.table ∨ k ∈ Kind.keywords := by
  revert hk heof
  cases k <;> decide

/-- A space ends whatever token stands in front of it. -/
theorem Scans.spaced {rest : List Char} {ps : List Piece} {t : Token} (ht : t.Spelled) (heof : t.kind ≠ .eof)
    (h : Spaced rest) (hs : Scans rest ps) : Scans (t.lexeme.toList ++ rest) (t.piece :: ps) := by
  by_cases hk : t.kind ∈ Grammar.primaryKinds
  · exact hs.lexeme ht hk h.delimited
  · obtain ⟨kind, value, span⟩ := t
    obtain rfl : value = none := ht.none_of_kind hk
    have hlexeme : Token.lexeme ⟨kind, none, span⟩ = kind.symbol := by cases kind <;> rfl
    have hpiece : Token.piece ⟨kind, none, span⟩ = ⟨kind, none⟩ := if_neg nofun
    rw [hlexeme, hpiece]
    rcases mark_or_keyword hk heof with hmark | hkeyword
    · exact hs.mark hmark fun _ => h.clear
    · exact hs.keyword hkeyword h.delimited

theorem scans_intercalate {ts : List Token} (hs : ∀ t ∈ ts, t.Spelled) (heof : ∀ t ∈ ts, t.kind ≠ .eof) :
    Scans ([' '].intercalate (ts.map (·.lexeme.toList))) (ts.map Token.piece ++ [⟨.eof, none⟩]) := by
  induction ts with
  | nil => exact .nil
  | cons t ts ih =>
    rw [List.forall_mem_cons] at hs heof
    have hrest := ih hs.2 heof.2
    cases ts with
    | nil => simpa using hrest.spaced hs.1 heof.1 .nil
    | cons u us => simpa using (hrest.blank (by decide)).spaced hs.1 heof.1 .space

/-- **The lexemes of a source are cut into its tokens**, but for infinite numbers. -/
theorem scans_spelling {source : String} {tokens : List Token} (h : tokenize source = .ok tokens) :
    Scans (spelling tokens).toList (tokens.map Token.piece) := by
  obtain ⟨body, rfl, hbody⟩ := (tokenize_partitions h).covered
  have heof : ∀ t ∈ body, t.kind ≠ .eof := fun t ht => by
    obtain ⟨text, rest, -, -, hspells⟩ := hbody t ht
    exact hspells.kind_ne_eof
  have hspelled : ∀ t ∈ body, t.Spelled := fun t ht => spelled_of_scan h t (List.mem_append_left _ ht)
  have hfilter : (body ++ [Token.eof source.utf8ByteSize]).filter (·.kind ≠ .eof) = body := by
    rw [List.filter_append, List.filter_eq_self.2 (by simpa using heof)]
    simp [Token.eof]
  have hpieces : (body ++ [Token.eof source.utf8ByteSize]).map Token.piece = body.map Token.piece ++ [⟨.eof, none⟩] :=
    List.map_append
  rw [spelling, hfilter, hpieces, String.toList_intercalate, List.map_map]
  exact scans_intercalate hspelled heof

/-- **Lexemes are read as what they were read off**: if no number is infinite, the lexemes of a source, with spaces
between them, are cut into tokens of the same kinds and values. The quoted text of a string without quotes is read as
that string. -/
theorem lexemes_read_back {source : String} {tokens : List Token} (h : tokenize source = .ok tokens)
    (hfinite : ∀ t ∈ tokens, t.Finite) :
    (∃ again, tokenize (spelling tokens) = .ok again ∧ again.map Token.face = tokens.map Token.face) ∧
      ∀ text : String, '"' ∉ text.toList →
        Literal.decode (Literal.encode text.toList) = text.toList ∧
          ∀ span, ∃ again, tokenize (Token.lexeme ⟨.string, some (.str text), span⟩) = .ok again ∧
            again.map Token.face = [⟨.string, some (.str text)⟩, ⟨.eof, none⟩] := by
  constructor
  · obtain ⟨again, hagain, hpieces⟩ := scans_spelling h 0
    refine ⟨again, hagain, ?_⟩
    rw [hpieces]
    exact List.map_congr_left fun t ht => Token.piece_of_finite (hfinite t ht)
  · intro text htext
    refine ⟨Literal.decode_encode _, fun span => ?_⟩
    have hspelled : Token.Spelled ⟨.string, some (.str text), span⟩ := htext
    have hscan := Scans.nil.spaced hspelled nofun .nil
    rw [List.append_nil] at hscan
    exact hscan 0

/-- Marks without spaces, zeros that the lexemes of numbers leave out, a comment, an unknown escape and a backslash in
front of a closing quote. -/
theorem lexemes_read_back_escapes : ∃ tokens again,
    tokenize "let x=007+1.50;//c\n\"a\\q\\n\\\"->fn==" = .ok tokens ∧ (∀ t ∈ tokens, t.Finite) ∧
      spelling tokens = "let x = 7 + 1.5 ; \"a\\\\q\\n\\\\\" -> fn ==" ∧ tokenize (spelling tokens) = .ok again ∧
      again.map Token.face = tokens.map Token.face := by
  have hscan : Yields (fun tokens => (∀ t ∈ tokens, t.Finite) ∧
      spelling tokens = "let x = 7 + 1.5 ; \"a\\\\q\\n\\\\\" -> fn ==")
      (tokenize "let x=007+1.50;//c\n\"a\\q\\n\\\"->fn==") := by
    decide +kernel
  obtain ⟨tokens, h, hfinite, hspelling⟩ := yields_iff.1 hscan
  obtain ⟨again, hagain, hfaces⟩ := (lexemes_read_back h hfinite).1
  exact ⟨tokens, again, h, hfinite, hspelling, hagain, hfaces⟩

end LetFn
