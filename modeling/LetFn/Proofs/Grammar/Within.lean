import LetFn.Proofs.Grammar.Spans
import LetFn.Proofs.Grammar.TokenOrder

/-!
# Spans within the source

Offsets count bytes, and not every byte begins a character. The spans of tokens do begin and end between characters, and
so do the spans that are put together of these, as long as they are put together from left to right.

* `Span.Within source s` — `s` is a stretch of whole characters of the source;
* `Error.spans e` — the places that an error points at;
* `Node.Located P n` — `P` holds of the spans of a tree and of those of the names that it declares.

Main facts: `Reads.spansIn` (a tree is made of spans of tokens), `located_of_parseSource`, `within_of_parseSource` (the
places of errors).
-/

namespace LetFn

open Source (utf8Length)

/-- A stretch of whole characters of the source. -/
structure Span.Within (source : String) (s : Span) : Prop where
  ordered : s.start ≤ s.stop
  bounded : s.stop ≤ source.utf8ByteSize
  start_valid : (⟨s.start⟩ : String.Pos.Raw).IsValid source
  stop_valid : (⟨s.stop⟩ : String.Pos.Raw).IsValid source

/-- The places that an error points at. -/
def Error.spans (e : Error) : List Span := e.span :: e.related.toList

/-! ## stretches of whole characters -/

section

variable {source : String} {a b s : Span} {before text rest : List Char}

theorem isValid_of_append (h : source.toList = before ++ rest) :
    (⟨utf8Length before⟩ : String.Pos.Raw).IsValid source := by
  refine String.Pos.Raw.isValid_iff_exists_append.2 ⟨String.ofList before, String.ofList rest, ?_, ?_⟩
  · rw [← String.ofList_append, ← h, String.ofList_toList]
  · rw [String.rawEndPos, utf8ByteSize_eq, String.toList_ofList]

theorem Span.Marks.within (h : s.Marks source.toList text rest) : s.Within source := by
  obtain ⟨before, hsource, hstart, hstop⟩ := h
  obtain ⟨start, stop⟩ := s
  obtain rfl : start = utf8Length before := hstart
  obtain rfl : stop = utf8Length (before ++ text) := hstop
  refine ⟨?_, ?_, ?_, isValid_of_append hsource⟩
  · exact utf8Length_le_of_prefix (List.prefix_append _ _)
  · rw [utf8ByteSize_eq, hsource]
    exact utf8Length_le_of_prefix (List.prefix_append _ _)
  · exact isValid_of_append (hsource.trans (List.append_assoc _ _ _))

/-- Spans that are put together in their order. -/
theorem Span.Within.extend (ha : a.Within source) (hb : b.Within source) (h : a.extend b = .ok s) :
    s.Within source := by
  obtain ⟨hle, rfl⟩ := Span.extend_eq_ok_iff.1 h
  exact ⟨Nat.le_trans ha.ordered (Nat.le_trans hle hb.ordered), hb.bounded, ha.start_valid, hb.stop_valid⟩

theorem within_whole (source : String) : (⟨0, source.utf8ByteSize⟩ : Span).Within source := by
  have hmarks : Span.Marks source.toList ⟨0, source.utf8ByteSize⟩ source.toList [] :=
    ⟨[], by simp, rfl, utf8ByteSize_eq source⟩
  exact hmarks.within

theorem within_end (source : String) : (Token.eof source.utf8ByteSize).span.Within source := by
  have hmarks : Span.Marks source.toList (Token.eof source.utf8ByteSize).span [] [] :=
    ⟨source.toList, by simp, utf8ByteSize_eq source, (utf8ByteSize_eq source).trans (by simp)⟩
  exact hmarks.within

end

/-! ## tokens -/

section

variable {source : String} {tokens : List Token} {e : Error}

theorem within_of_tokenize (h : tokenize source = .ok tokens) :
    ∀ t ∈ tokens ++ [.eof source.utf8ByteSize], t.span.Within source := by
  obtain ⟨body, rfl, hbody⟩ := (tokenize_partitions h).covered
  intro t ht
  rw [List.append_assoc] at ht
  rcases List.mem_append.1 ht with ht | ht
  · obtain ⟨text, rest, hmarks, -⟩ := hbody t ht
    exact hmarks.within
  · obtain rfl : t = .eof source.utf8ByteSize := by simpa using ht
    exact within_end source

theorem Pattern.error_of_read? {p : Pattern} {taken : List Char} {span : Span} (h : p.read? taken span = .error e) :
    e.span = span ∧ e.related = none ∧ e.cause.category = .lexical := by
  unfold read? at h
  cases p with
  | name => cases hk : Kind.keyword? (String.ofList taken) <;> simp [hk] at h
  | integer =>
    by_cases hn : Nat.ofDigitChars 10 taken 0 ≤ maxInteger <;> simp [hn] at h
    rw [← h]
    exact ⟨rfl, rfl, rfl⟩
  | _ => simp at h

/-- The scanner stops at a text that no pattern matches, or at a number that is too large. -/
theorem marks_of_scan_error {offset : Nat} {cs : List Char} (h : scan offset cs = .error e) (before : List Char)
    (hoffset : offset = utf8Length before) :
    (∃ text rest, e.span.Marks (before ++ cs) text rest) ∧ e.related = none ∧ e.cause.category = .lexical := by
  fun_induction scan offset cs generalizing before with
  | case1 offset => cases h
  | case2 offset c cs hfirst =>
    obtain rfl := Except.error.inj h
    exact ⟨⟨[c], cs, before, by simp, hoffset, by simp [hoffset]⟩, rfl, rfl⟩
  | case3 offset c cs p taken rest hfirst _ stop =>
    rename_i ih
    obtain ⟨hcs, -⟩ := Pattern.append_of_split? (Pattern.split?_of_first? hfirst)
    cases hread : p.read? taken ⟨offset, stop⟩ with
    | error e' =>
      obtain rfl : e' = e := by simpa [hread, bind, Except.bind] using h
      obtain ⟨hspan, hrelated⟩ := Pattern.error_of_read? hread
      exact ⟨⟨taken, rest, before, by simp [hcs], by rw [hspan, hoffset], by simp [hspan, stop, hoffset]⟩, hrelated⟩
    | ok token =>
      cases hscan : scan stop rest with
      | error e' =>
        obtain rfl : e' = e := by simpa [hread, hscan, bind, Except.bind] using h
        have := ih hscan (before ++ taken) (by simp [stop, hoffset])
        rwa [List.append_assoc, hcs] at this
      | ok tokens => simp [hread, hscan, bind, Except.bind, pure, Except.pure] at h

end

/-! ## trees -/

namespace Node

/-- `P` holds of the spans of a tree and of those of the names that it declares. -/
def Located (P : Span → Prop) (n : Node) : Prop := n.Everywhere fun x => P x.span ∧ ∀ s ∈ x.ownNames, P s

/-- `P` holds of the spans of a tree. -/
def SpansIn (P : Span → Prop) (n : Node) : Prop := n.Everywhere fun x => P x.span

section

variable {P : Span → Prop} {n : Node}

theorem SpansIn.of_parts {span : Span} {form : Form Node} (hspan : P span) (hparts : ∀ c ∈ form.parts, c.SpansIn P) :
    ({ span, form } : Node).SpansIn P := everywhere_iff.2 ⟨hspan, hparts⟩

theorem spansIn_leaf {t : Token} (h : P t.span) : (leaf t).SpansIn P := .of_parts h nofun

/-- A tree that takes up more room. -/
theorem SpansIn.widened {span : Span} (h : n.SpansIn P) (hspan : P span) : ({ n with span } : Node).SpansIn P :=
  everywhere_iff.2 ⟨hspan, (everywhere_iff.1 h).2⟩

theorem SpansIn.located (h : n.SpansIn P) (hnames : ∀ s ∈ n.declared, P s) : n.Located P :=
  fun x hx => ⟨h x hx, fun s hs => hnames s (List.mem_flatMap.2 ⟨x, hx, hs⟩)⟩

end

end Node

namespace Grammar

open Node (SpansIn spansIn_leaf)

/-- The nodes that stand directly in a definition of a function. -/
theorem spansIn_functionDef {P : Span → Prop} {name : Token} {ps : List (Param Node)} {result : Node}
    {body : Option Node} (hps : ∀ n ∈ Phrase.trees (.parameters ps), n.SpansIn P) (hresult : result.SpansIn P)
    (hbody : ∀ n ∈ body, n.SpansIn P) : ∀ c ∈ (Form.functionDef name ps result body).parts, c.SpansIn P := by
  intro c hc
  simp only [Form.parts, List.mem_append, Option.mem_toList, List.mem_singleton] at hc
  rcases hc with (hc | hc) | rfl
  · exact hps c hc
  · exact hbody c hc
  · exact hresult

theorem spansIn_variableDef {P : Span → Prop} {name type : Token} {initializer : Option Node} (hname : P name.span)
    (htype : P type.span) (hinit : ∀ n ∈ initializer, n.SpansIn P) :
    ∀ c ∈ (Form.variableDef (.leaf name) (.leaf type) initializer).parts, c.SpansIn P :=
  Form.forall_variableDef.2 ⟨spansIn_leaf hname, spansIn_leaf htype, hinit⟩

theorem spansIn_infixOp {P : Span → Prop} {op : Token} {left right : Node} {span : Span} (hleft : left.SpansIn P)
    (hright : right.SpansIn P) (hspan : P span) : ({ span, form := .infixOp op left right } : Node).SpansIn P :=
  .of_parts hspan (Form.forall_infixOp.2 ⟨hleft, hright⟩)

/-- **A tree has the spans of tokens**, put together from left to right. -/
theorem Reads.spansIn {P : Span → Prop} (hP : ∀ {a b s : Span}, P a → P b → a.extend b = .ok s → P s) {φ : Phrase}
    {ts us : List Token} (h : Reads φ ts us) (hts : ∀ t ∈ ts, P t.span) (hbefore : ∀ n ∈ φ.before, n.SpansIn P) :
    ∀ n ∈ φ.trees, n.SpansIn P := by
  have hsingle : ∀ {n : Node}, (∀ m ∈ [n], m.SpansIn P) → n.SpansIn P := List.forall_mem_singleton.1
  induction h with
  | expression start more ihs ihm => exact ihm (start.forall_rest hts) (ihs hts nofun)
  | closedItem start _ ihs => exact ihs hts nofun
  | openItem start _ more ihs ihm => exact ihm (start.forall_rest hts) (ihs hts nofun)
  | primary kind => exact List.forall_mem_singleton.2 (spansIn_leaf (hts _ List.mem_cons_self))
  | operator kind operand span_eq ih =>
    obtain ⟨ht, hts⟩ := List.forall_mem_cons.1 hts
    have hx := ih hts nofun
    exact List.forall_mem_singleton.2 (.of_parts (hP ht (hsingle hx).self span_eq) hx)
  | grouping opener inner closer span_eq ih =>
    obtain ⟨ho, hts⟩ := List.forall_mem_cons.1 hts
    have hc := inner.forall_rest hts _ List.mem_cons_self
    exact List.forall_mem_singleton.2 ((hsingle (ih hts nofun)).widened (hP ho hc span_eq))
  | @block o c xs span ts us opener inner closer span_eq ih =>
    obtain ⟨ho, hts⟩ := List.forall_mem_cons.1 hts
    have hc := inner.forall_rest hts _ List.mem_cons_self
    refine List.forall_mem_singleton.2 (.of_parts (hP ho hc span_eq) ?_)
    obtain ⟨items, trailing, hform, rfl, -⟩ := Form.exists_of_ofItems xs
    rw [hform]
    exact ih hts nofun
  | prototype _ _ _ params _ _ _ _ span_eq ih =>
    obtain ⟨hword, -, -, hts⟩ := by simpa only [List.forall_mem_cons] using hts
    obtain ⟨-, -, hresult, -⟩ := by simpa only [List.forall_mem_cons] using params.forall_rest hts
    exact List.forall_mem_singleton.2
      (.of_parts (hP hword hresult span_eq) (spansIn_functionDef (ih hts nofun) (spansIn_leaf hresult) nofun))
  | definition _ _ _ params _ _ _ _ body span_eq ih ihb =>
    obtain ⟨hword, -, -, hts⟩ := by simpa only [List.forall_mem_cons] using hts
    obtain ⟨-, -, hresult, hus⟩ := by simpa only [List.forall_mem_cons] using params.forall_rest hts
    have hbody := ihb hus nofun
    refine List.forall_mem_singleton.2 (.of_parts (hP hword (hsingle hbody).self span_eq)
      (spansIn_functionDef (ih hts nofun) (spansIn_leaf hresult) ?_))
    rintro _ ⟨⟩
    exact hsingle hbody
  | declaration _ _ _ _ _ span_eq =>
    obtain ⟨hword, hname, -, htype, -⟩ := by simpa only [List.forall_mem_cons] using hts
    exact List.forall_mem_singleton.2 (.of_parts (hP hword htype span_eq) (spansIn_variableDef hname htype nofun))
  | initialization _ _ _ _ _ _ span_eq ih =>
    obtain ⟨hword, hname, -, htype, -, hus⟩ := by simpa only [List.forall_mem_cons] using hts
    have hx := ih hus nofun
    refine List.forall_mem_singleton.2
      (.of_parts (hP hword (hsingle hx).self span_eq) (spansIn_variableDef hname htype ?_))
    rintro _ ⟨⟩
    exact hsingle hx
  | stop => exact hbefore
  | binary _ _ right span_eq more ihr ihm | assignment _ _ right span_eq more ihr ihm =>
    obtain ⟨-, hts⟩ := List.forall_mem_cons.1 hts
    have hleft := hsingle hbefore
    have hr := hsingle (ihr hts nofun)
    exact ihm (right.forall_rest hts)
      (List.forall_mem_singleton.2 (spansIn_infixOp hleft hr (hP hleft.self hr.self span_eq)))
  | call _ inner _ span_eq more ihi ihm =>
    obtain ⟨-, hts⟩ := List.forall_mem_cons.1 hts
    have hleft := hsingle hbefore
    obtain ⟨hc, hus⟩ := List.forall_mem_cons.1 (inner.forall_rest hts)
    refine ihm hus (List.forall_mem_singleton.2 (.of_parts (hP hleft.self hc span_eq) ?_))
    exact Form.forall_functionCall.2 ⟨hleft, ihi hts nofun⟩
  | statement _ _ span_eq =>
    have hleft := hsingle hbefore
    exact List.forall_mem_singleton.2 (.of_parts (hP hleft.self (hts _ List.mem_cons_self) span_eq) hbefore)
  | noItems => exact nofun
  | moreItems _ _ first others ihf iho =>
    exact List.forall_mem_cons.2 ⟨hsingle (ihf hts nofun), iho (first.forall_rest hts) nofun⟩
  | noArguments => exact nofun
  | lastArgument _ _ first _ ihf => exact ihf hts nofun
  | moreArguments _ _ first _ others ihf iho =>
    obtain ⟨-, hus⟩ := List.forall_mem_cons.1 (first.forall_rest hts)
    exact List.forall_mem_cons.2 ⟨hsingle (ihf hts nofun), iho hus nofun⟩
  | noParameters => exact nofun
  | lastParameter =>
    obtain ⟨hname, -, htype, -⟩ := by simpa only [List.forall_mem_cons] using hts
    exact List.forall_mem_cons.2 ⟨spansIn_leaf hname, List.forall_mem_singleton.2 (spansIn_leaf htype)⟩
  | moreParameters _ _ _ _ others iho =>
    obtain ⟨hname, -, htype, -, hus⟩ := by simpa only [List.forall_mem_cons] using hts
    exact List.forall_mem_cons.2 ⟨spansIn_leaf hname, List.forall_mem_cons.2 ⟨spansIn_leaf htype, iho hus nofun⟩⟩

end Grammar

/-! ## sources -/

section

variable {source : String} {n : Node}

/-- The spans of a tree lie within the source, as do those of the names in it. -/
theorem located_of_parseSource (h : parseSource source = .ok n) : n.Located (Span.Within source) := by
  obtain ⟨tokens, xs, us, htokens, rfl, hreads⟩ := exists_reads_of_parseSource h
  have hwithin : ∀ t ∈ tokens, t.span.Within source := fun t ht =>
    within_of_tokenize htokens t (List.mem_append_left _ ht)
  have hspans := hreads.spansIn Span.Within.extend hwithin nofun
  refine Node.SpansIn.located (.of_parts (within_whole source) hspans) fun s hs => ?_
  obtain ⟨ds, rfl, hsub⟩ := hreads.declares
  rw [Node.declared_eq] at hs
  obtain ⟨t, ht, rfl⟩ := List.mem_map.1 (hsub.subset hs)
  exact hwithin t (List.mem_append_left _ ht)

/-- A source that has no tree has an error, which points within it. -/
theorem within_of_parseSource {f : Failure} (h : parseSource source = .error f) :
    ∃ e, f = .error e ∧ ∀ s ∈ e.spans, s.Within source := by
  cases htokens : tokenize source with
  | error e =>
    obtain ⟨⟨text, rest, hmarks⟩, hrelated, -⟩ := marks_of_scan_error htokens [] rfl
    refine ⟨e, ?_, ?_⟩
    · rw [parseSource, htokens] at h
      exact (Except.error.inj h).symm
    · simpa [Error.spans, hrelated] using hmarks.within
  | ok tokens =>
    have hparse : parse tokens source.utf8ByteSize = .error f := by
      rw [← h, parseSource, htokens]
      rfl
    have hends := ensures_parse htokens
    rw [hparse] at hends
    cases f with
    | error e =>
      obtain ⟨⟨t, ht, hspan⟩, hrelated, -⟩ := hends
      refine ⟨e, rfl, ?_⟩
      simpa [Error.spans, hrelated, hspan] using within_of_tokenize htokens t ht
    | fault => exact hends.elim
    | unfinished => exact hends.elim

/-- A source that has no tree has an error of its words or of its syntax. -/
theorem category_of_parseSource {e : Error} (h : parseSource source = .error (.error e)) :
    e.cause.category = .lexical ∨ e.cause.category = .syntactic := by
  cases htokens : tokenize source with
  | error e' =>
    obtain rfl : e' = e := by
      rw [parseSource, htokens] at h
      exact Failure.error.inj (Except.error.inj h)
    exact .inl (marks_of_scan_error htokens [] rfl).2.2
  | ok tokens =>
    have hparse : parse tokens source.utf8ByteSize = .error (.error e) := by
      rw [← h, parseSource, htokens]
      rfl
    have hends := ensures_parse htokens
    rw [hparse] at hends
    exact .inr hends.2.2

end

end LetFn
