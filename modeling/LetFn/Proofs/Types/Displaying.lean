import LetFn.Proofs.Token.Spelling
import LetFn.Proofs.Types.Unifying

/-!
# Spellings of types

A type is spelled without parentheses around the function types in it, so that the arrows of several types stand in one
row. A spelling can still be read in one way only: a word ends where no letter and no digit follows, a list of
parameters ends at its own parenthesis, and what stands behind an arrow goes as far as the whole. The parts of a
function type are older than the type, which bounds the depth of a spelling, and equal types have one number, so a
spelling stands for one number.

* `Ty.word? t` — the spelling of a type that has no parts;
* `Founded ctx` — the parts of function types are older than these;
* `Spells ctx t text` — the spelling of a type out of the spellings of its parts, however deep they go;
* `WordEnds rest` — what may stand behind a spelling.

Main facts: `Founded.readInOneWay`, `Founded.spells_iff`, `Founded.display_inj`, `Made.founded`.
-/

namespace LetFn

/-! ## words -/

namespace Ty

variable {t u : Ty} {w : String}

/-- The spelling of a type that has no parts. -/
def word? : Ty → Option String
  | void => some "void"
  | string => some "string"
  | int => some "int"
  | sizedInt bits => some ("i" ++ toString bits)
  | float => some "float"
  | sizedFloat bits => some ("f" ++ toString bits)
  | function _ _ => none
  | hole v => some ("t" ++ toString v.index)

/-- A letter in front of the digits of a number. -/
theorem toList_numbered (letter : String) (n : Nat) :
    (letter ++ toString n).toList = letter.toList ++ Nat.toDigits 10 n := by
  rw [String.toList_append, Nat.toString_eq_repr, Nat.toList_repr]

/-- Words are made of letters and digits, and begin with one. -/
theorem isAlphanum_of_word? (h : t.word? = some w) : w.toList ≠ [] ∧ ∀ c ∈ w.toList, c.isAlphanum = true := by
  have hdigits : ∀ n : Nat, ∀ c ∈ Nat.toDigits 10 n, c.isAlphanum = true := fun n c hc => by
    rw [Char.isAlphanum, (isDigits_toDigits n).2 c hc, Bool.or_true]
  have hnumbered : ∀ (letter : String) (n : Nat), letter.toList ≠ [] → (∀ c ∈ letter.toList, c.isAlphanum = true) →
      (letter ++ toString n).toList ≠ [] ∧ ∀ c ∈ (letter ++ toString n).toList, c.isAlphanum = true := by
    intro letter n hne hletter
    rw [toList_numbered]
    refine ⟨List.append_ne_nil_of_left_ne_nil hne _, fun c hc => ?_⟩
    exact (List.mem_append.1 hc).elim (hletter c) (hdigits n c)
  cases t with
  | function => cases h
  | sizedInt | sizedFloat | hole =>
    obtain rfl := Option.some.inj h
    exact hnumbered _ _ (by decide) (by simp)
  | void | string | int | float =>
    obtain rfl := Option.some.inj h
    simp

/-- **A word stands for one type**: its first letter says which kind, and a number is behind it or other letters. -/
theorem eq_of_word? (ht : t.word? = some w) (hu : u.word? = some w) : t = u := by
  have hdigits : ∀ (n : Nat) (cs : List Char), (∃ c ∈ cs, c.isDigit = false) → Nat.toDigits 10 n ≠ cs := by
    rintro n cs ⟨c, hc, hnot⟩ rfl
    rw [(isDigits_toDigits n).2 c hc] at hnot
    cases hnot
  have hint : ∀ n, Nat.toDigits 10 n ≠ ['n', 't'] := fun n => hdigits n _ ⟨'n', by decide⟩
  have hfloat : ∀ n, Nat.toDigits 10 n ≠ ['l', 'o', 'a', 't'] := fun n => hdigits n _ ⟨'l', by decide⟩
  have hinj : ∀ m n : Nat, Nat.toDigits 10 m = Nat.toDigits 10 n ↔ m = n := fun m n =>
    ⟨fun h => by rw [← Nat.ofDigitChars_ten_toDigits (n := m), h, Nat.ofDigitChars_ten_toDigits], congrArg _⟩
  have h := congrArg (Option.map String.toList) (ht.trans hu.symm)
  cases t with
  | function => cases ht
  | hole v =>
    obtain ⟨i⟩ := v
    cases u with
    | hole v =>
      obtain ⟨j⟩ := v
      simpa [word?, toList_numbered, hinj] using h
    | _ => simp [word?] at h
  | _ => cases u <;> simp [word?, hinj, hint, hfloat, (hint _).symm, (hfloat _).symm] at h ⊢ <;> exact h

/-- The word that a function type begins with is no type. -/
theorem word?_ne_fn (t : Ty) : t.word?.map String.toList ≠ some ['f', 'n'] := by
  have hdigits : ∀ n, Nat.toDigits 10 n ≠ ['n'] := fun n h =>
    absurd ((isDigits_toDigits n).2 'n' (by simp [h])) (by decide)
  cases t <;> simp [word?, hdigits]

end Ty

namespace Context

variable {ctx ctx' : Context} {a b t : TypeId} {w : String} {params : List TypeId} {result : TypeId}
variable {rest rest' : List Char}

/-! ## parts that are older -/

/-- The parts of a function type are older than the type. -/
def Founded (ctx : Context) : Prop :=
  ∀ t params result, ctx.type t = .function params result → (∀ p ∈ params, p.index < t.index) ∧ result.index < t.index

/-- The parts of the type were given out, if it has parts. -/
def PartsGiven (ctx : Context) (ty : Ty) : Prop :=
  ∀ params result, ty = .function params result → (∀ p ∈ params, ctx.Given p) ∧ ctx.Given result

theorem Issued.partsGiven {ty : Ty} (h : Issued ctx ty) : PartsGiven ctx ty := by
  rintro _ _ rfl
  exact h

theorem partsGiven_hole (v : VarId) : PartsGiven ctx (.hole v) := nofun

theorem Founded.grow (h : Founded ctx) {ty : Ty} (hty : PartsGiven ctx ty) (more : List (Option TypeId)) :
    Founded (ctx.grow ty more) := by
  intro t params result ht
  rw [type_grow] at ht
  split at ht
  · next hnew =>
    rw [hnew]
    exact hty _ _ ht
  · exact h _ _ _ ht

theorem Founded.of_types (h : Founded ctx) (htypes : ctx'.types = ctx.types) : Founded ctx' := by
  intro t params result ht
  rw [type_of_types htypes] at ht
  exact h _ _ _ ht

theorem Founded.intern (h : Founded ctx) {ty : Ty} (hty : PartsGiven ctx ty) : Founded (ctx.intern ty).2 := by
  rcases ctx.intern_cases ty with ⟨i, -, heq⟩ | ⟨-, heq⟩
  · rwa [heq]
  · rw [heq]
    exact (h.grow hty []).of_types rfl

theorem Founded.fresh (h : Founded ctx) : Founded ctx.fresh.2 :=
  have hunbound : Founded { ctx with bindings := ctx.bindings ++ [none] } := h.of_types rfl
  hunbound.intern (partsGiven_hole _)

theorem founded_new : Founded new := fun t params result ht =>
  absurd (type_mem ht nofun) (by simp [new, Ty.builtins])

/-- **Function types are made of older types** in every context that calls made. -/
theorem Made.founded (h : Made ctx) : Founded ctx := by
  induction h with
  | new => exact founded_new
  | @run ctx _ call issued ih =>
    cases call with
    | fresh => exact ih.fresh
    | intern type => exact ih.intern (Issued.partsGiven issued)
    | unify a b span =>
      rcases run_unify ctx a b span with ⟨t, hu⟩ | heq
      · exact ih.of_types (tables_of_unify hu).1
      · rwa [heq]
  | openScope _ _ ih => exact ih.of_types rfl
  | declare _ declared ih => exact ih.of_types (declare_types declared).1
  | @setSymbolType ctx _ s name t ih =>
    unfold Context.setSymbolType
    split
    · exact ih.of_types rfl
    · exact ih
  | resolveSymbols _ ih => exact ih.of_types rfl

/-! ## spelling -/

/-- The spelling of a type, out of the spellings of its parts. -/
inductive Spells (ctx : Context) : TypeId → String → Prop
  | word {t : TypeId} {w : String} (type : (ctx.type t).word? = some w) : Spells ctx t w
  | function {t : TypeId} {params : List TypeId} {result : TypeId} {texts : List String} {text : String}
      (type : ctx.type t = .function params result) (parts : List.Forall₂ (Spells ctx) params texts)
      (ends : Spells ctx result text) : Spells ctx t ("fn(" ++ ", ".intercalate texts ++ ") -> " ++ text)

theorem word?_cases (ty : Ty) : (∃ w, ty.word? = some w) ∨ ∃ params result, ty = .function params result := by
  cases ty with
  | function params result => exact .inr ⟨params, result, rfl⟩
  | _ => exact .inl ⟨_, rfl⟩

theorem displayWithin_of_word? (fuel : Nat) (h : (ctx.type t).word? = some w) :
    ctx.displayWithin (fuel + 1) t = w := by
  unfold displayWithin
  cases hty : ctx.type t with
  | function => simp [hty, Ty.word?] at h
  | _ =>
    rw [hty] at h
    exact Option.some.inj h

theorem displayWithin_of_function (fuel : Nat) (h : ctx.type t = .function params result) :
    ctx.displayWithin (fuel + 1) t =
      "fn(" ++ ", ".intercalate (params.map (ctx.displayWithin fuel)) ++ ") -> " ++ ctx.displayWithin fuel result := by
  rw [displayWithin, h]

/-- The number of a type bounds its depth, so more fuel than that changes nothing. -/
theorem Founded.displayWithin_congr (h : Founded ctx) {fuel fuel' : Nat} (hfuel : t.index < fuel)
    (hfuel' : t.index < fuel') : ctx.displayWithin fuel t = ctx.displayWithin fuel' t := by
  induction fuel generalizing fuel' t with
  | zero => exact absurd hfuel (Nat.not_lt_zero _)
  | succ fuel ih =>
    obtain ⟨fuel', rfl⟩ : ∃ k, fuel' = k + 1 := ⟨fuel' - 1, by omega⟩
    rcases word?_cases (ctx.type t) with ⟨w, hw⟩ | ⟨params, result, hfunction⟩
    · rw [displayWithin_of_word? _ hw, displayWithin_of_word? _ hw]
    · obtain ⟨hparams, hresult⟩ := h _ _ _ hfunction
      have hmap : params.map (ctx.displayWithin fuel) = params.map (ctx.displayWithin fuel') :=
        List.map_congr_left fun p hp => ih (by have := hparams p hp; omega) (by have := hparams p hp; omega)
      have hend : ctx.displayWithin fuel result = ctx.displayWithin fuel' result := ih (by omega) (by omega)
      rw [displayWithin_of_function _ hfunction, displayWithin_of_function _ hfunction, hmap, hend]

theorem display_of_word? (h : (ctx.type t).word? = some w) : ctx.display t = w := displayWithin_of_word? _ h

/-- **A function type is spelled by its parts.** -/
theorem Founded.display_of_function (h : Founded ctx) (hf : ctx.type t = .function params result) :
    ctx.display t = "fn(" ++ ", ".intercalate (params.map ctx.display) ++ ") -> " ++ ctx.display result := by
  obtain ⟨hparams, hresult⟩ := h _ _ _ hf
  have hmap : params.map (ctx.displayWithin t.index) = params.map ctx.display :=
    List.map_congr_left fun p hp => h.displayWithin_congr (hparams p hp) (Nat.lt_succ_self _)
  rw [display, displayWithin_of_function _ hf, hmap, h.displayWithin_congr hresult (Nat.lt_succ_self _)]
  rfl

/-- **Every type has a spelling**, which is found however deep the type goes. -/
theorem Founded.spells_display (h : Founded ctx) (t : TypeId) : Spells ctx t (ctx.display t) := by
  obtain ⟨i⟩ := t
  induction i using Nat.strong_induction_on with
  | _ i ih =>
    rcases word?_cases (ctx.type ⟨i⟩) with ⟨w, hw⟩ | ⟨params, result, hfunction⟩
    · rw [display_of_word? hw]
      exact .word hw
    · obtain ⟨hparams, hresult⟩ := h _ _ _ hfunction
      rw [h.display_of_function hfunction]
      refine .function hfunction ?_ (ih result.index hresult)
      rw [List.forall₂_map_right_iff, List.forall₂_same]
      exact fun p hp => ih p.index (hparams p hp)

/-- **A type has one spelling.** -/
theorem Founded.eq_of_spells (h : Founded ctx) {text : String} (hs : Spells ctx t text) : text = ctx.display t := by
  obtain ⟨i⟩ := t
  induction i using Nat.strong_induction_on generalizing text with
  | _ i ih =>
    cases hs with
    | word type => exact (display_of_word? type).symm
    | @function _ params result texts text type parts ends =>
      obtain ⟨hparams, hresult⟩ := h _ _ _ type
      have htexts : texts = params.map ctx.display := by
        have holder : List.Forall₂ (fun p x => p.index < i ∧ Spells ctx p x) params texts :=
          (List.forall₂_and_left params texts).2 ⟨hparams, parts⟩
        rw [← List.forall₂_eq_eq_eq, List.forall₂_map_right_iff]
        exact holder.flip.imp fun x p ⟨hlt, hx⟩ => ih p.index hlt hx
      rw [h.display_of_function type, htexts, ih result.index hresult ends]

/-! ## reading a spelling -/

/-- What may stand behind a spelling: no letter and no digit. -/
def WordEnds (rest : List Char) : Prop := ∀ c ∈ rest.head?, c.isAlphanum = false

/-- The characters of a spelling. -/
def displayChars (ctx : Context) (t : TypeId) : List Char := (ctx.display t).toList

theorem Founded.displayChars_of_function (h : Founded ctx) (hf : ctx.type t = .function params result) :
    ctx.displayChars t = 'f' :: 'n' :: '(' :: ([',', ' '].intercalate (params.map ctx.displayChars) ++
      ')' :: ' ' :: '-' :: '>' :: ' ' :: ctx.displayChars result) := by
  have hchars : params.map ctx.displayChars = (params.map ctx.display).map String.toList := by
    rw [List.map_map]
    rfl
  rw [displayChars, h.display_of_function hf, hchars]
  simp [displayChars, String.toList_intercalate]

/-- A spelling begins with a letter. -/
theorem Founded.exists_cons (h : Founded ctx) (t : TypeId) :
    ∃ c cs, ctx.displayChars t = c :: cs ∧ c.isAlphanum = true := by
  rcases word?_cases (ctx.type t) with ⟨w, hw⟩ | ⟨params, result, hfunction⟩
  · obtain ⟨hne, hall⟩ := Ty.isAlphanum_of_word? hw
    obtain ⟨c, cs, hcs⟩ := List.exists_cons_of_ne_nil hne
    exact ⟨c, cs, by rw [displayChars, display_of_word? hw, hcs], hall c (by simp [hcs])⟩
  · exact ⟨'f', _, h.displayChars_of_function hfunction, by decide⟩

/-- The parameters behind the first one, each behind its comma. -/
def furtherChars (ctx : Context) (params : List TypeId) : List Char :=
  params.flatMap fun p => ',' :: ' ' :: ctx.displayChars p

theorem intercalate_displayChars (p : TypeId) (ps : List TypeId) :
    [',', ' '].intercalate ((p :: ps).map ctx.displayChars) = ctx.displayChars p ++ ctx.furtherChars ps := by
  induction ps generalizing p with
  | nil => simp [List.intercalate, furtherChars]
  | cons q ps ih =>
    rw [List.map_cons, List.map_cons, List.intercalate_cons_cons, ← List.map_cons, ih]
    simp [furtherChars]

theorem wordEnds_furtherChars (ps : List TypeId) (rest : List Char) :
    WordEnds (ctx.furtherChars ps ++ ')' :: rest) := by
  cases ps <;> simp [WordEnds, furtherChars]

/-- The spelling of `p` is read in one way, as far as the spellings of given types go. -/
def ReadInOneWay (ctx : Context) (p : TypeId) : Prop :=
  ∀ q rest rest', ctx.Given q → WordEnds rest → WordEnds rest' →
    ctx.displayChars p ++ rest = ctx.displayChars q ++ rest' → p = q ∧ rest = rest'

theorem furtherChars_append_inj {ps qs : List TypeId} (hps : ∀ p ∈ ps, ReadInOneWay ctx p) (hqs : ∀ q ∈ qs, ctx.Given q)
    (heq : ctx.furtherChars ps ++ ')' :: rest = ctx.furtherChars qs ++ ')' :: rest') : ps = qs ∧ rest = rest' := by
  induction ps generalizing qs with
  | nil =>
    cases qs with
    | nil => simpa [furtherChars] using heq
    | cons q qs => simp [furtherChars] at heq
  | cons p ps ih =>
    cases qs with
    | nil => simp [furtherChars] at heq
    | cons q qs =>
      obtain ⟨hp, hps⟩ := List.forall_mem_cons.1 hps
      obtain ⟨hq, hfurtherGiven⟩ := List.forall_mem_cons.1 hqs
      simp only [furtherChars, List.flatMap_cons, List.cons_append, List.append_assoc, List.cons.injEq, true_and] at heq
      obtain ⟨rfl, hfurther⟩ := hp q _ _ hq (wordEnds_furtherChars ps rest) (wordEnds_furtherChars qs rest') heq
      obtain ⟨rfl, hrest⟩ := ih hps hfurtherGiven hfurther
      exact ⟨rfl, hrest⟩

/-- **A list of parameters ends at its own parenthesis**, and they are read one after the other. -/
theorem Founded.parameters_append_inj (h : Founded ctx) {ps qs : List TypeId} (hps : ∀ p ∈ ps, ReadInOneWay ctx p)
    (hqs : ∀ q ∈ qs, ctx.Given q)
    (heq : [',', ' '].intercalate (ps.map ctx.displayChars) ++ ')' :: rest =
      [',', ' '].intercalate (qs.map ctx.displayChars) ++ ')' :: rest') : ps = qs ∧ rest = rest' := by
  -- no spelling begins with the parenthesis that ends an empty list
  have hfirst : ∀ (t : TypeId) (cs rest : List Char), ctx.displayChars t ++ cs ≠ ')' :: rest := by
    intro t cs rest heq
    obtain ⟨c, ds, hc, halphanum⟩ := h.exists_cons t
    rw [hc, List.cons_append] at heq
    rw [(List.cons.inj heq).1] at halphanum
    cases halphanum
  cases ps with
  | nil =>
    cases qs with
    | nil => exact ⟨rfl, (List.cons.inj heq).2⟩
    | cons q qs =>
      rw [intercalate_displayChars, List.append_assoc] at heq
      exact absurd heq.symm (hfirst q _ _)
  | cons p ps =>
    cases qs with
    | nil =>
      rw [intercalate_displayChars, List.append_assoc] at heq
      exact absurd heq (hfirst p _ _)
    | cons q qs =>
      obtain ⟨hp, hps⟩ := List.forall_mem_cons.1 hps
      obtain ⟨hq, hfurtherGiven⟩ := List.forall_mem_cons.1 hqs
      rw [intercalate_displayChars, intercalate_displayChars, List.append_assoc, List.append_assoc] at heq
      obtain ⟨rfl, hfurther⟩ := hp q _ _ hq (wordEnds_furtherChars ps rest) (wordEnds_furtherChars qs rest') heq
      obtain ⟨rfl, hrest⟩ := furtherChars_append_inj hps hfurtherGiven hfurther
      exact ⟨rfl, hrest⟩

/-- The letters and digits at the beginning of a spelling are a word, or those of a function type. -/
theorem takeWhile_word (hw : (ctx.type t).word? = some w) (hrest : WordEnds rest) :
    (ctx.displayChars t ++ rest).takeWhile Char.isAlphanum = w.toList ∧
      (ctx.displayChars t ++ rest).dropWhile Char.isAlphanum = rest := by
  rw [displayChars, display_of_word? hw]
  exact Pattern.span_append (Ty.isAlphanum_of_word? hw).2 hrest

theorem Founded.takeWhile_function (h : Founded ctx) (hf : ctx.type t = .function params result) (rest : List Char) :
    (ctx.displayChars t ++ rest).takeWhile Char.isAlphanum = ['f', 'n'] := by
  rw [h.displayChars_of_function hf]
  rfl

/-- No word reads like the beginning of a function type. -/
theorem Founded.word_append_ne (h : Founded ctx) (hw : (ctx.type a).word? = some w) (hrest : WordEnds rest)
    (hf : ctx.type b = .function params result) : ctx.displayChars a ++ rest ≠ ctx.displayChars b ++ rest' := by
  intro heq
  have htake := (takeWhile_word hw hrest).1
  rw [heq, h.takeWhile_function hf] at htake
  exact absurd (by rw [hw, Option.map_some, htake]) (Ty.word?_ne_fn (ctx.type a))

/-- **A spelling is read in one way**: where it begins a text, the type and the place where the spelling ends are known,
as long as no letter and no digit is behind it. -/
theorem Founded.readInOneWay (h : Founded ctx) (hn : ctx.types.Nodup) (ha : ctx.Given a) : ReadInOneWay ctx a := by
  obtain ⟨i⟩ := a
  induction i using Nat.strong_induction_on with
  | _ i ih =>
    intro b rest rest' hb hrest hrest' heq
    rcases word?_cases (ctx.type ⟨i⟩) with ⟨w, hw⟩ | ⟨params, result, hf⟩ <;>
      rcases word?_cases (ctx.type b) with ⟨w', hw'⟩ | ⟨params', result', hf'⟩
    · obtain ⟨htake, hdrop⟩ := takeWhile_word hw hrest
      obtain ⟨htake', hdrop'⟩ := takeWhile_word hw' hrest'
      rw [heq] at htake hdrop
      obtain rfl : w = w' := String.toList_inj.1 (htake.symm.trans htake')
      exact ⟨eq_of_type_eq hn ha hb (Ty.eq_of_word? hw hw'), hdrop.symm.trans hdrop'⟩
    · exact absurd heq (h.word_append_ne hw hrest hf')
    · exact absurd heq.symm (h.word_append_ne hw' hrest' hf)
    · obtain ⟨hparams, hresult⟩ := h _ _ _ hf
      obtain ⟨hparams', hresult'⟩ := h _ _ _ hf'
      have hpart : ∀ p : TypeId, p.index < i → ReadInOneWay ctx p := fun p hp => ih p.index hp (Nat.lt_trans hp ha)
      rw [h.displayChars_of_function hf, h.displayChars_of_function hf'] at heq
      simp only [List.cons_append, List.append_assoc, List.cons.injEq, true_and] at heq
      obtain ⟨rfl, hbehind⟩ := h.parameters_append_inj (fun p hp => hpart p (hparams p hp))
        (fun q hq => Nat.lt_trans (hparams' q hq) hb) heq
      simp only [List.cons.injEq, true_and] at hbehind
      obtain ⟨rfl, rfl⟩ := hpart result hresult result' _ _ (Nat.lt_trans hresult' hb) hrest hrest' hbehind
      exact ⟨eq_of_type_eq hn ha hb (hf.trans hf'.symm), rfl⟩

/-- **Types of different numbers are spelled differently.** -/
theorem Founded.display_inj (h : Founded ctx) (hn : ctx.types.Nodup) (ha : ctx.Given a) (hb : ctx.Given b)
    (heq : ctx.display a = ctx.display b) : a = b := by
  refine (h.readInOneWay hn ha b [] [] hb nofun nofun ?_).1
  rw [displayChars, displayChars, heq]

/-- The spelling of a type is found, and there is no other. -/
theorem Founded.spells_iff (h : Founded ctx) {text : String} : Spells ctx t text ↔ text = ctx.display t :=
  ⟨h.eq_of_spells, fun heq => heq ▸ h.spells_display t⟩

end Context

end LetFn
