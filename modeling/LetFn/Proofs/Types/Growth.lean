import LetFn.Types.Unify
import Mathlib.Data.List.GetD
import Mathlib.Data.List.Nodup
import Mathlib.Tactic.IntervalCases

/-!
# Contexts that grow

* `coerces` is a partial order on the types of a context, and `promote` goes up in it;
* `Extends ctx ctx'` — the numbers that `ctx` gave out mean the same in `ctx'`, and the same is true of what type
  variables stand for;
* `Regular ctx` — no type has two numbers, the built-in ones stand first, and every type variable stands for a type
  that is none;
* `Known ctx spans` — every symbol is declared at one of the spans;
* `Ready ctx spans`, `Step ctx ctx'` — what the checker relies on in a context, and what each of its steps keeps.

Main facts: `coerces_trans`, `coerces_antisymm`, `Extends.resolve_eq`, `Regular.unify_withHole`, `declare_eq_ok`,
`declare_new_value`.
-/

namespace LetFn

theorem Ty.rank?_inj {t u : Ty} {r : Rank} (ht : t.rank? = some r) (hu : u.rank? = some r) : t = u := by
  cases t <;> cases u <;> simp only [rank?, Option.some.injEq, reduceCtorEq] at ht hu <;> subst hu <;> simp_all

namespace Context

variable {ctx ctx' ctx'' : Context} {a b c t u : TypeId}

/-! ## widening -/

theorem promote_eq_some_iff : ctx.promote a b = some t ↔ ∃ r r', (ctx.type a).rank? = some r ∧
    (ctx.type b).rank? = some r' ∧ t = if r' ≤ r then a else b := by
  unfold promote
  cases ha : (ctx.type a).rank? <;> cases hb : (ctx.type b).rank? <;> simp [eq_comm]

theorem isNumeric_iff : ctx.isNumeric a = true ↔ ∃ r, (ctx.type a).rank? = some r := Option.isSome_iff_exists

/-- Two types have a higher one where both are numeric. -/
theorem isSome_promote_iff : (ctx.promote a b).isSome ↔ ctx.isNumeric a = true ∧ ctx.isNumeric b = true := by
  rw [isNumeric_iff, isNumeric_iff, Option.isSome_iff_exists]
  constructor
  · rintro ⟨t, h⟩
    obtain ⟨r, r', ha, hb, -⟩ := promote_eq_some_iff.1 h
    exact ⟨⟨r, ha⟩, r', hb⟩
  · rintro ⟨⟨r, ha⟩, r', hb⟩
    exact ⟨_, promote_eq_some_iff.2 ⟨r, r', ha, hb, rfl⟩⟩

/-- The higher of two types is one of them. -/
theorem eq_or_eq_of_promote (h : ctx.promote a b = some t) : t = a ∨ t = b := by
  obtain ⟨r, r', -, -, rfl⟩ := promote_eq_some_iff.1 h
  split
  · exact .inl rfl
  · exact .inr rfl

theorem numeric_of_promote (h : ctx.promote a b = some t) :
    ctx.isNumeric a = true ∧ ctx.isNumeric b = true ∧ ctx.isNumeric t = true := by
  obtain ⟨ha, hb⟩ := isSome_promote_iff.1 (Option.isSome_of_eq_some h)
  refine ⟨ha, hb, ?_⟩
  rcases eq_or_eq_of_promote h with rfl | rfl
  · exact ha
  · exact hb

/-- A type coerces to itself and, if it is numeric, to the types of a higher rank. -/
theorem coerces_iff : ctx.coerces a b = true ↔
    a = b ∨ ∃ r r', (ctx.type a).rank? = some r ∧ (ctx.type b).rank? = some r' ∧ ¬ r' ≤ r := by
  unfold coerces
  rw [Bool.or_eq_true, decide_eq_true_iff, decide_eq_true_iff, promote_eq_some_iff]
  constructor
  · rintro (h | ⟨r, r', ha, hb, h⟩)
    · exact .inl h
    · split at h
      · exact .inl h.symm
      · next hlt => exact .inr ⟨r, r', ha, hb, hlt⟩
  · rintro (h | ⟨r, r', ha, hb, h⟩)
    · exact .inl h
    · exact .inr ⟨r, r', ha, hb, by rw [if_neg h]⟩

theorem coerces_refl (ctx : Context) (a : TypeId) : ctx.coerces a a = true := coerces_iff.2 (.inl rfl)

theorem coerces_trans (h : ctx.coerces a b = true) (h' : ctx.coerces b c = true) : ctx.coerces a c = true := by
  rw [coerces_iff] at *
  rcases h with rfl | ⟨ra, rb, ha, hb, hab⟩
  · exact h'
  · rcases h' with rfl | ⟨rb', rc, hb', hc, hbc⟩
    · exact .inr ⟨ra, rb, ha, hb, hab⟩
    · obtain rfl := Option.some.inj (hb.symm.trans hb')
      refine .inr ⟨ra, rc, ha, hc, fun hca => hab ?_⟩
      exact Rank.le_trans ((Rank.le_total rb rc).resolve_right hbc) hca

theorem coerces_antisymm (h : ctx.coerces a b = true) (h' : ctx.coerces b a = true) : a = b := by
  rw [coerces_iff] at *
  rcases h with rfl | ⟨ra, rb, ha, hb, hab⟩
  · rfl
  · rcases h' with rfl | ⟨rb', ra', hb', ha', hba⟩
    · rfl
    · obtain rfl := Option.some.inj (hb.symm.trans hb')
      obtain rfl := Option.some.inj (ha.symm.trans ha')
      exact absurd ((Rank.le_total ra rb).resolve_right hab) hba

theorem coerces_of_promote (h : ctx.promote a b = some t) : ctx.coerces a t = true := by
  obtain ⟨r, r', ha, hb, rfl⟩ := promote_eq_some_iff.1 h
  split
  · exact ctx.coerces_refl a
  · next hlt => exact coerces_iff.2 (.inr ⟨r, r', ha, hb, hlt⟩)

theorem lt_length_of_type_ne (h : ctx.type t ≠ .void) : t.index < ctx.types.length := by
  by_contra hlt
  exact h (List.getD_eq_default _ _ (Nat.le_of_not_lt hlt))

theorem lt_length_of_rank? {r : Rank} (h : (ctx.type t).rank? = some r) : t.index < ctx.types.length := by
  refine lt_length_of_type_ne fun hvoid => ?_
  rw [hvoid] at h
  exact absurd h (by simp [Ty.rank?])

theorem not_hole_of_rank? {ty : Ty} {r : Rank} (h : ty.rank? = some r) : ty.isHole = false := by
  cases ty <;> simp_all [Ty.rank?, Ty.isHole]

/-- A numeric type is one that the context gave out, and no type variable. -/
theorem known_of_numeric (h : ctx.isNumeric t = true) : t.index < ctx.types.length ∧ (ctx.type t).isHole = false := by
  obtain ⟨r, hr⟩ := isNumeric_iff.1 h
  exact ⟨lt_length_of_rank? hr, not_hole_of_rank? hr⟩

/-! ## growth -/

/-- What was known of types and type variables is still true. -/
structure Extends (ctx ctx' : Context) : Prop where
  types : ctx.types <+: ctx'.types
  bindings : ∀ {v u}, ctx.binding? v = some u → ctx'.binding? v = some u

theorem Extends.refl (ctx : Context) : Extends ctx ctx := ⟨List.prefix_refl _, id⟩

theorem Extends.trans (h : Extends ctx ctx') (h' : Extends ctx' ctx'') : Extends ctx ctx'' :=
  ⟨h.types.trans h'.types, fun hv => h'.bindings (h.bindings hv)⟩

theorem Extends.type_eq (h : Extends ctx ctx') (ht : t.index < ctx.types.length) : ctx'.type t = ctx.type t := by
  obtain ⟨more, hmore⟩ := h.types
  unfold type
  rw [← hmore, List.getD_append _ _ _ _ ht]

theorem Extends.type_of_ne (h : Extends ctx ctx') (ht : ctx.type t ≠ .void) : ctx'.type t = ctx.type t :=
  h.type_eq (lt_length_of_type_ne ht)

/-- A number of a built-in type. -/
def Builtin (t : TypeId) : Prop := t.index < Ty.builtins.length

instance (t : TypeId) : Decidable (Builtin t) := inferInstanceAs (Decidable (_ < _))

/-- Types have one number each, the built-in ones theirs; functions return built-in types, and no type variable is left
open or leads to another. -/
structure Regular (ctx : Context) : Prop where
  nodup : ctx.types.Nodup
  builtins : Ty.builtins.map (·.2) <+: ctx.types
  functions : ∀ {params result}, Ty.function params result ∈ ctx.types → Builtin result
  holes : ∀ {v}, Ty.hole v ∈ ctx.types →
    ∃ u, ctx.binding? v = some u ∧ u.index < ctx.types.length ∧ (ctx.type u).isHole = false

theorem regular_new : Regular new where
  nodup := by decide
  builtins := List.prefix_refl _
  functions h := absurd h (by simp [new, Ty.builtins])
  holes h := absurd h (by simp [new, Ty.builtins])

/-- In a table without repetition a type has one number. -/
theorem eq_of_type_eq (hn : ctx.types.Nodup) (ha : a.index < ctx.types.length) (hb : b.index < ctx.types.length)
    (h : ctx.type a = ctx.type b) : a = b := by
  obtain ⟨i⟩ := a
  obtain ⟨j⟩ := b
  rw [type, type, List.getD_eq_getElem _ _ ha, List.getD_eq_getElem _ _ hb] at h
  simpa using (hn.getElem_inj_iff).1 h

/-- Among numeric types widening goes by rank, since types of one rank are one type and have one number. -/
theorem coerces_iff_le (hn : ctx.types.Nodup) {r r' : Rank} (ha : (ctx.type a).rank? = some r)
    (hb : (ctx.type b).rank? = some r') : ctx.coerces a b = true ↔ r ≤ r' := by
  rw [coerces_iff]
  constructor
  · rintro (rfl | ⟨s, s', hs, hs', hlt⟩)
    · rw [Option.some.inj (ha.symm.trans hb)]
      exact Rank.le_refl r'
    · obtain rfl := Option.some.inj (ha.symm.trans hs)
      obtain rfl := Option.some.inj (hb.symm.trans hs')
      exact (Rank.le_total _ _).resolve_right hlt
  · intro hle
    by_cases hge : r' ≤ r
    · left
      obtain rfl := Rank.le_antisymm hle hge
      exact eq_of_type_eq hn (lt_length_of_rank? ha) (lt_length_of_rank? hb) (Ty.rank?_inj ha hb)
    · exact .inr ⟨r, r', ha, hb, hge⟩

/-- The right one of two types widens to the higher one, too. -/
theorem coerces_of_promote_right (hn : ctx.types.Nodup) (h : ctx.promote a b = some t) : ctx.coerces b t = true := by
  obtain ⟨r, r', ha, hb, rfl⟩ := promote_eq_some_iff.1 h
  split
  · next hle => exact (coerces_iff_le hn hb ha).2 hle
  · exact ctx.coerces_refl b

theorem Regular.coerces_iff_le (hr : Regular ctx) {r r' : Rank} (ha : (ctx.type a).rank? = some r)
    (hb : (ctx.type b).rank? = some r') : ctx.coerces a b = true ↔ r ≤ r' := Context.coerces_iff_le hr.nodup ha hb

theorem rank?_of_coerces {r : Rank} (h : ctx.coerces a b = true) (ha : (ctx.type a).rank? = some r) :
    ∃ r', (ctx.type b).rank? = some r' := by
  rcases coerces_iff.1 h with rfl | ⟨_, r', _, hb, _⟩
  · exact ⟨r, ha⟩
  · exact ⟨r', hb⟩

/-- The higher of two types has the higher rank. -/
theorem rank?_of_promote {r r' : Rank} (h : ctx.promote a b = some t) (ha : (ctx.type a).rank? = some r)
    (hb : (ctx.type b).rank? = some r') : (ctx.type t).rank? = some (if r' ≤ r then r else r') := by
  obtain ⟨s, s', hs, hs', rfl⟩ := promote_eq_some_iff.1 h
  obtain rfl := Option.some.inj (ha.symm.trans hs)
  obtain rfl := Option.some.inj (hb.symm.trans hs')
  split
  · exact ha
  · exact hb

/-- Of higher types the higher one is higher. -/
theorem Regular.promote_mono (hr : Regular ctx) {a' b' : TypeId} (ha : ctx.coerces a a' = true)
    (hb : ctx.coerces b b' = true) (h : ctx.promote a b = some t) :
    ∃ t', ctx.promote a' b' = some t' ∧ ctx.coerces t t' = true := by
  obtain ⟨r, s, hra, hsb, -⟩ := promote_eq_some_iff.1 h
  obtain ⟨r', hra'⟩ := rank?_of_coerces ha hra
  obtain ⟨s', hsb'⟩ := rank?_of_coerces hb hsb
  have hrr := (hr.coerces_iff_le hra hra').1 ha
  have hss := (hr.coerces_iff_le hsb hsb').1 hb
  have h' : ctx.promote a' b' = some (if s' ≤ r' then a' else b') := promote_eq_some_iff.2 ⟨r', s', hra', hsb', rfl⟩
  refine ⟨_, h', (hr.coerces_iff_le (rank?_of_promote h hra hsb) (rank?_of_promote h' hra' hsb')).2 ?_⟩
  split <;> split
  · exact hrr
  · next hlt => exact Rank.le_trans hrr ((Rank.le_total r' s').resolve_right hlt)
  · next hle => exact Rank.le_trans hss hle
  · exact hss

theorem type_mem {ty : Ty} (h : ctx.type t = ty) (hne : ty ≠ .void) : ty ∈ ctx.types := by
  have ht : t.index < ctx.types.length := lt_length_of_type_ne (h ▸ hne)
  rw [← h, type, List.getD_eq_getElem _ _ ht]
  exact List.getElem_mem ht

theorem resolveWithin_of_not_hole (fuel : Nat) (h : (ctx.type t).isHole = false) : ctx.resolveWithin fuel t = t := by
  cases fuel with
  | zero => rfl
  | succ fuel =>
    unfold resolveWithin
    split
    · next v hv => exact absurd h (by simp [hv, Ty.isHole])
    · rfl

theorem resolve_of_not_hole (h : (ctx.type t).isHole = false) : ctx.resolve t = t := resolveWithin_of_not_hole _ h

theorem exists_of_isHole {ty : Ty} (h : ty.isHole = true) : ∃ v, ty = .hole v := by
  cases ty <;> simp_all [Ty.isHole]

/-- A type is its own end unless it is a type variable, which leads in one step to a type that is none. -/
theorem Regular.resolve_cases (hr : Regular ctx) (t : TypeId) :
    (ctx.type t).isHole = false ∧ ctx.resolve t = t ∨
    ∃ v, ctx.type t = .hole v ∧ ctx.binding? v = some (ctx.resolve t) ∧
      (ctx.resolve t).index < ctx.types.length ∧ (ctx.type (ctx.resolve t)).isHole = false := by
  by_cases hhole : (ctx.type t).isHole = true
  · obtain ⟨v, hv⟩ := exists_of_isHole hhole
    obtain ⟨u, hu, hlt, hnot⟩ := hr.holes (type_mem hv nofun)
    have hpos : ctx.bindings.length = ctx.bindings.length - 1 + 1 := by
      have : v.index < ctx.bindings.length := by
        by_contra hlt
        rw [binding?, List.getD_eq_default _ _ (Nat.le_of_not_lt hlt)] at hu
        simp at hu
      omega
    have hres : ctx.resolve t = u := by
      unfold resolve
      rw [hpos, resolveWithin, hv]
      simp only [hu]
      exact resolveWithin_of_not_hole _ hnot
    exact .inr ⟨v, hv, hres ▸ hu, hres ▸ hlt, hres ▸ hnot⟩
  · have hhole : (ctx.type t).isHole = false := by simpa using hhole
    exact .inl ⟨hhole, resolve_of_not_hole hhole⟩

/-- Where no type variable stands for anything there is none. -/
theorem Regular.not_hole_of_no_bindings (hr : Regular ctx) (h : ctx.bindings = []) (t : TypeId) :
    (ctx.type t).isHole = false := by
  rcases hr.resolve_cases t with ⟨hnot, -⟩ | ⟨v, -, hv, -⟩
  · exact hnot
  · rw [binding?, h] at hv
    exact absurd hv nofun

theorem Regular.resolve_not_hole (hr : Regular ctx) (t : TypeId) : (ctx.type (ctx.resolve t)).isHole = false := by
  rcases hr.resolve_cases t with ⟨h, ht⟩ | ⟨_, _, _, _, h⟩
  · rwa [ht]
  · exact h

theorem Regular.resolve_lt (hr : Regular ctx) (ht : t.index < ctx.types.length) :
    (ctx.resolve t).index < ctx.types.length := by
  rcases hr.resolve_cases t with ⟨_, h⟩ | ⟨_, _, _, h, _⟩
  · rwa [h]
  · exact h

/-- What a number leads to stays the same while the context grows. -/
theorem Extends.resolve_eq (h : Extends ctx ctx') (hr : Regular ctx) (hr' : Regular ctx')
    (ht : t.index < ctx.types.length) : ctx'.resolve t = ctx.resolve t := by
  rcases hr.resolve_cases t with ⟨hnot, hres⟩ | ⟨v, hv, hres, hlt, hnot⟩
  · rw [hres]
    exact resolve_of_not_hole (by rwa [h.type_eq ht])
  · rcases hr'.resolve_cases t with ⟨hnot', _⟩ | ⟨v', hv', hres', _, _⟩
    · rw [h.type_eq ht, hv] at hnot'
      exact absurd hnot' (by simp [Ty.isHole])
    · rw [h.type_eq ht, hv] at hv'
      obtain rfl := Ty.hole.inj hv'
      exact Option.some.inj (hres'.symm.trans (h.bindings hres))

theorem type_of_types (h : ctx'.types = ctx.types) (t : TypeId) : ctx'.type t = ctx.type t := by
  unfold type
  rw [h]

/-- What a number leads to depends on types and type variables alone. -/
theorem resolve_of_types (htypes : ctx'.types = ctx.types) (hbindings : ctx'.bindings = ctx.bindings) (t : TypeId) :
    ctx'.resolve t = ctx.resolve t := by
  unfold resolve
  rw [hbindings]
  generalize ctx.bindings.length = fuel
  induction fuel generalizing t with
  | zero => rfl
  | succ fuel ih =>
    unfold resolveWithin binding?
    rw [type_of_types htypes, hbindings]
    split
    · split
      · exact ih _
      · rfl
    · rfl

/-! ## built-in types -/

theorem builtin_of_resolveTypeName {name : String} {span : Span} (h : resolveTypeName name span = .ok t) :
    Builtin t := by
  unfold resolveTypeName TypeId.named? at h
  cases hi : Ty.builtins.findIdx? (·.1 = name) with
  | none => simp [hi] at h
  | some i =>
    simp only [hi, Option.map_some, Except.ok.injEq] at h
    rw [← h]
    exact (List.findIdx?_eq_some_iff_getElem.1 hi).1

theorem Regular.builtin_lt (hr : Regular ctx) (ht : Builtin t) : t.index < ctx.types.length :=
  Nat.lt_of_lt_of_le ht (by simpa using hr.builtins.length_le)

theorem Regular.type_builtin (hr : Regular ctx) (ht : Builtin t) : ctx.type t = new.type t := by
  obtain ⟨more, hmore⟩ := hr.builtins
  unfold type
  rw [← hmore, List.getD_append _ _ _ _ (by rwa [List.length_map])]
  rfl

theorem Regular.builtin_not_hole (hr : Regular ctx) (ht : Builtin t) : (ctx.type t).isHole = false := by
  rw [hr.type_builtin ht]
  obtain ⟨i⟩ := t
  have hi : i < 10 := ht
  interval_cases i <;> rfl

theorem Regular.resolve_builtin (hr : Regular ctx) (ht : Builtin t) : ctx.resolve t = t :=
  resolve_of_not_hole (hr.builtin_not_hole ht)

/-! ## new types -/

/-- A type that the table has keeps its number, any other is entered behind the rest. -/
theorem intern_cases (ctx : Context) (t : Ty) :
    (∃ i, ctx.types.idxOf? t = some i ∧ ctx.intern t = (⟨i⟩, ctx)) ∨
    t ∉ ctx.types ∧ ctx.intern t = (⟨ctx.types.length⟩, { ctx with types := ctx.types ++ [t] }) := by
  unfold intern
  cases h : ctx.types.idxOf? t with
  | some i => exact .inl ⟨i, rfl, rfl⟩
  | none => exact .inr ⟨by simpa using h, rfl⟩

theorem type_append_self {ty : Ty} {bindings : List (Option TypeId)} :
    ({ ctx with types := ctx.types ++ [ty], bindings } : Context).type ⟨ctx.types.length⟩ = ty := by
  simp [type]

theorem type_intern (ctx : Context) (t : Ty) : (ctx.intern t).2.type (ctx.intern t).1 = t := by
  rcases ctx.intern_cases t with ⟨i, hi, h⟩ | ⟨-, h⟩
  · rw [h]
    obtain ⟨hlt, hget, -⟩ := List.idxOf?_eq_some_iff.1 hi
    rw [type, List.getD_eq_getElem _ _ hlt, hget]
  · rw [h]
    exact type_append_self

theorem intern_scopes (ctx : Context) (t : Ty) : (ctx.intern t).2.scopes = ctx.scopes := by
  rcases ctx.intern_cases t with ⟨i, -, h⟩ | ⟨-, h⟩ <;> rw [h]

theorem extends_intern (ctx : Context) (t : Ty) : Extends ctx (ctx.intern t).2 := by
  rcases ctx.intern_cases t with ⟨i, -, h⟩ | ⟨-, h⟩
  · rw [h]
    exact .refl ctx
  · rw [h]
    exact ⟨List.prefix_append _ _, id⟩

theorem Regular.intern (hr : Regular ctx) {params : List TypeId} {result : TypeId} (ht : Builtin result) :
    Regular (ctx.intern (.function params result)).2 := by
  generalize hty : Ty.function params result = ty
  have hext := ctx.extends_intern ty
  rcases ctx.intern_cases ty with ⟨i, -, h⟩ | ⟨hnew, h⟩
  · rwa [h]
  · rw [h] at hext ⊢
    refine ⟨List.nodup_append.2 ⟨hr.nodup, List.nodup_singleton _, ?_⟩, hr.builtins.trans hext.types,
      fun {ps r} hf => ?_, fun {v} hv => ?_⟩
    · rintro x hx y hy rfl
      exact hnew (List.mem_singleton.1 hy ▸ hx)
    · rcases List.mem_append.1 hf with hf | hf
      · exact hr.functions hf
      · obtain ⟨-, rfl⟩ := Ty.function.inj (hty.trans (List.mem_singleton.1 hf).symm)
        exact ht
    · have hv : Ty.hole v ∈ ctx.types := by
        rcases List.mem_append.1 hv with hv | hv
        · exact hv
        · exact absurd (hty.trans (List.mem_singleton.1 hv).symm) nofun
      obtain ⟨u, hu, hlt, hnot⟩ := hr.holes hv
      exact ⟨u, hext.bindings hu, Nat.lt_of_lt_of_le hlt hext.types.length_le, by rwa [hext.type_eq hlt]⟩

/-! ## new type variables -/

/-- The context with one more type variable, which stands for `u`. -/
def withHole (ctx : Context) (u : TypeId) : Context :=
  { ctx with types := ctx.types ++ [.hole ⟨ctx.bindings.length⟩], bindings := ctx.bindings ++ [some u] }

/-- The number of the next new type. -/
def nextType (ctx : Context) : TypeId := ⟨ctx.types.length⟩

theorem binding?_of_append {bindings : List (Option TypeId)} {v : VarId} (more : List (Option TypeId))
    (h : bindings.getD v.index none = some u) : (bindings ++ more).getD v.index none = some u := by
  have hlt : v.index < bindings.length := by
    by_contra hlt
    rw [List.getD_eq_default _ _ (Nat.le_of_not_lt hlt)] at h
    simp at h
  rwa [List.getD_append _ _ _ _ hlt]

theorem Regular.hole_new (hr : Regular ctx) : Ty.hole ⟨ctx.bindings.length⟩ ∉ ctx.types := by
  intro h
  obtain ⟨u, hu, -⟩ := hr.holes h
  rw [binding?, List.getD_eq_default _ _ (Nat.le_refl _)] at hu
  simp at hu

theorem extends_withHole (ctx : Context) (u : TypeId) : Extends ctx (ctx.withHole u) :=
  ⟨List.prefix_append _ _, binding?_of_append _⟩

theorem type_withHole (ctx : Context) (u : TypeId) :
    (ctx.withHole u).type ctx.nextType = .hole ⟨ctx.bindings.length⟩ := type_append_self

theorem binding?_withHole (ctx : Context) (u : TypeId) :
    (ctx.withHole u).binding? ⟨ctx.bindings.length⟩ = some u := by
  simp [binding?, withHole]

theorem Regular.withHole (hr : Regular ctx) (hlt : u.index < ctx.types.length) (hnot : (ctx.type u).isHole = false) :
    Regular (ctx.withHole u) := by
  have hext := ctx.extends_withHole u
  have hle := hext.types.length_le
  refine ⟨List.nodup_append.2 ⟨hr.nodup, List.nodup_singleton _, ?_⟩, hr.builtins.trans hext.types,
    fun {ps r} hf => ?_, fun {v} hv => ?_⟩
  · rintro x hx y hy rfl
    exact hr.hole_new (List.mem_singleton.1 hy ▸ hx)
  · rcases List.mem_append.1 hf with hf | hf
    · exact hr.functions hf
    · exact absurd (List.mem_singleton.1 hf) nofun
  · rcases List.mem_append.1 hv with hv | hv
    · obtain ⟨w, hw, hwlt, hwnot⟩ := hr.holes hv
      exact ⟨w, hext.bindings hw, Nat.lt_of_lt_of_le hwlt hle, by rwa [hext.type_eq hwlt]⟩
    · obtain rfl := Ty.hole.inj (List.mem_singleton.1 hv)
      exact ⟨u, ctx.binding?_withHole u, Nat.lt_of_lt_of_le hlt hle, by rwa [hext.type_eq hlt]⟩

theorem Regular.resolve_withHole (hr : Regular (ctx.withHole u)) : (ctx.withHole u).resolve ctx.nextType = u := by
  rcases hr.resolve_cases ctx.nextType with ⟨hnot, -⟩ | ⟨v, hv, hres, -, -⟩
  · rw [type_withHole] at hnot
    exact absurd hnot (by simp [Ty.isHole])
  · rw [type_withHole] at hv
    obtain rfl := Ty.hole.inj hv
    rw [binding?_withHole] at hres
    exact (Option.some.inj hres).symm

theorem Regular.fresh_eq (hr : Regular ctx) : ctx.fresh = (ctx.nextType,
    { ctx with types := ctx.types ++ [.hole ⟨ctx.bindings.length⟩], bindings := ctx.bindings ++ [none] }) := by
  unfold fresh
  rcases ({ ctx with bindings := ctx.bindings ++ [none] } : Context).intern_cases (.hole ⟨ctx.bindings.length⟩) with
    ⟨i, hi, -⟩ | ⟨-, h⟩
  · obtain ⟨hlt, hget, -⟩ := List.idxOf?_eq_some_iff.1 hi
    exact absurd (hget ▸ List.getElem_mem hlt) hr.hole_new
  · exact h

/-- A new type variable that is unified with a type stands for that type. -/
theorem Regular.unify_fresh (hr : Regular ctx) (hlt : u.index < ctx.types.length)
    (hnot : (ctx.type u).isHole = false) {span : Span} :
    ctx.fresh.2.unify ctx.fresh.1 u span = .ok (u, ctx.withHole u) := by
  rw [hr.fresh_eq]
  set opened : Context :=
    { ctx with types := ctx.types ++ [.hole ⟨ctx.bindings.length⟩], bindings := ctx.bindings ++ [none] } with hopened
  have hhole : opened.type ctx.nextType = .hole ⟨ctx.bindings.length⟩ := type_append_self
  have hu : opened.type u = ctx.type u := by simp [hopened, type, List.getElem?_append_left hlt]
  have hfree : opened.resolve ctx.nextType = ctx.nextType := by
    have : opened.binding? ⟨ctx.bindings.length⟩ = none := by simp [hopened, binding?]
    rw [resolve, show opened.bindings.length = ctx.bindings.length + 1 by simp [hopened], resolveWithin, hhole]
    simp only [this]
  have hend : opened.resolve u = u := resolve_of_not_hole (by rwa [hu])
  have hne : ctx.nextType ≠ u := fun h => by
    rw [← h, nextType] at hlt
    exact absurd hlt (Nat.lt_irrefl _)
  simp only [unify, hfree, hend, if_neg hne, hhole]
  simp [hopened, fill, Context.withHole]

theorem withHole_fill : (ctx.withHole a).fill ⟨ctx.bindings.length⟩ b = ctx.withHole b := by
  simp [fill, withHole]

theorem raise_of_not_hole (h : (ctx.type a).isHole = false) : ctx.raise a t = ctx := by
  unfold raise lastHole? lastHoleWithin
  split
  · next v hv =>
    split at hv
    · next w hw => exact absurd h (by simp [hw, Ty.isHole])
    · simp at hv
  · rfl

theorem raise_withHole (ha : a.index < ctx.types.length) (hnot : (ctx.type a).isHole = false) :
    (ctx.withHole a).raise ctx.nextType t = ctx.withHole t := by
  have hlast : (ctx.withHole a).lastHole? ctx.nextType = some ⟨ctx.bindings.length⟩ := by
    have hend : ∀ fuel, (ctx.withHole a).lastHoleWithin fuel a = none := by
      intro fuel
      unfold lastHoleWithin
      rw [(ctx.extends_withHole a).type_eq ha]
      split
      · next v hv => exact absurd hnot (by simp [hv, Ty.isHole])
      · rfl
    rw [lastHole?, show (ctx.withHole a).bindings.length = ctx.bindings.length + 1 by simp [withHole],
      lastHoleWithin, type_withHole]
    simp [binding?_withHole, hend]
  unfold raise
  rw [hlast]
  exact withHole_fill

/-- A type variable that stands for `a` comes to stand for the higher one of `a` and the end of `b`, if they have one in
common. -/
theorem Regular.unify_withHole (hr : Regular ctx) (ha : a.index < ctx.types.length)
    (hnot : (ctx.type a).isHole = false) (hb : b.index < ctx.types.length) {span : Span} {r : TypeId × Context}
    (h : (ctx.withHole a).unify ctx.nextType ((ctx.withHole a).resolve b) span = .ok r) :
    ∃ u, r = (u, ctx.withHole u) ∧ (u = a ∧ ctx.resolve b = a ∨ ctx.promote a (ctx.resolve b) = some u) := by
  have hext := ctx.extends_withHole a
  have hr' := hr.withHole ha hnot
  have hend := hr'.resolve_not_hole b
  have hself : (ctx.withHole a).type a = ctx.type a := hext.type_eq ha
  have hres : (ctx.withHole a).resolve b = ctx.resolve b := hext.resolve_eq hr hr' hb
  have hother : (ctx.withHole a).type (ctx.resolve b) = ctx.type (ctx.resolve b) := hext.type_eq (hr.resolve_lt hb)
  simp only [unify, hr'.resolve_withHole, resolve_of_not_hole hend] at h
  rw [hres] at h hend
  split at h
  · next heq =>
    obtain rfl := Except.ok.inj h
    exact ⟨a, rfl, .inl ⟨rfl, heq.symm⟩⟩
  · split at h
    · next hv => exact absurd hnot (by simp [← hself, hv, Ty.isHole])
    · next hv _ => exact absurd hend (by simp [hv, Ty.isHole])
    · split at h
      · next u hu =>
        obtain rfl := Except.ok.inj h
        have hpromote : ctx.promote a (ctx.resolve b) = some u := by
          unfold promote at hu ⊢
          rwa [hself, hother] at hu
        refine ⟨u, ?_, .inr hpromote⟩
        have hstill : ((ctx.withHole u).type (ctx.resolve b)).isHole = false := by
          rw [(ctx.extends_withHole u).type_eq (hr.resolve_lt hb)]
          exact hr.resolve_not_hole b
        rw [raise_withHole ha hnot, raise_of_not_hole hstill]
      · simp at h

/-! ## symbols -/

variable {s s' : ScopeId} {name : String} {symbol old : Symbol}

theorem find?_replace (symbol : Symbol) (name : String) (symbols : List Symbol) :
    (symbols.map fun old => if old.name = symbol.name then symbol else old).find? (·.name = name) =
      if name = symbol.name then (symbols.find? (·.name = name)).map fun _ => symbol
      else symbols.find? (·.name = name) := by
  induction symbols with
  | nil => simp
  | cons x xs ih =>
    rw [List.map_cons, List.find?_cons, List.find?_cons, ih]
    by_cases hn : name = symbol.name
    · subst hn
      by_cases hx : x.name = symbol.name <;> simp [hx]
    · by_cases hx : x.name = symbol.name
      · simp [hx, hn, Ne.symm hn]
      · simp [hx, hn]

theorem find?_put (scope : Scope) (symbol : Symbol) (name : String) :
    (scope.put symbol).find? name = if name = symbol.name then some symbol else scope.find? name := by
  obtain ⟨parent, symbols⟩ := scope
  unfold Scope.put
  cases h : Scope.find? ⟨parent, symbols⟩ symbol.name with
  | none =>
    simp only [Scope.find?] at h ⊢
    rw [List.find?_append]
    by_cases hn : name = symbol.name
    · simp [hn, h]
    · simp [hn, Ne.symm hn]
  | some old =>
    simp only [Scope.find?, find?_replace] at h ⊢
    by_cases hn : name = symbol.name
    · subst hn
      simp [h]
    · simp [hn]

theorem symbolIn?_put (hs : s.index < ctx.scopes.length) :
    (ctx.put s symbol).symbolIn? s' name =
      if s' = s ∧ name = symbol.name then some symbol else ctx.symbolIn? s' name := by
  obtain ⟨i⟩ := s
  obtain ⟨j⟩ := s'
  simp only [symbolIn?, scope?, put, List.getElem?_modify]
  by_cases hij : i = j
  · subst hij
    rw [List.getElem?_eq_getElem hs]
    simp [find?_put]
  · have hji : j ≠ i := Ne.symm hij
    simp [hij, hji]

theorem put_scopes_length : (ctx.put s symbol).scopes.length = ctx.scopes.length := by simp [put]

/-- A declaration is known already, or is the first of its name in the scope, or goes with an earlier one of the same
function. -/
theorem declare_eq_ok (h : ctx.declare s symbol = .ok ctx') :
    (∃ old, ctx.symbolIn? s symbol.name = some old ∧ old.span = symbol.span ∧ ctx' = ctx) ∨
    (ctx.symbolIn? s symbol.name = none ∧ ctx' = ctx.put s symbol) ∨
    ∃ old, ctx.symbolIn? s symbol.name = some old ∧ old.kind.body?.isSome ∧ symbol.kind.body?.isSome ∧
      old.type = symbol.type ∧ (ctx' = ctx ∨ ctx' = ctx.put s symbol) := by
  unfold declare at h
  split at h
  · next hnone => exact .inr (.inl ⟨hnone, (Except.ok.inj h).symm⟩)
  · next old hold =>
    split at h
    · next hspan => exact .inl ⟨old, hold, hspan, (Except.ok.inj h).symm⟩
    · split at h
      · next b b' hb hb' =>
        split at h
        · next hsame =>
          refine .inr (.inr ⟨old, hold, by simp [hb], by simp [hb'], hsame.1, ?_⟩)
          cases b' with
          | false => exact .inl (Except.ok.inj h).symm
          | true => exact .inr (Except.ok.inj h).symm
        · simp at h
      · simp at h

/-- A declaration enters its symbol or nothing. -/
theorem eq_or_put_of_declare (h : ctx.declare s symbol = .ok ctx') : ctx' = ctx ∨ ctx' = ctx.put s symbol := by
  rcases declare_eq_ok h with ⟨_, _, _, h⟩ | ⟨_, h⟩ | ⟨_, _, _, _, _, h⟩
  · exact .inl h
  · exact .inr h
  · exact h

theorem declare_types (h : ctx.declare s symbol = .ok ctx') :
    ctx'.types = ctx.types ∧ ctx'.bindings = ctx.bindings ∧ ctx'.scopes.length = ctx.scopes.length := by
  rcases eq_or_put_of_declare h with rfl | rfl
  · exact ⟨rfl, rfl, rfl⟩
  · exact ⟨rfl, rfl, put_scopes_length⟩

/-- Variables and parameters stay as they were declared. -/
theorem declare_keeps_value (hs : s.index < ctx.scopes.length) (h : ctx.declare s symbol = .ok ctx')
    (hold : ctx.symbolIn? s' name = some old) (hvalue : old.kind.body? = none) :
    ctx'.symbolIn? s' name = some old := by
  rcases declare_eq_ok h with ⟨_, _, _, rfl⟩ | ⟨hnone, rfl⟩ | ⟨first, hfirst, hbody, _, _, rfl | rfl⟩
  · exact hold
  · rw [symbolIn?_put hs, if_neg, hold]
    rintro ⟨rfl, rfl⟩
    rw [hold] at hnone
    simp at hnone
  · exact hold
  · rw [symbolIn?_put hs, if_neg, hold]
    rintro ⟨rfl, rfl⟩
    obtain rfl := Option.some.inj (hold.symm.trans hfirst)
    simp [hvalue] at hbody

/-- A symbol that is found stands right in the scope where it is found. -/
theorem symbolIn?_of_lookup (h : ctx.lookup s name = some (s', symbol)) : ctx.symbolIn? s' name = some symbol := by
  unfold lookup at h
  generalize s.index + 1 = fuel at h
  induction fuel generalizing s with
  | zero => cases h
  | succ fuel ih =>
    unfold lookupWithin at h
    split at h
    · cases h
    · next scope hscope =>
      split at h
      · next found hfound =>
        obtain ⟨rfl, rfl⟩ := Prod.mk.inj (Option.some.inj h)
        exact Option.bind_eq_some_iff.2 ⟨scope, hscope, hfound⟩
      · obtain ⟨parent, -, h⟩ := Option.bind_eq_some_iff.1 h
        exact ih h

theorem symbolIn?_of_resolveSymbol {span : Span} (h : ctx.resolveSymbol s name span = .ok symbol) :
    ∃ s', ctx.symbolIn? s' name = some symbol := by
  unfold resolveSymbol at h
  split at h
  · next s' found hfound =>
    obtain rfl := Except.ok.inj h
    exact ⟨s', symbolIn?_of_lookup hfound⟩
  · simp at h

/-- The spans of all symbols are in the list. -/
def Known (ctx : Context) (spans : List Span) : Prop :=
  ∀ s name symbol, ctx.symbolIn? s name = some symbol → symbol.span ∈ spans

theorem Known.mono {spans spans' : List Span} (h : Known ctx spans) (hsub : spans ⊆ spans') : Known ctx spans' :=
  fun s name symbol hs => hsub (h s name symbol hs)

theorem Known.declare {spans : List Span} (hk : Known ctx spans) (hs : s.index < ctx.scopes.length)
    (h : ctx.declare s symbol = .ok ctx') : Known ctx' (symbol.span :: spans) := by
  intro s' name found hfound
  rcases eq_or_put_of_declare h with rfl | rfl
  · exact List.mem_cons_of_mem _ (hk _ _ _ hfound)
  · rw [symbolIn?_put hs] at hfound
    split at hfound
    · rw [← Option.some.inj hfound]
      exact List.mem_cons_self
    · exact List.mem_cons_of_mem _ (hk _ _ _ hfound)

/-- A variable or a parameter at a new place is entered, as the first of its name. -/
theorem declare_new_value {spans : List Span} (hk : Known ctx spans) (hnew : symbol.span ∉ spans)
    (hvalue : symbol.kind.body? = none) (h : ctx.declare s symbol = .ok ctx') :
    ctx.symbolIn? s symbol.name = none ∧ ctx' = ctx.put s symbol := by
  rcases declare_eq_ok h with ⟨old, hold, hspan, _⟩ | h | ⟨_, _, _, hbody, _⟩
  · exact absurd (hspan ▸ hk _ _ _ hold) hnew
  · exact h
  · simp [hvalue] at hbody

/-! ## steps of the checker -/

/-- The context is regular, its symbols are declared at the spans and have types that the table has. -/
structure Ready (ctx : Context) (spans : List Span) : Prop where
  regular : Regular ctx
  known : Known ctx spans
  typed : ∀ {s name symbol}, ctx.symbolIn? s name = some symbol → symbol.type.index < ctx.types.length

/-- The context grew, over the same scopes, and kept its variables and parameters. -/
structure Step (ctx ctx' : Context) : Prop where
  grows : Extends ctx ctx'
  length : ctx'.scopes.length = ctx.scopes.length
  parents : ∀ s, (ctx'.scope? s).map (·.parent) = (ctx.scope? s).map (·.parent)
  values : ∀ {s name symbol}, symbol.kind.body? = none → ctx.symbolIn? s name = some symbol →
    ctx'.symbolIn? s name = some symbol

theorem Step.refl (ctx : Context) : Step ctx ctx := ⟨.refl ctx, rfl, fun _ => rfl, fun _ h => h⟩

theorem Step.trans (h : Step ctx ctx') (h' : Step ctx' ctx'') : Step ctx ctx'' :=
  ⟨h.grows.trans h'.grows, h'.length.trans h.length, fun s => (h'.parents s).trans (h.parents s),
    fun hvalue hs => h'.values hvalue (h.values hvalue hs)⟩

theorem Ready.mono {spans spans' : List Span} (h : Ready ctx spans) (hsub : spans ⊆ spans') : Ready ctx spans' :=
  ⟨h.regular, h.known.mono hsub, h.typed⟩

theorem symbolIn?_of_scopes (h : ctx'.scopes = ctx.scopes) (s : ScopeId) (name : String) :
    ctx'.symbolIn? s name = ctx.symbolIn? s name := by
  unfold symbolIn? scope?
  rw [h]

theorem step_of_scopes (hext : Extends ctx ctx') (h : ctx'.scopes = ctx.scopes) : Step ctx ctx' :=
  ⟨hext, by rw [h], fun s => by unfold scope?; rw [h], fun _ hs => by rwa [symbolIn?_of_scopes h]⟩

theorem Ready.of_scopes {spans : List Span} (hr : Ready ctx spans) (hreg : Regular ctx') (hext : Extends ctx ctx')
    (h : ctx'.scopes = ctx.scopes) : Ready ctx' spans := by
  refine ⟨hreg, fun s name symbol hs => ?_, fun hs => ?_⟩
  · rw [symbolIn?_of_scopes h] at hs
    exact hr.known s name symbol hs
  · rw [symbolIn?_of_scopes h] at hs
    exact Nat.lt_of_lt_of_le (hr.typed hs) hext.types.length_le

theorem Ready.intern {spans : List Span} (hr : Ready ctx spans) {params : List TypeId} {result : TypeId}
    (ht : Builtin result) : Ready (ctx.intern (.function params result)).2 spans :=
  hr.of_scopes (hr.regular.intern ht) (ctx.extends_intern _) (ctx.intern_scopes _)

theorem step_intern (ctx : Context) (t : Ty) : Step ctx (ctx.intern t).2 :=
  step_of_scopes (ctx.extends_intern t) (ctx.intern_scopes t)

theorem Ready.withHole {spans : List Span} (hr : Ready ctx spans) (hlt : u.index < ctx.types.length)
    (hnot : (ctx.type u).isHole = false) : Ready (ctx.withHole u) spans :=
  hr.of_scopes (hr.regular.withHole hlt hnot) (ctx.extends_withHole u) rfl

theorem step_withHole (ctx : Context) (u : TypeId) : Step ctx (ctx.withHole u) :=
  step_of_scopes (ctx.extends_withHole u) rfl

theorem scope?_put (s' : ScopeId) : ((ctx.put s symbol).scope? s').map (·.parent) = (ctx.scope? s').map (·.parent) := by
  have hparent : ∀ scope : Scope, (scope.put symbol).parent = scope.parent := by
    intro scope
    unfold Scope.put
    split <;> rfl
  unfold scope? put
  rw [List.getElem?_modify]
  by_cases h : s.index = s'.index
  · cases ctx.scopes[s'.index]? <;> simp [h, hparent]
  · cases ctx.scopes[s'.index]? <;> simp [h]

theorem extends_declare (h : ctx.declare s symbol = .ok ctx') : Extends ctx ctx' := by
  obtain ⟨htypes, hbindings, -⟩ := declare_types h
  refine ⟨htypes ▸ List.prefix_refl _, fun hv => ?_⟩
  rw [← hv, binding?, binding?, hbindings]

theorem step_declare (hs : s.index < ctx.scopes.length) (h : ctx.declare s symbol = .ok ctx') : Step ctx ctx' := by
  refine ⟨extends_declare h, (declare_types h).2.2, fun s' => ?_, fun hvalue hold => ?_⟩
  · rcases eq_or_put_of_declare h with rfl | rfl
    · rfl
    · exact scope?_put s'
  · exact declare_keeps_value hs h hold hvalue

theorem Regular.of_types (hr : Regular ctx) (htypes : ctx'.types = ctx.types)
    (hbindings : ctx'.bindings = ctx.bindings) : Regular ctx' := by
  refine ⟨htypes ▸ hr.nodup, htypes ▸ hr.builtins, fun hf => hr.functions (htypes ▸ hf), fun hv => ?_⟩
  obtain ⟨u, hu, hlt, hnot⟩ := hr.holes (htypes ▸ hv)
  refine ⟨u, ?_, htypes ▸ hlt, by rwa [type_of_types htypes]⟩
  rw [← hu, binding?, binding?, hbindings]

/-- A declaration of a symbol whose type the table has. -/
theorem Ready.declare {spans : List Span} (hr : Ready ctx spans) (hs : s.index < ctx.scopes.length)
    (ht : symbol.type.index < ctx.types.length) (h : ctx.declare s symbol = .ok ctx') :
    Ready ctx' (symbol.span :: spans) := by
  obtain ⟨htypes, hbindings, -⟩ := declare_types h
  refine ⟨hr.regular.of_types htypes hbindings, hr.known.declare hs h, fun {s' name found} hfound => ?_⟩
  rw [htypes]
  rcases eq_or_put_of_declare h with rfl | rfl
  · exact hr.typed hfound
  · rw [symbolIn?_put hs] at hfound
    split at hfound
    · rwa [← Option.some.inj hfound]
    · exact hr.typed hfound

end Context

end LetFn
