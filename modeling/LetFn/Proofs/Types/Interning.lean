import LetFn.Proofs.Types.Growth
import Mathlib.Logic.Relation

/-!
# Numbers of types

A type is entered into the table once and found there again through a map from types to numbers. Map and table are
inverse to each other whatever was entered in whatever order, so that a number stands for a type as well as the type
itself does. Widening compares numbers where `promote` compares ranks, and what is known of one carries over to the
other because two numeric types of one rank are one type, and so have one number.

* `Indexed` — a context with the map, and the calls that enter types: `intern`, `fresh`;
* `Consistent s` — map and table are inverse to each other;
* `Reached s`, `LaterTable s s'` — what calls make of a context, in any order;
* `Joined ctx` — widening is an order, total on numeric types, and `promote` is its join.

Main facts: `Consistent.intern` (the map answers as a search in the table does), `joined_of_nodup`,
`interning_bijective`.
-/

namespace LetFn

deriving instance Hashable for TypeId

deriving instance Hashable for VarId

deriving instance Hashable for Ty

/-! ## the map beside the table -/

/-- A context with the numbers of its types by type. -/
structure Indexed where
  ctx : Context
  numbers : Std.HashMap Ty TypeId

namespace Indexed

/-- The number of a type, which is entered into the table and into the map if it is new. -/
def intern (s : Indexed) (t : Ty) : TypeId × Indexed :=
  match s.numbers[t]? with
  | some n => (n, s)
  | none =>
    let n : TypeId := ⟨s.ctx.types.length⟩
    (n, ⟨{ s.ctx with types := s.ctx.types ++ [t] }, s.numbers.insert t n⟩)

/-- A new type variable, which stands for nothing. -/
def fresh (s : Indexed) : TypeId × Indexed :=
  { s with ctx := { s.ctx with bindings := s.ctx.bindings ++ [none] } }.intern (.hole ⟨s.ctx.bindings.length⟩)

/-- The type of a function. -/
def function (s : Indexed) (params : List TypeId) (result : TypeId) : TypeId × Indexed :=
  s.intern (.function params result)

/-- The scope around the program, and no type. -/
def empty : Indexed := ⟨⟨[], [⟨none, []⟩], []⟩, ∅⟩

/-- The built-in types are entered one after the other. -/
def new : Indexed := Ty.builtins.foldl (fun s b => (s.intern b.2).2) empty

variable {s s' : Indexed} {t u : Ty} {n : TypeId}

/-- Map and table are inverse to each other. -/
def Consistent (s : Indexed) : Prop := ∀ (t : Ty) (n : TypeId), s.numbers[t]? = some n ↔ s.ctx.types[n.index]? = some t

theorem Consistent.nodup (h : s.Consistent) : s.ctx.types.Nodup := by
  refine List.nodup_iff_injective_get.2 fun i j hij => ?_
  have hi := (h _ ⟨i⟩).2 (List.getElem?_eq_getElem i.2)
  have hj := (h _ ⟨j⟩).2 (List.getElem?_eq_getElem j.2)
  rw [show s.ctx.types[j.1] = s.ctx.types[i.1] from hij.symm, hi] at hj
  exact Fin.ext (TypeId.mk.inj (Option.some.inj hj))

theorem Consistent.idxOf? (h : s.Consistent) : s.ctx.types.idxOf? t = s.numbers[t]?.map TypeId.index := by
  cases ht : s.numbers[t]? with
  | none =>
    refine List.idxOf?_eq_none_iff.2 fun hmem => ?_
    obtain ⟨i, hi⟩ := List.mem_iff_getElem?.1 hmem
    exact absurd ((h t ⟨i⟩).2 hi) (by simp [ht])
  | some n =>
    obtain ⟨hlt, hget⟩ := List.getElem?_eq_some_iff.1 ((h t n).1 ht)
    refine List.idxOf?_eq_some_iff.2 ⟨hlt, hget, fun j hj hsame => ?_⟩
    exact absurd (h.nodup.getElem_inj_iff.1 (hsame.trans hget.symm)) (Nat.ne_of_lt hj)

theorem consistent_empty : empty.Consistent := fun t n => by simp [empty]

/-- The types of a table with one more. -/
theorem getElem?_concat_eq_some {ts : List Ty} {i : Nat} :
    (ts ++ [t])[i]? = some u ↔ ts[i]? = some u ∨ i = ts.length ∧ t = u := by
  rcases Nat.lt_trichotomy i ts.length with hlt | rfl | hgt
  · rw [List.getElem?_append_left hlt]
    simp [Nat.ne_of_lt hlt]
  · simp
  · rw [List.getElem?_eq_none (Nat.le_of_lt hgt), List.getElem?_eq_none (by simp; omega)]
    simp [Nat.ne_of_gt hgt]

/-- **The map answers as a search in the table does**, and goes on to do so. -/
theorem Consistent.intern (h : s.Consistent) (t : Ty) : (s.intern t).1 = (s.ctx.intern t).1 ∧
    (s.intern t).2.ctx = (s.ctx.intern t).2 ∧ (s.intern t).2.Consistent := by
  unfold Indexed.intern Context.intern
  rw [h.idxOf?]
  cases ht : s.numbers[t]? with
  | some n => exact ⟨rfl, rfl, h⟩
  | none =>
    refine ⟨rfl, rfl, fun u n => ?_⟩
    obtain ⟨i⟩ := n
    have hnew : s.ctx.types[i]? ≠ some t := fun hi => by simp [(h t ⟨i⟩).2 hi] at ht
    simp only [Std.HashMap.getElem?_insert, beq_iff_eq, getElem?_concat_eq_some]
    split
    · next heq =>
      subst heq
      simp [hnew, eq_comm]
    · next hne => simp [hne, h u ⟨i⟩]

/-- A new type variable has the number that a search in the table would give it. -/
theorem Consistent.fresh (h : s.Consistent) : s.fresh.1 = s.ctx.fresh.1 ∧ s.fresh.2.ctx = s.ctx.fresh.2 ∧
    s.fresh.2.Consistent :=
  Consistent.intern (s := { s with ctx := { s.ctx with bindings := s.ctx.bindings ++ [none] } }) h _

/-! ## runs -/

/-- A type is entered, or a type variable made. -/
inductive Call (s : Indexed) : Indexed → Prop where
  | intern (t : Ty) : Call s (s.intern t).2
  | function (params : List TypeId) (result : TypeId) : Call s (s.function params result).2
  | fresh : Call s s.fresh.2

/-- The second table comes from the first by calls. -/
def Later : Indexed → Indexed → Prop := Relation.ReflTransGen Call

/-- The table comes from a new one by calls. -/
def Reached (s : Indexed) : Prop := Later new s

theorem Consistent.call (h : s.Consistent) (hcall : Call s s') : s'.Consistent ∧ s.ctx.types <+: s'.ctx.types := by
  have hintern : ∀ {s : Indexed}, s.Consistent → ∀ t, s.ctx.types <+: (s.intern t).2.ctx.types := fun h t => by
    rw [(h.intern t).2.1]
    exact (Context.extends_intern _ t).types
  cases hcall with
  | intern t => exact ⟨(h.intern t).2.2, hintern h t⟩
  | function params result => exact ⟨(h.intern _).2.2, hintern h _⟩
  | fresh =>
    have h' : ({ s with ctx := { s.ctx with bindings := s.ctx.bindings ++ [none] } } : Indexed).Consistent := h
    exact ⟨h.fresh.2.2, hintern h' _⟩

theorem Consistent.later (h : s.Consistent) (hlater : Later s s') : s'.Consistent ∧ s.ctx.types <+: s'.ctx.types := by
  induction hlater with
  | refl => exact ⟨h, List.prefix_refl _⟩
  | tail _ hcall ih =>
    obtain ⟨hnext, hgrown⟩ := ih.1.call hcall
    exact ⟨hnext, ih.2.trans hgrown⟩

/-- Entering the built-in types one after the other makes the table that a context has at the start. -/
theorem consistent_new : new.Consistent ∧ new.ctx = Context.new := by
  have hstep : ∀ (ts : List (String × Ty)) {s : Indexed}, s.Consistent →
      (ts.foldl (fun s b => (s.intern b.2).2) s).Consistent ∧
        (ts.foldl (fun s b => (s.intern b.2).2) s).ctx = ts.foldl (fun ctx b => (ctx.intern b.2).2) s.ctx := by
    intro ts
    induction ts with
    | nil => exact fun h => ⟨h, rfl⟩
    | cons b ts ih =>
      intro s h
      obtain ⟨-, hctx, hnext⟩ := h.intern b.2
      rw [List.foldl_cons, List.foldl_cons, ← hctx]
      exact ih hnext
  obtain ⟨hnew, hctx⟩ := hstep Ty.builtins consistent_empty
  exact ⟨hnew, hctx.trans (by decide)⟩

theorem Reached.consistent (h : s.Reached) : s.Consistent := (consistent_new.1.later h).1

end Indexed

/-! ## the order of types -/

namespace Context

variable {ctx : Context} {a b c t : TypeId}

/-- A number that the context gave out. -/
def Given (ctx : Context) (t : TypeId) : Prop := t.index < ctx.types.length

instance (ctx : Context) (t : TypeId) : Decidable (ctx.Given t) := inferInstanceAs (Decidable (_ < _))

theorem coerces_total (hn : ctx.types.Nodup) (ha : ctx.isNumeric a = true) (hb : ctx.isNumeric b = true) :
    ctx.coerces a b = true ∨ ctx.coerces b a = true := by
  obtain ⟨r, ha⟩ := isNumeric_iff.1 ha
  obtain ⟨r', hb⟩ := isNumeric_iff.1 hb
  rw [coerces_iff_le hn ha hb, coerces_iff_le hn hb ha]
  exact Rank.le_total r r'

/-- A type that is above two others and below all that are above these. -/
structure Join (ctx : Context) (a b t : TypeId) : Prop where
  left : ctx.coerces a t = true
  right : ctx.coerces b t = true
  least : ∀ {c}, ctx.coerces a c = true → ctx.coerces b c = true → ctx.coerces t c = true

theorem Join.unique {t' : TypeId} (h : ctx.Join a b t) (h' : ctx.Join a b t') : t = t' :=
  coerces_antisymm (h.least h'.left h'.right) (h'.least h.left h.right)

theorem Join.symm (h : ctx.Join a b t) : ctx.Join b a t := ⟨h.right, h.left, fun hb ha => h.least ha hb⟩

/-- The higher of two types is one of them, and the other is below it. -/
theorem join_of_promote (hn : ctx.types.Nodup) (h : ctx.promote a b = some t) : ctx.Join a b t := by
  refine ⟨coerces_of_promote h, coerces_of_promote_right hn h, fun {c} hac hbc => ?_⟩
  rcases eq_or_eq_of_promote h with rfl | rfl
  · exact hac
  · exact hbc

theorem promote_eq_some_iff_join (hn : ctx.types.Nodup) (ha : ctx.isNumeric a = true) (hb : ctx.isNumeric b = true) :
    ctx.promote a b = some t ↔ ctx.Join a b t := by
  refine ⟨join_of_promote hn, fun h => ?_⟩
  obtain ⟨t', ht'⟩ := Option.isSome_iff_exists.1 (isSome_promote_iff.2 ⟨ha, hb⟩)
  rw [ht', (join_of_promote hn ht').unique h]

theorem isNumeric_of_join (h : ctx.Join a b t) (ha : ctx.isNumeric a = true) : ctx.isNumeric t = true := by
  obtain ⟨r, hr⟩ := isNumeric_iff.1 ha
  exact isNumeric_iff.2 (rank?_of_coerces h.left hr)

/-- Joins may be taken in any order. -/
theorem Join.assoc {u v : TypeId} (h : ctx.Join a b t) (h' : ctx.Join t c u) (hv : ctx.Join b c v) :
    ctx.Join a v u where
  left := coerces_trans h.left h'.left
  right := hv.least (coerces_trans h.right h'.left) h'.right
  least ha hvc := h'.least (h.least ha (coerces_trans hv.left hvc)) (coerces_trans hv.right hvc)

/-- Widening is an order, total on numeric types, and `promote` gives the join of any two numeric types and of no other
types. A number that was not given out counts as `void`, so that this is true of it as well. -/
structure Joined (ctx : Context) : Prop where
  refl : ∀ a, ctx.coerces a a = true
  trans : ∀ {a b c}, ctx.coerces a b = true → ctx.coerces b c = true → ctx.coerces a c = true
  antisymm : ∀ {a b}, ctx.coerces a b = true → ctx.coerces b a = true → a = b
  total : ∀ {a b}, ctx.isNumeric a = true → ctx.isNumeric b = true → ctx.coerces a b = true ∨ ctx.coerces b a = true
  defined : ∀ {a b}, (ctx.promote a b).isSome ↔ ctx.isNumeric a = true ∧ ctx.isNumeric b = true
  join : ∀ {a b t}, ctx.promote a b = some t → ctx.Given t ∧ ctx.Join a b t
  comm : ∀ a b, ctx.promote a b = ctx.promote b a
  assoc : ∀ a b c, (ctx.promote a b).bind (ctx.promote · c) = (ctx.promote b c).bind (ctx.promote a)
  idem : ∀ {a}, ctx.isNumeric a = true → ctx.promote a a = some a

theorem promote_comm (hn : ctx.types.Nodup) (a b : TypeId) : ctx.promote a b = ctx.promote b a := by
  cases h : ctx.promote a b with
  | none =>
    refine (Option.not_isSome_iff_eq_none.1 fun hsome => ?_).symm
    have := isSome_promote_iff.2 (isSome_promote_iff.1 hsome).symm
    simp [h] at this
  | some t =>
    obtain ⟨ha, hb⟩ := isSome_promote_iff.1 (Option.isSome_of_eq_some h)
    exact ((promote_eq_some_iff_join hn hb ha).2 (join_of_promote hn h).symm).symm

/-- Of three numeric types the highest is found from either side, and of others none is. -/
theorem promote_assoc (hn : ctx.types.Nodup) (a b c : TypeId) :
    (ctx.promote a b).bind (ctx.promote · c) = (ctx.promote b c).bind (ctx.promote a) := by
  have hnone : ∀ x y, ¬ (ctx.isNumeric x = true ∧ ctx.isNumeric y = true) → ctx.promote x y = none := fun x y h =>
    Option.not_isSome_iff_eq_none.1 fun hsome => h (isSome_promote_iff.1 hsome)
  by_cases hb : ctx.isNumeric b = true
  · by_cases ha : ctx.isNumeric a = true
    · by_cases hc : ctx.isNumeric c = true
      · obtain ⟨t, ht⟩ := Option.isSome_iff_exists.1 (isSome_promote_iff.2 ⟨ha, hb⟩)
        obtain ⟨v, hv⟩ := Option.isSome_iff_exists.1 (isSome_promote_iff.2 ⟨hb, hc⟩)
        have htn := isNumeric_of_join (join_of_promote hn ht) ha
        have hvn := isNumeric_of_join (join_of_promote hn hv) hb
        obtain ⟨u, hu⟩ := Option.isSome_iff_exists.1 (isSome_promote_iff.2 ⟨htn, hc⟩)
        have hjoin := (join_of_promote hn ht).assoc (join_of_promote hn hu) (join_of_promote hn hv)
        rw [ht, hv, Option.bind_some, Option.bind_some, hu, (promote_eq_some_iff_join hn ha hvn).2 hjoin]
      · rw [hnone b c fun h => hc h.2, Option.bind_none]
        exact Option.bind_eq_none_iff.2 fun t _ => hnone t c fun h => hc h.2
    · rw [hnone a b fun h => ha h.1, Option.bind_none]
      exact (Option.bind_eq_none_iff.2 fun t _ => hnone a t fun h => ha h.1).symm
  · rw [hnone a b fun h => hb h.2, hnone b c fun h => hb h.1, Option.bind_none, Option.bind_none]

/-- **In a table without repetition promotion is a join.** -/
theorem joined_of_nodup (hn : ctx.types.Nodup) : ctx.Joined where
  refl := ctx.coerces_refl
  trans := coerces_trans
  antisymm := coerces_antisymm
  total := coerces_total hn
  defined := isSome_promote_iff
  join h := by
    obtain ⟨-, -, hnumeric⟩ := numeric_of_promote h
    exact ⟨(known_of_numeric hnumeric).1, join_of_promote hn h⟩
  comm := promote_comm hn
  assoc := promote_assoc hn
  idem ha := (promote_eq_some_iff_join hn ha ha).2 ⟨ctx.coerces_refl _, ctx.coerces_refl _, fun h _ => h⟩

end Context

namespace Indexed

variable {s s' : Indexed}

/-- Types and the numbers given out for them go together one to one, and a call answers as it would with a search in the
table in place of the map. -/
structure Numbered (s : Indexed) : Prop where
  eq_iff : ∀ {a b}, s.ctx.Given a → s.ctx.Given b → (a = b ↔ s.ctx.type a = s.ctx.type b)
  found : ∀ {a}, s.ctx.Given a → s.intern (s.ctx.type a) = (a, s)
  intern : ∀ t, (s.intern t).1 = (s.ctx.intern t).1 ∧ (s.intern t).2.ctx = (s.ctx.intern t).2
  fresh : s.fresh.1 = s.ctx.fresh.1 ∧ s.fresh.2.ctx = s.ctx.fresh.2
  entered : ∀ t, (s.intern t).2.ctx.Given (s.intern t).1 ∧ (s.intern t).2.ctx.type (s.intern t).1 = t

theorem Consistent.given (h : s.Consistent) (t : Ty) : (s.intern t).2.ctx.Given (s.intern t).1 := by
  obtain ⟨hn, hctx, -⟩ := h.intern t
  rw [hn, hctx]
  rcases s.ctx.intern_cases t with ⟨i, hi, heq⟩ | ⟨-, heq⟩
  · rw [heq]
    exact (List.idxOf?_eq_some_iff.1 hi).1
  · rw [heq]
    simp [Context.Given]

theorem Consistent.numbered (h : s.Consistent) : s.Numbered where
  eq_iff ha hb := ⟨fun heq => heq ▸ rfl, Context.eq_of_type_eq h.nodup ha hb⟩
  found {a} ha := by
    have hget : s.ctx.types[a.index]? = some (s.ctx.type a) := by
      rw [Context.type, List.getD_eq_getElem _ _ ha, List.getElem?_eq_getElem ha]
    rw [Indexed.intern, (h _ a).2 hget]
  intern t := ⟨(h.intern t).1, (h.intern t).2.1⟩
  fresh := ⟨h.fresh.1, h.fresh.2.1⟩
  entered t := by
    refine ⟨h.given t, ?_⟩
    rw [(h.intern t).1, (h.intern t).2.1, Context.type_intern]

/-- **Entering types is a bijection and promotion is a join**, after any calls in any order: numbers are equal exactly
if their types are, no later call changes the type of a number, and so numeric types are a chain in which `promote`
finds the least type above two others. -/
theorem interning_bijective (h : s.Reached) : s.Numbered ∧
    (∀ {s'}, Later s s' → ∀ {a}, s.ctx.Given a → s'.ctx.Given a ∧ s'.ctx.type a = s.ctx.type a) ∧ s.ctx.Joined := by
  have hs := h.consistent
  refine ⟨hs.numbered, fun hlater a ha => ?_, Context.joined_of_nodup hs.nodup⟩
  obtain ⟨more, hmore⟩ := (hs.later hlater).2
  have hlt : a.index < s.ctx.types.length := ha
  refine ⟨?_, ?_⟩
  · rw [Context.Given, ← hmore, List.length_append]
    omega
  · rw [Context.type, Context.type, ← hmore, List.getD_append _ _ _ _ hlt]

/-- A function type, a type variable and an integer type of a size that has no name, entered in that order. -/
theorem interning_bijective_wide : ∃ s, Reached s ∧ s.ctx.type ⟨10⟩ = .function [.int] .float ∧
    s.ctx.type ⟨11⟩ = .hole ⟨0⟩ ∧ s.ctx.promote ⟨12⟩ .float = some .float ∧ s.Numbered ∧
    (∀ {s'}, Later s s' → ∀ {a}, s.ctx.Given a → s'.ctx.Given a ∧ s'.ctx.type a = s.ctx.type a) ∧ s.ctx.Joined := by
  have h : Reached ((new.function [.int] .float).2.fresh.2.intern (.sizedInt 128)).2 :=
    .tail (.tail (.tail .refl (.function [.int] .float)) .fresh) (.intern _)
  obtain ⟨hnew, hctx⟩ := consistent_new
  obtain ⟨-, hctx₁, h₁⟩ := hnew.intern (.function [.int] .float)
  obtain ⟨-, hctx₂, h₂⟩ := h₁.fresh
  obtain ⟨-, hctx₃, -⟩ := h₂.intern (.sizedInt 128)
  rw [hctx₂, hctx₁, hctx] at hctx₃
  refine ⟨_, h, ?_, ?_, ?_, interning_bijective h⟩ <;> rw [function, hctx₃] <;> decide

end Indexed

end LetFn
