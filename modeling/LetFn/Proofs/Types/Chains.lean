import LetFn.Proofs.Types.Growth
import Mathlib.Logic.Relation

/-!
# Chains of type variables

A type variable that stands for a type leads to it, and that may be a type variable again. There is no check that a
variable does not come to stand for itself on the way, and variables that stand for a type are filled anew when two
types are unified to a higher one. That every chain has an end is an invariant of the table.

* `Leads ctx t u` — `t` is a type variable that stands for `u`;
* `EndsAt ctx k t e` — the chain from `t` ends at `e`, after `k` links;
* `Linked ctx` — variables and their types go together, and no chain has more links than there are filled variables;
* `unifyCall a b span` — unification as a call that finds a context, answers and leaves a context behind;
* `Call`, `Later ctx ctx'`, `Reachable ctx` — what the calls on types and type variables make of a context.

Main facts: `resolveWithin_of_endsAt`, `lastHoleWithin_of_endsAt` (the chain is followed to its end), `Linked.unify`
(unification closes no chain), `chains_end`.
-/

namespace LetFn.Context

variable {ctx ctx' : Context} {a b e t u x : TypeId} {v w : VarId} {k : Nat}

/-! ## links -/

/-- A type variable leads to the type that it stands for. -/
def Leads (ctx : Context) (t u : TypeId) : Prop := ∃ v, ctx.type t = .hole v ∧ ctx.binding? v = some u

/-- No type variable, or one that stands for nothing yet. -/
def Ended (ctx : Context) (t : TypeId) : Prop := ∀ v, ctx.type t = .hole v → ctx.binding? v = none

/-- The chain from a type ends after so many links. -/
inductive EndsAt (ctx : Context) : Nat → TypeId → TypeId → Prop
  | here {t : TypeId} (ended : Ended ctx t) : EndsAt ctx 0 t t
  | link {k : Nat} {t u e : TypeId} (leads : Leads ctx t u) (rest : EndsAt ctx k u e) : EndsAt ctx (k + 1) t e

theorem ended_of_not_hole (h : (ctx.type t).isHole = false) : Ended ctx t :=
  fun v hv => absurd h (by simp [hv, Ty.isHole])

theorem ended_iff_not_leads : Ended ctx t ↔ ∀ u, ¬ Leads ctx t u := by
  constructor
  · rintro h u ⟨v, hv, hu⟩
    rw [h v hv] at hu
    exact absurd hu nofun
  · intro h v hv
    by_contra hne
    obtain ⟨u, hu⟩ := Option.ne_none_iff_exists'.1 hne
    exact h u ⟨v, hv, hu⟩

theorem EndsAt.ended (h : EndsAt ctx k t e) : Ended ctx e := by
  induction h with
  | here ended => exact ended
  | link _ _ ih => exact ih

theorem Leads.unique {u' : TypeId} (h : Leads ctx t u) (h' : Leads ctx t u') : u = u' := by
  obtain ⟨v, hv, hu⟩ := h
  obtain ⟨v', hv', hu'⟩ := h'
  obtain rfl := Ty.hole.inj (hv.symm.trans hv')
  exact Option.some.inj (hu.symm.trans hu')

theorem EndsAt.eq_of_ended (h : EndsAt ctx k t e) (ht : Ended ctx t) : k = 0 ∧ e = t := by
  cases h with
  | here => exact ⟨rfl, rfl⟩
  | link leads => exact absurd leads (ended_iff_not_leads.1 ht _)

/-- A chain has one end. -/
theorem EndsAt.unique {k' : Nat} {e' : TypeId} (h : EndsAt ctx k t e) (h' : EndsAt ctx k' t e') : e = e' := by
  induction h generalizing k' with
  | here ended => exact (h'.eq_of_ended ended).2.symm
  | link leads _ ih =>
    cases h' with
    | here ended => exact absurd leads (ended_iff_not_leads.1 ended _)
    | link leads' rest' => exact ih (leads.unique leads' ▸ rest')

/-- Enough fuel takes `resolve` to the end of a chain. -/
theorem resolveWithin_of_endsAt {fuel : Nat} (h : EndsAt ctx k t e) (hk : k ≤ fuel) :
    ctx.resolveWithin fuel t = e := by
  induction h generalizing fuel with
  | @here t ended =>
    cases fuel with
    | zero => rfl
    | succ fuel =>
      unfold resolveWithin
      split
      · next v hv => rw [ended v hv]
      · rfl
  | link leads _ ih =>
    obtain ⟨v, hv, hu⟩ := leads
    obtain _ | fuel := fuel
    · exact absurd hk (Nat.not_succ_le_zero _)
    · rw [resolveWithin, hv]
      simp only [hu]
      exact ih (Nat.le_of_succ_le_succ hk)

/-- The last type variable on the way from `t` to the end `e`: it stands for `e`, or it is `e` and stands for nothing. -/
def LastHole (ctx : Context) (t e : TypeId) (v : VarId) : Prop :=
  ∃ w, Relation.ReflTransGen (Leads ctx) t w ∧ ctx.type w = .hole v ∧
    (ctx.binding? v = some e ∧ (ctx.type e).isHole = false ∨ w = e ∧ ctx.binding? v = none)

/-! What `lastHole?` does at a type, at an open variable and at a variable that leads on. -/

theorem lastHoleWithin_of_not_hole (fuel : Nat) (h : (ctx.type t).isHole = false) : ctx.lastHoleWithin fuel t = none := by
  unfold lastHoleWithin
  split
  · next v hv => exact absurd h (by simp [hv, Ty.isHole])
  · rfl

theorem lastHoleWithin_of_open (fuel : Nat) (hv : ctx.type t = .hole v) (hopen : ctx.binding? v = none) :
    ctx.lastHoleWithin fuel t = some v := by
  unfold lastHoleWithin
  rw [hv]
  cases fuel with
  | zero => rfl
  | succ fuel => simp [hopen]

theorem lastHoleWithin_succ (fuel : Nat) (hv : ctx.type t = .hole v) (hu : ctx.binding? v = some u) :
    ctx.lastHoleWithin (fuel + 1) t = (ctx.lastHoleWithin fuel u).or (some v) := by
  rw [lastHoleWithin, hv]
  simp [hu]

/-- Enough fuel takes `lastHole?` to the last type variable of a chain, if there is one on it. -/
theorem lastHoleWithin_of_endsAt {fuel : Nat} (h : EndsAt ctx k t e) (hk : k ≤ fuel) :
    (ctx.type t).isHole = false ∧ ctx.lastHoleWithin fuel t = none ∨
      ∃ v, ctx.lastHoleWithin fuel t = some v ∧ LastHole ctx t e v := by
  induction h generalizing fuel with
  | @here t ended =>
    by_cases hhole : (ctx.type t).isHole = true
    · obtain ⟨v, hv⟩ := exists_of_isHole hhole
      exact .inr ⟨v, lastHoleWithin_of_open fuel hv (ended v hv), t, .refl, hv, .inr ⟨rfl, ended v hv⟩⟩
    · have hnot : (ctx.type t).isHole = false := by simpa using hhole
      exact .inl ⟨hnot, lastHoleWithin_of_not_hole fuel hnot⟩
  | @link k t u e leads rest ih =>
    obtain ⟨v, hv, hu⟩ := leads
    obtain _ | fuel := fuel
    · exact absurd hk (Nat.not_succ_le_zero _)
    · rw [lastHoleWithin_succ fuel hv hu]
      rcases ih (Nat.le_of_succ_le_succ hk) with ⟨hnot, hnone⟩ | ⟨w, hw, z, hz, hzw, hend⟩
      · obtain ⟨-, rfl⟩ := rest.eq_of_ended (ended_of_not_hole hnot)
        exact .inr ⟨v, by rw [hnone]; rfl, t, .refl, hv, .inl ⟨hu, hnot⟩⟩
      · exact .inr ⟨w, by rw [hw]; rfl, z, .head ⟨v, hv, hu⟩ hz, hzw, hend⟩

/-- More fuel than a chain has links changes nothing. -/
theorem lastHoleWithin_congr {fuel fuel' : Nat} (h : EndsAt ctx k t e) (hk : k ≤ fuel) (hk' : k ≤ fuel') :
    ctx.lastHoleWithin fuel t = ctx.lastHoleWithin fuel' t := by
  induction h generalizing fuel fuel' with
  | @here t ended =>
    by_cases hhole : (ctx.type t).isHole = true
    · obtain ⟨v, hv⟩ := exists_of_isHole hhole
      rw [lastHoleWithin_of_open fuel hv (ended v hv), lastHoleWithin_of_open fuel' hv (ended v hv)]
    · have hnot : (ctx.type t).isHole = false := by simpa using hhole
      rw [lastHoleWithin_of_not_hole fuel hnot, lastHoleWithin_of_not_hole fuel' hnot]
  | @link k t u e leads rest ih =>
    obtain ⟨v, hv, hu⟩ := leads
    obtain ⟨f, rfl⟩ : ∃ f, fuel = f + 1 := ⟨fuel - 1, by omega⟩
    obtain ⟨f', rfl⟩ : ∃ f, fuel' = f + 1 := ⟨fuel' - 1, by omega⟩
    rw [lastHoleWithin_succ f hv hu, lastHoleWithin_succ f' hv hu,
      ih (Nat.le_of_succ_le_succ hk) (Nat.le_of_succ_le_succ hk')]

/-! ## the invariant -/

/-- How many type variables stand for something. -/
def filled (ctx : Context) : Nat := ctx.bindings.countP (·.isSome)

/-- No type has two numbers, the type variables of the table are those of the context, what they stand for is in the
table, and every chain has an end. -/
structure Linked (ctx : Context) : Prop where
  nodup : ctx.types.Nodup
  holes : ∀ v, Ty.hole v ∈ ctx.types ↔ v.index < ctx.bindings.length
  targets : ∀ {v u}, ctx.binding? v = some u → u.index < ctx.types.length
  ends : ∀ t, ∃ k e, EndsAt ctx k t e ∧ k ≤ ctx.filled

theorem Linked.endsAt (h : Linked ctx) (t : TypeId) : ∃ k, k ≤ ctx.bindings.length ∧ EndsAt ctx k t (ctx.resolve t) := by
  obtain ⟨k, e, he, hk⟩ := h.ends t
  have hlength : k ≤ ctx.bindings.length := Nat.le_trans hk List.countP_le_length
  refine ⟨k, hlength, ?_⟩
  rw [resolve, resolveWithin_of_endsAt he hlength]
  exact he

theorem Linked.hole_inj (h : Linked ctx) (ht : ctx.type t = .hole v) (hu : ctx.type u = .hole v) : t = u :=
  eq_of_type_eq h.nodup (lt_length_of_type_ne (ht ▸ nofun)) (lt_length_of_type_ne (hu ▸ nofun)) (ht.trans hu.symm)

theorem lt_length_of_binding? (h : ctx.binding? v = some u) : v.index < ctx.bindings.length := by
  by_contra hlt
  rw [binding?, List.getD_eq_default _ _ (Nat.le_of_not_lt hlt)] at h
  simp at h

/-- What stands on the chain of a number that was given out was given out as well. -/
theorem Linked.leads_lt (h : Linked ctx) (hl : Relation.ReflTransGen (Leads ctx) t u)
    (ht : t.index < ctx.types.length) : u.index < ctx.types.length := by
  rcases hl.cases_tail with rfl | ⟨w, -, v, -, hv⟩
  · exact ht
  · exact h.targets hv

theorem EndsAt.leads (h : EndsAt ctx k t e) : Relation.ReflTransGen (Leads ctx) t e := by
  induction h with
  | here => exact .refl
  | link leads _ ih => exact .head leads ih

theorem Linked.resolve_lt (h : Linked ctx) (ht : t.index < ctx.types.length) :
    (ctx.resolve t).index < ctx.types.length := by
  obtain ⟨k, -, he⟩ := h.endsAt t
  exact h.leads_lt he.leads ht

theorem linked_new : Linked new where
  nodup := by decide
  holes v := by simp [new, Ty.builtins]
  targets h := absurd h (by simp [binding?, new])
  ends t := ⟨0, t, .here fun v _ => by simp [binding?, new], Nat.zero_le _⟩

/-! ## new types -/

/-- The context with a type at the end of the table, and with more bindings. -/
def grow (ctx : Context) (ty : Ty) (more : List (Option TypeId)) : Context :=
  { ctx with types := ctx.types ++ [ty], bindings := ctx.bindings ++ more }

/-- The type leads nowhere: it is no type variable, or a new one that stands for nothing. -/
def Unlinked (ctx : Context) (ty : Ty) (more : List (Option TypeId)) : Prop :=
  ty.isHole = false ∧ more = [] ∨ ty = .hole ⟨ctx.bindings.length⟩ ∧ more = [none]

section

variable {ty : Ty} {more : List (Option TypeId)}

theorem type_grow : (ctx.grow ty more).type t = if t.index = ctx.types.length then ty else ctx.type t := by
  unfold type grow
  rcases Nat.lt_trichotomy t.index ctx.types.length with hlt | heq | hgt
  · rw [List.getD_append _ _ _ _ hlt, if_neg (Nat.ne_of_lt hlt)]
  · rw [List.getD_append_right _ _ _ _ (Nat.le_of_eq heq.symm), if_pos heq, heq, Nat.sub_self]
    rfl
  · rw [List.getD_eq_default _ _ (by simp; omega), if_neg (Nat.ne_of_gt hgt), List.getD_eq_default _ _ (Nat.le_of_lt hgt)]

theorem binding?_grow (hty : Unlinked ctx ty more) : (ctx.grow ty more).binding? v = ctx.binding? v := by
  unfold binding? grow
  rcases hty with ⟨-, rfl⟩ | ⟨-, rfl⟩
  · simp
  · rcases Nat.lt_or_ge v.index ctx.bindings.length with hlt | hge
    · rw [List.getD_append _ _ _ _ hlt]
    · rw [List.getD_append_right _ _ _ _ hge, List.getD_eq_default _ _ hge]
      cases v.index - ctx.bindings.length <;> rfl

/-- A type that leads nowhere adds no link. -/
theorem leads_grow_iff (hty : Unlinked ctx ty more) : Leads (ctx.grow ty more) t u ↔ Leads ctx t u := by
  refine exists_congr fun v => ?_
  rw [binding?_grow hty]
  refine and_congr_left fun hv => ?_
  rw [type_grow]
  split
  · next heq =>
    have hold : ctx.type t = .void := List.getD_eq_default _ _ (Nat.le_of_eq heq.symm)
    rw [hold]
    refine ⟨fun hhole => ?_, nofun⟩
    rcases hty with ⟨hnot, -⟩ | ⟨hnext, -⟩
    · exact absurd hnot (by simp [hhole, Ty.isHole])
    · rw [Ty.hole.inj (hhole.symm.trans hnext)] at hv
      exact absurd (lt_length_of_binding? hv) (Nat.lt_irrefl _)
  · rfl

theorem EndsAt.grow (hty : Unlinked ctx ty more) (h : EndsAt ctx k t e) : EndsAt (ctx.grow ty more) k t e := by
  induction h with
  | here ended =>
    exact .here (ended_iff_not_leads.2 fun u hu => ended_iff_not_leads.1 ended u ((leads_grow_iff hty).1 hu))
  | link leads _ ih => exact .link ((leads_grow_iff hty).2 leads) ih

/-- A table that grows by a type that leads nowhere has the chains that it had. -/
theorem Linked.grow (h : Linked ctx) (hnew : ty ∉ ctx.types) (hty : Unlinked ctx ty more) :
    Linked (ctx.grow ty more) where
  nodup := by
    refine List.nodup_append.2 ⟨h.nodup, List.nodup_singleton _, ?_⟩
    rintro x hx y hy rfl
    exact hnew (List.mem_singleton.1 hy ▸ hx)
  holes v := by
    rw [Context.grow, List.mem_append, List.mem_singleton, h.holes v]
    rcases hty with ⟨hnot, rfl⟩ | ⟨rfl, rfl⟩
    · have : Ty.hole v ≠ ty := fun heq => absurd hnot (by simp [← heq, Ty.isHole])
      simp [this]
    · obtain ⟨i⟩ := v
      simp
      omega
  targets hv := by
    rw [binding?_grow hty] at hv
    exact Nat.lt_of_lt_of_le (h.targets hv) (by simp [Context.grow])
  ends t := by
    have hfilled : (ctx.grow ty more).filled = ctx.filled := by
      rcases hty with ⟨-, rfl⟩ | ⟨-, rfl⟩ <;> simp [filled, Context.grow]
    obtain ⟨k, e, he, hk⟩ := h.ends t
    exact ⟨k, e, he.grow hty, hfilled ▸ hk⟩

end

/-- The numbers and the type variable that a type is made of were given out. -/
def Issued (ctx : Context) : Ty → Prop
  | .function params result => (∀ t ∈ params, t.index < ctx.types.length) ∧ result.index < ctx.types.length
  | .hole v => v.index < ctx.bindings.length
  | _ => True

theorem Linked.intern (h : Linked ctx) {ty : Ty} (hty : Issued ctx ty) : Linked (ctx.intern ty).2 := by
  rcases ctx.intern_cases ty with ⟨i, -, heq⟩ | ⟨hnew, heq⟩
  · rwa [heq]
  · have hnot : ty.isHole = false := by
      by_contra hhole
      obtain ⟨v, rfl⟩ := exists_of_isHole (by simpa using hhole)
      exact hnew ((h.holes v).2 hty)
    have hgrown := h.grow hnew (.inl ⟨hnot, rfl⟩)
    rw [Context.grow, List.append_nil] at hgrown
    rwa [heq]

theorem Linked.fresh (h : Linked ctx) : Linked ctx.fresh.2 := by
  have hnew : Ty.hole ⟨ctx.bindings.length⟩ ∉ ctx.types := fun hmem =>
    absurd ((h.holes _).1 hmem) (Nat.lt_irrefl _)
  unfold Context.fresh
  rcases ({ ctx with bindings := ctx.bindings ++ [none] } : Context).intern_cases (.hole ⟨ctx.bindings.length⟩) with
    ⟨i, hi, -⟩ | ⟨-, heq⟩
  · obtain ⟨hlt, hget, -⟩ := List.idxOf?_eq_some_iff.1 hi
    exact absurd (hget ▸ List.getElem_mem hlt) hnew
  · simp only [heq]
    exact h.grow hnew (.inr ⟨rfl, rfl⟩)

/-! ## filling type variables -/

theorem binding?_fill (hv : v.index < ctx.bindings.length) :
    (ctx.fill v t).binding? w = if w = v then some t else ctx.binding? w := by
  obtain ⟨i⟩ := v
  obtain ⟨j⟩ := w
  simp only [binding?, fill, VarId.mk.injEq]
  split
  · next heq =>
    subst heq
    rw [List.getD_eq_getElem _ _ (by simpa using hv)]
    simp
  · next hne => simp [List.getElem?_set_ne (Ne.symm hne)]

theorem binding?_fill_self (hv : v.index < ctx.bindings.length) : (ctx.fill v t).binding? v = some t := by
  rw [binding?_fill hv, if_pos rfl]

theorem binding?_fill_of_ne (hv : v.index < ctx.bindings.length) (hne : w ≠ v) :
    (ctx.fill v t).binding? w = ctx.binding? w := by
  rw [binding?_fill hv, if_neg hne]

theorem filled_fill (hv : v.index < ctx.bindings.length) :
    (ctx.fill v t).filled = ctx.filled + if ctx.binding? v = none then 1 else 0 := by
  unfold filled fill binding?
  rw [List.countP_set hv, List.getD_eq_getElem _ _ hv]
  cases hold : ctx.bindings[v.index] with
  | none => simp
  | some u =>
    have : 0 < ctx.bindings.countP (·.isSome) :=
      List.countP_pos_iff.2 ⟨some u, hold ▸ List.getElem_mem hv, rfl⟩
    simp
    omega

/-- A variable that is filled with a number of the table breaks no chain if the chains end after it. -/
theorem Linked.of_fill (h : Linked ctx) (ht : t.index < ctx.types.length)
    (hv : v.index < ctx.bindings.length)
    (hends : ∀ {k x y}, EndsAt ctx k x y → ∃ k' y', EndsAt (ctx.fill v t) k' x y' ∧
      k' ≤ k + if ctx.binding? v = none then 1 else 0) : Linked (ctx.fill v t) := by
  refine ⟨h.nodup, fun w => ?_, fun {w u} hw => ?_, fun x => ?_⟩
  · rw [show (ctx.fill v t).bindings.length = ctx.bindings.length from List.length_set]
    exact h.holes w
  · rw [binding?_fill hv] at hw
    split at hw
    · exact Option.some.inj hw ▸ ht
    · exact h.targets hw
  · obtain ⟨k, y, hy, hk⟩ := h.ends x
    obtain ⟨k', y', hy', hk'⟩ := hends hy
    refine ⟨k', y', hy', ?_⟩
    rw [filled_fill hv]
    omega

/-- An open variable takes on an end other than itself: chains that ended at it go on by one link. -/
theorem Linked.fill_open (h : Linked ctx) (hv : v.index < ctx.bindings.length) (hopen : ctx.binding? v = none)
    (ht : t.index < ctx.types.length) (hended : Ended ctx t) (hne : ctx.type t ≠ .hole v) : Linked (ctx.fill v t) := by
  have hstays : ∀ {x}, Ended ctx x → ctx.type x ≠ .hole v → Ended (ctx.fill v t) x := fun {x} ended hx w hw => by
    have hw : ctx.type x = .hole w := hw
    rw [binding?_fill_of_ne hv fun heq => hx (heq ▸ hw), ended w hw]
  refine h.of_fill ht hv fun {k x y} hxy => ?_
  rw [if_pos hopen]
  induction hxy with
  | @here x ended =>
    by_cases hx : ctx.type x = .hole v
    · exact ⟨1, t, .link ⟨v, hx, binding?_fill_self hv⟩ (.here (hstays hended hne)), Nat.le_refl _⟩
    · exact ⟨0, x, .here (hstays ended hx), Nat.zero_le _⟩
  | link leads _ ih =>
    obtain ⟨w, hw, hu⟩ := leads
    obtain ⟨k', y', hy', hk'⟩ := ih
    refine ⟨k' + 1, y', .link ⟨w, hw, ?_⟩ hy', by omega⟩
    rw [binding?_fill_of_ne hv, hu]
    rintro rfl
    exact absurd (hopen.symm.trans hu) nofun

/-- The chain from a number ends at a type. -/
def Settled (ctx : Context) (t : TypeId) : Prop := ∃ k e, EndsAt ctx k t e ∧ (ctx.type e).isHole = false

/-- A variable that stands for a type comes to stand for another one: the chains through it end there instead. -/
theorem Linked.refill (h : Linked ctx) {old : TypeId} (hold : ctx.binding? v = some old)
    (hnot : (ctx.type old).isHole = false) (ht : t.index < ctx.types.length) (htype : (ctx.type t).isHole = false) :
    Linked (ctx.fill v t) ∧ ∀ x, Settled ctx x → Settled (ctx.fill v t) x := by
  have hv := lt_length_of_binding? hold
  have htarget : Ended (ctx.fill v t) t := ended_of_not_hole htype
  have hends : ∀ {k x y}, EndsAt ctx k x y → EndsAt (ctx.fill v t) k x y ∨ EndsAt (ctx.fill v t) k x t := by
    intro k x y hxy
    induction hxy with
    | here ended =>
      refine .inl (.here fun w hw => ?_)
      rw [binding?_fill_of_ne hv, ended w hw]
      rintro rfl
      exact absurd (hold.symm.trans (ended w hw)) nofun
    | @link k x u y leads rest ih =>
      obtain ⟨w, hw, hu⟩ := leads
      by_cases hwv : w = v
      · subst hwv
        obtain rfl := Option.some.inj (hold.symm.trans hu)
        obtain ⟨rfl, -⟩ := rest.eq_of_ended (ended_of_not_hole hnot)
        exact .inr (.link ⟨w, hw, binding?_fill_self hv⟩ (.here htarget))
      · have hstill : Leads (ctx.fill v t) x u := ⟨w, hw, (binding?_fill_of_ne hv hwv).trans hu⟩
        exact ih.imp (.link hstill) (.link hstill)
  refine ⟨h.of_fill ht hv fun {k x y} hxy => ?_, fun x ⟨k, e, he, hnote⟩ => ?_⟩
  · rcases hends hxy with hxy | hxy
    · exact ⟨k, y, hxy, Nat.le_add_right _ _⟩
    · exact ⟨k, t, hxy, Nat.le_add_right _ _⟩
  · rcases hends he with he | he
    · exact ⟨k, e, he, hnote⟩
    · exact ⟨k, t, he, htype⟩

/-- A chain that ends at a type is raised to another one. -/
theorem Linked.raise (h : Linked ctx) (ha : Settled ctx a) (ht : t.index < ctx.types.length)
    (htype : (ctx.type t).isHole = false) :
    Linked (ctx.raise a t) ∧ ∀ x, Settled ctx x → Settled (ctx.raise a t) x := by
  obtain ⟨k, e, he, hnot⟩ := ha
  obtain ⟨k', hk', he'⟩ := h.endsAt a
  have hlast := lastHoleWithin_of_endsAt he' hk'
  have hend : ctx.resolve a = e := he'.unique he
  unfold Context.raise lastHole?
  rcases hlast with ⟨-, hnone⟩ | ⟨v, hv, w, -, hw, hor⟩
  · rw [hnone]
    exact ⟨h, fun _ => id⟩
  · rw [hv]
    rw [hend] at hor
    rcases hor with ⟨hold, hnot⟩ | ⟨rfl, -⟩
    · exact h.refill hold hnot ht htype
    · exact absurd hnot (by simp [hw, Ty.isHole])

/-! ## unification -/

theorem raise_types (ctx : Context) (a t : TypeId) : (ctx.raise a t).types = ctx.types := by
  unfold Context.raise
  split <;> rfl

theorem scopes_raise (ctx : Context) (a t : TypeId) : (ctx.raise a t).scopes = ctx.scopes := by
  unfold Context.raise
  split <;> rfl

/-- What unification does: the ends are one, or one of them is an open variable that takes on the other, or both are
numeric types and the chains are raised to the higher one. -/
theorem unify_eq_ok {span : Span} (h : ctx.unify a b span = .ok (t, ctx')) :
    ctx.resolve a = ctx.resolve b ∧ t = ctx.resolve a ∧ ctx' = ctx ∨
    (ctx.resolve a ≠ ctx.resolve b ∧ ∃ v, ctx.type (ctx.resolve a) = .hole v ∧ t = ctx.resolve b ∧ ctx' = ctx.fill v t) ∨
    (ctx.resolve a ≠ ctx.resolve b ∧ ∃ v, ctx.type (ctx.resolve b) = .hole v ∧ t = ctx.resolve a ∧ ctx' = ctx.fill v t) ∨
    ctx.promote (ctx.resolve a) (ctx.resolve b) = some t ∧ ctx' = (ctx.raise a t).raise b t := by
  unfold Context.unify at h
  simp only at h
  split at h
  · next heq =>
    obtain ⟨rfl, rfl⟩ := Prod.mk.inj (Except.ok.inj h)
    exact .inl ⟨heq, rfl, rfl⟩
  · next hne =>
    split at h
    · next v hv =>
      obtain ⟨rfl, rfl⟩ := Prod.mk.inj (Except.ok.inj h)
      exact .inr (.inl ⟨hne, v, hv, rfl, rfl⟩)
    · next v hv _ =>
      obtain ⟨rfl, rfl⟩ := Prod.mk.inj (Except.ok.inj h)
      exact .inr (.inr (.inl ⟨hne, v, hv, rfl, rfl⟩))
    · split at h
      · next u hu =>
        obtain ⟨rfl, rfl⟩ := Prod.mk.inj (Except.ok.inj h)
        exact .inr (.inr (.inr ⟨hu, rfl⟩))
      · simp at h

/-- Unification fills type variables and does nothing else. -/
theorem tables_of_unify {span : Span} (h : ctx.unify a b span = .ok (t, ctx')) :
    ctx'.types = ctx.types ∧ ctx'.scopes = ctx.scopes := by
  rcases unify_eq_ok h with ⟨-, -, rfl⟩ | ⟨-, v, -, -, rfl⟩ | ⟨-, v, -, -, rfl⟩ | ⟨-, rfl⟩
  · exact ⟨rfl, rfl⟩
  · exact ⟨rfl, rfl⟩
  · exact ⟨rfl, rfl⟩
  · rw [raise_types, raise_types, scopes_raise, scopes_raise]
    exact ⟨rfl, rfl⟩

theorem scopes_of_unify {span : Span} (h : ctx.unify a b span = .ok (t, ctx')) : ctx'.scopes = ctx.scopes :=
  (tables_of_unify h).2

/-- **Unification closes no chain.** -/
theorem Linked.unify (h : Linked ctx) (ha : a.index < ctx.types.length) (hb : b.index < ctx.types.length) {span : Span}
    (hu : ctx.unify a b span = .ok (t, ctx')) : Linked ctx' := by
  obtain ⟨i, -, hendA⟩ := h.endsAt a
  obtain ⟨j, -, hendB⟩ := h.endsAt b
  have hopen : ∀ {x v}, Ended ctx x → ctx.type x = .hole v → v.index < ctx.bindings.length ∧ ctx.binding? v = none :=
    fun hx hv => ⟨(h.holes _).1 (type_mem hv nofun), hx _ hv⟩
  rcases unify_eq_ok hu with ⟨-, -, rfl⟩ | ⟨hne, v, hv, rfl, rfl⟩ | ⟨hne, v, hv, rfl, rfl⟩ | ⟨hpromote, rfl⟩
  · exact h
  · obtain ⟨hlt, hnone⟩ := hopen hendA.ended hv
    exact h.fill_open hlt hnone (h.resolve_lt hb) hendB.ended fun heq => hne (h.hole_inj hv heq)
  · obtain ⟨hlt, hnone⟩ := hopen hendB.ended hv
    exact h.fill_open hlt hnone (h.resolve_lt ha) hendA.ended fun heq => hne (h.hole_inj heq hv)
  · obtain ⟨hnumericA, hnumericB, hnumeric⟩ := numeric_of_promote hpromote
    obtain ⟨ht, htype⟩ := known_of_numeric hnumeric
    obtain ⟨hfirst, hsettled⟩ := h.raise ⟨i, _, hendA, (known_of_numeric hnumericA).2⟩ ht htype
    refine (hfirst.raise (hsettled b ⟨j, _, hendB, (known_of_numeric hnumericB).2⟩) ?_ ?_).1
    · rwa [raise_types]
    · rwa [type_of_types (raise_types ctx a t)]

/-! ## runs -/

/-- Unification as a call, which finds a context, answers and leaves a context behind. -/
def unifyCall (a b : TypeId) (span : Span) : ExceptT Error (StateM Context) TypeId := do
  let ctx ← get
  let endA := ctx.resolve a
  let endB := ctx.resolve b
  if endA = endB then return endA
  match ctx.type endA, ctx.type endB with
  | .hole v, _ =>
    modify (·.fill v endB)
    return endB
  | _, .hole v =>
    modify (·.fill v endA)
    return endA
  | _, _ =>
    let some t := ctx.promote endA endB
      | throw ⟨.noCommonAncestor (ctx.display endA) (ctx.display endB), span, none⟩
    modify (·.raise a t)
    modify (·.raise b t)
    return t

/-- A call that succeeds leaves the context that `unify` gives, any other one leaves the context it found. -/
theorem run_unifyCall (ctx : Context) (a b : TypeId) (span : Span) :
    (unifyCall a b span).run.run ctx = match ctx.unify a b span with
      | .ok (t, ctx') => (.ok t, ctx')
      | .error e => (.error e, ctx) := by
  change (if ctx.resolve a = ctx.resolve b then _ else _ : ExceptT Error (StateM Context) TypeId).run.run ctx = _
  unfold unify
  by_cases hends : ctx.resolve a = ctx.resolve b
  · simp only [hends, if_true]
    rfl
  · simp only [hends, if_false]
    generalize ctx.type (ctx.resolve a) = left, ctx.type (ctx.resolve b) = right
    cases left with
    | hole v => rfl
    | _ =>
      cases right with
      | hole v => rfl
      | _ => cases ctx.promote (ctx.resolve a) (ctx.resolve b) <;> rfl

/-- A call that enters types, makes type variables or unifies. -/
inductive Call where
  | fresh
  | intern (type : Ty)
  | unify (a b : TypeId) (span : Span)

/-- What a call is about was given out by the context. -/
def Call.Issued (ctx : Context) : Call → Prop
  | fresh => True
  | intern type => Context.Issued ctx type
  | unify a b _ => a.index < ctx.types.length ∧ b.index < ctx.types.length

/-- The context that a call leaves behind, be it with a result or with an error. -/
def Call.run (ctx : Context) : Call → Context
  | fresh => ctx.fresh.2
  | intern type => (ctx.intern type).2
  | unify a b span => ((unifyCall a b span).run.run ctx).2

/-- The second context comes from the first by calls. -/
def Later : Context → Context → Prop :=
  Relation.ReflTransGen fun ctx ctx' => ∃ call : Call, call.Issued ctx ∧ call.run ctx = ctx'

/-- The context comes from a new one by calls. -/
def Reachable (ctx : Context) : Prop := Later new ctx

theorem run_unify (ctx : Context) (a b : TypeId) (span : Span) :
    (∃ t, ctx.unify a b span = .ok (t, (Call.unify a b span).run ctx)) ∨ (Call.unify a b span).run ctx = ctx := by
  rw [Call.run, run_unifyCall]
  cases ctx.unify a b span with
  | error e => exact .inr rfl
  | ok r => exact .inl ⟨r.1, rfl⟩

theorem Linked.run (h : Linked ctx) {call : Call} (hcall : call.Issued ctx) : Linked (call.run ctx) := by
  cases call with
  | fresh => exact h.fresh
  | intern type => exact h.intern hcall
  | unify a b span =>
    rcases run_unify ctx a b span with ⟨t, hu⟩ | heq
    · exact h.unify hcall.1 hcall.2 hu
    · rwa [heq]

theorem Reachable.linked (h : Reachable ctx) : Linked ctx := by
  induction h with
  | refl => exact linked_new
  | tail _ hcall ih =>
    obtain ⟨call, hissued, rfl⟩ := hcall
    exact ih.run hissued

theorem isSome_binding?_fill (h : (ctx.binding? w).isSome) : ((ctx.fill v t).binding? w).isSome := by
  obtain ⟨u, hu⟩ := Option.isSome_iff_exists.1 h
  by_cases hv : v.index < ctx.bindings.length
  · rw [binding?_fill hv]
    split
    · rfl
    · exact h
  · rwa [binding?, fill, List.set_eq_of_length_le (Nat.le_of_not_lt hv)]

theorem isSome_binding?_raise (h : (ctx.binding? w).isSome) : ((ctx.raise a t).binding? w).isSome := by
  unfold Context.raise
  split
  · exact isSome_binding?_fill h
  · exact h

theorem isSome_binding?_unify {span : Span} (h : (ctx.binding? w).isSome) (hu : ctx.unify a b span = .ok (t, ctx')) :
    (ctx'.binding? w).isSome := by
  rcases unify_eq_ok hu with ⟨-, -, rfl⟩ | ⟨-, v, -, -, rfl⟩ | ⟨-, v, -, -, rfl⟩ | ⟨-, rfl⟩
  · exact h
  · exact isSome_binding?_fill h
  · exact isSome_binding?_fill h
  · exact isSome_binding?_raise (isSome_binding?_raise h)

/-- A call leaves no type variable open that stood for something. -/
theorem isSome_binding?_run (h : (ctx.binding? w).isSome) (call : Call) : ((call.run ctx).binding? w).isSome := by
  obtain ⟨u, hu⟩ := Option.isSome_iff_exists.1 h
  have hintern : ∀ (c : Context) (ty : Ty), c.binding? w = some u → ((c.intern ty).2.binding? w).isSome :=
    fun c ty hc => by rw [(c.extends_intern ty).bindings hc]; rfl
  cases call with
  | fresh => exact hintern _ _ (binding?_of_append [none] hu)
  | intern type => exact hintern _ _ hu
  | unify a b span =>
    rcases run_unify ctx a b span with ⟨t, hu⟩ | heq
    · exact isSome_binding?_unify h hu
    · rwa [heq]

theorem Later.isSome_binding? (h : Later ctx ctx') (hw : (ctx.binding? w).isSome) : (ctx'.binding? w).isSome := by
  induction h with
  | refl => exact hw
  | tail _ hcall ih =>
    obtain ⟨call, -, rfl⟩ := hcall
    exact isSome_binding?_run ih call

/-! ## following chains -/

theorem EndsAt.acyclic (h : EndsAt ctx k t e) : ¬ Relation.TransGen (Leads ctx) t t := by
  induction h with
  | here ended =>
    intro hcycle
    obtain ⟨u, hu, -⟩ := Relation.TransGen.head'_iff.1 hcycle
    exact ended_iff_not_leads.1 ended u hu
  | link leads _ ih =>
    intro hcycle
    obtain ⟨u, hu, hback⟩ := Relation.TransGen.head'_iff.1 hcycle
    obtain rfl := leads.unique hu
    exact ih (Relation.TransGen.tail' hback leads)

/-- A chain that can be followed: to its end, which `resolve` finds, past its last variable, which `lastHole?` finds, and
without a number or a variable on it that the context did not give out. -/
structure Followed (ctx : Context) (t : TypeId) : Prop where
  ends : ∃ k, k ≤ ctx.bindings.length ∧ EndsAt ctx k t (ctx.resolve t)
  acyclic : ¬ Relation.TransGen (Leads ctx) t t
  last : (ctx.type t).isHole = false ∧ ctx.lastHole? t = none ∨
    ∃ v, ctx.lastHole? t = some v ∧ LastHole ctx t (ctx.resolve t) v
  issued : ∀ {u}, Relation.ReflTransGen (Leads ctx) t u →
    u.index < ctx.types.length ∧ ∀ v, ctx.type u = .hole v → v.index < ctx.bindings.length

/-- **Chains of type variables have ends.** Whatever types and variables a context made and unified, with success or
without, every chain in it is followed to an end, and a variable that stands for something will not be open again. -/
theorem chains_end (h : Reachable ctx) :
    (∀ t, t.index < ctx.types.length → Followed ctx t) ∧
      ∀ {ctx'}, Later ctx ctx' → ∀ v, (ctx.binding? v).isSome → (ctx'.binding? v).isSome := by
  have hlinked := h.linked
  refine ⟨fun t ht => ?_, fun hlater v => hlater.isSome_binding?⟩
  obtain ⟨k, hk, hends⟩ := hlinked.endsAt t
  exact ⟨⟨k, hk, hends⟩, hends.acyclic, lastHoleWithin_of_endsAt hends hk,
    fun hu => ⟨hlinked.leads_lt hu ht, fun v hv => (hlinked.holes v).1 (type_mem hv nofun)⟩⟩

/-- Three type variables in a chain, the last of which is raised from `int` to `float`, after a call that failed. -/
theorem chains_end_raised : ∃ ctx, Reachable ctx ∧ ctx.resolve ⟨10⟩ = .float ∧ ctx.lastHole? ⟨10⟩ = some ⟨2⟩ ∧
    Followed ctx ⟨10⟩ := by
  have h : Reachable _ :=
    .tail (.tail (.tail (.tail (.tail (.tail (.tail (.tail .refl ⟨.fresh, trivial, rfl⟩) ⟨.fresh, trivial, rfl⟩)
      ⟨.fresh, trivial, rfl⟩) ⟨.unify ⟨10⟩ ⟨11⟩ default, ⟨by decide, by decide⟩, rfl⟩)
      ⟨.unify ⟨11⟩ ⟨12⟩ default, ⟨by decide, by decide⟩, rfl⟩) ⟨.unify ⟨10⟩ .int default, ⟨by decide, by decide⟩, rfl⟩)
      ⟨.unify .string ⟨10⟩ default, ⟨by decide, by decide⟩, rfl⟩) ⟨.unify ⟨11⟩ .float default, ⟨by decide, by decide⟩, rfl⟩
  exact ⟨_, h, by decide, by decide, (chains_end h).1 _ (by decide)⟩

end LetFn.Context
