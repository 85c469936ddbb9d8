import LetFn.Proofs.Types.Chains
import LetFn.Proofs.Types.Interning

/-!
# What unification makes of a context

Unification fills at most two type variables, each the last one of a chain. To fill a last variable with an end turns
exactly the chains that share it: they lead to the new end, all others lead where they led. What unification leaves
behind follows from that alone, whichever of its ways it went.

* `Made ctx` — the context comes from a new one by calls of any kind, in any order;
* `Shares ctx x a` — two chains have one last type variable;
* `Unified ctx a b t ctx'` — what holds behind a unification that gave `t`;
* `Apart ctx a b` — two chains end at types that have no common ancestor.

Main facts: `Linked.resolve_fill`, `Linked.resolve_unify`, `unify_eq_error_iff`, `unify_joins`.
-/

namespace LetFn.Context

variable {ctx ctx' : Context} {a b e t u x y : TypeId} {v w : VarId} {k : Nat} {span : Span}

/-! ## contexts -/

/-- A context that calls made, on types and type variables, on scopes and on symbols. -/
inductive Made : Context → Prop where
  | new : Made .new
  | run {ctx : Context} (made : Made ctx) {call : Call} (issued : call.Issued ctx) : Made (call.run ctx)
  | openScope {ctx : Context} (made : Made ctx) (parent : ScopeId) : Made (ctx.openScope parent).2
  | declare {ctx ctx' : Context} (made : Made ctx) {s : ScopeId} {symbol : Symbol}
      (declared : ctx.declare s symbol = .ok ctx') : Made ctx'
  | setSymbolType {ctx : Context} (made : Made ctx) (s : ScopeId) (name : String) (t : TypeId) :
      Made (ctx.setSymbolType s name t)
  | resolveSymbols {ctx : Context} (made : Made ctx) : Made ctx.resolveSymbols

theorem EndsAt.of_tables (h : EndsAt ctx k t e) (htypes : ctx'.types = ctx.types)
    (hbindings : ctx'.bindings = ctx.bindings) : EndsAt ctx' k t e := by
  have hbinding : ∀ v, ctx'.binding? v = ctx.binding? v := by
    intro v
    rw [binding?, binding?, hbindings]
  induction h with
  | here ended =>
    refine .here ?_
    intro v hv
    rw [type_of_types htypes] at hv
    rw [hbinding, ended v hv]
  | link leads _ ih =>
    obtain ⟨v, hv, hu⟩ := leads
    refine .link ⟨v, ?_, ?_⟩ ih
    · rw [type_of_types htypes, hv]
    · rw [hbinding, hu]

/-- Types and type variables do not know about scopes. -/
theorem Linked.of_tables (h : Linked ctx) (htypes : ctx'.types = ctx.types) (hbindings : ctx'.bindings = ctx.bindings) :
    Linked ctx' where
  nodup := htypes ▸ h.nodup
  holes v := by rw [htypes, hbindings, h.holes]
  targets {v u} hv := by
    rw [binding?, hbindings] at hv
    rw [htypes]
    exact h.targets hv
  ends t := by
    obtain ⟨k, e, he, hk⟩ := h.ends t
    refine ⟨k, e, he.of_tables htypes hbindings, ?_⟩
    rw [filled, hbindings]
    exact hk

theorem Made.linked (h : Made ctx) : Linked ctx := by
  induction h with
  | new => exact linked_new
  | run _ issued ih => exact ih.run issued
  | openScope _ _ ih => exact ih.of_tables rfl rfl
  | declare _ declared ih =>
    obtain ⟨htypes, hbindings, -⟩ := declare_types declared
    exact ih.of_tables htypes hbindings
  | @setSymbolType ctx _ s name t ih =>
    unfold Context.setSymbolType
    split
    · exact ih.of_tables rfl rfl
    · exact ih
  | resolveSymbols _ ih => exact ih.of_tables rfl rfl

/-! ## chains and their last variables -/

theorem resolve_of_ended (h : Ended ctx x) : ctx.resolve x = x := resolveWithin_of_endsAt (.here h) (Nat.zero_le _)

theorem Linked.ended_resolve (h : Linked ctx) (x : TypeId) : Ended ctx (ctx.resolve x) := by
  obtain ⟨k, -, hx⟩ := h.endsAt x
  exact hx.ended

theorem Linked.resolve_of_leads (h : Linked ctx) (hx : Leads ctx x u) : ctx.resolve x = ctx.resolve u := by
  obtain ⟨k, -, hu⟩ := h.endsAt u
  obtain ⟨k', -, hx'⟩ := h.endsAt x
  exact hx'.unique (.link hx hu)

theorem lastHole?_of_not_hole (h : (ctx.type x).isHole = false) : ctx.lastHole? x = none :=
  lastHoleWithin_of_not_hole _ h

theorem lastHole?_of_open (hv : ctx.type x = .hole v) (hopen : ctx.binding? v = none) : ctx.lastHole? x = some v :=
  lastHoleWithin_of_open _ hv hopen

/-- A variable that leads on is the last one if what it leads to is no variable. -/
theorem Linked.lastHole?_of_leads (h : Linked ctx) (hv : ctx.type x = .hole v) (hu : ctx.binding? v = some u) :
    ctx.lastHole? x = (ctx.lastHole? u).or (some v) := by
  obtain ⟨k, hk, hx⟩ := h.endsAt x
  generalize ctx.resolve x = e at hx
  cases hx with
  | here ended => exact absurd hu (by simp [ended v hv])
  | @link k _ u' _ leads rest =>
    obtain rfl := leads.unique ⟨v, hv, hu⟩
    obtain ⟨m, hm⟩ : ∃ m, ctx.bindings.length = m + 1 := ⟨ctx.bindings.length - 1, by omega⟩
    have hkm : k ≤ m := by omega
    unfold lastHole?
    rw [hm, lastHoleWithin_succ m hv hu, lastHoleWithin_congr rest hkm (Nat.le_succ_of_le hkm)]

/-- The last variable of a chain stands for its end, or it is the end and stands for nothing. -/
theorem Linked.lastHole?_eq_some (h : Linked ctx) (hx : ctx.lastHole? x = some v) :
    ctx.binding? v = some (ctx.resolve x) ∧ (ctx.type (ctx.resolve x)).isHole = false ∨
      ctx.type (ctx.resolve x) = .hole v ∧ ctx.binding? v = none := by
  obtain ⟨k, hk, hends⟩ := h.endsAt x
  rcases lastHoleWithin_of_endsAt hends hk with ⟨-, hnone⟩ | ⟨w, hw, z, -, hz, hor⟩
  · exact absurd (hx.symm.trans hnone) nofun
  · obtain rfl := Option.some.inj (hx.symm.trans hw)
    rcases hor with hbound | ⟨rfl, hopen⟩
    · exact .inl hbound
    · exact .inr ⟨hz, hopen⟩

theorem Linked.lastHole?_eq_none_iff (h : Linked ctx) : ctx.lastHole? x = none ↔ (ctx.type x).isHole = false := by
  obtain ⟨k, hk, hends⟩ := h.endsAt x
  constructor
  · intro hnone
    rcases lastHoleWithin_of_endsAt hends hk with ⟨hnot, -⟩ | ⟨v, hv, -⟩
    · exact hnot
    · exact absurd (hnone.symm.trans hv) nofun
  · exact lastHole?_of_not_hole

/-- A chain that ends at an open variable has that as its last one. -/
theorem Linked.lastHole?_of_resolve (h : Linked ctx) (hv : ctx.type (ctx.resolve x) = .hole v) :
    ctx.lastHole? x = some v := by
  cases hlast : ctx.lastHole? x with
  | none =>
    have hnot := h.lastHole?_eq_none_iff.1 hlast
    rw [resolve_of_not_hole hnot] at hv
    exact absurd hnot (by simp [hv, Ty.isHole])
  | some w =>
    rcases h.lastHole?_eq_some hlast with ⟨-, hnot⟩ | ⟨hw, -⟩
    · exact absurd hnot (by simp [hv, Ty.isHole])
    · rw [Ty.hole.inj (hv.symm.trans hw)]

/-- Two chains share their last type variable. -/
def Shares (ctx : Context) (x a : TypeId) : Prop := ctx.lastHole? x ≠ none ∧ ctx.lastHole? x = ctx.lastHole? a

instance (ctx : Context) (x a : TypeId) : Decidable (Shares ctx x a) := inferInstanceAs (Decidable (_ ∧ _))

theorem shares_iff (ha : ctx.lastHole? a = some v) : Shares ctx x a ↔ ctx.lastHole? x = some v := by
  unfold Shares
  rw [ha]
  constructor
  · exact And.right
  · exact fun hx => ⟨by simp [hx], hx⟩

theorem not_shares (ha : ctx.lastHole? a = none) : ¬ Shares ctx x a := fun h => h.1 (h.2.trans ha)

/-- Chains that share their last variable have one end. -/
theorem Linked.resolve_eq_of_shares (h : Linked ctx) (hx : Shares ctx x a) : ctx.resolve x = ctx.resolve a := by
  obtain ⟨hsome, heq⟩ := hx
  obtain ⟨v, hv⟩ := Option.ne_none_iff_exists'.1 hsome
  rcases h.lastHole?_eq_some hv with ⟨hx, -⟩ | ⟨hx, hopen⟩
  · rcases h.lastHole?_eq_some (heq ▸ hv) with ⟨ha, -⟩ | ⟨-, hopen⟩
    · exact Option.some.inj (hx.symm.trans ha)
    · exact absurd (hx.symm.trans hopen) nofun
  · rcases h.lastHole?_eq_some (heq ▸ hv) with ⟨ha, -⟩ | ⟨ha, -⟩
    · exact absurd (hopen.symm.trans ha) nofun
    · exact h.hole_inj hx ha

/-! ## filling a last variable -/

section

variable (h : Linked ctx) (h' : Linked (ctx.fill v t)) (hv : v.index < ctx.bindings.length)
  (hlast : ∀ u, ctx.binding? v = some u → (ctx.type u).isHole = false)

include h h' hv hlast

/-- **Filling a last variable turns the chains that share it, and no others.** -/
theorem Linked.resolve_fill (hended : Ended (ctx.fill v t) t) (x : TypeId) :
    (ctx.fill v t).resolve x = if ctx.lastHole? x = some v then t else ctx.resolve x := by
  obtain ⟨k, -, hx⟩ := h.endsAt x
  generalize ctx.resolve x = e at hx ⊢
  -- the variable itself leads to `t`, at the end of a chain or as its last link
  have hself : ∀ {x}, ctx.type x = .hole v → (ctx.fill v t).resolve x = t := by
    intro x hx
    rw [h'.resolve_of_leads ⟨v, hx, binding?_fill_self hv⟩, resolve_of_ended hended]
  induction hx with
  | @here x ended =>
    by_cases hhole : (ctx.type x).isHole = true
    · obtain ⟨w, hw⟩ := exists_of_isHole hhole
      rw [lastHole?_of_open hw (ended w hw)]
      by_cases hwv : w = v
      · subst hwv
        rw [if_pos rfl, hself hw]
      · rw [if_neg (by simpa using hwv)]
        refine resolve_of_ended ?_
        intro w' hw'
        obtain rfl := Ty.hole.inj (hw.symm.trans hw')
        rw [binding?_fill_of_ne hv hwv, ended w hw]
    · have hnot : (ctx.type x).isHole = false := by simpa using hhole
      rw [lastHole?_of_not_hole hnot, if_neg nofun]
      exact resolve_of_not_hole hnot
  | @link k x u e leads rest ih =>
    obtain ⟨w, hw, hu⟩ := leads
    rw [h.lastHole?_of_leads hw hu]
    by_cases hwv : w = v
    · subst hwv
      rw [lastHole?_of_not_hole (hlast u hu), hself hw]
      exact (if_pos rfl).symm
    · rw [h'.resolve_of_leads ⟨w, hw, (binding?_fill_of_ne hv hwv).trans hu⟩, ih]
      cases ctx.lastHole? u with
      | none => simp [hwv]
      | some l => rfl

/-- A variable that is filled with a type stays the last one of its chains. -/
theorem Linked.lastHole?_fill (hnot : (ctx.type t).isHole = false) (x : TypeId) :
    (ctx.fill v t).lastHole? x = ctx.lastHole? x := by
  have hself : ∀ {x}, ctx.type x = .hole v → (ctx.fill v t).lastHole? x = some v := by
    intro x hx
    rw [h'.lastHole?_of_leads hx (binding?_fill_self hv), lastHole?_of_not_hole (by exact hnot)]
    rfl
  obtain ⟨k, -, hx⟩ := h.endsAt x
  generalize ctx.resolve x = e at hx
  induction hx with
  | @here x ended =>
    by_cases hhole : (ctx.type x).isHole = true
    · obtain ⟨w, hw⟩ := exists_of_isHole hhole
      rw [lastHole?_of_open hw (ended w hw)]
      by_cases hwv : w = v
      · subst hwv
        exact hself hw
      · exact lastHole?_of_open hw ((binding?_fill_of_ne hv hwv).trans (ended w hw))
    · have hnot : (ctx.type x).isHole = false := by simpa using hhole
      rw [lastHole?_of_not_hole hnot]
      exact lastHole?_of_not_hole hnot
  | @link k x u e leads rest ih =>
    obtain ⟨w, hw, hu⟩ := leads
    rw [h.lastHole?_of_leads hw hu]
    by_cases hwv : w = v
    · subst hwv
      rw [lastHole?_of_not_hole (hlast u hu), hself hw]
      rfl
    · rw [h'.lastHole?_of_leads hw ((binding?_fill_of_ne hv hwv).trans hu), ih]

end

theorem Linked.settled_iff (h : Linked ctx) : Settled ctx a ↔ (ctx.type (ctx.resolve a)).isHole = false := by
  obtain ⟨k, -, ha⟩ := h.endsAt a
  constructor
  · rintro ⟨k', e, he, hnot⟩
    rwa [ha.unique he]
  · exact fun hnot => ⟨k, _, ha, hnot⟩

/-- A chain that is raised takes with it the chains that share its last variable. -/
theorem Linked.resolve_raise (h : Linked ctx) (ha : Settled ctx a) (ht : t.index < ctx.types.length)
    (htype : (ctx.type t).isHole = false) (x : TypeId) :
    ((ctx.raise a t).resolve x = if Shares ctx x a then t else ctx.resolve x) ∧
      (ctx.raise a t).lastHole? x = ctx.lastHole? x := by
  have hraised := (h.raise ha ht htype).1
  revert hraised
  unfold Context.raise
  cases hlast : ctx.lastHole? a with
  | none =>
    intro _
    rw [if_neg (not_shares hlast)]
    exact ⟨rfl, rfl⟩
  | some v =>
    intro hraised
    have hv : ctx.binding? v = some (ctx.resolve a) ∧ (ctx.type (ctx.resolve a)).isHole = false := by
      rcases h.lastHole?_eq_some hlast with hbound | ⟨hhole, -⟩
      · exact hbound
      · exact absurd (h.settled_iff.1 ha) (by simp [hhole, Ty.isHole])
    have hbound : ∀ u, ctx.binding? v = some u → (ctx.type u).isHole = false := by
      intro u hu
      obtain rfl := Option.some.inj (hv.1.symm.trans hu)
      exact hv.2
    have hlt := lt_length_of_binding? hv.1
    constructor
    · rw [h.resolve_fill hraised hlt hbound (ended_of_not_hole htype)]
      simp only [shares_iff hlast]
    · exact h.lastHole?_fill hraised hlt hbound htype x

/-! ## unification -/

/-- An open variable at the end of one chain takes on the end of another. -/
theorem Linked.resolve_fill_open (h : Linked ctx) (hv : ctx.type (ctx.resolve a) = .hole v)
    (hne : ctx.resolve a ≠ ctx.resolve b) (h' : Linked (ctx.fill v (ctx.resolve b))) (x : TypeId) :
    (ctx.fill v (ctx.resolve b)).resolve x =
      if Shares ctx x a ∨ Shares ctx x b then ctx.resolve b else ctx.resolve x := by
  have hlt : v.index < ctx.bindings.length := (h.holes v).1 (type_mem hv nofun)
  have hopen : ctx.binding? v = none := h.ended_resolve a v hv
  have hended : Ended (ctx.fill v (ctx.resolve b)) (ctx.resolve b) := by
    intro w hw
    rw [binding?_fill_of_ne hlt, h.ended_resolve b w hw]
    rintro rfl
    exact hne (h.hole_inj hv hw)
  rw [h.resolve_fill h' hlt (by simp [hopen]) hended]
  simp only [shares_iff (h.lastHole?_of_resolve hv)]
  by_cases hx : ctx.lastHole? x = some v
  · rw [if_pos hx, if_pos (.inl hx)]
  · rw [if_neg hx]
    split
    · next hor => exact h.resolve_eq_of_shares (hor.resolve_left hx)
    · rfl

/-- Two chains that end at numeric types are raised to one of these, first the one and then the other. -/
theorem Linked.resolve_raise_both (h : Linked ctx) (hpromote : ctx.promote (ctx.resolve a) (ctx.resolve b) = some t)
    (x : TypeId) : ((ctx.raise a t).raise b t).resolve x =
      if Shares ctx x a ∨ Shares ctx x b then t else ctx.resolve x := by
  obtain ⟨hnumericA, hnumericB, hnumeric⟩ := numeric_of_promote hpromote
  obtain ⟨ht, hnot⟩ := known_of_numeric hnumeric
  have hsettled := h.settled_iff.2 (known_of_numeric hnumericA).2
  obtain ⟨hfirst, hkeeps⟩ := h.raise hsettled ht hnot
  have hone := h.resolve_raise hsettled ht hnot
  have htwo := (hfirst.resolve_raise (hkeeps b (h.settled_iff.2 (known_of_numeric hnumericB).2)) (by rwa [raise_types])
    (by rwa [type_of_types (raise_types ctx a t)]) x).1
  have hshares : Shares (ctx.raise a t) x b ↔ Shares ctx x b := by
    unfold Shares
    rw [(hone x).2, (hone b).2]
  rw [htwo, (hone x).1]
  by_cases hx : Shares ctx x b
  · rw [if_pos (hshares.2 hx), if_pos (.inr hx)]
  · rw [if_neg (mt hshares.1 hx)]
    simp only [hx, or_false]

/-- **Behind a unification the chains that share a last variable with one of the two types lead to the result, and all
others lead where they led.** -/
theorem Linked.resolve_unify (h : Linked ctx) (ha : ctx.Given a) (hb : ctx.Given b)
    (hu : ctx.unify a b span = .ok (t, ctx')) (x : TypeId) :
    ctx'.resolve x = if Shares ctx x a ∨ Shares ctx x b then t else ctx.resolve x := by
  have h' := h.unify ha hb hu
  rcases unify_eq_ok hu with ⟨hends, rfl, rfl⟩ | ⟨hne, v, hv, rfl, rfl⟩ | ⟨hne, v, hv, rfl, rfl⟩ | ⟨hpromote, rfl⟩
  · split
    · next hshares =>
      rcases hshares with hx | hx
      · exact h.resolve_eq_of_shares hx
      · rw [hends, h.resolve_eq_of_shares hx]
    · rfl
  · exact h.resolve_fill_open hv hne h' x
  · rw [h.resolve_fill_open hv (Ne.symm hne) h' x]
    simp only [or_comm]
  · exact h.resolve_raise_both hpromote x

/-- The result is the end of one of the two chains, and each end that is a type coerces to it. -/
theorem Linked.unify_result (h : Linked ctx) (hu : ctx.unify a b span = .ok (t, ctx')) :
    (t = ctx.resolve a ∨ t = ctx.resolve b) ∧
      ((ctx.type (ctx.resolve a)).isHole = false →
        (ctx.type t).isHole = false ∧ ctx.coerces (ctx.resolve a) t = true) ∧
      ((ctx.type (ctx.resolve b)).isHole = false →
        (ctx.type t).isHole = false ∧ ctx.coerces (ctx.resolve b) t = true) := by
  have hsame : ∀ {x}, (ctx.type x).isHole = false → (ctx.type x).isHole = false ∧ ctx.coerces x x = true :=
    fun hx => ⟨hx, ctx.coerces_refl _⟩
  rcases unify_eq_ok hu with ⟨hends, rfl, -⟩ | ⟨-, v, hv, rfl, -⟩ | ⟨-, v, hv, rfl, -⟩ | ⟨hpromote, -⟩
  · refine ⟨.inl rfl, hsame, ?_⟩
    rw [← hends]
    exact hsame
  · exact ⟨.inr rfl, fun hnot => absurd hnot (by simp [hv, Ty.isHole]), hsame⟩
  · exact ⟨.inl rfl, hsame, fun hnot => absurd hnot (by simp [hv, Ty.isHole])⟩
  · obtain ⟨-, -, hnumeric⟩ := numeric_of_promote hpromote
    have hnot := (known_of_numeric hnumeric).2
    have hjoin := join_of_promote h.nodup hpromote
    exact ⟨eq_or_eq_of_promote hpromote, fun _ => ⟨hnot, hjoin.left⟩, fun _ => ⟨hnot, hjoin.right⟩⟩

/-- Two chains that end at different types, not both of them numeric. -/
structure Apart (ctx : Context) (a b : TypeId) : Prop where
  ne : ctx.resolve a ≠ ctx.resolve b
  left : (ctx.type (ctx.resolve a)).isHole = false
  right : (ctx.type (ctx.resolve b)).isHole = false
  unrelated : ¬ (ctx.isNumeric (ctx.resolve a) = true ∧ ctx.isNumeric (ctx.resolve b) = true)

/-- **Unification fails where the chains are apart**, and says where they end. -/
theorem unify_eq_error_iff {error : Error} : ctx.unify a b span = .error error ↔ Apart ctx a b ∧
    error = ⟨.noCommonAncestor (ctx.display (ctx.resolve a)) (ctx.display (ctx.resolve b)), span, none⟩ := by
  have hok : ∀ r : TypeId × Context, Except.ok r ≠ Except.error error := by
    intro r h
    cases h
  unfold unify
  simp only
  by_cases hends : ctx.resolve a = ctx.resolve b
  · rw [if_pos hends]
    exact ⟨fun h => absurd h (hok _), fun h => absurd hends h.1.ne⟩
  · rw [if_neg hends]
    split
    · next v hv => exact ⟨fun h => absurd h (hok _), fun h => absurd h.1.left (by simp [hv, Ty.isHole])⟩
    · next v hv _ => exact ⟨fun h => absurd h (hok _), fun h => absurd h.1.right (by simp [hv, Ty.isHole])⟩
    · next hleft hright =>
      have hnot : ∀ {x}, (∀ v, ctx.type x ≠ .hole v) → (ctx.type x).isHole = false := by
        intro x hx
        by_contra hhole
        obtain ⟨v, hv⟩ := exists_of_isHole (by simpa using hhole)
        exact hx v hv
      split
      · next t hpromote =>
        have hnumeric := isSome_promote_iff.1 (Option.isSome_of_eq_some hpromote)
        exact ⟨fun h => absurd h (hok _), fun h => absurd hnumeric h.1.unrelated⟩
      · next hpromote =>
        have hunrelated : ¬ (ctx.isNumeric (ctx.resolve a) = true ∧ ctx.isNumeric (ctx.resolve b) = true) := by
          rw [← isSome_promote_iff, hpromote]
          simp
        constructor
        · intro h
          exact ⟨⟨hends, hnot fun v hv => hleft v hv, hnot fun v hv => hright v hv, hunrelated⟩,
            (Except.error.inj h).symm⟩
        · rintro ⟨-, rfl⟩
          rfl

/-- What is true of two types behind a unification that gave `t`: a variable leads to `t` and a type coerces to it; what
led to a type leads to one to which that coerces, and to the same one if its chain ended in a variable of its own. -/
structure Unified (ctx : Context) (a b t : TypeId) (ctx' : Context) : Prop where
  settled : ctx'.resolve t = t
  holes : ∀ x, x = a ∨ x = b → (ctx.type x).isHole = true → ctx'.resolve x = t
  types : ∀ x, x = a ∨ x = b → (ctx.type x).isHole = false → ctx.coerces x t = true
  kept : ∀ y, (ctx.type (ctx.resolve y)).isHole = false → (ctx.type (ctx'.resolve y)).isHole = false ∧
    ctx.coerces (ctx.resolve y) (ctx'.resolve y) = true ∧
    (¬ Shares ctx y a → ¬ Shares ctx y b → ctx'.resolve y = ctx.resolve y)
  tables : ctx'.types = ctx.types ∧ ctx'.scopes = ctx.scopes

theorem Linked.unified (h : Linked ctx) (ha : ctx.Given a) (hb : ctx.Given b)
    (hu : ctx.unify a b span = .ok (t, ctx')) : Unified ctx a b t ctx' := by
  have hresolve := h.resolve_unify ha hb hu
  obtain ⟨hresult, hleft, hright⟩ := h.unify_result hu
  refine ⟨?_, ?_, ?_, ?_, tables_of_unify hu⟩
  · have hended : ctx.resolve t = t := by
      rcases hresult with rfl | rfl
      · exact resolve_of_ended (h.ended_resolve a)
      · exact resolve_of_ended (h.ended_resolve b)
    rw [hresolve, hended, ite_self]
  · intro x hx hhole
    have hself : ctx.lastHole? x ≠ none := by
      rw [ne_eq, h.lastHole?_eq_none_iff, hhole]
      exact nofun
    rw [hresolve, if_pos]
    rcases hx with rfl | rfl
    · exact .inl ⟨hself, rfl⟩
    · exact .inr ⟨hself, rfl⟩
  · intro x hx hnot
    have hself := resolve_of_not_hole hnot
    rcases hx with rfl | rfl
    · rw [hself] at hleft
      exact (hleft hnot).2
    · rw [hself] at hright
      exact (hright hnot).2
  · intro y hnot
    rw [hresolve]
    split
    · next hshares =>
      rcases hshares with hy | hy
      · have hend := h.resolve_eq_of_shares hy
        obtain ⟨htype, hcoerces⟩ := hleft (hend ▸ hnot)
        exact ⟨htype, hend ▸ hcoerces, fun hne => absurd hy hne⟩
      · have hend := h.resolve_eq_of_shares hy
        obtain ⟨htype, hcoerces⟩ := hright (hend ▸ hnot)
        exact ⟨htype, hend ▸ hcoerces, fun _ hne => absurd hy hne⟩
    · exact ⟨hnot, ctx.coerces_refl _, fun _ _ => rfl⟩

/-- **Two types are unified, or they are apart and nothing is changed.** -/
theorem unify_joins (h : Made ctx) (ha : ctx.Given a) (hb : ctx.Given b) (span : Span) :
    (∀ t ctx', ctx.unify a b span = .ok (t, ctx') →
      (unifyCall a b span).run.run ctx = (.ok t, ctx') ∧ Unified ctx a b t ctx') ∧
    ((∃ error, ctx.unify a b span = .error error) ↔ Apart ctx a b) ∧
    ∀ error, ctx.unify a b span = .error error →
      error = ⟨.noCommonAncestor (ctx.display (ctx.resolve a)) (ctx.display (ctx.resolve b)), span, none⟩ ∧
        (unifyCall a b span).run.run ctx = (.error error, ctx) := by
  refine ⟨?_, ?_, ?_⟩
  · intro t ctx' hu
    refine ⟨?_, h.linked.unified ha hb hu⟩
    rw [run_unifyCall, hu]
  · constructor
    · rintro ⟨error, herror⟩
      exact (unify_eq_error_iff.1 herror).1
    · intro hapart
      exact ⟨_, unify_eq_error_iff.2 ⟨hapart, rfl⟩⟩
  · intro error herror
    refine ⟨(unify_eq_error_iff.1 herror).2, ?_⟩
    rw [run_unifyCall, herror]

/-- A variable that leads to `int` over another one is raised to `float`, and with it the variable on the way; a third
one that stands for `int` by itself stays. -/
theorem unify_joins_raised : ∃ ctx ctx', Made ctx ∧ ctx.Given ⟨10⟩ ∧ ctx.Given .float ∧
    ctx.resolve ⟨10⟩ = .int ∧ ctx.resolve ⟨12⟩ = .int ∧ ctx.unify ⟨10⟩ .float default = .ok (.float, ctx') ∧
    ctx'.resolve ⟨11⟩ = .float ∧ ctx'.resolve ⟨12⟩ = .int ∧ Unified ctx ⟨10⟩ .float .float ctx' := by
  have hfresh : ∀ {ctx}, Made ctx → Made (Call.fresh.run ctx) := fun h => h.run trivial
  have hunify : ∀ {ctx} (a b : TypeId), Made ctx → ctx.Given a → ctx.Given b →
      Made ((Call.unify a b default).run ctx) := fun _ _ h ha hb => h.run ⟨ha, hb⟩
  have hvariables := hfresh (hfresh (hfresh .new))
  have hlinked := hunify ⟨10⟩ ⟨11⟩ hvariables (by decide) (by decide)
  have hint := hunify ⟨10⟩ .int hlinked (by decide) (by decide)
  have h := hunify ⟨12⟩ .int hint (by decide) (by decide)
  refine ⟨_, _, h, by decide, by decide, by decide, by decide, rfl, by decide, by decide, ?_⟩
  exact ((unify_joins h (by decide) (by decide) default).1 _ _ rfl).2

end LetFn.Context
