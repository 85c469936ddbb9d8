import LetFn.Proofs.Types.Chains

/-!
# The nearest declaration

A scope knows the scope around it by number. Scopes are opened in any order, inside any scope that is there, and names
are declared between that, so the scopes are a tree whose shape and contents grow independently. A scope is newer than
the scope around it whatever was done, and that takes every way outwards to the scope around the program.

* `Around ctx s t` — `t` is `s` or a scope around it, at any distance;
* `Sees ctx s name t` — no scope that is nearer to `s` than `t` holds the name;
* `Built ctx` — the context comes from a new one by calls, each on scopes that it gave out;
* `Entered ctx ctx' t name` — the name was declared in `t`, and lookups changed only where that is seen.

Main facts: `Rooted.lookup_eq_some_iff`, `Rooted.entered_of_declare`, `Rooted.lookup_openScope`, `lookup_nearest`.
-/

namespace LetFn.Context

variable {ctx ctx' : Context} {p s t u : ScopeId} {name m : String} {symbol x : Symbol}

/-! ## ways outwards -/

/-- The scope right around another. -/
def parent? (ctx : Context) (s : ScopeId) : Option ScopeId := (ctx.scope? s).bind (·.parent)

/-- The second scope is on the way outwards from the first, which begins at the first. -/
def Around (ctx : Context) : ScopeId → ScopeId → Prop := Relation.ReflTransGen fun s p => ctx.parent? s = some p

/-- The scope around the program has none around it, every other scope one that is older. -/
structure Rooted (ctx : Context) : Prop where
  root : ∃ scope, ctx.scope? .root = some scope ∧ scope.parent = none
  inner : ∀ {s scope}, ctx.scope? s = some scope → s ≠ .root → ∃ p, scope.parent = some p ∧ p.index < s.index

theorem Rooted.parent_lt (h : Rooted ctx) (hp : ctx.parent? s = some p) : p.index < s.index := by
  obtain ⟨scope, hscope, hparent⟩ := Option.bind_eq_some_iff.1 hp
  by_cases hs : s = .root
  · obtain ⟨root, hroot, hnone⟩ := h.root
    rw [hs, hroot] at hscope
    rw [← Option.some.inj hscope, hnone] at hparent
    cases hparent
  · obtain ⟨q, hq, hlt⟩ := h.inner hscope hs
    rw [hq] at hparent
    rwa [← Option.some.inj hparent]

/-- The way outwards from a scope that was given out ends at the scope around the program. -/
theorem Rooted.around_root (h : Rooted ctx) (hs : s.index < ctx.scopes.length) : Around ctx s .root := by
  obtain ⟨i⟩ := s
  induction i using Nat.strong_induction_on with
  | _ i ih =>
    by_cases hroot : (⟨i⟩ : ScopeId) = .root
    · rw [hroot]
      exact .refl
    · have hscope : ctx.scope? ⟨i⟩ = some ctx.scopes[i] := List.getElem?_eq_getElem hs
      obtain ⟨p, hp, hlt⟩ := h.inner hscope hroot
      refine .head (b := p) ?_ (ih p.index hlt (Nat.lt_trans hlt hs))
      rw [parent?, hscope, Option.bind_some, hp]

theorem Rooted.around_le (h : Rooted ctx) (ha : Around ctx s t) : t.index ≤ s.index := by
  induction ha with
  | refl => exact Nat.le_refl _
  | tail _ hp ih => exact Nat.le_trans (Nat.le_of_lt (h.parent_lt hp)) ih

/-- No two scopes stand around each other. -/
theorem Rooted.around_antisymm (h : Rooted ctx) (ha : Around ctx s t) (hb : Around ctx t s) : s = t := by
  have hindex := Nat.le_antisymm (h.around_le hb) (h.around_le ha)
  cases s
  cases t
  exact congrArg ScopeId.mk hindex

/-- The way outwards begins with the scope itself or with the scope right around it. -/
theorem around_iff : Around ctx s t ↔ s = t ∨ ∃ p, ctx.parent? s = some p ∧ Around ctx p t := by
  rw [Around, Relation.ReflTransGen.cases_head_iff]

/-- What holds of all scopes on the way outwards holds of the first, and of those on the way from the next. -/
theorem forall_around_iff {Q : ScopeId → Prop} :
    (∀ t, Around ctx s t → Q t) ↔ Q s ∧ ∀ p, ctx.parent? s = some p → ∀ t, Around ctx p t → Q t := by
  constructor
  · intro hall
    exact ⟨hall s .refl, fun p hp t ht => hall t (.head hp ht)⟩
  · rintro ⟨hself, houter⟩ t ht
    rcases around_iff.1 ht with rfl | ⟨p, hp, hpt⟩
    · exact hself
    · exact houter p hp t hpt

/-! ## the nearest scope with a name -/

/-- On the way from `s` to `t` no scope before `t` holds the name. -/
structure Sees (ctx : Context) (s : ScopeId) (name : String) (t : ScopeId) : Prop where
  around : Around ctx s t
  clear : ∀ u, Around ctx s u → Around ctx u t → u ≠ t → ctx.symbolIn? u name = none

/-- The nearest scope that holds the name, with its symbol. -/
structure Nearest (ctx : Context) (s : ScopeId) (name : String) (t : ScopeId) (symbol : Symbol) : Prop where
  sees : Sees ctx s name t
  holds : ctx.symbolIn? t name = some symbol

theorem Rooted.sees_self (h : Rooted ctx) (s : ScopeId) (name : String) : Sees ctx s name s :=
  ⟨.refl, fun _ hu hback hne => absurd (h.around_antisymm hback hu) hne⟩

/-- A scope without the name sees what the scope around it sees. -/
theorem Sees.outwards (h : Sees ctx p name t) (hp : ctx.parent? s = some p) (hnone : ctx.symbolIn? s name = none) :
    Sees ctx s name t := by
  refine ⟨.head hp h.around, fun u hu hback hne => ?_⟩
  rcases around_iff.1 hu with rfl | ⟨q, hq, hqu⟩
  · exact hnone
  · obtain rfl := Option.some.inj (hp.symm.trans hq)
    exact h.clear u hqu hback hne

theorem Sees.inwards (h : Sees ctx s name t) (hp : ctx.parent? s = some p) (hne : s ≠ t) : Sees ctx p name t := by
  refine ⟨?_, fun u hu => h.clear u (.head hp hu)⟩
  obtain ⟨q, hq, hqt⟩ := (around_iff.1 h.around).resolve_left hne
  rwa [Option.some.inj (hp.symm.trans hq)]

/-! ## lookups -/

/-- The number of a scope bounds the way outwards, so more fuel than that changes nothing. -/
theorem Rooted.lookupWithin_congr (h : Rooted ctx) {fuel fuel' : Nat} (hfuel : s.index < fuel)
    (hfuel' : s.index < fuel') : ctx.lookupWithin fuel s name = ctx.lookupWithin fuel' s name := by
  induction fuel generalizing fuel' s with
  | zero => exact absurd hfuel (Nat.not_lt_zero _)
  | succ fuel ih =>
    obtain ⟨fuel', rfl⟩ : ∃ k, fuel' = k + 1 := ⟨fuel' - 1, by omega⟩
    unfold lookupWithin
    cases hscope : ctx.scope? s with
    | none => rfl
    | some scope =>
      cases hfind : scope.find? name with
      | some x => simp only [hfind]
      | none =>
        simp only [hfind]
        refine Option.bind_congr fun p hp => ?_
        have hlt : p.index < s.index := h.parent_lt (by rw [parent?, hscope, Option.bind_some, hp])
        exact ih (by omega) (by omega)

/-- **A lookup goes outwards**: it ends where the name is held, and goes on in the scope around where it is not. -/
theorem Rooted.lookup_eq (h : Rooted ctx) (s : ScopeId) (name : String) :
    ctx.lookup s name = match ctx.symbolIn? s name with
      | some symbol => some (s, symbol)
      | none => (ctx.parent? s).bind (ctx.lookup · name) := by
  rw [lookup, lookupWithin, symbolIn?, parent?]
  cases hscope : ctx.scope? s with
  | none => rfl
  | some scope =>
    simp only [Option.bind_some]
    cases hfind : scope.find? name with
    | some x => rfl
    | none =>
      refine Option.bind_congr fun p hp => ?_
      have hlt : p.index < s.index := h.parent_lt (by rw [parent?, hscope, Option.bind_some, hp])
      exact h.lookupWithin_congr hlt (Nat.lt_succ_self _)

theorem Rooted.lookup_of_holds (h : Rooted ctx) (hx : ctx.symbolIn? s name = some x) :
    ctx.lookup s name = some (s, x) := by
  rw [h.lookup_eq, hx]

theorem Rooted.lookup_of_not_holds (h : Rooted ctx) (hnone : ctx.symbolIn? s name = none) :
    ctx.lookup s name = (ctx.parent? s).bind (ctx.lookup · name) := by
  rw [h.lookup_eq, hnone]

/-- **A lookup finds the nearest declaration**, and nothing else. -/
theorem Rooted.lookup_eq_some_iff (h : Rooted ctx) :
    ctx.lookup s name = some (t, x) ↔ Nearest ctx s name t x := by
  obtain ⟨i⟩ := s
  induction i using Nat.strong_induction_on with
  | _ i ih =>
    cases hhere : ctx.symbolIn? ⟨i⟩ name with
    | some y =>
      rw [h.lookup_of_holds hhere, Option.some.injEq, Prod.mk.injEq]
      constructor
      · rintro ⟨rfl, rfl⟩
        exact ⟨h.sees_self _ _, hhere⟩
      · rintro ⟨hsees, hholds⟩
        -- a scope that holds the name hides all scopes around it
        have hself : (⟨i⟩ : ScopeId) = t := by
          by_contra hne
          rw [hsees.clear _ .refl hsees.around hne] at hhere
          cases hhere
        subst hself
        exact ⟨rfl, Option.some.inj (hhere.symm.trans hholds)⟩
    | none =>
      rw [h.lookup_of_not_holds hhere]
      have hne : ctx.symbolIn? t name = some x → (⟨i⟩ : ScopeId) ≠ t := by
        rintro hx rfl
        rw [hhere] at hx
        cases hx
      cases hp : ctx.parent? ⟨i⟩ with
      | none =>
        refine iff_of_false nofun fun hn => ?_
        obtain ⟨p, hp', -⟩ := (around_iff.1 hn.sees.around).resolve_left (hne hn.holds)
        rw [hp] at hp'
        cases hp'
      | some p =>
        rw [Option.bind_some, ih p.index (h.parent_lt hp)]
        constructor
        · rintro ⟨hsees, hholds⟩
          exact ⟨hsees.outwards hp hhere, hholds⟩
        · rintro ⟨hsees, hholds⟩
          exact ⟨hsees.inwards hp (hne hholds), hholds⟩

theorem Rooted.lookup_eq_none_iff (h : Rooted ctx) :
    ctx.lookup s name = none ↔ ∀ t, Around ctx s t → ctx.symbolIn? t name = none := by
  obtain ⟨i⟩ := s
  induction i using Nat.strong_induction_on with
  | _ i ih =>
    cases hhere : ctx.symbolIn? ⟨i⟩ name with
    | some y =>
      rw [h.lookup_of_holds hhere]
      refine iff_of_false nofun fun hnone => ?_
      rw [hnone _ .refl] at hhere
      cases hhere
    | none =>
      rw [h.lookup_of_not_holds hhere, forall_around_iff, and_iff_right hhere, Option.bind_eq_none_iff]
      exact forall₂_congr fun p hp => ih p.index (h.parent_lt hp)

/-! ## what calls keep -/

theorem parent?_of_parents (h : ∀ s, (ctx'.scope? s).map (·.parent) = (ctx.scope? s).map (·.parent)) (s : ScopeId) :
    ctx'.parent? s = ctx.parent? s := by
  have hs := h s
  unfold parent?
  cases hscope : ctx.scope? s <;> cases hscope' : ctx'.scope? s <;> simp_all

theorem around_of_parents (h : ∀ s, (ctx'.scope? s).map (·.parent) = (ctx.scope? s).map (·.parent)) :
    Around ctx' = Around ctx := by
  unfold Around
  simp only [parent?_of_parents h]

theorem Rooted.of_parents (h : Rooted ctx)
    (hsame : ∀ s, (ctx'.scope? s).map (·.parent) = (ctx.scope? s).map (·.parent)) : Rooted ctx' := by
  refine ⟨?_, fun {s scope} hscope hs => ?_⟩
  · obtain ⟨root, hroot, hnone⟩ := h.root
    have hmap := hsame .root
    rw [hroot, Option.map_some, hnone] at hmap
    exact Option.map_eq_some_iff.1 hmap
  · have hmap := hsame s
    rw [hscope, Option.map_some] at hmap
    obtain ⟨old, hold, hparent⟩ := Option.map_eq_some_iff.1 hmap.symm
    rw [← hparent]
    exact h.inner hold hs

theorem rooted_new : Rooted new where
  root := ⟨⟨none, []⟩, rfl, rfl⟩
  inner {s scope} hscope hs := by
    obtain ⟨_ | i⟩ := s
    · exact absurd rfl hs
    · cases hscope

/-- The scopes that were there are as they were. -/
theorem scope?_openScope (hs : s.index < ctx.scopes.length) : (ctx.openScope p).2.scope? s = ctx.scope? s := by
  rw [scope?, openScope, scope?, List.getElem?_append_left hs]

theorem Rooted.openScope (h : Rooted ctx) (hp : p.index < ctx.scopes.length) : Rooted (ctx.openScope p).2 := by
  obtain ⟨root, hroot, hnone⟩ := h.root
  have hlength : ScopeId.root.index < ctx.scopes.length := (List.getElem?_eq_some_iff.1 hroot).1
  refine ⟨⟨root, by rw [scope?_openScope hlength, hroot], hnone⟩, fun {s scope} hscope hs => ?_⟩
  by_cases hold : s.index < ctx.scopes.length
  · rw [scope?_openScope hold] at hscope
    exact h.inner hscope hs
  · rw [scope?, Context.openScope, List.getElem?_append_right (Nat.le_of_not_lt hold)] at hscope
    obtain rfl := List.mem_singleton.1 (List.mem_of_getElem? hscope)
    exact ⟨p, rfl, Nat.lt_of_lt_of_le hp (Nat.le_of_not_lt hold)⟩

/-- **A new scope changes no lookup** from the scopes that were there. -/
theorem Rooted.lookup_openScope (h : Rooted ctx) (hp : p.index < ctx.scopes.length)
    (hs : s.index < ctx.scopes.length) : (ctx.openScope p).2.lookup s name = ctx.lookup s name := by
  have h' := h.openScope hp
  obtain ⟨i⟩ := s
  induction i using Nat.strong_induction_on with
  | _ i ih =>
    have hsame : (ctx.openScope p).2.symbolIn? ⟨i⟩ name = ctx.symbolIn? ⟨i⟩ name := by
      rw [symbolIn?, scope?_openScope hs, symbolIn?]
    have hparent : (ctx.openScope p).2.parent? ⟨i⟩ = ctx.parent? ⟨i⟩ := by
      rw [parent?, scope?_openScope hs, parent?]
    rw [h'.lookup_eq, h.lookup_eq, hsame, hparent]
    cases ctx.symbolIn? ⟨i⟩ name with
    | some x => rfl
    | none =>
      refine Option.bind_congr fun q hq => ?_
      have hlt := h.parent_lt hq
      exact ih q.index hlt (Nat.lt_trans hlt hs)

/-! ## declarations -/

theorem parents_of_declare (h : ctx.declare t symbol = .ok ctx') (s : ScopeId) :
    (ctx'.scope? s).map (·.parent) = (ctx.scope? s).map (·.parent) := by
  rcases eq_or_put_of_declare h with rfl | rfl
  · rfl
  · exact scope?_put s

/-- A declaration leaves a symbol in its scope, its own or one that was there, and nothing else is changed. -/
theorem symbolIn?_of_declare (ht : t.index < ctx.scopes.length) (h : ctx.declare t symbol = .ok ctx') :
    (∃ found, ctx'.symbolIn? t symbol.name = some found ∧
        (found = symbol ∨ ctx.symbolIn? t symbol.name = some found)) ∧
      ∀ s m, ¬ (s = t ∧ m = symbol.name) → ctx'.symbolIn? s m = ctx.symbolIn? s m := by
  have hput : ∀ s m, (ctx.put t symbol).symbolIn? s m =
      if s = t ∧ m = symbol.name then some symbol else ctx.symbolIn? s m := fun s m => symbolIn?_put ht
  have hentered : (∃ found, (ctx.put t symbol).symbolIn? t symbol.name = some found ∧
      (found = symbol ∨ ctx.symbolIn? t symbol.name = some found)) ∧
      ∀ s m, ¬ (s = t ∧ m = symbol.name) → (ctx.put t symbol).symbolIn? s m = ctx.symbolIn? s m := by
    refine ⟨⟨symbol, ?_, .inl rfl⟩, fun s m hne => ?_⟩
    · rw [hput, if_pos ⟨rfl, rfl⟩]
    · rw [hput, if_neg hne]
  rcases declare_eq_ok h with ⟨old, hold, -, rfl⟩ | ⟨-, rfl⟩ | ⟨old, hold, -, -, -, rfl | rfl⟩
  · exact ⟨⟨old, hold, .inr hold⟩, fun _ _ _ => rfl⟩
  · exact hentered
  · exact ⟨⟨old, hold, .inr hold⟩, fun _ _ _ => rfl⟩
  · exact hentered

/-- Behind a declaration of a name in `t` the scopes that see as far as `t` find what `t` holds then, and all other
lookups, of this name and of others, give what they gave before. -/
structure Entered (ctx ctx' : Context) (t : ScopeId) (symbol : Symbol) : Prop where
  elsewhere : ∀ s m, ctx'.lookup s m ≠ ctx.lookup s m → m = symbol.name ∧ Sees ctx s symbol.name t
  there : ∃ found, (found = symbol ∨ ctx.symbolIn? t symbol.name = some found) ∧
    ∀ s, Sees ctx s symbol.name t → ctx'.lookup s symbol.name = some (t, found)

/-- **A declaration has a local effect.** -/
theorem Rooted.entered_of_declare (h : Rooted ctx) (ht : t.index < ctx.scopes.length)
    (hd : ctx.declare t symbol = .ok ctx') : Entered ctx ctx' t symbol := by
  have hparents := parents_of_declare hd
  have h' := h.of_parents hparents
  obtain ⟨⟨found, hfound, hwhich⟩, hsame⟩ := symbolIn?_of_declare ht hd
  refine ⟨fun s m => ?_, found, hwhich, fun s hsees => ?_⟩
  · -- outwards from `s`: the lookups part where the name is held in one context and not in the other, and that is `t`
    obtain ⟨i⟩ := s
    induction i using Nat.strong_induction_on with
    | _ i ih =>
      intro hne
      by_cases hthere : (⟨i⟩ : ScopeId) = t ∧ m = symbol.name
      · obtain ⟨rfl, rfl⟩ := hthere
        exact ⟨rfl, h.sees_self _ _⟩
      · rw [h'.lookup_eq, h.lookup_eq, hsame _ _ hthere, parent?_of_parents hparents] at hne
        cases hhere : ctx.symbolIn? ⟨i⟩ m with
        | some x => simp [hhere] at hne
        | none =>
          cases hp : ctx.parent? ⟨i⟩ with
          | none => simp [hhere, hp] at hne
          | some p =>
            simp only [hhere, hp, Option.bind_some] at hne
            obtain ⟨rfl, hsees⟩ := ih p.index (h.parent_lt hp) hne
            exact ⟨rfl, hsees.outwards hp hhere⟩
  · have haround := around_of_parents hparents
    refine h'.lookup_eq_some_iff.2 ⟨⟨haround ▸ hsees.around, fun u hu hback hne => ?_⟩, hfound⟩
    rw [hsame _ _ fun hthere => hne hthere.1]
    rw [haround] at hu hback
    exact hsees.clear u hu hback hne

/-! ## runs -/

/-- A context that calls made: on scopes and symbols with scopes that it gave out, and on types in any way. -/
inductive Built : Context → Prop where
  | new : Built .new
  | run {ctx : Context} (built : Built ctx) (call : Call) : Built (call.run ctx)
  | openScope {ctx : Context} (built : Built ctx) {parent : ScopeId} (given : parent.index < ctx.scopes.length) :
      Built (ctx.openScope parent).2
  | declare {ctx ctx' : Context} (built : Built ctx) {s : ScopeId} (given : s.index < ctx.scopes.length)
      {symbol : Symbol} (declared : ctx.declare s symbol = .ok ctx') : Built ctx'
  | setSymbolType {ctx : Context} (built : Built ctx) {s : ScopeId} (given : s.index < ctx.scopes.length)
      (name : String) (t : TypeId) : Built (ctx.setSymbolType s name t)
  | resolveSymbols {ctx : Context} (built : Built ctx) : Built ctx.resolveSymbols

theorem scopes_run (ctx : Context) (call : Call) : (call.run ctx).scopes = ctx.scopes := by
  cases call with
  | fresh => exact intern_scopes _ _
  | intern type => exact intern_scopes _ _
  | unify a b span =>
    rcases run_unify ctx a b span with ⟨t, hu⟩ | heq
    · exact scopes_of_unify hu
    · rw [heq]

theorem Built.rooted (h : Built ctx) : Rooted ctx := by
  induction h with
  | new => exact rooted_new
  | run _ call ih => exact ih.of_parents fun s => by rw [scope?, scopes_run, scope?]
  | openScope _ given ih => exact ih.openScope given
  | declare _ _ declared ih => exact ih.of_parents (parents_of_declare declared)
  | setSymbolType _ _ name t ih =>
    refine ih.of_parents fun s => ?_
    unfold Context.setSymbolType
    split
    · exact scope?_put s
    · rfl
  | @resolveSymbols ctx _ ih =>
    refine ih.of_parents fun s => ?_
    rw [scope?, Context.resolveSymbols, scope?, List.getElem?_map, Option.map_map]
    rfl

/-- How names are found in a context, and what calls change about it: each way outwards leads through older and older
scopes to the scope around the program, a lookup gives the symbol of the first scope on it that holds the name, a
declaration changes the lookups that come as far as its scope, and a new scope changes none. -/
structure LooksOutwards (ctx : Context) : Prop where
  rooted : Rooted ctx
  ends : ∀ s, s.index < ctx.scopes.length → Around ctx s .root
  found : ∀ s name t symbol, ctx.lookup s name = some (t, symbol) ↔ Nearest ctx s name t symbol
  missing : ∀ s name, ctx.lookup s name = none ↔ ∀ t, Around ctx s t → ctx.symbolIn? t name = none
  declares : ∀ t symbol ctx', t.index < ctx.scopes.length → ctx.declare t symbol = .ok ctx' → Entered ctx ctx' t symbol
  opens : ∀ parent s name, parent.index < ctx.scopes.length → s.index < ctx.scopes.length →
    (ctx.openScope parent).2.lookup s name = ctx.lookup s name

/-- **Lookups find the nearest declaration, and declarations act locally**, whatever calls made the context. -/
theorem lookup_nearest (h : Built ctx) : LooksOutwards ctx := by
  have hrooted := h.rooted
  refine ⟨hrooted, fun s hs => ?_, fun s name t symbol => ?_, fun s name => ?_, fun t symbol ctx' ht hd => ?_,
    fun parent s name hp hs => ?_⟩
  · exact hrooted.around_root hs
  · exact hrooted.lookup_eq_some_iff
  · exact hrooted.lookup_eq_none_iff
  · exact hrooted.entered_of_declare ht hd
  · exact hrooted.lookup_openScope hp hs

/-- A variable of the program, a scope inside a scope and one beside them. Another variable of that name in the middle
scope is found from inside of it, and from beside it the first one is found as before. -/
theorem lookup_nearest_shadowing :
    let outer : Symbol := ⟨"x", .float, ⟨4, 5⟩, .variable⟩
    let inner : Symbol := ⟨"x", .string, ⟨20, 21⟩, .variable⟩
    ∃ ctx ctx', Built ctx ∧ ctx.lookup ⟨2⟩ "x" = some (.root, outer) ∧ ctx.declare ⟨1⟩ inner = .ok ctx' ∧
      ctx'.lookup ⟨2⟩ "x" = some (⟨1⟩, inner) ∧ ctx'.lookup ⟨3⟩ "x" = some (.root, outer) ∧ LooksOutwards ctx := by
  intro outer inner
  have hdeclared : Built (Context.new.put .root { outer with type := .int }) :=
    .declare .new (s := .root) (by decide) rfl
  have hretyped := hdeclared.setSymbolType (s := .root) (by decide) "x" .float
  have hopen : ∀ {ctx} (p : ScopeId), Built ctx → p.index < ctx.scopes.length → Built (ctx.openScope p).2 :=
    fun _ h hp => h.openScope hp
  have hinside := hopen ⟨1⟩ (hopen .root hretyped (by decide)) (by decide)
  have hbeside := hopen .root hinside (by decide)
  exact ⟨_, _, hbeside, by decide, rfl, by decide, by decide, lookup_nearest hbeside⟩

end LetFn.Context
