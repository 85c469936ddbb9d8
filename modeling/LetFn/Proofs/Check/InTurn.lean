import LetFn.Proofs.Check.Redeclaring
import Mathlib.Data.List.Pairwise

/-!
# Declarations one after another

What a scope takes and what it holds in the end depend on the symbols that are declared in it, but hardly on their
order: the symbols of each name have to get along with each other, and the one with a body stays, or else the first.

* `declareCall s symbol` — one declaration as a call that finds a context, answers and leaves a context behind;
* `declareAll s symbols` — the calls for all of the symbols, with all of their answers;
* `Compatible symbols` — the symbols of every name are one, or declare one function;
* `chosen? symbols name` — the symbol that stays;
* `OnePerName symbols scope` — the scope has for every name the symbol that stays;
* `Filled s symbols ctx ctx'` — the second context is the first one with these symbols in the scope.

Main facts: `run_declareCall`, `along_chosen?_iff` (only the symbol that stays has to be asked), `Filled.step`,
`declareAll_spec`.
-/

namespace LetFn

/-- A function with a body. -/
def Symbol.hasBody (x : Symbol) : Bool := x.kind.body? = some true

namespace Context

variable {ctx ctx' c c' : Context} {s : ScopeId} {x y old symbol : Symbol} {symbols done todo : List Symbol}
  {scope : Scope} {name : String}

/-! ## calls -/

/-- What a call does when it has found `old` or nothing in the scope: it writes to the context or leaves it alone. -/
def answerCall (s : ScopeId) (symbol : Symbol) : Option Symbol → ExceptT Error (StateM Context) Unit
  | none => modify (·.put s symbol)
  | some old => do
    if old.span = symbol.span then return
    if let (some oldBody, some newBody) := (old.kind.body?, symbol.kind.body?) then
      if old.type = symbol.type ∧ !(oldBody && newBody) then
        if newBody then modify (·.put s symbol)
        return
    throw ⟨.alreadyDeclared symbol.name, symbol.span, some old.span⟩

/-- A declaration as a call, which finds a context, answers and leaves a context behind. -/
def declareCall (s : ScopeId) (symbol : Symbol) : ExceptT Error (StateM Context) Unit := do
  answerCall s symbol ((← get).symbolIn? s symbol.name)

/-- Calls for one symbol after the other, with their answers. A call that fails does not keep the next ones away. -/
def declareAll (s : ScopeId) (symbols : List Symbol) : StateM Context (List (Except Error Unit)) :=
  symbols.mapM fun x => (declareCall s x).run

/-- A call that succeeds leaves the context that `declare` gives, any other one leaves the context it found. -/
theorem run_declareCall (ctx : Context) (s : ScopeId) (symbol : Symbol) :
    (declareCall s symbol).run.run ctx = match ctx.declare s symbol with
      | .ok ctx' => (.ok (), ctx')
      | .error e => (.error e, ctx) := by
  change (answerCall s symbol (ctx.symbolIn? s symbol.name)).run.run ctx = _
  unfold declare
  cases ctx.symbolIn? s symbol.name with
  | none => rfl
  | some old =>
    simp only [answerCall]
    by_cases hspan : old.span = symbol.span
    · simp only [hspan, if_true]
      rfl
    · simp only [hspan, if_false]
      cases old.kind.body? with
      | none => rfl
      | some oldBody =>
        cases symbol.kind.body? with
        | none => rfl
        | some newBody =>
          dsimp only
          split
          · cases newBody <;> rfl
          · rfl

theorem run_declareAll_cons : (declareAll s (x :: todo)).run c =
    let first := (declareCall s x).run.run c
    let others := (declareAll s todo).run first.2
    (first.1 :: others.1, others.2) := by
  rw [declareAll, List.mapM_cons]
  rfl

/-- The error of a call points at the symbol that the scope has. -/
theorem error_of_declare {e : Error} (h : ctx.declare s symbol = .error e) : ∃ old,
    ctx.symbolIn? s symbol.name = some old ∧ e = ⟨.alreadyDeclared symbol.name, symbol.span, some old.span⟩ := by
  unfold declare at h
  split at h
  · cases h
  · next old hold =>
    refine ⟨old, hold, ?_⟩
    split at h
    · cases h
    · split at h
      · split at h
        · cases h
        · exact (Except.error.inj h).symm
      · exact (Except.error.inj h).symm

/-! ## symbols that get along -/

/-- Both are functions, of one type, and one of them has no body. -/
structure Along (x y : Symbol) : Prop where
  left : x.kind.body?.isSome
  right : y.kind.body?.isSome
  type : x.type = y.type
  body : ¬(x.hasBody = true ∧ y.hasBody = true)

theorem Along.symm (h : Along x y) : Along y x := ⟨h.right, h.left, h.type.symm, fun hboth => h.body hboth.symm⟩

/-- All declare one function, which has at most one body. -/
structure OneFunction (symbols : List Symbol) : Prop where
  functions : ∀ x ∈ symbols, x.kind.body?.isSome
  types : ∀ x ∈ symbols, ∀ y ∈ symbols, x.type = y.type
  bodies : symbols.countP Symbol.hasBody ≤ 1

/-- Of every name there is a single symbol, or all declare one function. -/
def Compatible (symbols : List Symbol) : Prop :=
  ∀ name, (symbols.filter (·.name = name)).length ≤ 1 ∨ OneFunction (symbols.filter (·.name = name))

theorem countP_le_one_iff {p : Symbol → Bool} :
    symbols.countP p ≤ 1 ↔ symbols.Pairwise fun x y => ¬(p x = true ∧ p y = true) := by
  induction symbols with
  | nil => simp
  | cons x xs ih =>
    rw [List.pairwise_cons, ← ih, List.countP_cons]
    by_cases hx : p x = true
    · simp only [hx, if_true, true_and]
      rw [← List.countP_eq_zero]
      omega
    · simp [hx]

theorem pairwise_along_iff : symbols.Pairwise Along ↔ symbols.length ≤ 1 ∨ OneFunction symbols := by
  constructor
  · intro h
    match symbols, h with
    | [], _ => exact .inl (Nat.zero_le _)
    | [_], _ => exact .inl (Nat.le_refl _)
    | x :: y :: others, h =>
      have hfirst := (List.pairwise_cons.1 h).1
      have htype : ∀ z ∈ x :: y :: others, z.type = x.type := by
        intro z hz
        rcases List.mem_cons.1 hz with rfl | hz
        · rfl
        · exact (hfirst z hz).type.symm
      refine .inr ⟨?_, ?_, countP_le_one_iff.2 (h.imp Along.body)⟩
      · intro z hz
        rcases List.mem_cons.1 hz with rfl | hz
        · exact (hfirst y List.mem_cons_self).left
        · exact (hfirst z hz).right
      · intro z hz z' hz'
        rw [htype z hz, htype z' hz']
  · rintro (hlength | h)
    · match symbols, hlength with
      | [], _ => exact .nil
      | [x], _ => exact List.pairwise_singleton _ x
    · exact (countP_le_one_iff.1 h.bodies).imp_of_mem fun hx hy hbody =>
        ⟨h.functions _ hx, h.functions _ hy, h.types _ hx _ hy, hbody⟩

theorem compatible_iff : Compatible symbols ↔ symbols.Pairwise fun x y => x.name = y.name → Along x y := by
  simp only [Compatible, ← pairwise_along_iff, List.pairwise_filter, decide_eq_true_iff]
  simp only [List.pairwise_iff_getElem]
  constructor
  · intro h i j hi hj hlt hname
    exact h _ i j hi hj hlt hname rfl
  · rintro h name i j hi hj hlt rfl hname
    exact h i j hi hj hlt hname.symm

/-- One more symbol has to get along with all of its name. -/
theorem compatible_concat :
    Compatible (done ++ [x]) ↔ Compatible done ∧ ∀ y ∈ done, y.name = x.name → Along y x := by
  rw [compatible_iff, compatible_iff, List.pairwise_append]
  simp

theorem Compatible.along (h : Compatible symbols) (hx : x ∈ symbols) (hy : y ∈ symbols) (hname : x.name = y.name)
    (hne : x ≠ y) : Along x y := by
  have hsymm : Std.Symm fun x y : Symbol => x.name = y.name → Along x y := ⟨fun _ _ h hname => (h hname.symm).symm⟩
  exact (compatible_iff.1 h).forall hx hy hne hname

/-! ## the symbol that stays -/

/-- The symbol of the name that has a body, or else the first one. -/
def chosen? (symbols : List Symbol) (name : String) : Option Symbol :=
  (symbols.find? fun x => x.name = name ∧ x.hasBody = true).or (symbols.find? (·.name = name))

theorem mem_of_chosen? (h : chosen? symbols name = some x) : x ∈ symbols ∧ x.name = name := by
  rcases Option.or_eq_some_iff.1 h with h | ⟨-, h⟩
  · have hx := List.find?_some h
    exact ⟨List.mem_of_find?_eq_some h, (of_decide_eq_true hx).1⟩
  · exact ⟨List.mem_of_find?_eq_some h, by simpa using List.find?_some h⟩

theorem chosen?_eq_none_iff : chosen? symbols name = none ↔ ∀ x ∈ symbols, x.name ≠ name := by
  rw [chosen?, Option.or_eq_none_iff, List.find?_eq_none, List.find?_eq_none]
  simp only [decide_eq_true_iff]
  exact ⟨fun h => h.2, fun h => ⟨fun x hx hboth => h x hx hboth.1, h⟩⟩

/-- If any symbol of the name has a body, so has the one that stays. -/
theorem hasBody_of_chosen? (h : chosen? symbols name = some x) (hy : y ∈ symbols) (hname : y.name = name)
    (hbody : y.hasBody = true) : x.hasBody = true := by
  rcases Option.or_eq_some_iff.1 h with h | ⟨hnone, -⟩
  · have hx := List.find?_some h
    exact (of_decide_eq_true hx).2
  · exact absurd (by simp [hname, hbody]) (List.find?_eq_none.1 hnone y hy)

theorem chosen?_concat_of_ne (hne : x.name ≠ name) : chosen? (done ++ [x]) name = chosen? done name := by
  simp [chosen?, List.find?_append, hne]

theorem chosen?_concat_first (h : chosen? done x.name = none) : chosen? (done ++ [x]) x.name = some x := by
  obtain ⟨hbody, hall⟩ := Option.or_eq_none_iff.1 h
  rw [chosen?, List.find?_append, List.find?_append, hbody, hall]
  cases hx : x.hasBody <;> simp [hx]

theorem chosen?_concat_old (h : chosen? done x.name = some old) (hx : x.hasBody = false) :
    chosen? (done ++ [x]) x.name = some old := by
  have hnone : [x].find? (fun y => y.name = x.name ∧ y.hasBody = true) = none := by simp [hx]
  rw [chosen?, List.find?_append, List.find?_append, hnone, Option.or_none, ← Option.or_assoc]
  exact congrArg (Option.or · _) h

theorem chosen?_concat_body (h : chosen? done x.name = some old) (hold : old.hasBody = false) (hx : x.hasBody = true) :
    chosen? (done ++ [x]) x.name = some x := by
  have hnone : done.find? (fun y => y.name = x.name ∧ y.hasBody = true) = none := by
    refine List.find?_eq_none.2 fun y hy hboth => ?_
    obtain ⟨hname, hbody⟩ := of_decide_eq_true hboth
    rw [hasBody_of_chosen? h hy hname hbody] at hold
    cases hold
  rw [chosen?, List.find?_append, hnone]
  simp [hx]

/-- What gets along with the symbol that stays gets along with all of that name. -/
theorem along_chosen?_iff (hdone : Compatible done) (h : chosen? done x.name = some old) :
    Along old x ↔ ∀ y ∈ done, y.name = x.name → Along y x := by
  obtain ⟨hmem, hname⟩ := mem_of_chosen? h
  constructor
  · intro hold y hy hyname
    by_cases heq : old = y
    · exact heq ▸ hold
    · have hboth := hdone.along hmem hy (hname.trans hyname.symm) heq
      refine ⟨hboth.right, hold.right, hboth.type.symm.trans hold.type, ?_⟩
      rintro ⟨hbody, hx⟩
      exact hold.body ⟨hasBody_of_chosen? h hy hyname hbody, hx⟩
  · intro hall
    exact hall old hmem hname

/-! ## what the scope holds -/

/-- The scope has one symbol of every name, the one that stays. -/
structure OnePerName (symbols : List Symbol) (scope : Scope) : Prop where
  names : (scope.symbols.map (·.name)).Nodup
  entry : ∀ {x}, x ∈ scope.symbols ↔ chosen? symbols x.name = some x

theorem find?_eq_some_iff_of_nodup (h : (scope.symbols.map (·.name)).Nodup) :
    scope.find? name = some x ↔ x ∈ scope.symbols ∧ x.name = name := by
  constructor
  · intro hx
    exact ⟨List.mem_of_find?_eq_some hx, by simpa using List.find?_some hx⟩
  · rintro ⟨hx, rfl⟩
    have hfound : (scope.find? x.name).isSome := List.find?_isSome.2 ⟨x, hx, by simp⟩
    obtain ⟨y, hy⟩ := Option.isSome_iff_exists.1 hfound
    have hname : y.name = x.name := by simpa using List.find?_some hy
    obtain rfl := List.inj_on_of_nodup_map h (List.mem_of_find?_eq_some hy) hx hname
    exact hy

theorem onePerName_iff : OnePerName symbols scope ↔
    (scope.symbols.map (·.name)).Nodup ∧ ∀ name, scope.find? name = chosen? symbols name := by
  constructor
  · intro h
    refine ⟨h.names, fun name => Option.ext fun x => ?_⟩
    rw [find?_eq_some_iff_of_nodup h.names, h.entry]
    constructor
    · rintro ⟨hx, rfl⟩
      exact hx
    · intro hx
      obtain rfl := (mem_of_chosen? hx).2
      exact ⟨hx, rfl⟩
  · rintro ⟨hnames, hfind⟩
    refine ⟨hnames, fun {x} => ?_⟩
    rw [← hfind, find?_eq_some_iff_of_nodup hnames]
    simp

theorem names_put (h : (scope.symbols.map (·.name)).Nodup) : ((scope.put x).symbols.map (·.name)).Nodup := by
  unfold Scope.put
  cases hfind : scope.find? x.name with
  | some old =>
    have hname : (scope.symbols.map fun y => if y.name = x.name then x else y).map (·.name) =
        scope.symbols.map (·.name) := by
      rw [List.map_map]
      refine List.map_congr_left fun y _ => ?_
      by_cases hy : y.name = x.name <;> simp [hy]
    rwa [hname]
  | none =>
    rw [List.map_append, List.map_singleton, List.nodup_append_comm]
    refine List.nodup_cons.2 ⟨?_, h⟩
    simpa [Scope.find?] using hfind

theorem onePerName_nil (parent : Option ScopeId) : OnePerName [] ⟨parent, []⟩ := ⟨.nil, by simp [chosen?]⟩

/-- The new symbol is put in when it is the one that stays. -/
theorem OnePerName.put (h : OnePerName done scope) (hx : chosen? (done ++ [x]) x.name = some x) :
    OnePerName (done ++ [x]) (scope.put x) := by
  obtain ⟨hnames, hfind⟩ := onePerName_iff.1 h
  refine onePerName_iff.2 ⟨names_put hnames, fun name => ?_⟩
  rw [find?_put]
  split
  · next hname => rw [hname, hx]
  · next hne => rw [hfind, chosen?_concat_of_ne (Ne.symm hne)]

/-- It is left out when another one stays. -/
theorem OnePerName.keep (h : OnePerName done scope) (hx : chosen? (done ++ [x]) x.name = chosen? done x.name) :
    OnePerName (done ++ [x]) scope := by
  obtain ⟨hnames, hfind⟩ := onePerName_iff.1 h
  refine onePerName_iff.2 ⟨hnames, fun name => ?_⟩
  rw [hfind]
  by_cases hname : x.name = name
  · rw [← hname, hx]
  · rw [chosen?_concat_of_ne hname]

/-! ## one call after the other -/

theorem scope?_put_self : (c.put s x).scope? s = (c.scope? s).map (·.put x) := by simp [scope?, Context.put]

theorem scope?_put_of_ne {s' : ScopeId} (hne : s' ≠ s) : (c.put s x).scope? s' = c.scope? s' := by
  obtain ⟨i⟩ := s
  obtain ⟨j⟩ := s'
  have hij : i ≠ j := fun heq => hne (by rw [heq])
  simp [scope?, Context.put, hij]

/-- The symbols have been declared in the scope, and nothing else has changed on the way from `ctx` to `ctx'`. -/
structure Filled (s : ScopeId) (symbols : List Symbol) (ctx ctx' : Context) : Prop where
  types : ctx'.types = ctx.types
  bindings : ctx'.bindings = ctx.bindings
  others : ∀ s' ≠ s, ctx'.scope? s' = ctx.scope? s'
  parent : (ctx'.scope? s).map (·.parent) = (ctx.scope? s).map (·.parent)
  onePerName : ∃ scope, ctx'.scope? s = some scope ∧ OnePerName symbols scope

theorem Filled.symbolIn? (h : Filled s done ctx c) (name : String) : c.symbolIn? s name = chosen? done name := by
  obtain ⟨scope, hscope, hone⟩ := h.onePerName
  rw [Context.symbolIn?, hscope]
  exact (onePerName_iff.1 hone).2 name

theorem Filled.put (h : Filled s done ctx c) (hx : chosen? (done ++ [x]) x.name = some x) :
    Filled s (done ++ [x]) ctx (c.put s x) where
  types := h.types
  bindings := h.bindings
  others s' hne := (scope?_put_of_ne hne).trans (h.others s' hne)
  parent := (scope?_put s).trans h.parent
  onePerName := by
    obtain ⟨scope, hscope, hone⟩ := h.onePerName
    exact ⟨scope.put x, by rw [scope?_put_self, hscope]; rfl, hone.put hx⟩

theorem Filled.keep (h : Filled s done ctx c) (hx : chosen? (done ++ [x]) x.name = chosen? done x.name) :
    Filled s (done ++ [x]) ctx c := by
  obtain ⟨scope, hscope, hone⟩ := h.onePerName
  exact { h with onePerName := ⟨scope, hscope, hone.keep hx⟩ }

theorem declare_ok_of_along (hold : c.symbolIn? s x.name = some old) (h : Along old x) :
    ∃ c', c.declare s x = .ok c' := by
  obtain ⟨oldBody, hleft⟩ := Option.isSome_iff_exists.1 h.left
  obtain ⟨newBody, hright⟩ := Option.isSome_iff_exists.1 h.right
  have hbody := h.body
  simp only [Symbol.hasBody, hleft, hright, Option.some.injEq, decide_eq_true_iff] at hbody
  unfold declare
  rw [hold]
  by_cases hspan : old.span = x.span
  · exact ⟨c, by simp [hspan]⟩
  · have hallowed : old.type = x.type ∧ (!(oldBody && newBody)) = true := by
      refine ⟨h.type, ?_⟩
      rwa [Bool.not_eq_true', ← Bool.not_eq_true, Bool.and_eq_true]
    simp only [hspan, if_false, hleft, hright, if_pos hallowed]
    exact ⟨_, rfl⟩

/-- A call for a symbol at a new place succeeds just when the symbol gets along with those before it. -/
theorem Filled.step (h : Filled s done ctx c) (hdone : Compatible done) (hnew : ∀ y ∈ done, y.span ≠ x.span) :
    (∃ c', c.declare s x = .ok c' ∧ Compatible (done ++ [x]) ∧ Filled s (done ++ [x]) ctx c') ∨
    ∃ e, c.declare s x = .error e ∧ ¬ Compatible (done ++ [x]) := by
  have hfound := h.symbolIn? x.name
  cases hd : c.declare s x with
  | error e =>
    refine .inr ⟨e, rfl, fun hall => ?_⟩
    obtain ⟨old, hold, -⟩ := error_of_declare hd
    have halong := (along_chosen?_iff hdone (hfound.symm.trans hold)).2 (compatible_concat.1 hall).2
    obtain ⟨c', hc'⟩ := declare_ok_of_along hold halong
    rw [hd] at hc'
    cases hc'
  | ok c' =>
    refine .inl ⟨c', rfl, ?_⟩
    rw [compatible_concat]
    rcases declare_cases hd with ⟨old, hold, hspan, -⟩ | ⟨old, hold, hbody, htype, hx, rfl⟩ | ⟨hnone, rfl⟩ |
      ⟨old, hold, hbody, hx, htype, rfl⟩
    · exact absurd hspan (hnew old (mem_of_chosen? (hfound.symm.trans hold)).1)
    · -- a function without a body changes nothing
      rw [hfound] at hold
      have hno : x.hasBody = false := by simp [Symbol.hasBody, hx]
      have halong : Along old x := ⟨hbody, by simp [hx], htype, fun hboth => by simp [hno] at hboth⟩
      refine ⟨⟨hdone, (along_chosen?_iff hdone hold).1 halong⟩, h.keep ?_⟩
      rw [chosen?_concat_old hold hno, hold]
    · -- the first symbol of its name
      rw [hfound] at hnone
      refine ⟨⟨hdone, fun y hy hname => ?_⟩, h.put (chosen?_concat_first hnone)⟩
      exact absurd hname (chosen?_eq_none_iff.1 hnone y hy)
    · -- a body takes the place of a declaration without one
      rw [hfound] at hold
      have hno : old.hasBody = false := by simp [Symbol.hasBody, hbody]
      have halong : Along old x := ⟨by simp [hbody], by simp [hx], htype, fun hboth => by simp [hno] at hboth⟩
      refine ⟨⟨hdone, (along_chosen?_iff hdone hold).1 halong⟩, h.put ?_⟩
      exact chosen?_concat_body hold hno (by simp [Symbol.hasBody, hx])

theorem Compatible.left (h : Compatible (done ++ todo)) : Compatible done := by
  rw [compatible_iff] at h ⊢
  exact (List.pairwise_append.1 h).1

/-- The remaining calls succeed just when all of the symbols get along. -/
theorem Filled.run (h : Filled s done ctx c) (hdone : Compatible done) (hspans : ((done ++ todo).map (·.span)).Nodup) :
    ((∀ answer ∈ ((declareAll s todo).run c).1, answer = .ok ()) ↔ Compatible (done ++ todo)) ∧
      (Compatible (done ++ todo) → Filled s (done ++ todo) ctx ((declareAll s todo).run c).2) := by
  induction todo generalizing c done with
  | nil =>
    rw [List.append_nil]
    exact ⟨⟨fun _ => hdone, fun _ _ ha => absurd ha List.not_mem_nil⟩, fun _ => h⟩
  | cons x todo ih =>
    have hnew : ∀ y ∈ done, y.span ≠ x.span := by
      rw [List.map_append, List.nodup_append] at hspans
      exact fun y hy => hspans.2.2 _ (List.mem_map_of_mem hy) _ (List.mem_map_of_mem List.mem_cons_self)
    rw [List.append_cons] at hspans ⊢
    rw [run_declareAll_cons, run_declareCall]
    rcases h.step hdone hnew with ⟨c', hc', hdone', h'⟩ | ⟨e, he, hno⟩
    · rw [hc']
      have hrest := ih h' hdone' hspans
      simpa using hrest
    · rw [he]
      refine ⟨⟨fun hall => ?_, fun hall => absurd hall.left hno⟩, fun hall => absurd hall.left hno⟩
      exact absurd (hall _ List.mem_cons_self) nofun

/-! ## calls made once more -/

theorem Filled.holds (h : Filled s symbols ctx c) (hok : Compatible symbols) (hx : x ∈ symbols) : Holds c s x := by
  have hne : chosen? symbols x.name ≠ none := fun hnone => chosen?_eq_none_iff.1 hnone x hx rfl
  obtain ⟨old, hold⟩ := Option.ne_none_iff_exists'.1 hne
  refine ⟨old, (h.symbolIn? x.name).trans hold, ?_⟩
  obtain ⟨hmem, hname⟩ := mem_of_chosen? hold
  by_cases heq : old = x
  · exact .inl heq
  · have halong := hok.along hmem hx hname heq
    refine .inr ⟨halong.left, halong.type, ?_⟩
    obtain ⟨b, hb⟩ := Option.isSome_iff_exists.1 halong.right
    cases b with
    | false => exact hb
    | true =>
      have hbody : x.hasBody = true := by simp [Symbol.hasBody, hb]
      exact absurd ⟨hasBody_of_chosen? hold hx rfl hbody, hbody⟩ halong.body

theorem run_declareAll_of_holds (h : ∀ x ∈ symbols, Holds c s x) :
    (declareAll s symbols).run c = (symbols.map fun _ => .ok (), c) := by
  induction symbols with
  | nil => rfl
  | cons x xs ih =>
    have hx := (h x List.mem_cons_self).declare_eq
    rw [run_declareAll_cons, run_declareCall, hx]
    simp only [ih fun y hy => h y (List.mem_cons_of_mem _ hy), List.map_cons]

/-- **Calls for symbols in an empty scope all succeed just when the symbols get along**, whatever their order; then the
scope has one symbol for every name, the one with a body or else the first, and the same calls once more change
nothing. A call that fails in any context points at both places and leaves that context. -/
theorem declareAll_spec {parent : Option ScopeId} (hempty : ctx.scope? s = some ⟨parent, []⟩)
    (hspans : (symbols.map (·.span)).Nodup) :
    ((∀ answer ∈ ((declareAll s symbols).run ctx).1, answer = .ok ()) ↔ Compatible symbols) ∧
    (Compatible symbols →
      Filled s symbols ctx ((declareAll s symbols).run ctx).2 ∧
      (declareAll s symbols).run ((declareAll s symbols).run ctx).2 =
        (symbols.map fun _ => .ok (), ((declareAll s symbols).run ctx).2)) ∧
    ∀ c c' symbol e, (declareCall s symbol).run.run c = (.error e, c') → c' = c ∧ ∃ old,
      c.symbolIn? s symbol.name = some old ∧ e = ⟨.alreadyDeclared symbol.name, symbol.span, some old.span⟩ := by
  have hstart : Filled s [] ctx ctx := ⟨rfl, rfl, fun _ _ => rfl, rfl, _, hempty, onePerName_nil parent⟩
  have hnil : Compatible [] := compatible_iff.2 .nil
  obtain ⟨hiff, hfilled⟩ := hstart.run hnil hspans
  refine ⟨hiff, fun hok => ⟨hfilled hok, ?_⟩, ?_⟩
  · exact run_declareAll_of_holds fun x hx => (hfilled hok).holds hok hx
  · intro c c' symbol e h
    rw [run_declareCall] at h
    cases hd : c.declare s symbol with
    | ok ctx' =>
      rw [hd] at h
      cases h
    | error e' =>
      rw [hd] at h
      obtain ⟨he, rfl⟩ := Prod.mk.inj h
      obtain rfl := Except.error.inj he
      exact ⟨rfl, error_of_declare hd⟩

/-- A function is declared, then a variable, then the function gets its body and is declared again. -/
theorem declareAll_spec_prototypes : ∃ (symbols : List Symbol) (ctx' : Context),
    symbols.map (fun x => (x.name, x.kind.body?)) =
      [("f", some false), ("x", none), ("f", some true), ("f", some false)] ∧
    Compatible symbols ∧ (ctx'.scope? .root).map (·.symbols.map (·.span)) = some [⟨20, 21⟩, ⟨10, 11⟩] ∧
    (declareAll .root symbols).run .new = ([.ok (), .ok (), .ok (), .ok ()], ctx') ∧ Filled .root symbols .new ctx' ∧
    (declareAll .root symbols).run ctx' = ([.ok (), .ok (), .ok (), .ok ()], ctx') := by
  let symbols : List Symbol :=
    [⟨"f", .int, ⟨0, 1⟩, .function [] false⟩, ⟨"x", .float, ⟨10, 11⟩, .variable⟩,
      ⟨"f", .int, ⟨20, 21⟩, .function [] true⟩, ⟨"f", .int, ⟨30, 31⟩, .function [] false⟩]
  have hrun : ((declareAll .root symbols).run .new).1 = [.ok (), .ok (), .ok (), .ok ()] := by decide +kernel
  have hempty : Context.new.scope? .root = some ⟨none, []⟩ := rfl
  have hspans : (symbols.map (·.span)).Nodup := by decide
  have hspec := declareAll_spec hempty hspans
  have hok : Compatible symbols := hspec.1.1 (by simp [hrun])
  obtain ⟨hfilled, hagain⟩ := hspec.2.1 hok
  exact ⟨symbols, _, rfl, hok, by decide +kernel, Prod.ext hrun rfl, hfilled, hagain⟩

end Context

end LetFn
