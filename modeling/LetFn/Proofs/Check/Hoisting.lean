import LetFn.Proofs.Check.Declaring
import LetFn.Proofs.Check.Scoping

/-!
# Functions that are known beforehand

All functions of a tree are declared before anything else is looked at, so the types of functions are in the table when
the first types are given, and these enter none. The parts of a function type are built-in types, so a type is spelled
the same however the table grows.

* `Owned ctx` — every symbol has a type that the table has;
* `Flat ctx` — function types have built-in parts;
* `Hoisted ctx n` — the type of the function that a node defines is in the table.

Main facts: `display_eq`, `hoisted_of_signatures`.
-/

namespace LetFn

namespace Context

variable {ctx ctx' : Context} {s : ScopeId} {symbol : Symbol} {t : TypeId}

/-! ## all symbols -/

/-- A property of all symbols of a context. -/
def AllSymbols (P : Symbol → Prop) (ctx : Context) : Prop := ∀ scope ∈ ctx.scopes, ∀ symbol ∈ scope.symbols, P symbol

theorem AllSymbols.imp {P Q : Symbol → Prop} (h : AllSymbols P ctx) (hPQ : ∀ symbol, P symbol → Q symbol) :
    AllSymbols Q ctx := fun scope hscope symbol hsymbol => hPQ symbol (h scope hscope symbol hsymbol)

theorem AllSymbols.of_symbolIn? {P : Symbol → Prop} (h : AllSymbols P ctx) {name : String}
    (hs : ctx.symbolIn? s name = some symbol) : P symbol := by
  obtain ⟨scope, hscope, hfind⟩ := Option.bind_eq_some_iff.1 hs
  exact h scope (List.mem_of_getElem? hscope) symbol (List.mem_of_find?_eq_some hfind)

theorem AllSymbols.of_lookup {P : Symbol → Prop} (h : AllSymbols P ctx) {s' : ScopeId} {name : String}
    (hs : ctx.lookup s name = some (s', symbol)) : P symbol := h.of_symbolIn? (symbolIn?_of_lookup hs)

theorem AllSymbols.of_scopes {P : Symbol → Prop} (h : AllSymbols P ctx) (hs : ctx'.scopes = ctx.scopes) :
    AllSymbols P ctx' := by
  unfold AllSymbols
  rwa [hs]

theorem mem_put {scope : Scope} {x : Symbol} (h : x ∈ (scope.put symbol).symbols) : x = symbol ∨ x ∈ scope.symbols := by
  unfold Scope.put at h
  split at h
  · obtain ⟨old, hold, rfl⟩ := List.mem_map.1 h
    split
    · exact .inl rfl
    · exact .inr hold
  · rcases List.mem_append.1 h with h | h
    · exact .inr h
    · exact .inl (List.mem_singleton.1 h)

theorem AllSymbols.put {P : Symbol → Prop} (h : AllSymbols P ctx) (hs : P symbol) : AllSymbols P (ctx.put s symbol) := by
  intro scope hscope x hx
  obtain ⟨i, hi⟩ := List.mem_iff_getElem?.1 hscope
  rw [Context.put, List.getElem?_modify] at hi
  obtain ⟨old, hold, rfl⟩ := Option.map_eq_some_iff.1 hi
  have hold := h old (List.mem_of_getElem? hold)
  split at hx
  · rcases mem_put hx with rfl | hx
    · exact hs
    · exact hold x hx
  · exact hold x hx

theorem AllSymbols.declare {P : Symbol → Prop} (h : AllSymbols P ctx) (hs : P symbol)
    (hd : ctx.declare s symbol = .ok ctx') : AllSymbols P ctx' := by
  rcases eq_or_put_of_declare hd with rfl | rfl
  · exact h
  · exact h.put hs

/-- Every symbol has a type that the table has. -/
def Owned (ctx : Context) : Prop := AllSymbols (fun symbol => symbol.type.index < ctx.types.length) ctx

/-! ## spelling -/

/-- Function types take and return built-in types. -/
def Flat (ctx : Context) : Prop :=
  ∀ {params result}, Ty.function params result ∈ ctx.types → (∀ p ∈ params, Builtin p) ∧ Builtin result

/-- **A type is spelled the same** however the table grows. -/
theorem display_eq (hr : Regular ctx) (hflat : Flat ctx) (h : ctx.types <+: ctx'.types) (ht : t.index < ctx.types.length) :
    ctx'.display t = ctx.display t := by
  have hwithin : ∀ fuel t, t.index < ctx.types.length → ctx'.displayWithin fuel t = ctx.displayWithin fuel t := by
    intro fuel
    induction fuel with
    | zero => exact fun _ _ => rfl
    | succ fuel ih =>
      intro t ht
      have htype : ctx'.type t = ctx.type t := by
        obtain ⟨more, hmore⟩ := h
        rw [type, type, ← hmore, List.getD_append _ _ _ _ ht]
      unfold displayWithin
      rw [htype]
      cases hty : ctx.type t with
      | function params result =>
        obtain ⟨hparams, hresult⟩ := hflat (type_mem hty (by rintro ⟨⟩))
        have hmap : params.map (ctx'.displayWithin fuel) = params.map (ctx.displayWithin fuel) :=
          List.map_congr_left fun p hp => ih p (hr.builtin_lt (hparams p hp))
        simp only [hmap, ih result (hr.builtin_lt hresult)]
      | _ => rfl
  exact hwithin _ t ht

end Context

namespace Check

open Context (Builtin Owned Flat AllSymbols)

variable {ctx ctx' : Context}

/-! ## function types -/

/-- The type of the function that a node defines is in the table, if the node defines one. -/
def Hoisted (ctx : Context) (n : Node) : Prop :=
  ∀ name params result body, n.form = .functionDef name params result body →
    ∀ sig, signature params result = .ok sig → Ty.function sig.params sig.result ∈ ctx.types

theorem Hoisted.mono {n : Node} (h : Hoisted ctx n) (htypes : ctx.types <+: ctx'.types) : Hoisted ctx' n :=
  fun _ _ _ _ hform sig hsig => htypes.subset (h _ _ _ _ hform sig hsig)

/-- What is true of a context as long as only functions are declared. -/
structure Prepared (ctx : Context) : Prop where
  owned : Owned ctx
  flat : Flat ctx

/-- The scopes of a program hold no symbols at first. -/
theorem allSymbols_of_scopes {P : Symbol → Prop} (n : Node) : AllSymbols P (scopes .new n).2 := by
  obtain ⟨more, hmore, hempty⟩ := (stamps_of_stamp .root .new n).opens
  intro scope hscope symbol hsymbol
  have hnone : scope.symbols = [] := by
    rw [scopes, hmore] at hscope
    rcases List.mem_append.1 hscope with hscope | hscope
    · rw [List.mem_singleton.1 (show scope ∈ [(⟨none, []⟩ : Scope)] from hscope)]
    · exact hempty scope hscope
  rw [hnone] at hsymbol
  cases hsymbol

theorem prepared_of_scopes (n : Node) : Prepared (scopes .new n).2 := by
  obtain ⟨more, hmore, -⟩ := (stamps_of_stamp .root .new n).opens
  refine ⟨allSymbols_of_scopes n, fun hf => ?_⟩
  rw [scopes, hmore] at hf
  exact absurd hf (by simp [Context.new, Ty.builtins])

theorem prepared_of_declareFunction (hc : Prepared ctx) {s : ScopeId} {name : Token} {ps : List (Param Node)}
    {result : Node} {body : Option Node} {sig : Signature}
    (h : declareFunction ctx s name ps result body = .ok (sig, ctx')) :
    Prepared ctx' ∧ ctx.types <+: ctx'.types ∧ Ty.function sig.params sig.result ∈ ctx'.types := by
  obtain ⟨hsig, hdeclare⟩ := declareFunction_eq_ok h
  obtain ⟨hbuiltin, -, hparams⟩ := builtin_of_signature hsig
  generalize hty : Ty.function sig.params sig.result = ty at hdeclare
  have htypes := (ctx.extends_intern ty).types
  have hmem : ty ∈ (ctx.intern ty).2.types := Context.type_mem (ctx.type_intern ty) (by rw [← hty]; exact nofun)
  have hlt := intern_lt_length ctx ty (by rw [← hty]; exact nofun)
  have htypes' := (Context.declare_types hdeclare).1
  refine ⟨⟨?_, fun {ps r} hf => ?_⟩, htypes' ▸ htypes, htypes' ▸ hmem⟩
  · have hold : AllSymbols (fun symbol => symbol.type.index < (ctx.intern ty).2.types.length) (ctx.intern ty).2 := by
      rw [AllSymbols, ctx.intern_scopes]
      exact hc.owned.imp fun _ hs => Nat.lt_of_lt_of_le hs htypes.length_le
    rw [Owned, htypes']
    exact hold.declare hlt hdeclare
  · rw [htypes'] at hf
    rcases ctx.intern_cases ty with ⟨_, -, hi⟩ | ⟨-, hi⟩
    · exact hc.flat (by rwa [hi] at hf)
    · rw [hi] at hf
      rcases List.mem_append.1 hf with hf | hf
      · exact hc.flat hf
      · obtain ⟨rfl, rfl⟩ := Ty.function.inj (hty.trans (List.mem_singleton.1 hf).symm)
        refine ⟨fun p hp => ?_, hbuiltin⟩
        obtain ⟨_, -, hp⟩ := forall₂_of_mem hparams hp
        exact builtin_of_typeNamedBy hp

theorem hoisted_of_declareDefinitions {ns : List Node} (hc : Prepared ctx)
    (h : ns.foldlM declareDefinition ctx = .ok ctx') :
    Prepared ctx' ∧ ctx.types <+: ctx'.types ∧ ∀ n ∈ ns, Hoisted ctx' n := by
  induction ns generalizing ctx with
  | nil =>
    obtain rfl : ctx = ctx' := by simpa [pure, Except.pure] using h
    exact ⟨hc, List.prefix_refl _, nofun⟩
  | cons n ns ih =>
    simp only [List.foldlM_cons, bind_eq_ok] at h
    obtain ⟨ctx₁, hn, h⟩ := h
    have hfirst : Prepared ctx₁ ∧ ctx.types <+: ctx₁.types ∧ Hoisted ctx₁ n := by
      rcases declareDefinition_cases hn with ⟨name, ps, result, body, sig, hform, hd⟩ | ⟨hnot, rfl⟩
      · obtain ⟨hc, htypes, hmem⟩ := prepared_of_declareFunction hc hd
        refine ⟨hc, htypes, fun _ _ _ _ hform' sig' hsig' => ?_⟩
        obtain ⟨rfl, rfl, rfl, rfl⟩ := Form.functionDef.inj (hform.symm.trans hform')
        obtain rfl := Except.ok.inj ((declareFunction_eq_ok hd).1.symm.trans hsig')
        exact hmem
      · exact ⟨hc, List.prefix_refl _, fun _ _ _ _ hform => absurd hform (hnot _ _ _ _)⟩
    obtain ⟨hc₁, htypes₁, hhoisted⟩ := hfirst
    obtain ⟨hc', htypes', hrest⟩ := ih hc₁ h
    exact ⟨hc', htypes₁.trans htypes', List.forall_mem_cons.2 ⟨hhoisted.mono htypes', hrest⟩⟩

/-- **With its functions declared** a tree has all its function types in the table. -/
theorem hoisted_of_signatures {n : Node} (hc : Prepared ctx) (h : signatures ctx n = .ok ctx') :
    Prepared ctx' ∧ n.Everywhere (Hoisted ctx') := by
  obtain ⟨hc', -, hall⟩ := hoisted_of_declareDefinitions hc h
  exact ⟨hc', hall⟩

end Check

end LetFn
