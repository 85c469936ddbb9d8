import LetFn.Proofs.Check.FirstTypes
import LetFn.Proofs.Check.Hoisting
import LetFn.Proofs.Tree.Revisions

/-!
# First types with and without type variables

Where every initializer widens to the declared type, a variable with a type variable settles on its declared type. So
the two ways of giving first types go side by side: what the one notes is what the notes of the other lead to.

* `Widened ctx ctxU` — the table of `ctxU` is that of `ctx` with type variables behind it;
* `Mirrors C ctx ctxU` — what symbols have in `ctxU` leads to what they have in `ctx`;
* `Mirrored C z y` — `y` is `z` with every note replaced by what it leads to.

Main fact: `Materializes.mirrored`.
-/

namespace LetFn

namespace Context

variable {ctx ctx' ctxU C : Context} {s : ScopeId} {symbol symbolU : Symbol} {a b t u : TypeId} {name : String}

/-! ## tables with type variables behind -/

/-- The second table is the first one with type variables behind it. -/
def Widened (ctx ctxU : Context) : Prop := ∃ more, ctxU.types = ctx.types ++ more ∧ ∀ ty ∈ more, ty.isHole = true

theorem Widened.of_types (h : ctxU.types = ctx.types) : Widened ctx ctxU := ⟨[], by rw [h, List.append_nil], nofun⟩

theorem Widened.table (h : Widened ctx ctxU) : ctx.types <+: ctxU.types := by
  obtain ⟨more, hmore, -⟩ := h
  exact ⟨more, hmore.symm⟩

theorem Widened.type_eq (h : Widened ctx ctxU) (ht : t.index < ctx.types.length) : ctxU.type t = ctx.type t := by
  obtain ⟨more, hmore, -⟩ := h
  unfold type
  rw [hmore, List.getD_append _ _ _ _ ht]

/-- A number means the same in both tables, or nothing in the first and a type variable in the second. -/
theorem Widened.type_cases (h : Widened ctx ctxU) (t : TypeId) :
    ctxU.type t = ctx.type t ∨ ctx.type t = .void ∧ (ctxU.type t).isHole = true := by
  by_cases ht : t.index < ctx.types.length
  · exact .inl (h.type_eq ht)
  · obtain ⟨more, hmore, hholes⟩ := h
    have hle := Nat.le_of_not_lt ht
    unfold type
    rw [hmore, List.getD_append_right _ _ _ _ hle, List.getD_eq_default _ _ hle]
    by_cases hlt : t.index - ctx.types.length < more.length
    · rw [List.getD_eq_getElem _ _ hlt]
      exact .inr ⟨rfl, hholes _ (List.getElem_mem hlt)⟩
    · rw [List.getD_eq_default _ _ (Nat.le_of_not_lt hlt)]
      exact .inl rfl

/-- A type of the second table is a type variable or one of the first. -/
theorem Widened.known (h : Widened ctx ctxU) (ht : t.index < ctxU.types.length) (hnot : (ctxU.type t).isHole = false) :
    t.index < ctx.types.length := by
  obtain ⟨more, hmore, hholes⟩ := h
  by_contra hge
  have hle := Nat.le_of_not_lt hge
  rw [hmore, List.length_append] at ht
  have hlt : t.index - ctx.types.length < more.length := by omega
  rw [type, hmore, List.getD_append_right _ _ _ _ hle, List.getD_eq_getElem _ _ hlt,
    hholes _ (List.getElem_mem hlt)] at hnot
  cases hnot

theorem Widened.rank?_eq (h : Widened ctx ctxU) (t : TypeId) : (ctxU.type t).rank? = (ctx.type t).rank? := by
  rcases h.type_cases t with heq | ⟨hvoid, hhole⟩
  · rw [heq]
  · obtain ⟨v, hv⟩ := exists_of_isHole hhole
    rw [hvoid, hv]
    rfl

theorem Widened.function_iff (h : Widened ctx ctxU) {params : List TypeId} {result : TypeId} :
    ctxU.type t = .function params result ↔ ctx.type t = .function params result := by
  rcases h.type_cases t with heq | ⟨hvoid, hhole⟩
  · rw [heq]
  · obtain ⟨v, hv⟩ := exists_of_isHole hhole
    rw [hvoid, hv]
    exact ⟨nofun, nofun⟩

theorem Widened.isNumeric_eq (h : Widened ctx ctxU) (t : TypeId) : ctxU.isNumeric t = ctx.isNumeric t := by
  unfold isNumeric Ty.isNumeric
  rw [h.rank?_eq]

theorem Widened.promote_eq (h : Widened ctx ctxU) (a b : TypeId) : ctxU.promote a b = ctx.promote a b := by
  unfold promote
  rw [h.rank?_eq, h.rank?_eq]

theorem Widened.coerces_eq (h : Widened ctx ctxU) (a b : TypeId) : ctxU.coerces a b = ctx.coerces a b := by
  unfold coerces
  rw [h.promote_eq]

theorem Widened.withHole (h : Widened ctx ctxU) (u : TypeId) : Widened ctx (ctxU.withHole u) := by
  obtain ⟨more, hmore, hholes⟩ := h
  refine ⟨more ++ [.hole ⟨ctxU.bindings.length⟩], ?_, fun ty hty => ?_⟩
  · rw [Context.withHole, hmore, List.append_assoc]
  · rcases List.mem_append.1 hty with hty | hty
    · exact hholes ty hty
    · rw [List.mem_singleton.1 hty]
      rfl

/-- A type that the first table has keeps its number. -/
theorem intern_of_prefix {ty : Ty} (h : ctx.types <+: ctxU.types) (hty : ty ∈ ctx.types) :
    ∃ i, ctx.intern ty = (i, ctx) ∧ ctxU.intern ty = (i, ctxU) := by
  obtain ⟨more, hmore⟩ := h
  rcases ctx.intern_cases ty with ⟨i, hi, heq⟩ | ⟨hnew, -⟩
  · refine ⟨⟨i⟩, heq, ?_⟩
    have hi' : ctxU.types.idxOf? ty = some i := by
      rw [← hmore]
      simp only [List.idxOf?, List.findIdx?_append] at hi ⊢
      rw [hi]
      rfl
    unfold intern
    rw [hi']
  · exact absurd hty hnew

/-! ## symbols with what their types lead to -/

/-- The symbol with what its type leads to. -/
def ended (ctx : Context) (symbol : Symbol) : Symbol := { symbol with type := ctx.resolve symbol.type }

/-- The scope with what the types of its symbols lead to. -/
def endedScope (ctx : Context) (scope : Scope) : Scope := { scope with symbols := scope.symbols.map ctx.ended }

theorem resolveSymbols_scopes (ctx : Context) : ctx.resolveSymbols.scopes = ctx.scopes.map ctx.endedScope := rfl

theorem find?_endedScope (scope : Scope) (name : String) :
    (ctx.endedScope scope).find? name = (scope.find? name).map ctx.ended := by
  rw [Scope.find?, endedScope, List.find?_map]
  rfl

theorem extends_put (ctx : Context) (s : ScopeId) (symbol : Symbol) : Extends ctx (ctx.put s symbol) :=
  ⟨List.prefix_refl _, id⟩

theorem put_endedScope (scope : Scope) (symbol : Symbol) :
    (ctx.endedScope scope).put (ctx.ended symbol) = ctx.endedScope (scope.put symbol) := by
  unfold Scope.put
  rw [show (ctx.ended symbol).name = symbol.name from rfl, find?_endedScope]
  cases scope.find? symbol.name with
  | none => simp [endedScope]
  | some old =>
    simp only [Option.map_some, endedScope, List.map_map, Scope.mk.injEq, true_and]
    refine List.map_congr_left fun x _ => ?_
    simp only [Function.comp_apply, show (ctx.ended x).name = x.name from rfl]
    split <;> rfl

/-- Entering a symbol and following the types of all symbols go together. -/
theorem resolveSymbols_put (ctx : Context) (s : ScopeId) (symbol : Symbol) :
    (ctx.put s symbol).resolveSymbols.scopes = (ctx.resolveSymbols.put s (ctx.ended symbol)).scopes := by
  have hended : (ctx.put s symbol).endedScope = ctx.endedScope := funext fun scope => by
    have hres := funext (resolve_of_types rfl rfl : ∀ t, (ctx.put s symbol).resolve t = ctx.resolve t)
    unfold endedScope ended
    rw [hres]
  rw [resolveSymbols_scopes, hended]
  refine List.ext_getElem? fun i => ?_
  simp only [put, resolveSymbols_scopes, List.getElem?_map, List.getElem?_modify]
  cases ctx.scopes[i]? with
  | none => rfl
  | some scope =>
    by_cases hi : s.index = i
    · simp [hi, put_endedScope]
    · simp [hi]

theorem lookup_resolveSymbols (ctx : Context) (s : ScopeId) (name : String) :
    ctx.resolveSymbols.lookup s name = (ctx.lookup s name).map fun found => (found.1, ctx.ended found.2) := by
  unfold lookup
  generalize s.index + 1 = fuel
  induction fuel generalizing s with
  | zero => rfl
  | succ fuel ih =>
    simp only [lookupWithin, scope?, resolveSymbols_scopes, List.getElem?_map]
    cases ctx.scopes[s.index]? with
    | none => rfl
    | some scope =>
      simp only [Option.map_some, find?_endedScope]
      cases scope.find? name with
      | none =>
        simp only [Option.map_none, endedScope]
        cases scope.parent with
        | none => rfl
        | some parent => exact ih parent
      | some symbol => rfl

theorem lookup_of_scopes (h : ctx'.scopes = ctx.scopes) (s : ScopeId) (name : String) :
    ctx'.lookup s name = ctx.lookup s name := by
  unfold lookup
  generalize s.index + 1 = fuel
  induction fuel generalizing s with
  | zero => rfl
  | succ fuel ih =>
    simp only [lookupWithin, scope?, h]
    cases ctx.scopes[s.index]? with
    | none => rfl
    | some scope =>
      cases hfind : scope.find? name with
      | none =>
        cases hparent : scope.parent with
        | none => simp [hfind, hparent]
        | some parent => simpa [hfind, hparent] using ih parent
      | some symbol => simp [hfind]

/-! ## contexts side by side -/

/-- The symbol has a type of the table, which is no type variable if the symbol is a function. -/
structure Held (ctx : Context) (symbol : Symbol) : Prop where
  known : symbol.type.index < ctx.types.length
  function : symbol.kind.body?.isSome → (ctx.type symbol.type).isHole = false

theorem Held.mono (h : Held ctx symbol) (hext : Extends ctx ctx') : Held ctx' symbol :=
  ⟨Nat.lt_of_lt_of_le h.known hext.types.length_le, fun hf => by rw [hext.type_eq h.known]; exact h.function hf⟩

/-- The first context has no type variables, and the table of `C`. The second one has more types, all of them variables,
and the same symbols, whose types lead to those in the first. -/
structure Mirrors (C ctx ctxU : Context) : Prop where
  table : ctx.types = C.types
  bindings : ctx.bindings = []
  regular : Regular ctxU
  widened : Widened C ctxU
  scopes : ctxU.resolveSymbols.scopes = ctx.scopes
  held : AllSymbols (Held ctxU) ctxU

theorem Mirrors.resolves (hm : Mirrors C ctx ctxU) {span : Span}
    (h : ctx.resolveSymbol s name span = .ok symbol) :
    ∃ symbolU, ctxU.resolveSymbol s name span = .ok symbolU ∧ symbol = ctxU.ended symbolU ∧
      symbolU.type.index < ctxU.types.length := by
  have hlookup : ctx.lookup s name = (ctxU.lookup s name).map fun found => (found.1, ctxU.ended found.2) := by
    rw [← lookup_resolveSymbols, lookup_of_scopes hm.scopes]
  unfold resolveSymbol at h ⊢
  rw [hlookup] at h
  cases hfound : ctxU.lookup s name with
  | none => simp [hfound] at h
  | some found =>
    obtain ⟨s', symbolU⟩ := found
    simp only [hfound, Option.map_some, Except.ok.injEq] at h
    have hfound' : ctxU.resolveSymbol s name span = .ok symbolU := by
      unfold Context.resolveSymbol
      rw [hfound]
    obtain ⟨_, hin⟩ := symbolIn?_of_resolveSymbol hfound'
    exact ⟨symbolU, rfl, h.symm, (hm.held.of_symbolIn? hin).known⟩

theorem Mirrors.symbolIn?_eq (hm : Mirrors C ctx ctxU) (s : ScopeId) (name : String) :
    ctx.symbolIn? s name = (ctxU.symbolIn? s name).map ctxU.ended := by
  rw [← symbolIn?_of_scopes hm.scopes]
  exact Check.symbolIn?_resolveSymbols ctxU s name

theorem Mirrors.put (hm : Mirrors C ctx ctxU) (hheld : Held ctxU symbolU) :
    Mirrors C (ctx.put s (ctxU.ended symbolU)) (ctxU.put s symbolU) where
  table := hm.table
  bindings := hm.bindings
  regular := hm.regular.of_types rfl rfl
  widened := hm.widened
  scopes := by
    rw [resolveSymbols_put, Context.put, Context.put, hm.scopes]
  held := (hm.held.imp fun _ hs => hs.mono (extends_put _ _ _)).put (hheld.mono (extends_put _ _ _))

/-- A declaration goes through with type variables if it does without. -/
theorem Mirrors.declare (hm : Mirrors C ctx ctxU) (hheld : Held ctxU symbolU)
    (h : ctx.declare s (ctxU.ended symbolU) = .ok ctx') :
    ∃ ctxU', ctxU.declare s symbolU = .ok ctxU' ∧ Mirrors C ctx' ctxU' ∧ Extends ctxU ctxU' := by
  have hput := extends_put ctxU s symbolU
  unfold Context.declare at h ⊢
  rw [show (ctxU.ended symbolU).name = symbolU.name from rfl, hm.symbolIn?_eq] at h
  cases hold : ctxU.symbolIn? s symbolU.name with
  | none =>
    simp only [hold, Option.map_none, Except.ok.injEq] at h
    exact ⟨_, rfl, h ▸ hm.put hheld, hput⟩
  | some old =>
    simp only [hold, Option.map_some, show (ctxU.ended old).span = old.span from rfl,
      show (ctxU.ended symbolU).span = symbolU.span from rfl, show (ctxU.ended old).kind = old.kind from rfl,
      show (ctxU.ended symbolU).kind = symbolU.kind from rfl] at h ⊢
    by_cases hspan : old.span = symbolU.span
    · simp only [hspan, if_true, Except.ok.injEq] at h ⊢
      exact ⟨_, rfl, h ▸ hm, .refl _⟩
    · simp only [hspan, if_false] at h ⊢
      -- the types of functions are no variables, so they lead to themselves
      have hends : ∀ {symbol}, Held ctxU symbol → symbol.kind.body?.isSome → (ctxU.ended symbol).type = symbol.type :=
        fun hs hbody => resolve_of_not_hole (hs.function hbody)
      cases hb : old.kind.body? with
      | none => simp [hb] at h
      | some oldBody =>
        cases hb' : symbolU.kind.body? with
        | none => simp [hb, hb'] at h
        | some newBody =>
          simp only [hb, hb', hends (hm.held.of_symbolIn? hold) (by simp [hb]), hends hheld (by simp [hb'])] at h ⊢
          split at h
          · next hsame =>
            rw [if_pos hsame]
            cases newBody with
            | false => exact ⟨_, rfl, Except.ok.inj h ▸ hm, .refl _⟩
            | true => exact ⟨_, rfl, Except.ok.inj h ▸ hm.put hheld, hput⟩
          · simp at h

/-- The second context may get a type variable that stands for a built-in type. -/
theorem Mirrors.withHole (hm : Mirrors C ctx ctxU) (hu : Builtin u) : Mirrors C ctx (ctxU.withHole u) := by
  have hext := ctxU.extends_withHole u
  have hregular := hm.regular.withHole (hm.regular.builtin_lt hu) (hm.regular.builtin_not_hole hu)
  refine ⟨hm.table, hm.bindings, hregular, hm.widened.withHole u, ?_, hm.held.imp fun _ hs => hs.mono hext⟩
  rw [← hm.scopes, resolveSymbols_scopes, resolveSymbols_scopes]
  refine List.map_congr_left fun scope hscope => ?_
  unfold endedScope
  congr 1
  refine List.map_congr_left fun symbol hsymbol => ?_
  rw [ended, ended, hext.resolve_eq hm.regular hregular (hm.held scope hscope symbol hsymbol).known]

/-- A type variable that stands for a type stays as it is when it is unified with a lower one. -/
theorem Regular.unify_withHole_lower (hr : Regular ctx) (ha : a.index < ctx.types.length)
    (hnot : (ctx.type a).isHole = false) (hb : b.index < ctx.types.length)
    (hle : ctx.coerces (ctx.resolve b) a = true) (span : Span) :
    (ctx.withHole a).unify ctx.nextType ((ctx.withHole a).resolve b) span = .ok (a, ctx.withHole a) := by
  have hext := ctx.extends_withHole a
  have hr' := hr.withHole ha hnot
  have hres : (ctx.withHole a).resolve b = ctx.resolve b := hext.resolve_eq hr hr' hb
  have hend : ((ctx.withHole a).type (ctx.resolve b)).isHole = false := by
    rw [hext.type_eq (hr.resolve_lt hb)]
    exact hr.resolve_not_hole b
  have hself : (ctx.withHole a).type a = ctx.type a := hext.type_eq ha
  simp only [unify, hres, hr'.resolve_withHole, resolve_of_not_hole hend]
  split
  · rfl
  · next hne =>
    have hpromote : (ctx.withHole a).promote a (ctx.resolve b) = some a := by
      rcases coerces_iff.1 hle with heq | ⟨r, r', hrank, hrank', hlt⟩
      · exact absurd heq.symm hne
      · rw [promote_eq_some_iff, hself, hext.type_eq (hr.resolve_lt hb)]
        exact ⟨r', r, hrank', hrank, by rw [if_pos ((Rank.le_total r r').resolve_right hlt)]⟩
    split
    · next hv => exact absurd hnot (by simp [← hself, hv, Ty.isHole])
    · next hv _ => exact absurd hend (by simp [hv, Ty.isHole])
    · simp only [hpromote, raise_withHole ha hnot, raise_of_not_hole hend]

end Context

namespace Check

open Context (Builtin Extends Regular Mirrors Held)
open Node (Everywhere)

variable {C ctx ctx₁ ctx₂ ctx' ctxU ctxU' : Context} {s : ScopeId} {x y z : Node}

/-! ## trees side by side -/

/-- The second tree has what the notes of the first lead to, which are all of the table. -/
structure Mirrored (ctx : Context) (z y : Node) : Prop where
  known : z.Everywhere fun w => ∀ t ∈ w.type, t.index < ctx.types.length
  eq : y = z.mapType (·.map ctx.resolve)

theorem Mirrored.mono (h : Mirrored ctxU z y) (hext : Extends ctxU ctxU') (hr : Regular ctxU) (hr' : Regular ctxU') :
    Mirrored ctxU' z y := by
  refine ⟨h.known.mono fun w hw t ht => Nat.lt_of_lt_of_le (hw t ht) hext.types.length_le, h.eq.trans ?_⟩
  refine Node.mapType_congr (h.known.mono fun w hw => ?_)
  exact Option.map_congr fun t ht => (hext.resolve_eq hr hr' (hw t ht)).symm

theorem Mirrored.typeId (h : Mirrored ctxU z y) (hr : Regular ctxU) : y.typeId = ctxU.resolve z.typeId := by
  rw [h.eq, typeId_mapType hr]

theorem Mirrored.typeId_lt (h : Mirrored ctxU z y) (hr : Regular ctxU) : z.typeId.index < ctxU.types.length := by
  have hself := h.known.self
  unfold Node.typeId
  cases ht : z.type with
  | none => exact hr.builtin_lt (show Builtin .void by decide)
  | some t => exact hself t ht

/-- A node mirrors another if its parts do and its own note does. -/
theorem mirrored_node {span : Span} {scope : Option ScopeId} {t u : TypeId} {f g : Form Node}
    (hparts : Form.Rel (Mirrored ctxU) g f) (hu : u.index < ctxU.types.length) (ht : ctxU.resolve u = t) :
    Mirrored ctxU ⟨span, scope, some u, g⟩ ⟨span, scope, some t, f⟩ := by
  refine ⟨Node.everywhere_iff.2 ⟨fun t ht => ?_, fun c hc => ?_⟩, ?_⟩
  · rwa [← Option.some.inj ht]
  · obtain ⟨_, -, hc⟩ := forall₂_of_mem hparts.parts.flip hc
    exact hc.known
  · rw [Node.mapType_eq, Option.map_some, ht, Node.eq_mapTypeParts (hparts.imp Mirrored.eq)]

/-- A name on which a type is noted. -/
theorem mirrored_name (hx : x.IsName) {t u : TypeId} (hu : u.index < ctxU.types.length) (ht : ctxU.resolve u = t) :
    Mirrored ctxU { x with type := some u } { x with type := some t } := by
  obtain ⟨span, scope, type, form⟩ := x
  obtain ⟨token, -, rfl⟩ := hx
  exact mirrored_node (.literal token) hu ht

theorem mirrored_builtin (hr : Regular ctxU) (hx : x.IsName) {t : TypeId} (ht : Builtin t) :
    Mirrored ctxU { x with type := some t } { x with type := some t } :=
  mirrored_name hx (hr.builtin_lt ht) (hr.resolve_builtin ht)

theorem mirrored_void {span : Span} {scope : Option ScopeId} {f g : Form Node} (hr : Regular ctxU)
    (hparts : Form.Rel (Mirrored ctxU) g f) :
    Mirrored ctxU ⟨span, scope, some .void, g⟩ ⟨span, scope, some .void, f⟩ :=
  have hvoid : Builtin .void := by decide
  mirrored_node hparts (hr.builtin_lt hvoid) (hr.resolve_builtin hvoid)

/-- The parameters of a function have built-in types, with type variables and without. -/
theorem mirrored_params {ps qs : List (Param Node)} (hr : Regular ctxU)
    (hps : ∀ p ∈ ps, p.name.IsName ∧ p.type.IsName)
    (hqs : List.Forall₂ (fun p q => ∃ t, typeNamedBy p.type = .ok t ∧
      q = (⟨{ p.name with type := some t }, { p.type with type := some t }⟩ : Param Node)) ps qs) :
    List.Forall₂ (Param.Rel (Mirrored ctxU)) qs qs := by
  refine List.forall₂_same.2 fun q hq => ?_
  obtain ⟨p, hp, t, ht, rfl⟩ := forall₂_of_mem hqs hq
  have ht := builtin_of_typeNamedBy ht
  exact ⟨mirrored_builtin hr (hps p hp).1 ht, mirrored_builtin hr (hps p hp).2 ht⟩

theorem prefixType_of_mirrored {operator : Token} (hr : Regular ctxU) (h : Mirrored ctxU z y) :
    (prefixType operator z).index < ctxU.types.length ∧
      ctxU.resolve (prefixType operator z) = prefixType operator y := by
  have hint : Builtin .int := by decide
  unfold prefixType
  split
  · exact ⟨hr.builtin_lt hint, hr.resolve_builtin hint⟩
  · exact ⟨h.typeId_lt hr, (h.typeId hr).symm⟩

theorem infixType_of_mirrored {operator : Token} (hr : Regular ctxU) (h : Mirrored ctxU z y) :
    (infixType operator z).index < ctxU.types.length ∧ ctxU.resolve (infixType operator z) = infixType operator y := by
  have hint : Builtin .int := by decide
  unfold infixType
  split
  · exact ⟨hr.builtin_lt hint, hr.resolve_builtin hint⟩
  · exact ⟨h.typeId_lt hr, (h.typeId hr).symm⟩

theorem blockType_of_mirrored {a b : Option Node} (hr : Regular ctxU) (h : Option.Rel (Mirrored ctxU) b a) :
    (blockType b).index < ctxU.types.length ∧ ctxU.resolve (blockType b) = blockType a := by
  have hvoid : Builtin .void := by decide
  cases h with
  | none => exact ⟨hr.builtin_lt hvoid, hr.resolve_builtin hvoid⟩
  | some h => exact ⟨h.typeId_lt hr, (h.typeId hr).symm⟩

/-! ## steps side by side -/

/-- A leaf gets a type that leads to the one it has without type variables. -/
theorem leafType_mirrored (hm : Mirrors C ctx ctxU) {token : Token} {span : Span} {noted type : Option TypeId}
    (hkind : token.kind ∈ Grammar.primaryKinds) (h : leafType ctx s token span noted = .ok type) :
    ∃ t u, type = some t ∧ leafType ctxU s token span noted = .ok (some u) ∧ u.index < ctxU.types.length ∧
      ctxU.resolve u = t := by
  have hbuiltin : ∀ {t}, Builtin t → t.index < ctxU.types.length ∧ ctxU.resolve t = t := fun ht =>
    ⟨hm.regular.builtin_lt ht, hm.regular.resolve_builtin ht⟩
  unfold leafType at h ⊢
  split at h
  · next hk => exact ⟨_, _, (Except.ok.inj h).symm, rfl, hbuiltin (show Builtin .int by decide)⟩
  · next hk => exact ⟨_, _, (Except.ok.inj h).symm, rfl, hbuiltin (show Builtin .float by decide)⟩
  · next hk => exact ⟨_, _, (Except.ok.inj h).symm, rfl, hbuiltin (show Builtin .string by decide)⟩
  · next hk =>
    simp only [bind_eq_ok, pure, Except.pure, Except.ok.injEq] at h
    obtain ⟨symbol, hsymbol, rfl⟩ := h
    obtain ⟨symbolU, hsymbolU, rfl, hlt⟩ := hm.resolves hsymbol
    exact ⟨_, symbolU.type, rfl, by simp [hsymbolU, bind, Except.bind, pure, Except.pure], hlt, rfl⟩
  · simp_all [Grammar.primaryKinds]

theorem declareFunction_mirrored (hm : Mirrors C ctx ctxU) {name : Token} {ps : List (Param Node)} {r : Node}
    {b : Option Node} {sig : Signature} (hsig : Ty.function sig.params sig.result ∈ C.types)
    (h : declareFunction ctx s name ps r b = .ok (sig, ctx')) :
    ∃ ctxU', declareFunction ctxU s name ps r b = .ok (sig, ctxU') ∧ Mirrors C ctx' ctxU' ∧ Extends ctxU ctxU' := by
  obtain ⟨hsignature, hdeclare⟩ := declareFunction_eq_ok h
  have htable : ctx.types <+: ctxU.types := hm.table ▸ hm.widened.table
  obtain ⟨i, hi, hiU⟩ := Context.intern_of_prefix htable (hm.table ▸ hsig)
  rw [hi] at hdeclare
  have htype : ctxU.type i = .function sig.params sig.result := by
    rw [← ctxU.type_intern (.function sig.params sig.result), hiU]
  have hheld : Held ctxU (functionSymbol name ps b i) :=
    ⟨Context.lt_length_of_type_ne (by rw [functionSymbol, htype]; exact nofun), fun _ => by
      rw [functionSymbol, htype]
      rfl⟩
  have hended : ctxU.ended (functionSymbol name ps b i) = functionSymbol name ps b i := by
    rw [Context.ended, Context.resolve_of_not_hole (hheld.function rfl)]
  obtain ⟨ctxU', hdeclareU, hm', hext⟩ := hm.declare hheld (hended.symm ▸ hdeclare)
  refine ⟨ctxU', ?_, hm', hext⟩
  have hdeclareU : ctxU.declare s (functionSymbol name ps b i) = .ok ctxU' := hdeclareU
  unfold functionSymbol at hdeclareU
  simp [declareFunction, hsignature, hiU, hdeclareU, bind, Except.bind, pure, Except.pure]

/-- The symbol that a parameter declares. -/
def parameterSymbol (name : Node) (t : TypeId) : Symbol :=
  { name := name.identifier?.getD "", type := t, span := name.span, kind := .parameter }

theorem declareParams_mirrored (hm : Mirrors C ctx ctxU) {ps qs : List (Param Node)} {ts : List TypeId}
    (hts : ∀ t ∈ ts, Builtin t) (h : declareParams ctx ps ts = .ok (qs, ctx')) :
    ∃ ctxU', declareParams ctxU ps ts = .ok (qs, ctxU') ∧ Mirrors C ctx' ctxU' ∧ Extends ctxU ctxU' := by
  induction ps generalizing ctx ctxU ts qs with
  | nil =>
    obtain ⟨rfl, rfl⟩ := Prod.mk.inj (Except.ok.inj h)
    exact ⟨ctxU, rfl, hm, .refl _⟩
  | cons p ps ih =>
    cases ts with
    | nil =>
      obtain ⟨rfl, rfl⟩ := Prod.mk.inj (Except.ok.inj h)
      exact ⟨ctxU, rfl, hm, .refl _⟩
    | cons t ts =>
      simp only [declareParams, bind_eq_ok, Prod.exists, pure, Except.pure, Except.ok.injEq, Prod.mk.injEq] at h
      obtain ⟨ctx₁, hdeclare, qs, ctx₂, hrest, rfl, rfl⟩ := h
      have ht := hts t List.mem_cons_self
      have hheld : Held ctxU (parameterSymbol p.name t) := ⟨hm.regular.builtin_lt ht, by rintro ⟨⟩⟩
      have hended : ctxU.ended (parameterSymbol p.name t) = parameterSymbol p.name t := by
        rw [Context.ended, parameterSymbol, hm.regular.resolve_builtin ht]
      have hdeclare : ctx.declare p.name.scopeId (ctxU.ended (parameterSymbol p.name t)) = .ok ctx₁ :=
        hended.symm ▸ hdeclare
      obtain ⟨ctxU₁, hdeclareU, hm₁, hext₁⟩ := hm.declare hheld hdeclare
      obtain ⟨ctxU', hrestU, hm', hext'⟩ := ih hm₁ (fun u hu => hts u (List.mem_cons_of_mem _ hu)) hrest
      refine ⟨ctxU', ?_, hm', hext₁.trans hext'⟩
      unfold parameterSymbol at hdeclareU
      simp [declareParams, hdeclareU, hrestU, bind, Except.bind, pure, Except.pure]

/-- A call returns the same type. -/
theorem callType_mirrored (hm : Mirrors C ctx ctxU) (hz : Mirrored ctxU z y) {t : TypeId}
    (h : callType ctx y = .ok t) :
    callType ctxU z = .ok t ∧ t.index < ctxU.types.length ∧ ctxU.resolve t = t := by
  obtain ⟨params, hparams⟩ := callType_eq_ok h
  have hfunction : ctxU.type (ctxU.resolve z.typeId) = .function params t := by
    rw [hm.widened.function_iff, ← Context.type_of_types hm.table, ← hz.typeId hm.regular,
      ← resolve_of_no_bindings hm.bindings y.typeId]
    exact hparams
  have ht := hm.regular.functions (Context.type_mem hfunction nofun)
  refine ⟨?_, hm.regular.builtin_lt ht, hm.regular.resolve_builtin ht⟩
  simp [callType, hfunction, pure, Except.pure]

/-- A variable settles on its declared type if its initializer may stand for that. -/
theorem variableType_mirrored (hm : Mirrors C ctx ctxU) {declared : TypeId} (hd : Builtin declared)
    (span : Span) {i j : Option Node} (hi : Option.Rel (Mirrored ctxU) j i)
    (hfits : ∀ w ∈ i, C.coerces w.typeId declared = true) :
    variableType .unification ctxU declared span j = .ok (ctxU.nextType, ctxU.withHole declared) := by
  have hlt := hm.regular.builtin_lt hd
  have hnot := hm.regular.builtin_not_hole hd
  have hnext : ctxU.fresh.1 = ctxU.nextType := by rw [hm.regular.fresh_eq]
  simp only [variableType, hm.regular.unify_fresh hlt hnot]
  cases hi with
  | none => simp [hnext, bind, Except.bind, pure, Except.pure]
  | some hw =>
    have hle := hfits _ rfl
    rw [← hm.widened.coerces_eq, hw.typeId hm.regular] at hle
    have hunify := hm.regular.unify_withHole_lower hlt hnot (hw.typeId_lt hm.regular) hle
    simp [hnext, hunify, bind, Except.bind, pure, Except.pure]

/-! ## runs side by side -/

theorem types_of_declareParams {ps qs : List (Param Node)} {ts : List TypeId}
    (h : declareParams ctx ps ts = .ok (qs, ctx')) : ctx'.types = ctx.types := by
  induction ps generalizing ctx ts qs with
  | nil =>
    obtain ⟨rfl, rfl⟩ := Prod.mk.inj (Except.ok.inj h)
    rfl
  | cons p ps ih =>
    cases ts with
    | nil =>
      obtain ⟨rfl, rfl⟩ := Prod.mk.inj (Except.ok.inj h)
      rfl
    | cons t ts =>
      simp only [declareParams, bind_eq_ok, Prod.exists, pure, Except.pure, Except.ok.injEq, Prod.mk.injEq] at h
      obtain ⟨ctx₁, hdeclare, qs, ctx₂, hrest, rfl, rfl⟩ := h
      exact (ih hrest).trans (Context.declare_types hdeclare).1

/-- First types with declared types alone enter no type into the table, for the functions are known. -/
theorem Materializes.types_eq {job : Typing} (h : Materializes .nominal ctx job ctx')
    (hx : ∀ x ∈ job.before, x.Everywhere (Hoisted C)) (hC : ctx.types = C.types) : ctx'.types = C.types := by
  have hchild : ∀ {n : Node}, (∀ z ∈ [n], z.Everywhere (Hoisted C)) → ∀ c ∈ n.children, c.Everywhere (Hoisted C) :=
    fun h c hc => (h _ List.mem_cons_self).child hc
  induction h with
  | literal | nil | none => exact hC
  | prefixOp _ ih | statement _ ih | root _ ih => exact ih (hchild hx) hC
  | infixOp _ _ ihl ihr =>
    obtain ⟨hl, hr⟩ := List.forall_mem_cons.1 (hchild hx)
    exact ihr hr (ihl (List.forall_mem_singleton.2 hl) hC)
  | block _ _ ihi iht =>
    obtain ⟨hi, ht⟩ := List.forall_mem_append.1 (hchild hx)
    exact iht ht (ihi hi hC)
  | functionDef declares params _ ihb =>
    refine ihb (fun c hc => hchild hx c (List.mem_append_left _ (List.mem_append_right _ hc))) ?_
    obtain ⟨hsig, hdeclare⟩ := declareFunction_eq_ok declares
    have hmem := (hx _ List.mem_cons_self).self _ _ _ _ rfl _ hsig
    obtain ⟨i, hi, -⟩ := Context.intern_of_prefix (List.prefix_refl _) (hC.symm ▸ hmem)
    rw [hi] at hdeclare
    exact (types_of_declareParams params).trans ((Context.declare_types hdeclare).1.trans hC)
  | functionCall _ _ _ ihc iha =>
    obtain ⟨hc, ha⟩ := List.forall_mem_cons.1 (hchild hx)
    exact iha ha (ihc (List.forall_mem_singleton.2 hc) hC)
  | variableDef _ _ settles declares ihi =>
    obtain ⟨-, rfl⟩ := Prod.mk.inj (Except.ok.inj settles)
    rw [(Context.declare_types declares).1]
    exact ihi (fun c hc => hchild hx c (List.mem_cons_of_mem _ (List.mem_cons_of_mem _ hc))) hC
  | cons _ _ ihf iho =>
    obtain ⟨hf, ho⟩ := List.forall_mem_cons.1 hx
    exact iho ho (ihf (List.forall_mem_singleton.2 hf) hC)
  | some _ ih => exact ih hx hC

/-- The initializer of a variable may stand for the declared type. -/
def Fits (ctx : Context) (n : Node) : Prop :=
  match n.form with
  | .variableDef _ type (some initializer) => ctx.coerces initializer.typeId type.typeId = true
  | _ => True

/-- Pieces that are the same before their first types and mirror each other after. -/
inductive Typing.Mirrored (ctx : Context) : Typing → Typing → Prop where
  | node {a b c} (after : Check.Mirrored ctx c b) : Typing.Mirrored ctx (.node a b) (.node a c)
  | list {xs ys zs} (after : List.Forall₂ (Check.Mirrored ctx) zs ys) :
      Typing.Mirrored ctx (.list xs ys) (.list xs zs)
  | option {a b c} (after : Option.Rel (Check.Mirrored ctx) c b) : Typing.Mirrored ctx (.option a b) (.option a c)

/-- From a context with type variables a run goes on as the given one, and leads to a context that mirrors its end. -/
def Alongside (C ctxU : Context) (job : Typing) (ctx' : Context) : Prop :=
  ∃ jobU ctxU', Materializes .unification ctxU jobU ctxU' ∧ Extends ctxU ctxU' ∧ Mirrors C ctx' ctxU' ∧
    job.Mirrored ctxU' jobU

theorem Alongside.node (h : Alongside C ctxU (.node x y) ctx') : ∃ z ctxU',
    Materializes .unification ctxU (.node x z) ctxU' ∧ Extends ctxU ctxU' ∧ Mirrors C ctx' ctxU' ∧
      Mirrored ctxU' z y := by
  obtain ⟨_, ctxU', hrun, hext, hm, hjob⟩ := h
  cases hjob with
  | node after => exact ⟨_, ctxU', hrun, hext, hm, after⟩

theorem Alongside.list {xs ys : List Node} (h : Alongside C ctxU (.list xs ys) ctx') : ∃ zs ctxU',
    Materializes .unification ctxU (.list xs zs) ctxU' ∧ Extends ctxU ctxU' ∧ Mirrors C ctx' ctxU' ∧
      List.Forall₂ (Mirrored ctxU') zs ys := by
  obtain ⟨_, ctxU', hrun, hext, hm, hjob⟩ := h
  cases hjob with
  | list after => exact ⟨_, ctxU', hrun, hext, hm, after⟩

theorem Alongside.option {a b : Option Node} (h : Alongside C ctxU (.option a b) ctx') : ∃ c ctxU',
    Materializes .unification ctxU (.option a c) ctxU' ∧ Extends ctxU ctxU' ∧ Mirrors C ctx' ctxU' ∧
      Option.Rel (Mirrored ctxU') c b := by
  obtain ⟨_, ctxU', hrun, hext, hm, hjob⟩ := h
  cases hjob with
  | option after => exact ⟨_, ctxU', hrun, hext, hm, after⟩

section

variable {span : Span} {scope : Option ScopeId}

/-- The definition of a function, from what is known of its body. -/
theorem functionDef_mirrored (hm : Mirrors C ctx ctxU) {type : Option TypeId} {name : Token}
    {ps qs : List (Param Node)} {r : Node} {b b' : Option Node} {sig : Signature}
    (hx : Everywhere (fun z => z.form.Shaped ∧ Hoisted C z) ⟨span, scope, type, .functionDef name ps r b⟩)
    (declares : declareFunction ctx (scope.getD .root) name ps r b = .ok (sig, ctx₁))
    (params : declareParams ctx₁ ps sig.params = .ok (qs, ctx₂))
    (body : ∀ {ctxU}, Mirrors C ctx₂ ctxU →
      (∀ c ∈ b.toList, c.Everywhere fun z => z.form.Shaped ∧ Hoisted C z) → Alongside C ctxU (.option b b') ctx') :
    Alongside C ctxU (.node ⟨span, scope, type, .functionDef name ps r b⟩
      ⟨span, scope, some .void, .functionDef name qs { r with type := some sig.result } b'⟩) ctx' := by
  obtain ⟨⟨-, hnames, hresult, -⟩, hhoisted⟩ := hx.self
  obtain ⟨hsig, -⟩ := declareFunction_eq_ok declares
  obtain ⟨hbuiltin, -, htypes⟩ := builtin_of_signature hsig
  have hbuiltins : ∀ t ∈ sig.params, Builtin t := fun t ht => by
    obtain ⟨p, -, hp⟩ := forall₂_of_mem htypes ht
    exact builtin_of_typeNamedBy hp
  have hb : ∀ c ∈ b.toList, c.Everywhere fun z => z.form.Shaped ∧ Hoisted C z := fun c hc =>
    hx.child (List.mem_append_left _ (List.mem_append_right _ hc))
  obtain ⟨ctxU₁, declaresU, hm₁, hext₁⟩ := declareFunction_mirrored hm (hhoisted _ _ _ _ rfl _ hsig) declares
  obtain ⟨ctxU₂, paramsU, hm₂, hext₂⟩ := declareParams_mirrored hm₁ hbuiltins params
  obtain ⟨_, ctxU', hrun, hext, hm', hb'⟩ := (body hm₂ hb).option
  have hqs := mirrored_params hm'.regular hnames (declareParams_notes htypes params).2
  exact ⟨_, ctxU', .functionDef declaresU paramsU hrun, hext₁.trans (hext₂.trans hext), hm',
    .node (mirrored_void hm'.regular (.functionDef hqs (mirrored_builtin hm'.regular hresult hbuiltin) hb'))⟩

/-- The definition of a variable, from what is known of its initializer. -/
theorem variableDef_mirrored {noted : Option TypeId} {name type : Node} {i i' : Option Node} {declared t : TypeId}
    (hx : Everywhere (fun z => z.form.Shaped ∧ Hoisted C z) ⟨span, scope, noted, .variableDef name type i⟩)
    (hy : Fits C ⟨span, scope, some .void,
      .variableDef { name with type := some t } { type with type := some declared } i'⟩)
    (named : typeNamedBy type = .ok declared)
    (settles : variableType .nominal ctx₁ declared type.span i' = .ok (t, ctx₂))
    (declares : ctx₂.declare (scope.getD .root) (variableSymbol name t) = .ok ctx')
    (initializer : ∃ j ctxU', Materializes .unification ctxU (.option i j) ctxU' ∧ Extends ctxU ctxU' ∧
      Mirrors C ctx₁ ctxU' ∧ Option.Rel (Mirrored ctxU') j i') :
    Alongside C ctxU (.node ⟨span, scope, noted, .variableDef name type i⟩
      ⟨span, scope, some .void,
        .variableDef { name with type := some t } { type with type := some declared } i'⟩) ctx' := by
  obtain ⟨hname, htype⟩ := hx.self.1
  obtain ⟨rfl, rfl⟩ := Prod.mk.inj (Except.ok.inj settles)
  have hbuiltin := builtin_of_typeNamedBy named
  obtain ⟨j, ctxU₁, hrun, hext₁, hm₁, hj⟩ := initializer
  have hfits : ∀ w ∈ i', C.coerces w.typeId declared = true := fun w hw => by
    obtain rfl := Option.mem_def.1 hw
    exact hy
  have hsettles := variableType_mirrored hm₁ hbuiltin type.span hj hfits
  -- the variable has a type variable that stands for the declared type
  have hext₂ := ctxU₁.extends_withHole declared
  have hm₂ := hm₁.withHole hbuiltin
  have hends : (ctxU₁.withHole declared).resolve ctxU₁.nextType = declared := hm₂.regular.resolve_withHole
  have hnext : ctxU₁.nextType.index < (ctxU₁.withHole declared).types.length := by
    simp [Context.nextType, Context.withHole]
  have hheld : Held (ctxU₁.withHole declared) (variableSymbol name ctxU₁.nextType) := ⟨hnext, by rintro ⟨⟩⟩
  have hended : (ctxU₁.withHole declared).ended (variableSymbol name ctxU₁.nextType) = variableSymbol name declared := by
    rw [Context.ended, variableSymbol, hends, variableSymbol]
  obtain ⟨ctxU', hdeclares, hm', hext'⟩ := hm₂.declare hheld (hended.symm ▸ declares)
  have hj := option_rel_imp (fun h => h.mono (hext₂.trans hext') hm₁.regular hm'.regular) hj
  have hends' := (hext'.resolve_eq hm₂.regular hm'.regular hnext).trans hends
  refine ⟨_, ctxU', .variableDef named hrun hsettles hdeclares, hext₁.trans (hext₂.trans hext'), hm',
    .node (mirrored_void hm'.regular (.variableDef (mirrored_name hname ?_ hends') ?_ hj))⟩
  · exact Nat.lt_of_lt_of_le hnext hext'.types.length_le
  · exact mirrored_builtin hm'.regular htype hbuiltin

end

/-- **First types are given side by side**: from a context that mirrors another one, unification goes through where
declared types alone do, if every initializer fits, and what it notes leads to what is noted without it. -/
theorem Materializes.mirrored {job : Typing} (h : Materializes .nominal ctx job ctx') (hm : Mirrors C ctx ctxU)
    (hx : ∀ x ∈ job.before, x.Everywhere fun z => z.form.Shaped ∧ Hoisted C z)
    (hy : ∀ y ∈ job.after, y.Everywhere (Fits C)) : Alongside C ctxU job ctx' := by
  have hchild : ∀ {P : Node → Prop} {n : Node}, (∀ z ∈ [n], z.Everywhere P) → ∀ c ∈ n.children, c.Everywhere P :=
    fun h c hc => (h _ List.mem_cons_self).child hc
  induction h generalizing ctxU with
  | literal leaf =>
    obtain ⟨t, u, rfl, hleaf, hu, ht⟩ := leafType_mirrored hm (hx _ List.mem_cons_self).self.1 leaf
    exact ⟨_, ctxU, .literal hleaf, .refl _, hm, .node (mirrored_node (.literal _) hu ht)⟩
  | prefixOp _ ih =>
    obtain ⟨_, ctxU', hrun, hext, hm', hz⟩ := (ih hm (hchild hx) (hchild hy)).node
    obtain ⟨hlt, hends⟩ := prefixType_of_mirrored hm'.regular hz
    exact ⟨_, ctxU', .prefixOp hrun, hext, hm', .node (mirrored_node (.prefixOp hz) hlt hends)⟩
  | infixOp _ _ ihl ihr =>
    obtain ⟨hxl, hxr⟩ := List.forall_mem_cons.1 (hchild hx)
    obtain ⟨hyl, hyr⟩ := List.forall_mem_cons.1 (hchild hy)
    obtain ⟨_, ctxU₁, hrun₁, hext₁, hm₁, hl⟩ :=
      (ihl hm (List.forall_mem_singleton.2 hxl) (List.forall_mem_singleton.2 hyl)).node
    obtain ⟨_, ctxU', hrun, hext, hm', hr⟩ := (ihr hm₁ hxr hyr).node
    have hl := hl.mono hext hm₁.regular hm'.regular
    obtain ⟨hlt, hends⟩ := infixType_of_mirrored hm'.regular hl
    exact ⟨_, ctxU', .infixOp hrun₁ hrun, hext₁.trans hext, hm', .node (mirrored_node (.infixOp hl hr) hlt hends)⟩
  | statement _ ih =>
    obtain ⟨_, ctxU', hrun, hext, hm', hz⟩ := (ih hm (hchild hx) (hchild hy)).node
    exact ⟨_, ctxU', .statement hrun, hext, hm', .node (mirrored_void hm'.regular (.statement hz))⟩
  | block _ _ ihi iht =>
    obtain ⟨hxi, hxt⟩ := List.forall_mem_append.1 (hchild hx)
    obtain ⟨hyi, hyt⟩ := List.forall_mem_append.1 (hchild hy)
    obtain ⟨_, ctxU₁, hrun₁, hext₁, hm₁, hi⟩ := (ihi hm hxi hyi).list
    obtain ⟨_, ctxU', hrun, hext, hm', ht⟩ := (iht hm₁ hxt hyt).option
    have hi := hi.imp fun _ _ h => h.mono hext hm₁.regular hm'.regular
    obtain ⟨hlt, hends⟩ := blockType_of_mirrored hm'.regular ht
    exact ⟨_, ctxU', .block hrun₁ hrun, hext₁.trans hext, hm', .node (mirrored_node (.block hi ht) hlt hends)⟩
  | functionDef declares params _ ihb =>
    exact functionDef_mirrored hm (hx _ List.mem_cons_self) declares params fun hm hx => ihb hm hx
      fun c hc => hchild hy c (List.mem_append_left _ (List.mem_append_right _ hc))
  | functionCall _ _ result ihc iha =>
    obtain ⟨hxc, hxa⟩ := List.forall_mem_cons.1 (hchild hx)
    obtain ⟨hyc, hya⟩ := List.forall_mem_cons.1 (hchild hy)
    obtain ⟨_, ctxU₁, hrun₁, hext₁, hm₁, hc⟩ :=
      (ihc hm (List.forall_mem_singleton.2 hxc) (List.forall_mem_singleton.2 hyc)).node
    obtain ⟨_, ctxU', hrun, hext, hm', ha⟩ := (iha hm₁ hxa hya).list
    have hc := hc.mono hext hm₁.regular hm'.regular
    obtain ⟨hcall, hlt, hends⟩ := callType_mirrored hm' hc result
    exact ⟨_, ctxU', .functionCall hrun₁ hrun hcall, hext₁.trans hext, hm',
      .node (mirrored_node (.functionCall hc ha) hlt hends)⟩
  | variableDef named _ settles declares ihi =>
    exact variableDef_mirrored (hx _ List.mem_cons_self) (hy _ List.mem_cons_self).self named settles declares
      (ihi hm (fun c hc => hchild hx c (List.mem_cons_of_mem _ (List.mem_cons_of_mem _ hc)))
        fun c hc => hchild hy c (List.mem_cons_of_mem _ (List.mem_cons_of_mem _ hc))).option
  | root _ ih =>
    obtain ⟨_, ctxU', hrun, hext, hm', hz⟩ := (ih hm (hchild hx) (hchild hy)).list
    exact ⟨_, ctxU', .root hrun, hext, hm', .node (mirrored_void hm'.regular (.root hz))⟩
  | nil => exact ⟨_, ctxU, .nil, .refl _, hm, .list .nil⟩
  | cons _ _ ihf iho =>
    obtain ⟨hxf, hxo⟩ := List.forall_mem_cons.1 hx
    obtain ⟨hyf, hyo⟩ := List.forall_mem_cons.1 hy
    obtain ⟨_, ctxU₁, hrun₁, hext₁, hm₁, hf⟩ :=
      (ihf hm (List.forall_mem_singleton.2 hxf) (List.forall_mem_singleton.2 hyf)).node
    obtain ⟨_, ctxU', hrun, hext, hm', ho⟩ := (iho hm₁ hxo hyo).list
    exact ⟨_, ctxU', .cons hrun₁ hrun, hext₁.trans hext, hm',
      .list (.cons (hf.mono hext hm₁.regular hm'.regular) ho)⟩
  | none => exact ⟨_, ctxU, .none, .refl _, hm, .option .none⟩
  | some _ ih =>
    obtain ⟨_, ctxU', hrun, hext, hm', hz⟩ := (ih hm hx hy).node
    exact ⟨_, ctxU', .some hrun, hext, hm', .option (.some hz)⟩

end Check

end LetFn
