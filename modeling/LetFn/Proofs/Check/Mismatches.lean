import LetFn.Proofs.Check.CallErrors
import LetFn.Proofs.Check.Complete
import LetFn.Proofs.Check.Mirroring
import LetFn.Proofs.Grammar.Within
import LetFn.Proofs.Types.Displaying

/-!
# Mismatches that can be told apart

An error about two types that do not fit spells both of them. The types were given out by the context and are different
ones, for a type fits itself, and types of different numbers are spelled differently. So the author of a program is
never told that one spelling does not fit the same spelling.

* `Cause.sides? cause` — the spellings of the two types that do not fit;
* `Error.TellsApart e` — these differ;
* `Tells x` — a step that fails has an error that tells apart what it speaks of;
* `Readable ctx` — types and spellings of a context go together one to one, and unification tells types apart.

Main facts: `Complete.display_ne`, `tells_materialize`, `tells_revise`, `spellings_apart`.
-/

namespace LetFn

/-- The spellings of the two types that do not fit, if the cause speaks of two types. -/
def Cause.sides? : Cause → Option (String × String)
  | noCommonAncestor expected received => some (expected, received)
  | argumentMismatch _ expected received => some (expected, received)
  | assignmentMismatch left right => some (left, right)
  | returnTypeMismatch expected received => some (expected, received)
  | _ => none

/-- An error about two types spells them differently. -/
def Error.TellsApart (e : Error) : Prop := ∀ x y, e.cause.sides? = some (x, y) → x ≠ y

theorem Cause.category_of_sides? {cause : Cause} {sides : String × String} (h : cause.sides? = some sides) :
    cause.category = .typing := by
  cases cause <;> first | rfl | cases h

theorem Error.tellsApart_of_category {e : Error} (h : e.cause.category ≠ .typing) : e.TellsApart :=
  fun _ _ hsides => absurd (Cause.category_of_sides? hsides) h

theorem Error.tellsApart_of_none {e : Error} (h : e.cause.sides? = none) : e.TellsApart := by
  intro x y hsides
  rw [h] at hsides
  cases hsides

theorem Error.tellsApart_of_ne {e : Error} {x y : String} (h : e.cause.sides? = some (x, y)) (hne : x ≠ y) :
    e.TellsApart := by
  intro x' y' hsides
  obtain ⟨rfl, rfl⟩ := Prod.mk.inj (Option.some.inj (h.symm.trans hsides))
  exact hne

/-! ## steps that tell types apart -/

section

variable {α β : Type} {e : Error}

/-- A step that fails has an error that tells apart the types it speaks of. -/
def Tells (x : Except Error α) : Prop := ∀ e, x = .error e → e.TellsApart

theorem tells_ok (a : α) : Tells (.ok a) := nofun

/-- An error that does not speak of two types. -/
theorem tells_silent (h : e.cause.sides? = none) : Tells (.error e : Except Error α) := by
  rintro _ ⟨⟩
  exact Error.tellsApart_of_none h

theorem tells_mismatch {x y : String} (h : e.cause.sides? = some (x, y)) (hne : x ≠ y) :
    Tells (.error e : Except Error α) := by
  rintro _ ⟨⟩
  exact Error.tellsApart_of_ne h hne

theorem Tells.bind {x : Except Error α} {f : α → Except Error β} (h : Tells x)
    (hf : ∀ a, x = .ok a → Tells (f a)) : Tells (x >>= f) := by
  intro e he
  rcases bind_eq_error.1 he with he | ⟨a, ha, he⟩
  · exact h e he
  · exact hf a ha e he

theorem tells_mapM {f : α → Except Error β} (h : ∀ x, Tells (f x)) (xs : List α) : Tells (xs.mapM f) := by
  induction xs with
  | nil => exact tells_ok _
  | cons x xs ih =>
    rw [List.mapM_cons]
    exact (h x).bind fun _ _ => ih.bind fun _ _ => tells_ok _

theorem tells_foldlM {f : α → β → Except Error α} (h : ∀ a x, Tells (f a x)) (xs : List β) (a : α) :
    Tells (xs.foldlM f a) := by
  induction xs generalizing a with
  | nil => exact tells_ok _
  | cons x xs ih =>
    rw [List.foldlM_cons]
    exact (h a x).bind fun b _ => ih b

end

namespace Context

variable {ctx ctx' : Context} {a b t : TypeId} {params : List TypeId} {result : TypeId} {span : Span}

/-! ## contexts -/

/-- The built-in types are there, and function types are made of older types. -/
structure Furnished (ctx : Context) : Prop where
  builtins : Ty.builtins.map (·.2) <+: ctx.types
  founded : Founded ctx

theorem Furnished.builtin_given (h : Furnished ctx) (ht : Builtin t) : ctx.Given t :=
  Nat.lt_of_lt_of_le ht (by simpa using h.builtins.length_le)

theorem Furnished.of_types (h : Furnished ctx) (htypes : ctx'.types = ctx.types) : Furnished ctx' :=
  ⟨htypes ▸ h.builtins, h.founded.of_types htypes⟩

/-- The type of a function, whose signature names built-in types, is entered. -/
theorem Furnished.intern (h : Furnished ctx) (hparams : ∀ p ∈ params, Builtin p) (hresult : Builtin result) :
    Furnished (ctx.intern (.function params result)).2 := by
  refine ⟨h.builtins.trans (ctx.extends_intern _).types, h.founded.intern ?_⟩
  rintro _ _ ⟨⟩
  exact ⟨fun p hp => h.builtin_given (hparams p hp), h.builtin_given hresult⟩

theorem Furnished.fresh (h : Furnished ctx) : Furnished ctx.fresh.2 := by
  refine ⟨?_, h.founded.fresh⟩
  have hext := ({ ctx with bindings := ctx.bindings ++ [none] } : Context).extends_intern (.hole ⟨ctx.bindings.length⟩)
  exact h.builtins.trans hext.types

/-- Built-in types are the oldest, so parts that are built in are older than what they are parts of. -/
theorem furnished_of_flat (hr : Regular ctx) (h : Flat ctx) : Furnished ctx := by
  refine ⟨hr.builtins, fun t params result ht => ?_⟩
  obtain ⟨hparams, hresult⟩ := h (type_mem ht nofun)
  have hold : Ty.builtins.length ≤ t.index := by
    by_contra hlt
    rw [hr.type_builtin (Nat.lt_of_not_le hlt)] at ht
    exact absurd (type_mem ht nofun) (by simp [new, Ty.builtins])
  exact ⟨fun p hp => Nat.lt_of_lt_of_le (hparams p hp) hold, Nat.lt_of_lt_of_le hresult hold⟩

/-! ## unification -/

/-- Unification fails between different types, and spells these. -/
theorem Founded.tells_unify (h : Founded ctx) (hn : ctx.types.Nodup) (ha : ctx.Given (ctx.resolve a))
    (hb : ctx.Given (ctx.resolve b)) : Tells (ctx.unify a b span) := by
  intro e he
  obtain ⟨hapart, rfl⟩ := unify_eq_error_iff.1 he
  exact Error.tellsApart_of_ne rfl fun heq => hapart.ne (h.display_inj hn ha hb heq)

end Context

namespace Check

open Context (Builtin Ready Furnished Made)
open Node (Revised Everywhere)

variable {mode : Mode} {ctx ctx' : Context} {n x y : Node} {spans : List Span} {s : ScopeId}

/-! ## declarations -/

theorem tells_typeNamedBy (n : Node) : Tells (typeNamedBy n) := by
  unfold typeNamedBy Context.resolveTypeName
  split
  · exact tells_ok _
  · exact tells_silent rfl

theorem tells_declare (ctx : Context) (s : ScopeId) (symbol : Symbol) : Tells (ctx.declare s symbol) := by
  unfold Context.declare
  split
  · exact tells_ok _
  · split
    · exact tells_ok _
    · split
      · split
        · exact tells_ok _
        · exact tells_silent rfl
      · exact tells_silent rfl

theorem tells_declareFunction (ctx : Context) (s : ScopeId) (name : Token) (ps : List (Param Node)) (result : Node)
    (body : Option Node) : Tells (declareFunction ctx s name ps result body) := by
  have hsignature : Tells (signature ps result) :=
    (tells_mapM (fun p : Param Node => tells_typeNamedBy p.type) ps).bind fun _ _ =>
      (tells_typeNamedBy result).bind fun _ _ => tells_ok _
  exact hsignature.bind fun _ _ => (tells_declare _ s _).bind fun _ _ => tells_ok _

theorem tells_declareParams (ctx : Context) (ps : List (Param Node)) (ts : List TypeId) :
    Tells (declareParams ctx ps ts) := by
  induction ps generalizing ctx ts with
  | nil => exact tells_ok _
  | cons p ps ih =>
    cases ts with
    | nil => exact tells_ok _
    | cons t ts => exact (tells_declare _ _ _).bind fun c _ => (ih c ts).bind fun _ _ => tells_ok _

theorem tells_signatures (ctx : Context) (n : Node) : Tells (signatures ctx n) := by
  refine tells_foldlM (fun ctx n => ?_) _ ctx
  unfold declareDefinition
  split
  · exact (tells_declareFunction _ _ _ _ _ _).bind fun _ _ => tells_ok _
  · exact tells_ok _

/-! ## first types -/

theorem furnished_of_declareFunction (hc : Furnished ctx) {name : Token} {ps : List (Param Node)} {result : Node}
    {body : Option Node} {sig : Signature} (h : declareFunction ctx s name ps result body = .ok (sig, ctx')) :
    Furnished ctx' := by
  obtain ⟨hsig, hdeclare⟩ := declareFunction_eq_ok h
  obtain ⟨hresult, -, hparams⟩ := builtin_of_signature hsig
  refine (hc.intern (fun t ht => ?_) hresult).of_types (Context.declare_types hdeclare).1
  obtain ⟨p, -, hp⟩ := forall₂_of_mem hparams ht
  exact builtin_of_typeNamedBy hp

theorem furnished_of_variableType (hc : Furnished ctx) {declared t : TypeId} {span : Span} {initializer : Option Node}
    (h : variableType mode ctx declared span initializer = .ok (t, ctx')) : Furnished ctx' := by
  cases mode with
  | nominal =>
    obtain ⟨rfl, rfl⟩ := Prod.mk.inj (Except.ok.inj h)
    exact hc
  | unification =>
    simp only [variableType, bind_eq_ok, Prod.exists] at h
    obtain ⟨u, c, hu, h⟩ := h
    have hc := hc.fresh.of_types (Context.tables_of_unify hu).1
    cases initializer with
    | none =>
      obtain ⟨rfl, rfl⟩ := Prod.mk.inj (Except.ok.inj h)
      exact hc
    | some x =>
      simp only [bind_eq_ok, Prod.exists, pure, Except.pure, Except.ok.injEq, Prod.mk.injEq] at h
      obtain ⟨u', c', hu', -, rfl⟩ := h
      exact hc.of_types (Context.tables_of_unify hu').1

theorem Materializes.furnished {job : Typing} (h : Materializes mode ctx job ctx') (hc : Furnished ctx) :
    Furnished ctx' := by
  induction h with
  | literal => exact hc
  | prefixOp _ ih | statement _ ih | root _ ih | some _ ih => exact ih hc
  | infixOp _ _ ih ih' | block _ _ ih ih' | functionCall _ _ _ ih ih' | cons _ _ ih ih' => exact ih' (ih hc)
  | functionDef declares params _ ih =>
    exact ih ((furnished_of_declareFunction hc declares).of_types (types_of_declareParams params))
  | variableDef _ _ settles declares ih =>
    exact (furnished_of_variableType (ih hc) settles).of_types (Context.declare_types declares).1
  | nil | none => exact hc

theorem tells_leafType (ctx : Context) (s : ScopeId) (token : Token) (span : Span) (noted : Option TypeId) :
    Tells (leafType ctx s token span noted) := by
  unfold leafType
  split <;> try exact tells_ok _
  unfold Context.resolveSymbol
  split
  · exact tells_ok _
  · exact tells_silent rfl

theorem tells_callType (ctx : Context) (callee : Node) : Tells (callType ctx callee) := by
  unfold callType
  dsimp only
  split
  · exact tells_ok _
  · exact tells_silent rfl

/-- The type of the initializer and the declared type are different ones if they do not unify. -/
theorem tells_variableType (hr : Ready ctx spans) (hc : Furnished ctx) {declared : TypeId} (hd : Builtin declared)
    (span : Span) {initializer : Option Node} (hi : ∀ x ∈ initializer, ctx.Given x.typeId) :
    Tells (variableType mode ctx declared span initializer) := by
  cases mode with
  | nominal => exact tells_ok _
  | unification =>
    have hlt := hr.regular.builtin_lt hd
    have hnot := hr.regular.builtin_not_hole hd
    have hunify : ctx.fresh.2.unify ctx.fresh.1 declared span = .ok (declared, ctx.withHole declared) :=
      hr.regular.unify_fresh hlt hnot
    simp only [variableType, hunify, ok_bind]
    cases initializer with
    | none => exact tells_ok _
    | some x =>
      -- the new type variable stands for the declared type
      have hnext : ctx.fresh.1 = ctx.nextType := by rw [hr.regular.fresh_eq]
      have hready := (hr.withHole hlt hnot).regular
      have hfounded : (ctx.withHole declared).Founded := hc.founded.grow (Context.partsGiven_hole _) [some declared]
      have hgrown : ∀ {t}, ctx.Given t → (ctx.withHole declared).Given t := fun ht =>
        Nat.lt_of_lt_of_le ht (ctx.extends_withHole declared).types.length_le
      refine (hfounded.tells_unify hready.nodup ?_ ?_).bind fun _ _ => tells_ok _
      · rw [hnext, hready.resolve_withHole]
        exact hgrown hlt
      · exact hready.resolve_lt (hready.resolve_lt (hgrown (hi x rfl)))

/-- The checker comes to the trees behind those that got their first types. -/
theorem Sane.behind {job : Typing} {xs : List Node} (hs : Sane ctx spans (job.before ++ xs))
    (h : Materializes mode ctx job ctx') : Sane ctx' (job.before.flatMap Node.declared ++ spans) xs :=
  have ho := h.outcome hs.left
  hs.right ho.ready ho.step

mutual

/-- **First types that cannot be given** leave an error that tells types apart. -/
theorem tells_materialize : ∀ (n : Node) {ctx : Context} {spans : List Span}, Sane ctx spans [n] → Furnished ctx →
    Tells (materialize mode ctx n)
  | ⟨_, _, _, .literal _⟩, _, _, _, _ => (tells_leafType _ _ _ _ _).bind fun _ _ => tells_ok _
  | ⟨_, _, _, .prefixOp _ operand⟩, _, _, hs, hc =>
    (tells_materialize operand hs.children hc).bind fun _ _ => tells_ok _
  | ⟨_, _, _, .infixOp _ left right⟩, _, _, hs, hc =>
    have hparts : Sane _ _ ([left] ++ [right]) := hs.children
    (tells_materialize left hparts.left hc).bind fun _ hl =>
      have hl := materializes_of_materialize _ hl
      (tells_materialize right (Sane.behind hparts hl) (hl.furnished hc)).bind fun _ _ => tells_ok _
  | ⟨_, _, _, .statement inner⟩, _, _, hs, hc =>
    (tells_materialize inner hs.children hc).bind fun _ _ => tells_ok _
  | ⟨_, _, _, .block items trailing⟩, _, _, hs, hc =>
    have hparts : Sane _ _ (items ++ trailing.toList) := hs.children
    (tells_materializeList items hparts.left hc).bind fun _ hi =>
      have hi := materializes_of_materializeList _ hi
      (tells_materializeOption trailing (Sane.behind hparts hi) (hi.furnished hc)).bind fun _ _ => tells_ok _
  | ⟨_, _, _, .functionDef _ _ _ body⟩, _, _, hs, hc =>
    (tells_declareFunction _ _ _ _ _ _).bind fun _ hdeclares => (tells_declareParams _ _ _).bind fun _ hparams =>
      have hc := (furnished_of_declareFunction hc hdeclares).of_types (types_of_declareParams hparams)
      (tells_materializeOption body (hs.body rfl hdeclares hparams).1 hc).bind fun _ _ => tells_ok _
  | ⟨_, _, _, .functionCall callee arguments⟩, _, _, hs, hc =>
    have hparts : Sane _ _ ([callee] ++ arguments) := hs.children
    (tells_materialize callee hparts.left hc).bind fun _ hf =>
      have hf := materializes_of_materialize _ hf
      (tells_materializeList arguments (Sane.behind hparts hf) (hf.furnished hc)).bind fun _ _ =>
        (tells_callType _ _).bind fun _ _ => tells_ok _
  | ⟨_, _, _, .variableDef _ _ initializer⟩, _, _, hs, hc =>
    have hsane := (hs.initializer rfl).1
    (tells_typeNamedBy _).bind fun _ hnamed => (tells_materializeOption initializer hsane hc).bind fun _ hi =>
      have hi := materializes_of_materializeOption _ hi
      have ho := hi.outcome hsane
      have hknown := fun x hx => (ho.typed x (Option.mem_toList.2 hx)).self.known
      (tells_variableType ho.ready (hi.furnished hc) (builtin_of_typeNamedBy hnamed) _ hknown).bind fun _ _ =>
        (tells_declare _ _ _).bind fun _ _ => tells_ok _
  | ⟨_, _, _, .root items⟩, _, _, hs, hc =>
    (tells_materializeList items hs.children hc).bind fun _ _ => tells_ok _

theorem tells_materializeList : ∀ (xs : List Node) {ctx : Context} {spans : List Span}, Sane ctx spans xs →
    Furnished ctx → Tells (materializeList mode ctx xs)
  | [], _, _, _, _ => tells_ok _
  | x :: xs, _, _, hs, hc =>
    have hparts : Sane _ _ ([x] ++ xs) := hs
    (tells_materialize x hparts.left hc).bind fun _ hx =>
      have hx := materializes_of_materialize _ hx
      (tells_materializeList xs (Sane.behind hparts hx) (hx.furnished hc)).bind fun _ _ => tells_ok _

theorem tells_materializeOption : ∀ (x : Option Node) {ctx : Context} {spans : List Span}, Sane ctx spans x.toList →
    Furnished ctx → Tells (materializeOption mode ctx x)
  | none, _, _, _, _ => tells_ok _
  | some x, _, _, hs, hc => (tells_materialize x hs hc).bind fun _ _ => tells_ok _

end

/-! ## rules -/

theorem Complete.given (h : Complete ctx n) : ctx.Given n.typeId := (h.noted h.typeId).1

/-- **Different types of two nodes are spelled differently.** -/
theorem Complete.display_ne (hc : Furnished ctx) (hn : ctx.types.Nodup) (hx : Complete ctx x) (hy : Complete ctx y)
    (hne : x.typeId ≠ y.typeId) : ctx.display x.typeId ≠ ctx.display y.typeId :=
  fun heq => hne (hc.founded.display_inj hn hx.given hy.given heq)

theorem ne_of_coerces_eq_false {a b : TypeId} (h : ctx.coerces a b = false) : a ≠ b := by
  rintro rfl
  rw [ctx.coerces_refl] at h
  cases h

theorem tells_arithmeticRule (ctx : Context) (n : Node) : Tells (arithmeticRule ctx n) := by
  unfold arithmeticRule
  split
  · split
    · exact tells_ok _
    · split
      · exact tells_silent rfl
      · split
        · exact tells_silent rfl
        · split <;> exact tells_ok _
  · split
    · exact tells_silent rfl
    · split <;> exact tells_ok _
  · exact tells_ok _
  · exact tells_ok _

theorem tells_assignmentRule (hc : Furnished ctx) (hn : ctx.types.Nodup) (hparts : ∀ c ∈ n.children, Complete ctx c) :
    Tells (assignmentRule mode ctx n) := by
  have hne : ∀ {x y}, Complete ctx x → Complete ctx y → ctx.coerces x.typeId y.typeId = false →
      ctx.display y.typeId ≠ ctx.display x.typeId := fun hx hy hfails =>
    (hx.display_ne hc hn hy (ne_of_coerces_eq_false hfails)).symm
  unfold assignmentRule
  split
  · next operator left right hform =>
    have hleft : Complete ctx left := hparts left (by simp [Node.children, hform, Form.parts])
    have hright : Complete ctx right := hparts right (by simp [Node.children, hform, Form.parts])
    split
    · next hfails => exact tells_mismatch rfl (hleft.display_ne hc hn hright hfails.2)
    · exact tells_ok _
  · next name type initializer hform =>
    have htype : Complete ctx type := hparts type (by simp [Node.children, hform, Form.parts])
    have hinit : Complete ctx initializer := hparts initializer (by simp [Node.children, hform, Form.parts])
    split
    · exact tells_ok _
    · split
      · next hfails => exact tells_mismatch rfl (hne hinit htype (by simpa using hfails))
      · exact tells_ok _
  · next name ps result body hform =>
    have hresult : Complete ctx result := hparts result (by simp [Node.children, hform, Form.parts])
    have hbody : Complete ctx body := hparts body (by simp [Node.children, hform, Form.parts])
    split
    · next hfails => exact tells_mismatch rfl (hne hbody hresult (by simpa using hfails.2))
    · exact tells_ok _
  · exact tells_ok _

theorem tells_callRule (hc : Furnished ctx) (hn : ctx.types.Nodup) (hparts : ∀ c ∈ n.children, Complete ctx c) :
    Tells (callRule ctx n) := by
  intro e he
  obtain ⟨callee, arguments, expected, result, which, hform, hfunction, herror⟩ := callRule_eq_error he
  cases herror with
  | arity => exact Error.tellsApart_of_none rfl
  | @argument k argument t _ given wanted fails =>
    have hargument : Complete ctx argument :=
      hparts argument (by simp [Node.children, hform, Form.parts, List.mem_of_getElem? given])
    -- a parameter is older than the type of its function
    have ht : ctx.Given t := Nat.lt_trans ((hc.founded _ _ _ hfunction).1 t (List.mem_of_getElem? wanted))
      (Context.lt_length_of_type_ne (hfunction ▸ nofun))
    refine Error.tellsApart_of_ne rfl fun heq => ne_of_coerces_eq_false fails ?_
    exact hc.founded.display_inj hn hargument.given ht heq.symm

/-- **A check tells types apart** if its rule does, over parts that have their types. -/
theorem tells_revise {rule : Node → Except Error Node}
    (hkeeps : ∀ {x y}, x.Everywhere (Complete ctx) → Revised rule x y → y.Everywhere (Complete ctx))
    (hrule : ∀ {n}, (∀ c ∈ n.children, Complete ctx c) → Tells (rule n)) (hn : n.Everywhere (Complete ctx)) :
    Tells (n.revise rule) := by
  intro e he
  obtain ⟨z, hz, form, hform, hrefused⟩ := Node.revise_eq_error he
  refine hrule (n := { z with form }) (fun c hc => ?_) e hrefused
  obtain ⟨x, hx, hxc⟩ := forall₂_of_mem hform.parts hc
  exact (hkeeps ((Node.Everywhere.below hn hz).child hx) hxc).self

/-! ## whole programs -/

/-- **The checker tells types apart.** -/
theorem tells_typeCheck (hshaped : n.Everywhere fun x => x.form.Shaped) (hnodup : n.declared.Nodup) :
    Tells (typeCheck mode n) := by
  refine (tells_signatures _ _).bind fun c hc => ?_
  have hsane := (sane_of_signatures hshaped hnodup hc).1
  have hprepared := (hoisted_of_signatures (prepared_of_scopes n) hc).1
  have hfurnished := Context.furnished_of_flat hsane.ready.regular hprepared.flat
  refine (tells_materialize _ hsane hfurnished).bind fun (m, c') hm => ?_
  have hfurnished : Furnished (settle mode c' m).2 := by
    have hfurnished := (materializes_of_materialize _ hm).furnished hfurnished
    cases mode with
    | nominal => exact hfurnished
    | unification => exact hfurnished.of_types rfl
  have hs : firstTypes mode n = .ok (settle mode c' m) := by
    rw [firstTypes]
    exact bind_eq_ok.2 ⟨c, hc, bind_eq_ok.2 ⟨(m, c'), hm, rfl⟩⟩
  dsimp only
  generalize settle mode c' m = r at hs hfurnished
  obtain ⟨s, ctx⟩ := r
  obtain ⟨-, hr, -⟩ := typed_of_firstTypes hshaped hnodup hs
  have hs := complete_of_firstTypes hshaped hnodup hs
  refine (tells_revise (complete_of_arithmetic hr) (fun _ => tells_arithmeticRule _ _) hs).bind fun a ha => ?_
  have ha := complete_of_arithmetic hr hs ha
  refine (tells_revise complete_of_assignment (tells_assignmentRule hfurnished hr.nodup) ha).bind fun b hb => ?_
  have hb := complete_of_assignment ha hb
  exact (tells_revise complete_of_calls (tells_callRule hfurnished hr.nodup) hb).bind fun _ _ => tells_ok _

/-- Types and their spellings go together one to one: a spelling is found at the depth of its type and is the one that
is made of the spellings of the parts, and no two types have the same. What cannot be unified is spelled differently. -/
structure Readable (ctx : Context) : Prop where
  ended : ∀ t, ctx.Given t → ∀ fuel, t.index < fuel → ctx.displayWithin fuel t = ctx.display t
  spelled : ∀ t, ctx.Given t → ∀ text, ctx.Spells t text ↔ text = ctx.display t
  told : ∀ a b, ctx.Given a → ctx.Given b → ctx.display a = ctx.display b → a = b
  unified : ∀ a b span, ctx.Given a → ctx.Given b → Tells (ctx.unify a b span)

theorem readable_of_made (h : Made ctx) : Readable ctx where
  ended _ _ _ hfuel := h.founded.displayWithin_congr hfuel (Nat.lt_succ_self _)
  spelled _ _ _ := h.founded.spells_iff
  told _ _ := h.founded.display_inj h.linked.nodup
  unified _ _ _ ha hb := h.founded.tells_unify h.linked.nodup (h.linked.resolve_lt ha) (h.linked.resolve_lt hb)

/-- **Types that differ are spelled differently.** In every context that calls made a spelling stands for one type, and
no source is refused with an error that has the same spelling on both sides. -/
theorem spellings_apart : (∀ ctx, Made ctx → Readable ctx) ∧
    ∀ source mode e, analyze source mode = .error (.error e) → e.TellsApart := by
  refine ⟨fun ctx => readable_of_made, fun source mode e h => ?_⟩
  rw [analyze] at h
  rcases bind_eq_error.1 h with h | ⟨n, hn, h⟩
  · refine Error.tellsApart_of_category ?_
    rcases category_of_parseSource h with hcategory | hcategory <;> rw [hcategory] <;> decide
  · cases htyped : typeCheck mode n with
    | ok r =>
      rw [htyped] at h
      cases h
    | error e' =>
      rw [htyped] at h
      obtain rfl : e' = e := Failure.error.inj (Except.error.inj h)
      exact tells_typeCheck (shaped_of_parseSource hn) (declared_nodup_of_parseSource hn) _ htyped

/-- A function type between arrows of other function types, and two functions of which one is assigned to the other. -/
theorem spellings_apart_functions :
    (∃ ctx, Made ctx ∧ ctx.type ⟨13⟩ = .function [⟨11⟩] ⟨12⟩ ∧ ctx.display ⟨13⟩ = "fn(fn(int) -> t0) -> fn() -> i8" ∧
      Readable ctx) ∧
    ∃ e, analyze "fn f(a: i8) -> int { 1 } fn g(a: i16) -> int { 1 } f = g;" .nominal = .error (.error e) ∧
      e.cause.sides? = some ("fn(i8) -> int", "fn(i16) -> int") ∧ e.TellsApart := by
  have hintern : ∀ {ctx} (ty : Ty), Made ctx → Context.Issued ctx ty → Made ((Context.Call.intern ty).run ctx) :=
    fun _ h hty => h.run hty
  have hfresh : Made (Context.Call.fresh.run .new) := Made.run .new trivial
  have hinner := hintern (.function [.int] ⟨10⟩) hfresh ⟨by decide, by decide⟩
  have hresult := hintern (.function [] ⟨4⟩) hinner ⟨by decide, by decide⟩
  have houter := hintern (.function [⟨11⟩] ⟨12⟩) hresult ⟨by decide, by decide⟩
  refine ⟨⟨_, houter, by decide, by decide, spellings_apart.1 _ houter⟩, ?_⟩
  have h : analyze "fn f(a: i8) -> int { 1 } fn g(a: i16) -> int { 1 } f = g;" .nominal =
      .error (.error ⟨.assignmentMismatch "fn(i8) -> int" "fn(i16) -> int", ⟨55, 56⟩, some ⟨51, 52⟩⟩) := by
    decide +kernel
  exact ⟨_, h, rfl, spellings_apart.2 _ _ _ h⟩

end Check

end LetFn
