import LetFn.Proofs.Check.DeclaredOnce
import LetFn.Proofs.Check.Hoisting
import LetFn.Proofs.Check.Passes
import LetFn.Proofs.Check.Rerunning
import LetFn.Proofs.Grammar.Within

/-!
# Where errors point

An error of the checker points at a node, at a name of a definition or at the symbol of an earlier definition. The
passes change no span, and symbols are declared at names of the tree, so what holds of all places in a tree holds of all
places that errors point at.

* `Blames P x Q` — a step gives a result of which `Q` holds, or its error points at places of which `P` holds;
* `Symbol.Located P symbol` — `P` holds of the places that a symbol keeps.

Main facts: `blames_materialize`, `blames_revise`, `blames_typeCheck`, `errors_within`.
-/

namespace LetFn

variable {P : Span → Prop}

/-! ## steps and the places they point at -/

section

variable {α β : Type} {Q : α → Prop} {R : β → Prop}

/-- A step gives a result of which `Q` holds, or its error points at places of which `P` holds. -/
def Blames (P : Span → Prop) (x : Except Error α) (Q : α → Prop) : Prop :=
  match x with
  | .ok a => Q a
  | .error e => ∀ s ∈ e.spans, P s

theorem Blames.bind {x : Except Error α} {f : α → Except Error β} (h : Blames P x Q)
    (hf : ∀ a, Q a → Blames P (f a) R) : Blames P (x >>= f) R :=
  match x with
  | .ok a => hf a h
  | .error _ => h

/-- What more is known of the result. -/
theorem Blames.imp {Q' : α → Prop} {x : Except Error α} (h : Blames P x Q) (hx : ∀ a, x = .ok a → Q a → Q' a) :
    Blames P x Q' := by
  cases x with
  | ok a => exact hx a rfl h
  | error e => exact h

theorem blames_ok {a : α} (h : Q a) : Blames P (.ok a) Q := h

/-- An error that points at one place. -/
theorem blames_at {cause : Cause} {span : Span} (h : P span) : Blames P (.error ⟨cause, span, none⟩) Q := by
  simpa [Blames, Error.spans] using h

/-- An error that points at two places. -/
theorem blames_both {cause : Cause} {span related : Span} (h : P span) (h' : P related) :
    Blames P (.error ⟨cause, span, some related⟩) Q := by
  simpa [Blames, Error.spans] using ⟨h, h'⟩

theorem blames_mapM {f : α → Except Error β} {xs : List α} (h : ∀ x ∈ xs, Blames P (f x) R) :
    Blames P (xs.mapM f) fun _ => True := by
  induction xs with
  | nil => exact blames_ok trivial
  | cons x xs ih =>
    obtain ⟨hx, hxs⟩ := List.forall_mem_cons.1 h
    rw [List.mapM_cons]
    exact hx.bind fun _ _ => (ih hxs).bind fun _ _ => blames_ok trivial

theorem blames_foldlM {f : α → β → Except Error α} {xs : List β}
    (h : ∀ x ∈ xs, ∀ a, Q a → Blames P (f a x) Q) {a : α} (ha : Q a) : Blames P (xs.foldlM f a) Q := by
  induction xs generalizing a with
  | nil => exact blames_ok ha
  | cons x xs ih =>
    obtain ⟨hx, hxs⟩ := List.forall_mem_cons.1 h
    rw [List.foldlM_cons]
    exact (hx a ha).bind fun _ hb => ih hxs hb

end

/-! ## symbols -/

/-- `P` holds of the places that the symbol keeps. -/
def Symbol.Located (P : Span → Prop) (symbol : Symbol) : Prop :=
  P symbol.span ∧ ∀ params hasBody, symbol.kind = .function params hasBody → ∀ s ∈ params, P s

theorem Symbol.located_of_value {symbol : Symbol} (h : P symbol.span) (hvalue : symbol.kind.body? = none) :
    symbol.Located P := by
  refine ⟨h, fun params hasBody hkind => ?_⟩
  rw [hkind] at hvalue
  cases hvalue

namespace Context

variable {ctx ctx' : Context} {s : ScopeId} {symbol : Symbol}

theorem AllSymbols.resolveSymbols (h : AllSymbols (Symbol.Located P) ctx) :
    AllSymbols (Symbol.Located P) ctx.resolveSymbols := by
  intro scope hscope symbol hsymbol
  obtain ⟨old, hold, rfl⟩ := List.mem_map.1 hscope
  obtain ⟨x, hx, rfl⟩ := List.mem_map.1 hsymbol
  exact h old hold x hx

/-- A second declaration of a name is blamed together with the first. -/
theorem blames_declare (h : AllSymbols (Symbol.Located P) ctx) (hsymbol : symbol.Located P) :
    Blames P (ctx.declare s symbol) (AllSymbols (Symbol.Located P)) := by
  unfold declare
  split
  · exact blames_ok (h.put hsymbol)
  · next old hold =>
    have hboth : Blames P (.error ⟨.alreadyDeclared symbol.name, symbol.span, some old.span⟩)
        (AllSymbols (Symbol.Located P)) := blames_both hsymbol.1 (h.of_symbolIn? hold).1
    split
    · exact blames_ok h
    · split
      · split
        · refine blames_ok ?_
          split
          · exact h.put hsymbol
          · exact h
        · exact hboth
      · exact hboth

theorem blames_unify {a b : TypeId} {span : Span} (h : P span) :
    Blames P (ctx.unify a b span) fun r => r.2.scopes = ctx.scopes := by
  cases hunify : ctx.unify a b span with
  | ok r => exact blames_ok (scopes_of_unify hunify)
  | error e =>
    unfold unify at hunify
    dsimp only at hunify
    split at hunify
    · cases hunify
    · split at hunify
      · cases hunify
      · cases hunify
      · split at hunify
        · cases hunify
        · rw [← hunify]
          exact blames_at h

end Context

/-! ## trees -/

namespace Node

section

variable {span : Span} {scope : Option ScopeId} {noted : Option TypeId} {n c : Node}

theorem Located.self (h : n.Located P) : P n.span := (Everywhere.self h).1

theorem Located.child (h : n.Located P) (hc : c ∈ n.children) : c.Located P := Everywhere.child h hc

/-- The places in a definition of a function. -/
theorem Located.of_functionDef {name : Token} {ps : List (Param Node)} {result : Node} {body : Option Node}
    (h : (⟨span, scope, noted, .functionDef name ps result body⟩ : Node).Located P) :
    P name.span ∧ (∀ p ∈ ps, P p.name.span ∧ P p.type.span) ∧ P result.span ∧ ∀ x ∈ body, x.Located P := by
  have hparts : ∀ c ∈ ps.flatMap (fun p => [p.name, p.type]) ++ body.toList ++ [result], c.Located P :=
    fun c hc => h.child hc
  simp only [List.forall_mem_append, List.forall_mem_singleton] at hparts
  obtain ⟨⟨hps, hbody⟩, hresult⟩ := hparts
  refine ⟨(Everywhere.self h).2 _ List.mem_cons_self, fun p hp => ⟨?_, ?_⟩, hresult.self, by simpa using hbody⟩
  · exact (hps _ (List.mem_flatMap.2 ⟨p, hp, List.mem_cons_self⟩)).self
  · exact (hps _ (List.mem_flatMap.2 ⟨p, hp, List.mem_cons_of_mem _ List.mem_cons_self⟩)).self

/-- The places in a definition of a variable. -/
theorem Located.of_variableDef {name type : Node} {initializer : Option Node}
    (h : (⟨span, scope, noted, .variableDef name type initializer⟩ : Node).Located P) :
    P name.span ∧ P type.span ∧ ∀ x ∈ initializer, x.Located P := by
  have hparts : ∀ c ∈ name :: type :: initializer.toList, c.Located P := fun c hc => h.child hc
  simp only [List.forall_mem_cons, Option.mem_toList] at hparts
  exact ⟨hparts.1.self, hparts.2.1.self, hparts.2.2⟩

/-- Trees that differ in their notes have the same places. -/
theorem Located.of_likeness {R : Node → Node → Prop} {x y : Node} (hx : x.Located P) (hR : Likeness R) (h : R x y) :
    y.Located P :=
  hR.everywhere (fun {x y} h hx => by rwa [hR.span h, hR.ownNames h]) h hx

end

end Node

namespace Check

open Context (AllSymbols blames_declare blames_unify)

variable {mode : Mode} {ctx : Context} {n : Node}

/-! ## declarations -/

theorem blames_typeNamedBy (h : P n.span) : Blames P (typeNamedBy n) fun _ => True := by
  unfold typeNamedBy Context.resolveTypeName
  split
  · exact blames_ok trivial
  · exact blames_at h

section

variable {s : ScopeId} {name : Token} {ps : List (Param Node)} {result : Node} {body : Option Node}

theorem blames_declareFunction (hctx : AllSymbols (Symbol.Located P) ctx) (hname : P name.span)
    (hps : ∀ p ∈ ps, P p.name.span ∧ P p.type.span) (hresult : P result.span) :
    Blames P (declareFunction ctx s name ps result body) fun r => AllSymbols (Symbol.Located P) r.2 := by
  have hsignature : Blames P (signature ps result) fun _ => True :=
    (blames_mapM fun p hp => blames_typeNamedBy (hps p hp).2).bind fun _ _ =>
      (blames_typeNamedBy hresult).bind fun _ _ => blames_ok trivial
  refine hsignature.bind fun sig _ => (blames_declare (hctx.of_scopes (Context.intern_scopes _ _)) ⟨hname, ?_⟩).bind
    fun _ hc => blames_ok hc
  rintro _ _ ⟨⟩
  simpa using fun p hp => (hps p hp).1

theorem blames_declareParams {ts : List TypeId} (hctx : AllSymbols (Symbol.Located P) ctx)
    (hps : ∀ p ∈ ps, P p.name.span) :
    Blames P (declareParams ctx ps ts) fun r => AllSymbols (Symbol.Located P) r.2 := by
  induction ps generalizing ctx ts with
  | nil => exact blames_ok hctx
  | cons p ps ih =>
    obtain ⟨hp, hps⟩ := List.forall_mem_cons.1 hps
    cases ts with
    | nil => exact blames_ok hctx
    | cons t ts =>
      unfold declareParams
      exact (blames_declare hctx (Symbol.located_of_value hp rfl)).bind fun _ hc => (ih hc hps).bind fun _ hc =>
        blames_ok hc

end

theorem blames_declareDefinition (hctx : AllSymbols (Symbol.Located P) ctx) (hn : n.Located P) :
    Blames P (declareDefinition ctx n) (AllSymbols (Symbol.Located P)) := by
  obtain ⟨span, scope, type, form⟩ := n
  cases form with
  | functionDef name ps result body =>
    obtain ⟨hname, hps, hresult, -⟩ := hn.of_functionDef
    exact (blames_declareFunction hctx hname hps hresult).bind fun _ hc => blames_ok hc
  | _ => exact blames_ok hctx

theorem blames_signatures (hctx : AllSymbols (Symbol.Located P) ctx) (hn : n.Located P) :
    Blames P (signatures ctx n) (AllSymbols (Symbol.Located P)) :=
  blames_foldlM (fun _ hx _ hctx => blames_declareDefinition hctx (hn.below hx)) hctx

/-! ## first types -/

theorem blames_leafType {s : ScopeId} {token : Token} {span : Span} {noted : Option TypeId} (h : P span) :
    Blames P (leafType ctx s token span noted) fun _ => True := by
  unfold leafType
  split <;> try exact blames_ok trivial
  unfold Context.resolveSymbol
  split
  · exact blames_ok trivial
  · exact blames_at h

theorem blames_callType {callee : Node} (h : P callee.span) : Blames P (callType ctx callee) fun _ => True := by
  unfold callType
  dsimp only
  split
  · exact blames_ok trivial
  · exact blames_at h

theorem blames_variableType {declared : TypeId} {span : Span} {initializer : Option Node}
    (hctx : AllSymbols (Symbol.Located P) ctx) (hspan : P span) (hinit : ∀ x ∈ initializer, P x.span) :
    Blames P (variableType mode ctx declared span initializer) fun r => AllSymbols (Symbol.Located P) r.2 := by
  unfold variableType
  cases mode with
  | nominal => exact blames_ok hctx
  | unification =>
    have hfresh : AllSymbols (Symbol.Located P) ctx.fresh.2 := hctx.of_scopes (Context.intern_scopes _ _)
    refine (blames_unify hspan).bind fun r hr => ?_
    have hdeclared := hfresh.of_scopes hr
    cases initializer with
    | none => exact blames_ok hdeclared
    | some x => exact (blames_unify (hinit x rfl)).bind fun r' hr' => blames_ok (hdeclared.of_scopes hr')

mutual

/-- First types are given at the places of the tree. -/
theorem blames_materialize :
    ∀ (n : Node) (ctx : Context), n.Located P → AllSymbols (Symbol.Located P) ctx →
      Blames P (materialize mode ctx n) fun r => r.1.span = n.span ∧ AllSymbols (Symbol.Located P) r.2
  | ⟨_, _, _, .literal _⟩, _, h, hctx => (blames_leafType h.self).bind fun _ _ => blames_ok ⟨rfl, hctx⟩
  | ⟨_, _, _, .prefixOp _ operand⟩, ctx, h, hctx =>
    (blames_materialize operand ctx (h.child List.mem_cons_self) hctx).bind fun _ hx => blames_ok ⟨rfl, hx.2⟩
  | ⟨_, _, _, .infixOp _ left right⟩, ctx, h, hctx =>
    (blames_materialize left ctx (h.child List.mem_cons_self) hctx).bind fun _ hl =>
      (blames_materialize right _ (h.child (List.mem_cons_of_mem _ List.mem_cons_self)) hl.2).bind fun _ hr =>
        blames_ok ⟨rfl, hr.2⟩
  | ⟨_, _, _, .statement inner⟩, ctx, h, hctx =>
    (blames_materialize inner ctx (h.child List.mem_cons_self) hctx).bind fun _ hx => blames_ok ⟨rfl, hx.2⟩
  | ⟨_, _, _, .block items trailing⟩, ctx, h, hctx =>
    (blames_materializeList items ctx (fun _ hx => h.child (List.mem_append_left _ hx)) hctx).bind fun _ hc =>
      (blames_materializeOption trailing _
        (fun _ hx => h.child (List.mem_append_right _ (Option.mem_toList.2 hx))) hc).bind fun _ hx =>
          blames_ok ⟨rfl, hx.2⟩
  | ⟨_, _, _, .functionDef _ _ _ body⟩, _, h, hctx =>
    have ⟨hname, hps, hresult, hbody⟩ := h.of_functionDef
    (blames_declareFunction hctx hname hps hresult).bind fun _ hc =>
      (blames_declareParams hc fun p hp => (hps p hp).1).bind fun _ hc =>
        (blames_materializeOption body _ hbody hc).bind fun _ hx => blames_ok ⟨rfl, hx.2⟩
  | ⟨_, _, _, .functionCall callee arguments⟩, ctx, h, hctx => by
    have hcallee := h.child List.mem_cons_self
    have harguments : ∀ x ∈ arguments, x.Located P := fun x hx => h.child (List.mem_cons_of_mem _ hx)
    refine (blames_materialize callee ctx hcallee hctx).bind fun f ⟨hspan, hf⟩ => ?_
    refine (blames_materializeList arguments _ harguments hf).bind fun _ hc => ?_
    -- the error names the callee as it is now, at the place where it was
    exact (blames_callType (hspan ▸ hcallee.self)).bind fun _ _ => blames_ok ⟨rfl, hc⟩
  | ⟨_, _, _, .variableDef _ _ initializer⟩, ctx, h, hctx => by
    obtain ⟨hname, htype, hinit⟩ := h.of_variableDef
    refine (blames_typeNamedBy htype).bind fun _ _ => ?_
    refine (blames_materializeOption initializer ctx hinit hctx).bind fun _ ⟨hspan, hx⟩ => ?_
    refine (blames_variableType hx htype hspan).bind fun _ ht => ?_
    exact (blames_declare ht (Symbol.located_of_value hname rfl)).bind fun _ hc => blames_ok ⟨rfl, hc⟩
  | ⟨_, _, _, .root items⟩, ctx, h, hctx =>
    (blames_materializeList items ctx (fun _ hx => h.child hx) hctx).bind fun _ hc => blames_ok ⟨rfl, hc⟩

theorem blames_materializeList :
    ∀ (xs : List Node) (ctx : Context), (∀ x ∈ xs, x.Located P) → AllSymbols (Symbol.Located P) ctx →
      Blames P (materializeList mode ctx xs) fun r => AllSymbols (Symbol.Located P) r.2
  | [], _, _, hctx => blames_ok hctx
  | x :: xs, ctx, h, hctx =>
    (blames_materialize x ctx (h x List.mem_cons_self) hctx).bind fun _ hx =>
      (blames_materializeList xs _ (fun y hy => h y (List.mem_cons_of_mem _ hy)) hx.2).bind fun _ hc => blames_ok hc

theorem blames_materializeOption :
    ∀ (x : Option Node) (ctx : Context), (∀ y ∈ x, y.Located P) → AllSymbols (Symbol.Located P) ctx →
      Blames P (materializeOption mode ctx x) fun r => (∀ y ∈ r.1, P y.span) ∧ AllSymbols (Symbol.Located P) r.2
  | none, _, _, hctx => blames_ok ⟨nofun, hctx⟩
  | some x, ctx, h, hctx =>
    (blames_materialize x ctx (h x rfl) hctx).bind fun _ hx =>
      blames_ok ⟨fun _ hy => Option.some.inj hy ▸ hx.1 ▸ (h x rfl).self, hx.2⟩

end

/-! ## rules -/

/-- An error about one part of a node beside another, or beside the node itself. -/
theorem blames_parts {Q : Node → Prop} {cause : Cause} {x : Node} {related : Span} (hn : n.Located P)
    (hx : x ∈ n.children) (h : related = n.span ∨ ∃ y ∈ n.children, related = y.span) :
    Blames P (.error ⟨cause, x.span, some related⟩) Q := by
  refine blames_both (hn.child hx).self ?_
  rcases h with rfl | ⟨y, hy, rfl⟩
  · exact hn.self
  · exact (hn.child hy).self

theorem blames_arithmeticRule (hn : n.Located P) : Blames P (arithmeticRule ctx n) fun _ => True := by
  unfold arithmeticRule
  split
  · next operator left right hform =>
    have hleft : left ∈ n.children := by simp [Node.children, hform, Form.parts]
    have hright : right ∈ n.children := by simp [Node.children, hform, Form.parts]
    split
    · exact blames_ok trivial
    · split
      · exact blames_parts hn hleft (.inl rfl)
      · split
        · exact blames_parts hn hright (.inl rfl)
        · split <;> exact blames_ok trivial
  · next operator operand hform =>
    have hoperand : operand ∈ n.children := by simp [Node.children, hform, Form.parts]
    split
    · exact blames_parts hn hoperand (.inl rfl)
    · split <;> exact blames_ok trivial
  · exact blames_ok trivial
  · exact blames_ok trivial

theorem blames_assignmentRule (hn : n.Located P) : Blames P (assignmentRule mode ctx n) fun _ => True := by
  unfold assignmentRule
  split
  · next operator left right hform =>
    have hleft : left ∈ n.children := by simp [Node.children, hform, Form.parts]
    have hright : right ∈ n.children := by simp [Node.children, hform, Form.parts]
    split
    · exact blames_parts hn hright (.inr ⟨left, hleft, rfl⟩)
    · exact blames_ok trivial
  · next name type initializer hform =>
    have hname : name ∈ n.children := by simp [Node.children, hform, Form.parts]
    have hinit : initializer ∈ n.children := by simp [Node.children, hform, Form.parts]
    split
    · exact blames_ok trivial
    · split
      · exact blames_parts hn hinit (.inr ⟨name, hname, rfl⟩)
      · exact blames_ok trivial
  · next name ps result body hform =>
    have hresult : result ∈ n.children := by simp [Node.children, hform, Form.parts]
    have hbody : body ∈ n.children := by simp [Node.children, hform, Form.parts]
    split
    · exact blames_parts hn hbody (.inr ⟨result, hresult, rfl⟩)
    · exact blames_ok trivial
  · exact blames_ok trivial

/-- A function that is called by its name is known by the places of its definition. -/
theorem located_declaration (hctx : AllSymbols (Symbol.Located P) ctx) {callee : Node} (h : P callee.span) :
    P (declaration ctx callee).name ∧ ∀ s ∈ (declaration ctx callee).params, P s := by
  unfold declaration
  split
  · next s name type span params hasBody hlookup =>
    obtain ⟨found, -, hfound⟩ := Option.bind_eq_some_iff.1 hlookup
    have hlocated := hctx.of_lookup hfound
    exact ⟨hlocated.1, hlocated.2 _ _ rfl⟩
  · exact ⟨h, nofun⟩

theorem blames_passArguments {decl : Declaration} (hname : P decl.name) (hparams : ∀ s ∈ decl.params, P s)
    {xs : List Node} (hxs : ∀ x ∈ xs, P x.span) {index : Nat} {ts : List TypeId} :
    Blames P (passArguments ctx decl index xs ts) fun _ => True := by
  induction xs generalizing index ts with
  | nil => exact blames_ok trivial
  | cons x xs ih =>
    obtain ⟨hx, hxs⟩ := List.forall_mem_cons.1 hxs
    cases ts with
    | nil => exact blames_ok trivial
    | cons t ts =>
      have hparam : P (decl.params.getD index decl.name) := by
        rw [List.getD_eq_getElem?_getD]
        cases hindex : decl.params[index]? with
        | none => exact hname
        | some s => exact hparams s (List.mem_of_getElem? hindex)
      unfold passArguments
      split
      · exact (blames_both (Q := fun _ => True) hx hparam).bind fun _ _ => (ih hxs).bind fun _ _ => blames_ok trivial
      · exact (ih hxs).bind fun _ _ => blames_ok trivial

theorem blames_callRule (hctx : AllSymbols (Symbol.Located P) ctx) (hn : n.Located P) :
    Blames P (callRule ctx n) fun _ => True := by
  unfold callRule
  split
  · next callee arguments hform =>
    have hcallee : callee ∈ n.children := by simp [Node.children, hform, Form.parts]
    have harguments : ∀ x ∈ arguments, P x.span := fun x hx =>
      (hn.child (by simp [Node.children, hform, Form.parts, hx])).self
    obtain ⟨hname, hparams⟩ := located_declaration hctx (hn.child hcallee).self
    split
    · dsimp only
      split
      · exact (blames_both (Q := fun _ => True) hn.self hname).bind fun _ _ =>
          (blames_passArguments hname hparams harguments).bind fun _ _ => blames_ok trivial
      · exact (blames_passArguments hname hparams harguments).bind fun _ _ => blames_ok trivial
    · exact blames_ok trivial
  · exact blames_ok trivial

/-! ## revisions -/

section

variable {rule : Node → Except Error Node}

/-- The parts of a node are revised before the node, at the same places. -/
theorem likeness_revisedParts (hrule : Node.OnlyNotes rule) : Likeness fun x y =>
    Node.RevisedAs rule x y ∨ ∃ form, Node.reviseParts rule x.form = .ok form ∧ y = { x with form } where
  span := by
    rintro x y (h | ⟨form, -, rfl⟩)
    · exact (renotes_revisedAs hrule).span h
    · rfl
  form := by
    have hparts : ∀ {x y}, Node.RevisedAs rule x y → Node.RevisedAs rule x y ∨
        ∃ form, Node.reviseParts rule x.form = .ok form ∧ y = { x with form } := .inl
    rintro x y (h | ⟨form, hform, rfl⟩)
    · exact ((renotes_revisedAs hrule).form h).imp hparts
    · exact (Node.reviseParts_eq_ok hform).imp fun h => hparts ⟨_, h, .refl _⟩

/-- A pass by a rule that points at places of a tree points at places of the tree. -/
theorem blames_revise (hrule : Node.OnlyNotes rule) (hblames : ∀ {n}, n.Located P → Blames P (rule n) fun _ => True)
    (hn : n.Located P) : Blames P (n.revise rule) (Node.Located P) := by
  cases hrevise : n.revise rule with
  | ok n' => exact hn.of_likeness (renotes_revisedAs hrule).toLikeness ⟨n', hrevise, .refl n'⟩
  | error e =>
    obtain ⟨z, hz, form, hform, hrefused⟩ := Node.revise_eq_error hrevise
    have hz : z.Located P := Node.Everywhere.below hn hz
    have hparts : Blames P (rule { z with form }) fun _ => True :=
      hblames (hz.of_likeness (likeness_revisedParts hrule) (.inr ⟨form, Node.reviseParts_of_rel hform, rfl⟩))
    rwa [hrefused] at hparts

end

/-! ## whole programs -/

/-- The types of a tree are settled at the same places. -/
theorem located_of_settle (mode : Mode) (hctx : AllSymbols (Symbol.Located P) ctx) (hn : n.Located P) :
    (settle mode ctx n).1.Located P ∧ AllSymbols (Symbol.Located P) (settle mode ctx n).2 :=
  match mode with
  | .nominal => ⟨hn, hctx⟩
  | .unification => ⟨hn.of_likeness (likeness_mapType _) rfl, hctx.resolveSymbols⟩

/-- **Errors of the checker point at places of the tree.** -/
theorem blames_typeCheck (hn : n.Located P) : Blames P (typeCheck mode n) fun _ => True := by
  have hscoped : (scopes .new n).1.Located P :=
    hn.of_likeness likeness_stampedAs (stamps_of_stamp .root .new n).stampedAs
  unfold typeCheck
  refine (blames_signatures (allSymbols_of_scopes n) hscoped).bind fun c hc => ?_
  have hfirst : Blames P (materialize mode c (scopes .new n).1) fun r =>
      r.1.Located P ∧ AllSymbols (Symbol.Located P) r.2 :=
    (blames_materialize _ _ hscoped hc).imp fun (m, c') hm hr =>
      ⟨hscoped.of_likeness likeness_materializedAs (.inl ⟨_, _, materializes_of_materialize _ hm⟩), hr.2⟩
  refine hfirst.bind fun (m, c') ⟨hm, hc'⟩ => ?_
  obtain ⟨hs, hctx⟩ := located_of_settle mode hc' hm
  refine (blames_revise onlyNotes_arithmeticRule blames_arithmeticRule hs).bind fun a ha => ?_
  refine (blames_revise onlyNotes_assignmentRule blames_assignmentRule ha).bind fun b hb => ?_
  exact (blames_revise onlyNotes_callRule (blames_callRule hctx) hb).bind fun _ _ => blames_ok trivial

end Check

/-- **Every error points into the source.** A source that is not accepted has an error, in both modes, and this points
at stretches of whole characters of the source. -/
theorem errors_within {source : String} {mode : Mode} {f : Failure} (h : analyze source mode = .error f) :
    ∃ e, f = .error e ∧ ∀ s ∈ e.spans, s.Within source := by
  cases hparse : parseSource source with
  | error f' =>
    obtain rfl : f' = f := by
      rw [analyze, hparse] at h
      exact Except.error.inj h
    exact within_of_parseSource hparse
  | ok n =>
    have hcheck : Blames (Span.Within source) (Check.typeCheck mode n) fun _ => True :=
      Check.blames_typeCheck (located_of_parseSource hparse)
    rw [analyze, hparse] at h
    change (liftM (Check.typeCheck mode n) : Except Failure (Node × Context)) = .error f at h
    cases htyped : Check.typeCheck mode n with
    | ok r =>
      rw [htyped] at h
      cases h
    | error e =>
      rw [htyped] at h hcheck
      exact ⟨e, (Except.error.inj h).symm, hcheck⟩

/-- A name that is declared twice, behind a character of two bytes. -/
theorem errors_within_twice :
    let source := "let s: string = \"\u00e9\"; let s: string = \"\";"
    let e : Error := ⟨.alreadyDeclared "s", ⟨26, 27⟩, some ⟨4, 5⟩⟩
    analyze source .nominal = .error (.error e) ∧ ∀ s ∈ e.spans, s.Within source := by
  intro source e
  have h : analyze source .nominal = .error (.error e) := by decide +kernel
  obtain ⟨e', he, hwithin⟩ := errors_within h
  obtain rfl := Failure.error.inj he
  exact ⟨h, hwithin⟩

end LetFn
