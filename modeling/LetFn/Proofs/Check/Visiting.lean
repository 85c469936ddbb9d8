import LetFn.Proofs.Check.DeclaredOnce
import LetFn.Proofs.Check.Hoisting
import LetFn.Proofs.Check.Rerunning
import LetFn.Proofs.Check.Synthesis

/-!
# What a name means when the checker comes to it

A name is looked up when the walk that gives first types comes to it. All functions of the program are declared by then,
and what is declared from there on are variables and parameters, which are no functions. So a name that means a function
keeps its meaning, unless a variable is declared behind it that hides the function.

* `Visits mode ctx ns ctx' n` — the walk over some trees comes to a node in the second context;
* `Since C ctx` — the second context has the functions of the first and no others;
* `Defines ctx n f` — the node is the definition of a function;
* `Recalls C V n` — if the node is a call by name, it calls the function that the name meant at the visit.

Main facts: `Since.lookup`, `Visits.materializes`, `defined_of_signatures`, `Materializes.recalled`.
-/

namespace LetFn

namespace Context

variable {C ctx ctx' : Context} {s : ScopeId} {symbol : Symbol} {name : String}

/-! ## contexts with the same functions -/

/-- Since the first context only variables and parameters were declared, and none of these is a function. -/
structure Since (C ctx : Context) : Prop where
  parents : ∀ s, (ctx.scope? s).map (·.parent) = (C.scope? s).map (·.parent)
  functions : ∀ {s name f}, f.kind.body?.isSome → (ctx.symbolIn? s name = some f ↔ C.symbolIn? s name = some f)
  values : ∀ {s name v}, ctx.symbolIn? s name = some v → v.kind.body? = none →
    ∀ params result, ctx.type (ctx.resolve v.type) ≠ .function params result

/-- A variable or a parameter whose type is no function is declared. -/
theorem Since.declare (h : Since C ctx) (hs : s.index < ctx.scopes.length) (hvalue : symbol.kind.body? = none)
    (hplain : ∀ params result, ctx.type (ctx.resolve symbol.type) ≠ .function params result)
    (hd : ctx.declare s symbol = .ok ctx') : Since C ctx' := by
  rcases declare_cases hd with ⟨-, -, -, rfl⟩ | ⟨-, -, -, -, hbody, -⟩ | ⟨hnone, rfl⟩ | ⟨-, -, -, hbody, -⟩
  · exact h
  · simp [hvalue] at hbody
  · refine ⟨fun s' => (scope?_put s').trans (h.parents s'), fun {s' name f} hf => ?_,
      fun {s' name v} hv hnot params result => ?_⟩
    · rw [symbolIn?_put hs, ← h.functions hf]
      split
      · next hsame =>
        obtain ⟨rfl, rfl⟩ := hsame
        rw [hnone]
        refine iff_of_false (fun heq => ?_) nofun
        obtain rfl := Option.some.inj heq
        simp [hvalue] at hf
      · exact Iff.rfl
    · rw [(resolve_of_types rfl rfl : ∀ t, (ctx.put s symbol).resolve t = ctx.resolve t)]
      rw [symbolIn?_put hs] at hv
      split at hv
      · obtain rfl := Option.some.inj hv
        exact hplain params result
      · exact h.values hv hnot params result
  · simp [hvalue] at hbody

/-- The context grew, and nothing was declared. -/
theorem Since.grow {spans : List Span} (h : Since C ctx) (hr : Ready ctx spans) (hr' : ctx'.Regular)
    (hstep : Step ctx ctx') (hscopes : ctx'.scopes = ctx.scopes) : Since C ctx' := by
  have hsymbol := symbolIn?_of_scopes hscopes
  refine ⟨fun s => (hstep.parents s).trans (h.parents s), fun hf => ?_, fun hv hnot params result => ?_⟩
  · rw [hsymbol, h.functions hf]
  · rw [hsymbol] at hv
    have hlt := hr.typed hv
    rw [hstep.grows.resolve_eq hr.regular hr' hlt, hstep.grows.type_eq (hr.regular.resolve_lt hlt)]
    exact h.values hv hnot params result

/-- Every type variable is replaced by what it stands for, which leaves functions alone. -/
theorem Since.resolveSymbols (h : Since C ctx) (hr : ctx.Regular)
    (hfunctions : ∀ {s name f}, C.symbolIn? s name = some f → (ctx.type f.type).isHole = false) :
    Since C ctx.resolveSymbols := by
  refine ⟨fun s => ?_, fun {s name f} hf => ?_, fun {s name v} hv hnot params result => ?_⟩
  · rw [← h.parents s, scope?, scope?, resolveSymbols_scopes, List.getElem?_map, Option.map_map]
    rfl
  · rw [Check.symbolIn?_resolveSymbols, Option.map_eq_some_iff]
    constructor
    · rintro ⟨g, hg, rfl⟩
      have hg := (h.functions (f := g) hf).1 hg
      rw [resolve_of_not_hole (hfunctions hg)]
      exact hg
    · intro hC
      exact ⟨f, (h.functions hf).2 hC, by rw [resolve_of_not_hole (hfunctions hC)]⟩
  · rw [(resolve_of_types rfl rfl : ∀ t, ctx.resolveSymbols.resolve t = ctx.resolve t)]
    rw [Check.symbolIn?_resolveSymbols, Option.map_eq_some_iff] at hv
    obtain ⟨g, hg, rfl⟩ := hv
    have hagain : ctx.resolve (ctx.resolve g.type) = ctx.resolve g.type := resolve_of_not_hole (hr.resolve_not_hole _)
    rw [hagain]
    exact h.values hg hnot params result

/-- **A name that meant a function means it later**, unless it means a variable or a parameter then. -/
theorem Since.lookup (h : Since C ctx) (h' : Since C ctx') {t : ScopeId} {f : Symbol} (hf : f.kind.body?.isSome)
    (hfound : ctx.lookup s name = some (t, f)) :
    ctx'.lookup s name = some (t, f) ∨ ∃ t' v, ctx'.lookup s name = some (t', v) ∧ v.kind.body? = none := by
  unfold Context.lookup at hfound ⊢
  generalize s.index + 1 = fuel at hfound ⊢
  induction fuel generalizing s with
  | zero => cases hfound
  | succ fuel ih =>
    have hparent : (ctx'.scope? s).map (·.parent) = (ctx.scope? s).map (·.parent) :=
      (h'.parents s).trans (h.parents s).symm
    have hsame : ∀ {g}, g.kind.body?.isSome → (ctx'.symbolIn? s name = some g ↔ ctx.symbolIn? s name = some g) :=
      fun hg => (h'.functions hg).trans (h.functions hg).symm
    unfold symbolIn? at hsame
    unfold lookupWithin at hfound ⊢
    cases hscope : ctx.scope? s with
    | none => simp [hscope] at hfound
    | some scope =>
      cases hscope' : ctx'.scope? s with
      | none => simp [hscope, hscope'] at hparent
      | some scope' =>
        have hparent : scope'.parent = scope.parent := by simpa [hscope, hscope'] using hparent
        have hsame : ∀ {g}, g.kind.body?.isSome → (scope'.find? name = some g ↔ scope.find? name = some g) :=
          fun hg => by simpa [hscope, hscope'] using hsame hg
        simp only [hscope] at hfound ⊢
        cases hfind' : scope'.find? name with
        | some g =>
          by_cases hg : g.kind.body?.isSome
          · rw [(hsame hg).1 hfind'] at hfound
            obtain ⟨rfl, rfl⟩ := Prod.mk.inj (Option.some.inj hfound)
            exact .inl rfl
          · exact .inr ⟨s, g, rfl, by simpa using hg⟩
        | none =>
          cases hfind : scope.find? name with
          | some g =>
            -- the function that was found would be here still
            rw [hfind] at hfound
            obtain ⟨rfl, rfl⟩ := Prod.mk.inj (Option.some.inj hfound)
            exact absurd ((hsame hf).2 hfind) (by simp [hfind'])
          | none =>
            simp only [hfind] at hfound
            simp only [hparent]
            obtain ⟨parent, hp, hfound⟩ := Option.bind_eq_some_iff.1 hfound
            simp only [hp, Option.bind_some]
            exact ih hfound

end Context

namespace Check

open Context (Ready Step Builtin AllSymbols Since)
open Node (Everywhere)

/-! ## visits -/

/-- The context in which the walk goes on below a node: a function has its parameters there. -/
def enter (ctx : Context) (n : Node) : Except Error Context :=
  match n.form with
  | .functionDef name params result body => do
    let (sig, ctx) ← declareFunction ctx n.scopeId name params result body
    let (_, ctx) ← declareParams ctx params sig.params
    return ctx
  | _ => return ctx

/-- The walk that gives first types to some trees, one after the other, comes to a node in the second context. -/
inductive Visits (mode : Mode) : Context → List Node → Context → Node → Prop where
  | here {ctx x xs} : Visits mode ctx (x :: xs) ctx x
  | inside {ctx ctx₁ ctx' x xs y} (entered : enter ctx x = .ok ctx₁)
      (below : Visits mode ctx₁ x.form.expressions ctx' y) : Visits mode ctx (x :: xs) ctx' y
  | later {ctx ctx₁ ctx' x x' xs y} (typed : materialize mode ctx x = .ok (x', ctx₁))
      (others : Visits mode ctx₁ xs ctx' y) : Visits mode ctx (x :: xs) ctx' y

variable {mode : Mode} {C ctx ctx' ctx₁ ctx₂ : Context} {spans : List Span} {n x y : Node} {ns xs ys : List Node}
  {V : Context → Node → Prop}

theorem Visits.append (h : Visits mode ctx xs ctx' y) (ys : List Node) : Visits mode ctx (xs ++ ys) ctx' y := by
  induction h with
  | here => exact .here
  | inside entered below => exact .inside entered below
  | later typed _ ih => exact .later typed ih

/-- What is visited behind a piece of a tree. -/
theorem Visits.behind {job : Typing} (hjob : Materializes mode ctx job ctx₁) (h : Visits mode ctx₁ ys ctx' y) :
    Visits mode ctx (job.before ++ ys) ctx' y := by
  cases job with
  | node x x' => exact .later hjob.ran h
  | option x x' =>
    cases hjob with
    | none => exact h
    | some inner => exact .later inner.ran h
  | list xs xs' =>
    induction xs generalizing ctx xs' with
    | nil =>
      cases hjob
      exact h
    | cons x xs ih =>
      cases hjob with
      | cons first others => exact .later first.ran (ih _ others)

/-- Pieces of a tree that get their first types one after the other, as one list. -/
theorem Materializes.append {job : Typing} (h : Materializes mode ctx job ctx₁)
    (h' : Materializes mode ctx₁ (.list xs ys) ctx') :
    Materializes mode ctx (.list (job.before ++ xs) (job.after ++ ys)) ctx' := by
  cases job with
  | node => exact .cons h h'
  | option =>
    cases h with
    | none => exact h'
    | some inner => exact .cons inner h'
  | list as bs =>
    induction as generalizing ctx bs with
    | nil =>
      cases h
      exact h'
    | cons a as ih =>
      cases h with
      | cons first others => exact .cons first (ih _ others)

theorem enter_functionDef {span : Span} {scope : Option ScopeId} {type : Option TypeId} {name : Token}
    {ps qs : List (Param Node)} {r : Node} {b : Option Node} {sig : Signature}
    (declares : declareFunction ctx (scope.getD .root) name ps r b = .ok (sig, ctx₁))
    (params : declareParams ctx₁ ps sig.params = .ok (qs, ctx₂)) :
    enter ctx ⟨span, scope, type, .functionDef name ps r b⟩ = .ok ctx₂ := by
  simp [enter, declares, params, Node.scopeId, bind, Except.bind, pure, Except.pure]

/-- The parts of a node get their first types in the context in which the walk goes on below the node. -/
theorem Materializes.expressions (h : Materializes mode ctx (.node x y) ctx') (entered : enter ctx x = .ok ctx₁) :
    ∃ zs ctx₂, Materializes mode ctx₁ (.list x.form.expressions zs) ctx₂ := by
  have hlist : ∀ {c c' job}, Materializes mode c job c' → ∃ zs c', Materializes mode c (.list job.before zs) c' :=
    fun h => ⟨_, _, by simpa using h.append .nil⟩
  cases h with
  | functionDef declares params body =>
    obtain rfl := Except.ok.inj ((enter_functionDef declares params).symm.trans entered)
    exact hlist body
  | literal => exact ⟨[], ctx₁, .nil⟩
  | prefixOp inner | statement inner =>
    obtain rfl := Except.ok.inj entered
    exact hlist inner
  | variableDef _ initializer =>
    obtain rfl := Except.ok.inj entered
    exact hlist initializer
  | root items =>
    obtain rfl := Except.ok.inj entered
    exact hlist items
  | infixOp left right =>
    obtain rfl := Except.ok.inj entered
    exact ⟨_, _, .cons left (.cons right .nil)⟩
  | block items trailing =>
    obtain rfl := Except.ok.inj entered
    obtain ⟨zs, ctx₂, htrailing⟩ := hlist trailing
    exact ⟨_, _, items.append htrailing⟩
  | functionCall callee arguments =>
    obtain rfl := Except.ok.inj entered
    exact ⟨_, _, .cons callee arguments⟩

/-- **What is visited gets its first type there.** -/
theorem Visits.materializes (h : Visits mode ctx xs ctx₁ x) (hrun : Materializes mode ctx (.list xs ys) ctx') :
    ∃ y ctx₂, Materializes mode ctx₁ (.node x y) ctx₂ := by
  induction h generalizing ys ctx' with
  | here =>
    cases hrun with
    | cons first => exact ⟨_, _, first⟩
  | inside entered _ ih =>
    cases hrun with
    | cons first =>
      obtain ⟨zs, ctx₂, hparts⟩ := first.expressions entered
      exact ih hparts
  | later typed _ ih =>
    cases hrun with
    | cons first others =>
      obtain ⟨rfl, rfl⟩ := Prod.mk.inj (Except.ok.inj (typed.symm.trans first.ran))
      exact ih others

/-! ## functions and their definitions -/

/-- The node is the definition of the function that the symbol stands for. -/
def Defines (ctx : Context) (n : Node) (f : Symbol) : Prop :=
  ∃ name params result body sig, n.form = .functionDef name params result body ∧ signature params result = .ok sig ∧
    f = functionSymbol name params body f.type ∧ ctx.type f.type = .function sig.params sig.result

theorem Defines.isSome_body? {f : Symbol} (h : Defines ctx n f) : f.kind.body?.isSome := by
  obtain ⟨name, params, result, body, sig, -, -, hf, -⟩ := h
  rw [hf]
  rfl

theorem Defines.extends {f : Symbol} (h : Defines ctx n f) (hext : ctx.Extends ctx') : Defines ctx' n f := by
  obtain ⟨name, params, result, body, sig, hform, hsig, hf, htype⟩ := h
  refine ⟨name, params, result, body, sig, hform, hsig, hf, ?_⟩
  rw [hext.type_of_ne (by simp [htype]), htype]

/-- All symbols stand for functions that the nodes define. -/
def Defined (ctx : Context) (ns : List Node) : Prop := AllSymbols (fun f => ∃ n ∈ ns, Defines ctx n f) ctx

theorem Defined.declareDefinition (h : Defined ctx ns) (hn : n ∈ ns) (hd : declareDefinition ctx n = .ok ctx') :
    Defined ctx' ns := by
  rcases declareDefinition_cases hd with ⟨name, ps, result, body, sig, hform, hc⟩ | ⟨-, rfl⟩
  · obtain ⟨hsig, hdeclare⟩ := declareFunction_eq_ok hc
    have hold : Defined (ctx.intern (.function sig.params sig.result)).2 ns :=
      (AllSymbols.of_scopes h (ctx.intern_scopes _)).imp fun f ⟨m, hm, hf⟩ =>
        ⟨m, hm, hf.extends (ctx.extends_intern _)⟩
    have hnew : Defines (ctx.intern (.function sig.params sig.result)).2 n (functionSymbol name ps body _) :=
      ⟨name, ps, result, body, sig, hform, hsig, rfl, ctx.type_intern _⟩
    exact (AllSymbols.declare hold ⟨n, hn, hnew⟩ hdeclare).imp fun f ⟨m, hm, hf⟩ =>
      ⟨m, hm, hf.extends (Context.extends_declare hdeclare)⟩
  · exact h

/-- **After the signatures** every symbol stands for a function that the tree defines. -/
theorem defined_of_signatures (h : signatures (scopes .new n).2 (scopes .new n).1 = .ok ctx) :
    Defined ctx (scopes .new n).1.preorder := by
  have hrun : ∀ (xs : List Node) {c : Context}, xs ⊆ (scopes .new n).1.preorder →
      Defined c (scopes .new n).1.preorder → xs.foldlM declareDefinition c = .ok ctx →
        Defined ctx (scopes .new n).1.preorder := by
    intro xs
    induction xs with
    | nil =>
      intro c _ hc h
      obtain rfl := Except.ok.inj h
      exact hc
    | cons x xs ih =>
      intro c hsub hc h
      simp only [List.foldlM_cons, bind_eq_ok] at h
      obtain ⟨c', hx, h⟩ := h
      exact ih (fun _ hy => hsub (List.mem_cons_of_mem _ hy)) (hc.declareDefinition (hsub List.mem_cons_self) hx) h
  refine hrun _ (List.Subset.refl _) ?_ h
  exact allSymbols_of_scopes n

/-! ## calls by name -/

/-- What is called by its name is the function that the name meant when the walk came to it. -/
def Recalls (C : Context) (V : Context → Node → Prop) (n : Node) : Prop :=
  ∀ callee arguments name, n.form = .functionCall callee arguments → callee.identifier? = some name →
    ∃ c type s f, V c { callee with type } ∧ Since C c ∧ c.lookup callee.scopeId name = some (s, f) ∧
      f.kind.body?.isSome ∧ callee.type = some f.type

/-- What the walk relies on when it comes to some trees: all functions are declared, and only these are functions. -/
structure Ahead (C ctx : Context) (spans : List Span) (ns : List Node) : Prop where
  sane : Sane ctx spans ns
  recorded : ∀ n ∈ ns, n.Everywhere (FunctionRecorded ctx)
  since : Since C ctx

/-- What is true when some trees got their first types. -/
structure Recalled (C ctx : Context) (V : Context → Node → Prop) (ns : List Node) : Prop where
  since : Since C ctx
  calls : ∀ n ∈ ns, n.Everywhere (Recalls C V)

theorem Ahead.left (h : Ahead C ctx spans (xs ++ ys)) : Ahead C ctx spans xs :=
  ⟨h.sane.left, fun n hn => h.recorded n (List.mem_append_left _ hn), h.since⟩

theorem Ahead.right {job : Typing} (h : Ahead C ctx spans (job.before ++ ys)) (hjob : Materializes mode ctx job ctx₁)
    (hsince : Since C ctx₁) : Ahead C ctx₁ (job.before.flatMap Node.declared ++ spans) ys :=
  have ho := hjob.outcome h.sane.left
  have hkeeps := (hjob.namesValues h.sane.left).keeps
  ⟨h.sane.right ho.ready ho.step,
    fun n hn => (h.recorded n (List.mem_append_right _ hn)).mono fun _ hx => hx.keeps hkeeps, hsince⟩

theorem Ahead.children (h : Ahead C ctx spans [n]) : Ahead C ctx (n.ownNames ++ spans) n.children :=
  ⟨h.sane.children, fun _ hc => (h.recorded n List.mem_cons_self).child hc, h.since⟩

theorem Recalled.append (h : Recalled C ctx V xs) (h' : Recalled C ctx' V ys) : Recalled C ctx' V (xs ++ ys) :=
  ⟨h'.since, List.forall_mem_append.2 ⟨h.calls, h'.calls⟩⟩

/-- Pieces of a tree that get their first types one after the other. -/
theorem Recalled.seq {job job' : Typing} (ha : Ahead C ctx spans (job.before ++ job'.before))
    (hV : ∀ {c x}, Visits mode ctx (job.before ++ job'.before) c x → V c x) (hjob : Materializes mode ctx job ctx₁)
    (h : ∀ {spans}, Ahead C ctx spans job.before → (∀ {c x}, Visits mode ctx job.before c x → V c x) →
      Recalled C ctx₁ V job.after)
    (h' : ∀ {spans}, Ahead C ctx₁ spans job'.before → (∀ {c x}, Visits mode ctx₁ job'.before c x → V c x) →
      Recalled C ctx' V job'.after) : Recalled C ctx' V (job.after ++ job'.after) :=
  have first := h ha.left fun hv => hV (hv.append _)
  first.append (h' (ha.right hjob first.since) fun hv => hV (hv.behind hjob))

theorem recalls_of_leaf {token : Token} (hform : n.form = .literal token) : n.Everywhere (Recalls C V) := by
  refine Node.everywhere_iff.2 ⟨fun _ _ _ hcall => ?_, ?_⟩
  · simp [hform] at hcall
  · simp [Node.children, hform, Form.parts]

/-- A node with first types over parts that have theirs. -/
theorem Recalled.node (hrun : Materializes mode ctx (.node x y) ctx₁) (hshaped : x.form.Shaped)
    (h : Recalled C ctx' V y.form.expressions) (hy : Recalls C V y) : Recalled C ctx' V [y] := by
  have hshaped' : y.form.Shaped := likeness_materializedAs.shaped hrun.alike.2 hshaped
  refine ⟨h.since, List.forall_mem_singleton.2 (Node.everywhere_iff.2 ⟨hy, fun c hc => ?_⟩)⟩
  rcases mem_expressions_or_isName hshaped' _ hc with hc | ⟨token, -, htoken⟩
  · exact h.calls c hc
  · exact recalls_of_leaf htoken

/-- A leaf that holds a name gets the type of what the name means. -/
theorem leafType_of_identifier {s : ScopeId} {token : Token} {span : Span} {noted type : Option TypeId} {name : String}
    (hname : token.identifier? = some name) (h : leafType ctx s token span noted = .ok type) :
    ∃ t f, ctx.lookup s name = some (t, f) ∧ type = some f.type := by
  have hkind : token.kind = .identifier := by
    unfold Token.identifier? at hname
    split at hname
    · assumption
    · cases hname
  simp only [leafType, hkind, hname, Option.getD_some, bind_eq_ok, pure, Except.pure, Except.ok.injEq] at h
  obtain ⟨f, hf, rfl⟩ := h
  unfold Context.resolveSymbol at hf
  split at hf
  · next t f' hlookup =>
    obtain rfl := Except.ok.inj hf
    exact ⟨t, f', hlookup, rfl⟩
  · cases hf

/-- **A call by name recalls its function**: what has the type of a function is one. -/
theorem recalls_functionCall {span : Span} {scope : Option ScopeId} {type : Option TypeId} {f f' : Node} {t : TypeId}
    (ha : Ahead C ctx spans (f :: xs)) (hV : ∀ {c x}, Visits mode ctx (f :: xs) c x → V c x)
    (callee : Materializes mode ctx (.node f f') ctx₁) (arguments : Materializes mode ctx₁ (.list xs ys) ctx')
    (result : callType ctx' f' = .ok t) (hsince : Since C ctx') :
    Recalls C V ⟨span, scope, type, .functionCall f' ys⟩ := by
  intro g args name hform hname
  obtain ⟨rfl, rfl⟩ := Form.functionCall.inj hform
  have hsane : Sane ctx spans ([f] ++ xs) := ha.sane
  have ho := callee.outcome hsane.left
  cases callee with
  | @literal _ span₀ scope₀ type₀ type₁ token leaf =>
    obtain ⟨s, g, hlookup, rfl⟩ := leafType_of_identifier hname leaf
    have hstep := (arguments.outcome (hsane.right ho.ready ho.step)).step
    obtain ⟨params, hfunction⟩ := callType_eq_ok result
    refine ⟨_, type₀, s, g, hV .here, ha.since, hlookup, ?_, rfl⟩
    by_contra hvalue
    have hvalue : g.kind.body? = none := by simpa using hvalue
    exact hsince.values (hstep.values hvalue (Context.symbolIn?_of_lookup hlookup)) hvalue params t hfunction
  | _ => simp [Node.identifier?] at hname

/-! ## definitions -/

/-- No value has the type of a function. -/
theorem not_function_of_settles (hr : ctx.Regular) {declared t : TypeId} {initializer : Option TypeId}
    (hd : Builtin declared) (h : Settles mode ctx declared initializer t) (params : List TypeId) (result : TypeId) :
    ctx.type t ≠ .function params result := by
  unfold Settles at h
  split at h
  · rcases h with ⟨rfl, -⟩ | h
    · exact builtin_ne_function hr hd
    · intro hfunction
      obtain ⟨-, -, hnumeric⟩ := Context.numeric_of_promote h
      simp [Context.isNumeric, hfunction, Ty.isNumeric, Ty.rank?] at hnumeric
  · exact h ▸ builtin_ne_function hr hd

theorem since_declareParams {ps qs : List (Param Node)} {ts : List TypeId} (h : Since C ctx) (hr : ctx.Regular)
    (hplaced : ∀ p ∈ ps, p.name.scopeId.index < ctx.scopes.length) (hts : ∀ t ∈ ts, Builtin t)
    (hd : declareParams ctx ps ts = .ok (qs, ctx')) : Since C ctx' := by
  induction ps generalizing ctx ts qs with
  | nil =>
    obtain ⟨rfl, rfl⟩ := Prod.mk.inj (Except.ok.inj hd)
    exact h
  | cons p ps ih =>
    cases ts with
    | nil =>
      obtain ⟨rfl, rfl⟩ := Prod.mk.inj (Except.ok.inj hd)
      exact h
    | cons t ts =>
      simp only [declareParams, bind_eq_ok, Prod.exists, pure, Except.pure, Except.ok.injEq, Prod.mk.injEq] at hd
      obtain ⟨ctx₁, hdeclare, qs, ctx₂, hrest, rfl, rfl⟩ := hd
      obtain ⟨htypes, hbindings, hlength⟩ := Context.declare_types hdeclare
      have ht := hts t List.mem_cons_self
      refine ih (h.declare (hplaced p List.mem_cons_self) rfl (fun params result => ?_) hdeclare)
        (hr.of_types htypes hbindings) (fun q hq => hlength ▸ hplaced q (List.mem_cons_of_mem _ hq))
        (fun u hu => hts u (List.mem_cons_of_mem _ hu)) hrest
      rw [hr.resolve_builtin ht]
      exact builtin_ne_function hr ht

/-- The function of a definition is declared already; the walk goes on below with its parameters. -/
theorem Ahead.body {name : Token} {ps qs : List (Param Node)} {r : Node} {b : Option Node} {sig : Signature}
    (hform : n.form = .functionDef name ps r b) (ha : Ahead C ctx spans [n])
    (declares : declareFunction ctx n.scopeId name ps r b = .ok (sig, ctx₁))
    (params : declareParams ctx₁ ps sig.params = .ok (qs, ctx₂)) :
    Ahead C ctx₂ (ps.map (·.name.span) ++ name.span :: spans) b.toList := by
  have hkeeps := (holds_of_functionDef hform ha.sane declares params).1
  refine ⟨(ha.sane.body hform declares params).1, fun x hx => ?_, ?_⟩
  · have hchild : x ∈ n.children := by
      rw [Node.children, hform, Form.parts]
      exact List.mem_append_left _ (List.mem_append_right _ hx)
    exact ((ha.recorded n List.mem_cons_self).child hchild).mono fun _ hm => hm.keeps hkeeps
  · obtain ⟨sig', t, hsig, ht, hholds⟩ := (ha.recorded n List.mem_cons_self).self name ps r b hform
    obtain ⟨rfl, rfl⟩ := Prod.mk.inj (Except.ok.inj (declares.symm.trans (declareFunction_of_recorded hsig ht hholds)))
    refine since_declareParams ha.since ha.sane.ready.regular (fun p hp => ?_) (fun u hu => ?_) params
    · exact ((ha.sane.placed n List.mem_cons_self).child (Node.mem_children_of_param hform hp).1).self
    · obtain ⟨p, -, hp⟩ := forall₂_of_mem (builtin_of_signature hsig).2.2 hu
      exact builtin_of_typeNamedBy hp

/-- A variable is declared behind its initializer. -/
theorem since_variableDef {name type : Node} {i i' : Option Node} {declared t : TypeId}
    (hform : n.form = .variableDef name type i) (hs : Sane ctx spans [n]) (named : typeNamedBy type = .ok declared)
    (initializer : Materializes mode ctx (.option i i') ctx₁) (hsince : Since C ctx₁)
    (settles : variableType mode ctx₁ declared type.span i' = .ok (t, ctx₂))
    (declares : ctx₂.declare n.scopeId (variableSymbol name t) = .ok ctx') : Since C ctx' := by
  have ho := initializer.outcome (hs.initializer hform).1
  have hbuiltin := builtin_of_typeNamedBy named
  obtain ⟨hready, hstep, -, -, hsettles⟩ := ready_of_variableType ho.ready hbuiltin
    (fun x hx => (ho.typed x (Option.mem_toList.2 hx)).self.known) settles
  have hscope : n.scopeId.index < ctx₂.scopes.length := by
    rw [hstep.length, ho.step.length]
    exact (hs.placed n List.mem_cons_self).self
  exact (hsince.grow ho.ready hready.regular hstep (scopes_of_variableType settles)).declare hscope rfl
    (not_function_of_settles hready.regular hbuiltin hsettles) declares

/-! ## whole runs -/

/-- **Calls by name recall their functions** when a tree has its first types. -/
theorem Materializes.recalled {job : Typing} (h : Materializes mode ctx job ctx') (ha : Ahead C ctx spans job.before)
    (hV : ∀ {c x}, Visits mode ctx job.before c x → V c x) : Recalled C ctx' V job.after := by
  have shaped : ∀ {ctx spans n}, Ahead C ctx spans [n] → n.form.Shaped := fun ha =>
    (ha.sane.shaped _ List.mem_cons_self).self
  induction h generalizing spans with
  | literal => exact ⟨ha.since, List.forall_mem_singleton.2 (recalls_of_leaf rfl)⟩
  | prefixOp operand ih =>
    exact .node (.prefixOp operand) (shaped ha) (ih ha.children fun hv => hV (.inside rfl hv)) nofun
  | infixOp left right ihl ihr =>
    exact .node (.infixOp left right) (shaped ha)
      (.seq ha.children (fun hv => hV (.inside rfl hv)) left ihl ihr) nofun
  | statement inner ih =>
    exact .node (.statement inner) (shaped ha) (ih ha.children fun hv => hV (.inside rfl hv)) nofun
  | block items trailing ihi iht =>
    exact .node (.block items trailing) (shaped ha)
      (.seq ha.children (fun hv => hV (.inside rfl hv)) items ihi iht) nofun
  | functionDef declares params body ihb =>
    exact .node (.functionDef declares params body) (shaped ha)
      (ihb (ha.body rfl declares params) fun hv => hV (.inside (enter_functionDef declares params) hv)) nofun
  | functionCall callee arguments result ihc iha =>
    have hparts := Recalled.seq ha.children (fun hv => hV (.inside rfl hv)) callee ihc iha
    exact .node (.functionCall callee arguments result) (shaped ha) hparts
      (recalls_functionCall ha.children (fun hv => hV (.inside rfl hv)) callee arguments result hparts.since)
  | @variableDef ctx ctx₁ ctx₂ ctx' span scope noted name type i i' declared t named initializer settles declares ihi =>
    have hi := ihi ⟨(ha.sane.initializer rfl).1, fun x hx => (ha.recorded _ List.mem_cons_self).child
      (List.mem_cons_of_mem _ (List.mem_cons_of_mem _ hx)), ha.since⟩ fun hv => hV (.inside rfl hv)
    exact .node (.variableDef named initializer settles declares) (shaped ha)
      ⟨since_variableDef rfl ha.sane named initializer hi.since settles declares, hi.calls⟩ nofun
  | root items ih => exact .node (.root items) (shaped ha) (ih ha.children fun hv => hV (.inside rfl hv)) nofun
  | nil => exact ⟨ha.since, nofun⟩
  | cons first others ihf iho => exact .seq ha hV first ihf iho
  | none => exact ⟨ha.since, nofun⟩
  | some inner ih => exact ih ha hV

/-! ## whole programs -/

/-- When the functions of a program are declared, all of it is ahead. -/
theorem ahead_of_signatures (hshaped : n.Everywhere fun x => x.form.Shaped) (hnodup : n.declared.Nodup)
    (h : signatures (scopes .new n).2 (scopes .new n).1 = .ok ctx) :
    Ahead ctx ctx (scopes .new n).1.functions [(scopes .new n).1] := by
  refine ⟨(sane_of_signatures hshaped hnodup h).1, List.forall_mem_singleton.2 (recorded_of_signatures hnodup h),
    fun _ => rfl, fun _ => Iff.rfl, fun {s name v} hv hvalue => ?_⟩
  obtain ⟨d, -, hd⟩ := AllSymbols.of_symbolIn? (defined_of_signatures h) hv
  exact absurd hd.isSome_body? (by simp [hvalue])

/-- A note on a leaf is all that a change of notes changes. -/
theorem mapType_of_identifier {φ : Option TypeId → Option TypeId} {name : String} (h : n.identifier? = some name)
    (type : Option TypeId) : ({ n.mapType φ with type } : Node) = { n with type } := by
  obtain ⟨span, scope, noted, form⟩ := n
  cases form with
  | literal => rfl
  | _ => simp [Node.identifier?] at h

theorem Recalls.resolved (hfunctions : ∀ {s name f}, C.symbolIn? s name = some f → (ctx.type f.type).isHole = false)
    (h : Recalls C V n) : Recalls C V (n.mapType (·.map ctx.resolve)) := by
  intro callee' arguments' name hform hname
  rw [Node.mapType_eq] at hform
  cases hn : n.form with
  | functionCall callee arguments =>
    simp only [hn, Node.mapTypeParts, Form.functionCall.injEq] at hform
    obtain ⟨rfl, -⟩ := hform
    have hR := renotes_mapType (·.map ctx.resolve)
    have hname' : callee.identifier? = some name := (identifier?_of_likeness hR.toLikeness rfl).symm.trans hname
    obtain ⟨c, type, s, f, hvisit, hsince, hlookup, hfunction, htype⟩ := h callee arguments name hn hname'
    refine ⟨c, type, s, f, mapType_of_identifier hname' type ▸ hvisit, hsince, ?_, hfunction, ?_⟩
    · rw [hR.scopeId rfl]
      exact hlookup
    · have hf := hfunctions ((hsince.functions hfunction).1 (Context.symbolIn?_of_lookup hlookup))
      rw [Node.mapType_eq, htype, Option.map_some, Context.resolve_of_not_hole hf]
  | _ => simp [hn, Node.mapTypeParts] at hform

/-- **The calls by name of a program recall their functions** when it has its first types. -/
theorem recalled_of_firstTypes {s : Node} (hshaped : n.Everywhere fun x => x.form.Shaped) (hnodup : n.declared.Nodup)
    (h : firstTypes mode n = .ok (s, ctx)) :
    ∃ C, signatures (scopes .new n).2 (scopes .new n).1 = .ok C ∧ C.Extends ctx ∧
      Recalled C ctx (Visits mode C [(scopes .new n).1]) [s] := by
  simp only [firstTypes, bind_eq_ok, Prod.exists, pure, Except.pure, Except.ok.injEq] at h
  obtain ⟨C, hC, m, c, hm, h⟩ := h
  have hahead := ahead_of_signatures hshaped hnodup hC
  have hrun := materializes_of_materialize _ hm
  have ho := hrun.outcome hahead.sane
  have hm := hrun.recalled hahead fun hv => hv
  refine ⟨C, hC, ?_⟩
  cases mode with
  | nominal =>
    obtain ⟨rfl, rfl⟩ := Prod.mk.inj h
    exact ⟨ho.step.grows, hm⟩
  | unification =>
    obtain ⟨rfl, rfl⟩ := Prod.mk.inj h
    have hfunctions : ∀ {s name f}, C.symbolIn? s name = some f → (c.type f.type).isHole = false := fun hf => by
      obtain ⟨d, -, hd⟩ := AllSymbols.of_symbolIn? (defined_of_signatures hC) hf
      obtain ⟨_, _, _, _, sig, -, -, -, htype⟩ := hd.extends ho.step.grows
      rw [htype]
      rfl
    refine ⟨⟨ho.step.grows.types, ho.step.grows.bindings⟩, hm.since.resolveSymbols ho.ready.regular hfunctions,
      List.forall_mem_singleton.2 ?_⟩
    intro y hy
    rw [Node.preorder_mapType] at hy
    obtain ⟨x, hx, rfl⟩ := List.mem_map.1 hy
    exact (hm.calls m List.mem_cons_self x hx).resolved hfunctions

end Check

end LetFn
