import LetFn.Proofs.Check.Lifting
import LetFn.Proofs.Check.Visiting

/-!
# What the errors of calls point at

A call with the wrong arguments is reported together with a place in the definition of its function: the name of the
function, or of the parameter that an argument does not fit. The function is looked up once more for that, in scopes
that are full by then. It is found again, unless a variable of its name was declared behind the call; then the error
points at what is called.

* `CallError ctx call arguments expected which related e` — what is wrong with a call, and the error that says so;
* `Means mode n callee name found` — what a name meant when the walk over a program came to it;
* `Traced mode ctx n callee name which related` — what an error about a call by name points at.

Main facts: `callRule_eq_error`, `call_errors_point`, `hidden_function_not_pointed_at`.
-/

namespace LetFn.Check

open Context (Since)
open Node (Revised Everywhere)

variable {mode : Mode} {C ctx : Context} {V : Context → Node → Prop} {n x y : Node} {e : Error}

/-! ## the error of one call -/

/-- The place in a declaration: its name, or one of its parameters. -/
def Declaration.place (decl : Declaration) : Option Nat → Span
  | none => decl.name
  | some k => decl.params.getD k decl.name

/-- What is wrong with a call: the number of its arguments, or the one at a certain place. -/
inductive CallError (ctx : Context) (call : Span) (arguments : List Node) (expected : List TypeId) :
    Option Nat → Span → Error → Prop where
  | arity {related} (differs : arguments.length ≠ expected.length) :
      CallError ctx call arguments expected none related
        ⟨.arityMismatch expected.length arguments.length, call, some related⟩
  | argument {k argument t related} (given : arguments[k]? = some argument) (wanted : expected[k]? = some t)
      (fails : ctx.coerces argument.typeId t = false) :
      CallError ctx call arguments expected (some k) related
        ⟨.argumentMismatch (k + 1) (ctx.display t) (ctx.display argument.typeId), argument.span, some related⟩

theorem passArguments_eq_error {decl : Declaration} {index : Nat} {xs : List Node} {ts : List TypeId}
    (h : passArguments ctx decl index xs ts = .error e) :
    ∃ k argument t, xs[k]? = some argument ∧ ts[k]? = some t ∧ ctx.coerces argument.typeId t = false ∧
      e = ⟨.argumentMismatch (index + k + 1) (ctx.display t) (ctx.display argument.typeId), argument.span,
        some (decl.params.getD (index + k) decl.name)⟩ := by
  induction xs generalizing index ts with
  | nil => cases h
  | cons x xs ih =>
    cases ts with
    | nil => cases h
    | cons t ts =>
      simp only [passArguments] at h
      split at h
      · next hfails => exact ⟨0, x, t, rfl, rfl, by simpa using hfails, (Except.error.inj h).symm⟩
      · rcases bind_eq_error.1 h with h | ⟨_, -, h⟩
        · obtain ⟨k, argument, t', hx, ht, hfails, rfl⟩ := ih h
          exact ⟨k + 1, argument, t', hx, ht, hfails, by simp only [Nat.add_assoc, Nat.add_comm 1]⟩
        · cases h

/-- **What the check of calls refuses** is a call of a function with arguments that do not fit. -/
theorem callRule_eq_error (h : callRule ctx n = .error e) :
    ∃ callee arguments expected result which, n.form = .functionCall callee arguments ∧
      ctx.type callee.typeId = .function expected result ∧
      CallError ctx n.span arguments expected which ((declaration ctx callee).place which) e := by
  unfold callRule at h
  split at h
  · next callee arguments hform =>
    split at h
    · next expected result hfunction =>
      refine ⟨callee, arguments, expected, result, ?_⟩
      dsimp only at h
      split at h
      · next hlength =>
        obtain rfl := Except.error.inj h
        exact ⟨none, hform, hfunction, .arity hlength⟩
      · rcases bind_eq_error.1 h with h | ⟨_, -, h⟩
        · obtain ⟨k, argument, t, hargument, ht, hfails, rfl⟩ := passArguments_eq_error h
          rw [Nat.zero_add]
          exact ⟨some k, hform, hfunction, .argument hargument ht hfails⟩
        · cases h
    · cases h
  · cases h

/-- Arguments at the same places with the same types are refused alike. -/
theorem CallError.of_forall₂ {call : Span} {arguments arguments' : List Node} {expected : List TypeId}
    {which : Option Nat} {related : Span} (h : CallError ctx call arguments' expected which related e)
    (harguments : List.Forall₂ (fun x y => y.span = x.span ∧ y.typeId = x.typeId) arguments arguments') :
    CallError ctx call arguments expected which related e := by
  cases h with
  | arity hdiffers =>
    rw [← harguments.length_eq]
    exact .arity (harguments.length_eq ▸ hdiffers)
  | @argument k argument' t _ given wanted fails =>
    obtain ⟨hk, rfl⟩ := List.getElem?_eq_some_iff.1 given
    have hk' : k < arguments.length := harguments.length_eq ▸ hk
    obtain ⟨hspan', htype⟩ := harguments.get hk' hk
    simp only [List.get_eq_getElem] at hspan' htype
    rw [htype] at fails ⊢
    rw [hspan']
    exact .argument (List.getElem?_eq_getElem hk') wanted fails

/-! ## calls by name until they are checked -/

theorem Recalls.lifted (h : Recalls C V x) (hxy : Lifted ctx x y) : Recalls C V y :=
  fun callee arguments name hform => h callee arguments name (hxy.form ▸ hform)

section

variable {rule : Node → Except Error Node}

/-- A name is its own revision. -/
theorem eq_of_revised_identifier (hrule : Node.OnlyNotes rule)
    (hleaf : ∀ {n token}, n.form = .literal token → rule n = .ok n) {name : String} (hname : y.identifier? = some name)
    (h : Revised rule x y) : y = x := by
  obtain ⟨form, hparts, hy⟩ := Node.revised_iff.1 h
  have hnotes : Form.Rel _ form y.form := hrule.parts hy
  obtain ⟨token, hform⟩ : ∃ token, x.form = .literal token := by
    unfold Node.identifier? at hname
    generalize x.form = f, y.form = g at hparts hnotes hname
    cases hnotes <;> cases hparts <;> first | exact ⟨_, rfl⟩ | simp at hname
  exact eq_of_revised_leaf hleaf hform h

/-- A check that leaves leaves and calls alone leaves the calls by name as they were. -/
theorem recalls_of_revised (hnotes : Node.OnlyNotes rule) (hlifts : Lifts ctx rule)
    (hleaf : ∀ {n token}, n.form = .literal token → rule n = .ok n)
    (hcall : ∀ {n n'}, n.tag = .functionCall → rule n = .ok n' → n'.form = n.form) (hx : x.Everywhere (Recalls C V))
    (h : Revised rule x y) : y.Everywhere (Recalls C V) := by
  refine everywhere_revised hlifts (fun hxy hr => hr.lifted hxy) ?_ hx h
  intro n n' form hn hparts _ hrule callee arguments name hform hname
  have htag : Node.tag { n with form } = .functionCall := (hnotes.parts hrule).tag.symm.trans (by rw [hform]; rfl)
  rw [hcall htag hrule] at hform
  obtain rfl : form = _ := hform
  generalize hf : n.form = f at hparts
  cases hparts with
  | functionCall hcallee _ =>
    obtain rfl := eq_of_revised_identifier hnotes hleaf hname hcallee
    exact hn _ _ name hf hname

end

/-! ## whole programs -/

/-- What a name meant when the walk over a program came to it. -/
def Means (mode : Mode) (n callee : Node) (name : String) (found : ScopeId × Symbol) : Prop :=
  ∃ C c type, signatures (scopes .new n).2 (scopes .new n).1 = .ok C ∧
    Visits mode C [(scopes .new n).1] c { callee with type } ∧ c.lookup callee.scopeId name = some found

/-- The place in the definition of a function: its name, or the name of one of its parameters. -/
def declaredAt (name : Token) (params : List (Param Node)) : Option Nat → Option Span
  | none => some name.span
  | some k => params[k]?.map (·.name.span)

/-- What an error about a call by name points at, where the name meant a function with the place in its definition. -/
inductive PointsAt (ctx : Context) (callee : Node) (name : String) (found : ScopeId × Symbol) (place : Option Span) :
    Span → Prop where
  /-- The name still means the function. -/
  | definition {related} (same : ctx.lookup callee.scopeId name = some found) (there : place = some related) :
      PointsAt ctx callee name found place related
  /-- By now a variable hides the function. -/
  | hidden {s v} (other : ctx.lookup callee.scopeId name = some (s, v)) (value : v.kind.body? = none) :
      PointsAt ctx callee name found place callee.span

/-- The name of what is called meant a function of the program, and the error points at the place in the definition of
that function, unless a variable hides it. -/
def Traced (mode : Mode) (ctx : Context) (n callee : Node) (name : String) (which : Option Nat) (related : Span) :
    Prop :=
  ∃ s f d fname params result body, Means mode n callee name (s, f) ∧ d ∈ (scopes .new n).1.preorder ∧
    d.form = .functionDef fname params result body ∧ f = functionSymbol fname params body f.type ∧
    PointsAt ctx callee name (s, f) (declaredAt fname params which) related

/-- **A call by name is traced** to the function that the name meant. -/
theorem Recalls.traced (hC : signatures (scopes .new n).2 (scopes .new n).1 = .ok C) (hext : C.Extends ctx)
    (hsince : Since C ctx) {call callee : Node} {arguments : List Node} {name : String}
    (h : Recalls C (Visits mode C [(scopes .new n).1]) call) (hform : call.form = .functionCall callee arguments)
    (hname : callee.identifier? = some name) {expected : List TypeId} {result : TypeId}
    (hfunction : ctx.type callee.typeId = .function expected result) {which : Option Nat}
    (hwhich : ∀ k ∈ which, k < expected.length) :
    Traced mode ctx n callee name which ((declaration ctx callee).place which) := by
  obtain ⟨c, type, s, f, hvisit, hc, hlookup, hf, htype⟩ := h callee arguments name hform hname
  have hsymbol := (hc.functions hf).1 (Context.symbolIn?_of_lookup hlookup)
  obtain ⟨d, hd, hdefines⟩ := (defined_of_signatures hC).of_symbolIn? hsymbol
  obtain ⟨fname, params, r, body, sig, hdform, hsig, hfsymbol, hftype⟩ := hdefines.extends hext
  -- the call is checked against the parameters of the definition
  rw [Node.typeId, htype, Option.getD_some, hftype] at hfunction
  obtain ⟨rfl, rfl⟩ := Ty.function.inj hfunction
  have hlength : params.length = sig.params.length := (builtin_of_signature hsig).2.2.length_eq
  refine ⟨s, f, d, fname, params, r, body, ⟨C, c, type, hC, hvisit, hlookup⟩, hd, hdform, hfsymbol, ?_⟩
  rcases hc.lookup hsince hf hlookup with hsame | ⟨t, v, hother, hvalue⟩
  · have hdecl : declaration ctx callee = ⟨fname.span, params.map (·.name.span)⟩ := by
      unfold declaration
      rw [hname, Option.bind_some, hsame, hfsymbol]
      rfl
    refine .definition hsame ?_
    rw [hdecl]
    cases which with
    | none => rfl
    | some k =>
      have hk : k < params.length := hlength ▸ hwhich k rfl
      simp [declaredAt, Declaration.place, hk]
  · have hdecl : declaration ctx callee = ⟨callee.span, []⟩ := by
      obtain ⟨_, _, span, kind⟩ := v
      unfold declaration
      rw [hname, Option.bind_some, hother]
      cases kind with
      | function => cases hvalue
      | _ => rfl
    have hplace : (declaration ctx callee).place which = callee.span := by
      rw [hdecl]
      cases which <;> rfl
    rw [hplace]
    exact .hidden hother hvalue

theorem CallError.lt_length {call : Span} {arguments : List Node} {expected : List TypeId} {which : Option Nat}
    {related : Span} (h : CallError ctx call arguments expected which related e) :
    ∀ k ∈ which, k < expected.length := by
  cases h with
  | arity => nofun
  | argument _ wanted _ =>
    rintro _ ⟨⟩
    exact (List.getElem?_eq_some_iff.1 wanted).1

/-- **Errors about calls point at the function that was called.** The check of calls refuses a program at a call whose
arguments do not fit; if a name is called, the error points into the definition of the function that the name meant when
it got its type, unless a variable that was declared behind it hides the function. -/
theorem call_errors_point {source : String} {s a b : Node} (hn : parseSource source = .ok n)
    (hs : firstTypes mode n = .ok (s, ctx)) (ha : arithmetic ctx s = .ok a) (hb : assignment mode ctx a = .ok b)
    (h : calls ctx b = .error e) :
    ∃ call ∈ b.preorder, ∃ callee arguments expected result which related,
      call.form = .functionCall callee arguments ∧ ctx.type callee.typeId = .function expected result ∧
      CallError ctx call.span arguments expected which related e ∧
      ∀ name, callee.identifier? = some name → Traced mode ctx n callee name which related := by
  have hshaped := shaped_of_parseSource hn
  have hnodup := declared_nodup_of_parseSource hn
  obtain ⟨-, hr, -⟩ := typed_of_firstTypes hshaped hnodup hs
  obtain ⟨C, hC, hext, hsince, hrecalls⟩ := recalled_of_firstTypes hshaped hnodup hs
  have hrecalls := recalls_of_revised onlyNotes_arithmeticRule (lifts_arithmeticRule hr) arithmeticRule_leaf
    (fun htag => form_of_arithmeticRule (by simp [htag])) (hrecalls s List.mem_cons_self) ha
  have hrecalls := recalls_of_revised onlyNotes_assignmentRule lifts_assignmentRule assignmentRule_leaf
    (fun htag => form_of_assignmentRule (by simp [htag])) hrecalls hb
  obtain ⟨call, hcall, form, hparts, hrule⟩ := Node.revise_eq_error h
  obtain ⟨callee', arguments', expected, result, which, hform', hfunction, herror⟩ := callRule_eq_error hrule
  obtain rfl : form = _ := hform'
  generalize hform : call.form = f at hparts
  cases hparts with
  | @functionCall callee _ arguments _ hcallee harguments =>
    rw [keepsOwn_callRule.typeId hcallee] at hfunction
    refine ⟨call, hcall, callee, arguments, expected, result, which, _, hform, hfunction,
      herror.of_forall₂ (harguments.imp fun _ _ h => ⟨onlyNotes_callRule.span_eq h, keepsOwn_callRule.typeId h⟩),
      fun name hname => ?_⟩
    have hname' : callee'.identifier? = some name :=
      (identifier?_of_likeness (renotes_revisedAs onlyNotes_callRule).toLikeness ⟨_, hcallee, .refl _⟩).trans hname
    obtain rfl := eq_of_revised_identifier onlyNotes_callRule callRule_leaf hname' hcallee
    exact (hrecalls call hcall).traced hC hext hsince hform hname hfunction herror.lt_length

/-- With a function that is declared without a body first, called from inside another function. -/
theorem call_errors_point_prototype :
    let source := "fn f(a: i8) -> i8 fn f(b: i8) -> i8 { b } { fn g(c: int) -> i8 { let d: int = c; f(2.0) } }"
    let e : Error := ⟨.argumentMismatch 1 "i8" "float", ⟨83, 86⟩, some ⟨23, 24⟩⟩
    ∃ n s a b ctx, parseSource source = .ok n ∧ firstTypes .unification n = .ok (s, ctx) ∧ arithmetic ctx s = .ok a ∧
      assignment .unification ctx a = .ok b ∧ calls ctx b = .error e ∧
      ∃ call ∈ b.preorder, ∃ callee arguments expected result which related,
        call.form = .functionCall callee arguments ∧ ctx.type callee.typeId = .function expected result ∧
        CallError ctx call.span arguments expected which related e ∧
        ∀ name, callee.identifier? = some name → Traced .unification ctx n callee name which related := by
  intro source e
  have hrun : Yields (fun n => Yields (fun r => Yields (fun a => Yields (fun b => calls r.2 b = .error e)
      (assignment .unification r.2 a)) (arithmetic r.2 r.1)) (firstTypes .unification n)) (parseSource source) := by
    decide +kernel
  obtain ⟨n, hn, hrun⟩ := yields_iff.1 hrun
  obtain ⟨⟨s, ctx⟩, hs, hrun⟩ := yields_iff.1 hrun
  obtain ⟨a, ha, hrun⟩ := yields_iff.1 hrun
  obtain ⟨b, hb, h⟩ := yields_iff.1 hrun
  exact ⟨n, s, a, b, ctx, hn, hs, ha, hb, h, call_errors_point hn hs ha hb h⟩

/-- **An error may miss the parameter**: the argument does not fit the parameter at 5..6, and the error points at the
name in the call, since the block has a variable of that name behind it. -/
theorem hidden_function_not_pointed_at :
    let source := "fn f(a: i8) -> int { 1 } { f(2.0); let f: int = 2; }"
    Yields (fun n => n.declared = [⟨3, 4⟩, ⟨5, 6⟩, ⟨39, 40⟩]) (parseSource source) ∧
      analyze source .nominal =
        .error (.error ⟨.argumentMismatch 1 "i8" "float", ⟨29, 32⟩, some ⟨27, 28⟩⟩) := by
  decide +kernel

end LetFn.Check
