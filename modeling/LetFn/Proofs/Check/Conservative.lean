import LetFn.Proofs.Check.Lasting
import LetFn.Proofs.Check.Mirroring

/-!
# Unification extends declared types

A program that is accepted with declared types alone is accepted with unification, and comes out the same: its scopes
and symbols, and its tree, but that declared types alone note the declared type of a variable on its initializer.

The first types are the same in the end, because a variable settles on its declared type where its initializer fits. The
checks after that look at two tables of which one has type variables behind the other, and no check makes a difference
between a type variable and nothing at all. Between the assignments of the two ways there remains the note on
initializers, and the check of calls never looks at it.

* `noteInitializer` — the rule that notes the declared type on the initializer of a variable;
* `arithmeticRule_widened`, `callRule_widened` — the checks in a wider table;
* `calls_noted` — calls and notes on initializers in either order.

Main fact: `unification_conservative`.
-/

namespace LetFn.Check

open Context (Builtin Extends Regular Mirrors Held Widened AllSymbols Owned Flat)
open Node (Revised Renoted Everywhere revised_iff)

variable {mode : Mode} {C ctx ctxU ctx' : Context} {n n' x y z : Node}

/-! ## notes on initializers -/

/-- The form with the declared type of a variable noted on its initializer. -/
def withDeclared : Form Node → Form Node
  | .variableDef name type (some initializer) =>
    .variableDef name type (some { initializer with type := some type.typeId })
  | form => form

theorem tag_withDeclared (f : Form Node) : (withDeclared f).tag = f.tag := by
  unfold withDeclared
  split <;> rfl

/-- Notes the declared type of a variable on its initializer. -/
def noteInitializer (n : Node) : Except Error Node := .ok { n with form := withDeclared n.form }

/-- The check of assignments with declared types does just that. -/
theorem noteInitializer_of_assignmentRule (h : assignmentRule .nominal ctx n = .ok n') : noteInitializer n = .ok n' := by
  unfold noteInitializer
  rcases assignmentRule_cases h with ⟨name, type, initializer, hform, -, -, rfl⟩ | ⟨rfl, -, hlet, -⟩
  · rw [hform]
    rfl
  · have hsame : withDeclared n'.form = n'.form := by
      unfold withDeclared
      split
      · next hform => exact absurd (hlet _ _ _ hform) nofun
      · rfl
    rw [hsame]
    cases n'
    rfl

/-! ## checks in a wider table -/

theorem arithmeticRule_widened (hw : Widened ctx ctxU) (h : arithmeticRule ctx n = .ok n') :
    arithmeticRule ctxU n = .ok n' := by
  unfold arithmeticRule
  rcases arithmeticRule_cases h with ⟨_, _, _, _, hform, harith, hl, hr, ht, rfl⟩ | ⟨_, _, _, hform, harith, rfl⟩ |
    ⟨_, _, hform, hnumeric, rfl⟩ | ⟨_, _, hform, rfl⟩ | ⟨hbinary, hunary, hblock, rfl⟩
  · simp [hform, harith, hw.isNumeric_eq, hw.promote_eq, hl, hr, ht, pure, Except.pure]
  · simp [hform, harith, pure, Except.pure]
  · simp only [hform, hw.isNumeric_eq, hnumeric, Bool.not_true, Bool.false_eq_true, if_false]
    split <;> rfl
  · simp [hform, pure, Except.pure]
  · cases hform : n'.form with
    | infixOp => exact absurd (by simp [Node.tag, hform, Form.tag]) hbinary
    | prefixOp => exact absurd (by simp [Node.tag, hform, Form.tag]) hunary
    | block _ trailing =>
      cases trailing with
      | none => rfl
      | some => exact absurd hform (hblock _ _)
    | _ => rfl

/-- Arguments that look like others are passed like them, in a wider table and whatever is said about errors. -/
theorem passArguments_widened (hw : Widened ctx ctxU) {R : Node → Node → Prop}
    (hR : ∀ {a b}, R a b → a.typeId = b.typeId)
    (hnote : ∀ {a b} t, R a b → R { a with type := some t } { b with type := some t })
    {decl declU : Declaration} {index : Nat} {xs xsU ys : List Node} {ts : List TypeId} (hxs : List.Forall₂ R xsU xs)
    (h : passArguments ctx decl index xs ts = .ok ys) :
    ∃ ysU, passArguments ctxU declU index xsU ts = .ok ysU ∧ List.Forall₂ R ysU ys := by
  induction hxs generalizing index ts ys with
  | nil =>
    obtain rfl := Except.ok.inj h
    exact ⟨[], rfl, .nil⟩
  | cons hx hxs ih =>
    cases ts with
    | nil =>
      obtain rfl := Except.ok.inj h
      exact ⟨_, rfl, .cons hx hxs⟩
    | cons t ts =>
      simp only [passArguments] at h
      split at h
      · obtain ⟨_, h, -⟩ := bind_eq_ok.1 h
        exact absurd h throw_ne_ok
      · next hcoerces =>
        simp only [bind_eq_ok, pure, Except.pure, Except.ok.injEq] at h
        obtain ⟨ys, hys, rfl⟩ := h
        obtain ⟨ysU, hysU, hrel⟩ := ih hys
        refine ⟨_, ?_, .cons (hnote t hx) hrel⟩
        simp only [Bool.not_eq_true', Bool.not_eq_false] at hcoerces
        simp [passArguments, hw.coerces_eq, hR hx, hcoerces, hysU, bind, Except.bind, pure, Except.pure]

/-- A call that looks like another one from the outside of its parts passes like it. -/
theorem callRule_widened (hw : Widened ctx ctxU) {R : Node → Node → Prop}
    (hR : ∀ {a b}, R a b → a.typeId = b.typeId)
    (hnote : ∀ {a b} t, R a b → R { a with type := some t } { b with type := some t })
    {m callee calleeU : Node} {xs xsU : List Node} (hform : n.form = .functionCall callee xs)
    (hformU : m.form = .functionCall calleeU xsU) (hcallee : calleeU.typeId = callee.typeId)
    (hxs : List.Forall₂ R xsU xs) (h : callRule ctx n = .ok n') :
    ∃ ys ysU, n' = { n with form := .functionCall callee ys } ∧
      callRule ctxU m = .ok { m with form := .functionCall calleeU ysU } ∧ List.Forall₂ R ysU ys := by
  unfold callRule at h ⊢
  simp only [hform, hformU, hcallee] at h ⊢
  split at h
  · next params result hfunction =>
    simp only [hw.function_iff.2 hfunction]
    split at h
    · exact absurd (bind_eq_ok.1 h) fun ⟨_, h, _⟩ => throw_ne_ok h
    · next hlength =>
      simp only [bind_eq_ok, pure, Except.pure, Except.ok.injEq] at h
      obtain ⟨ys, hys, rfl⟩ := h
      obtain ⟨ysU, hysU, hrel⟩ : ∃ ysU, passArguments ctxU (declaration ctxU calleeU) 0 xsU params = .ok ysU ∧
          List.Forall₂ R ysU ys := passArguments_widened hw hR hnote hxs hys
      refine ⟨ys, ysU, rfl, ?_, hrel⟩
      rw [if_neg (by rwa [hxs.length_eq]), hysU]
      rfl
  · next hnot =>
    obtain rfl := Except.ok.inj h
    refine ⟨xs, xsU, by rw [← hform]; cases n; rfl, ?_, hxs⟩
    split
    · next hfunction => exact absurd (hw.function_iff.1 hfunction) (hnot _ _)
    · rw [← hformU]
      cases m
      rfl

theorem callRule_of_ne (h : n.tag ≠ .functionCall) : callRule ctx n = .ok n := by
  unfold callRule
  cases hform : n.form with
  | functionCall => exact absurd (by simp [Node.tag, hform, Form.tag]) h
  | _ => rfl

/-- The check of calls does not look at the note of its own node. -/
theorem callRule_renoted (type : Option TypeId) (h : callRule ctx n = .ok n') :
    callRule ctx { n with type } = .ok { n' with type } := by
  by_cases hn : n.tag = .functionCall
  · cases hform : n.form with
    | functionCall callee xs =>
      have hsame : Widened ctx ctx := .of_types rfl
      obtain ⟨ys, ysU, rfl, hU, hrel⟩ := callRule_widened (R := Eq) (m := { n with type }) hsame (congrArg _)
        (fun _ h => h ▸ rfl) hform hform rfl (by rw [List.forall₂_eq_eq_eq]) h
      rw [List.forall₂_eq_eq_eq] at hrel
      subst hrel
      rwa [hform] at hU
    | _ => simp [Node.tag, hform, Form.tag] at hn
  · rw [callRule_of_ne hn] at h
    rw [← Except.ok.inj h]
    exact callRule_of_ne (n := { n with type }) hn

/-! ## calls and notes on initializers -/

/-- A note of its own stays on a node that is revised by a rule that does not look at it. -/
theorem revised_renoted {rule : Node → Except Error Node}
    (hrule : ∀ {n n'} type, rule n = .ok n' → rule { n with type } = .ok { n' with type }) (type : Option TypeId)
    (h : Revised rule x y) : Revised rule { x with type } { y with type } := by
  obtain ⟨form, hparts, hx⟩ := revised_iff.1 h
  exact revised_iff.2 ⟨form, hparts, hrule type hx⟩

theorem noteInitializer_renoted (type : Option TypeId) (h : noteInitializer n = .ok n') :
    noteInitializer { n with type } = .ok { n' with type } := by
  obtain rfl := Except.ok.inj h
  rfl

theorem keepsOwn_noteInitializer : KeepsOwn noteInitializer := fun h => by
  obtain rfl := Except.ok.inj h
  rfl

/-- A call in a form with noted initializer is checked as in the form without, which is noted later. -/
theorem withDeclared_of_revised {f g : Form Node} (h : Form.Rel (Revised (callRule ctx)) (withDeclared f) g) :
    ∃ g', Form.Rel (Revised (callRule ctx)) f g' ∧ g = withDeclared g' := by
  cases f with
  | variableDef name type initializer =>
    cases initializer with
    | none =>
      cases h with
      | variableDef hname htype hi =>
        cases hi
        exact ⟨_, .variableDef hname htype .none, rfl⟩
    | some i =>
      cases h with
      | @variableDef _ name' _ type' _ _ hname htype hi =>
        cases hi with
        | @some _ j hi =>
          have hback := revised_renoted callRule_renoted i.type hi
          have hi' : Revised (callRule ctx) i { j with type := i.type } := by
            cases i
            exact hback
          have hj : some type'.typeId = j.type := by
            rw [(resembles_of_revised keepsOwn_callRule onlyNotes_callRule hi).type, keepsOwn_callRule.typeId htype]
          refine ⟨_, .variableDef hname htype (.some hi'), ?_⟩
          rw [withDeclared, hj]
          cases j
          rfl
  | _ =>
    cases h
    exact ⟨_, by constructor <;> assumption, rfl⟩

/-- **Calls may be checked before initializers are noted**, and in a wider table. -/
theorem calls_noted (hw : Widened ctx ctxU) {a b t : Node} (h : Revised noteInitializer a b)
    (ht : Revised (callRule ctx) b t) : ∃ u, Revised (callRule ctxU) a u ∧ Revised noteInitializer u t := by
  induction a using Node.childInduction generalizing b t with
  | step a ih =>
    obtain ⟨f, hf, hb⟩ := revised_iff.1 h
    obtain rfl := Except.ok.inj hb
    obtain ⟨g, hg, hcall⟩ := revised_iff.1 ht
    obtain ⟨g', hfg, rfl⟩ := withDeclared_of_revised hg
    -- the parts are checked first and noted later
    obtain ⟨e, he, heg⟩ := Form.Rel.comp_iff.1 ((Form.Rel.comp_iff.2 ⟨f, hf.of_mem, hfg⟩).imp
      fun ⟨_, ⟨hc, hca⟩, hcb⟩ => ih _ hc hca hcb)
    by_cases htag : e.tag = .functionCall
    · cases heg with
      | functionCall callee arguments =>
        obtain ⟨ys, ysU, rfl, hU, hrel⟩ := callRule_widened (m := { a with form := _ }) hw
          (fun h => (keepsOwn_noteInitializer.typeId h).symm) (fun t h => revised_renoted noteInitializer_renoted (some t) h) rfl rfl
          (keepsOwn_noteInitializer.typeId callee).symm arguments hcall
        exact ⟨_, revised_iff.2 ⟨_, he, hU⟩, revised_iff.2 ⟨_, .functionCall callee hrel, rfl⟩⟩
      | _ => exact absurd htag nofun
    · have htag' : Node.tag { a with form := withDeclared g' } ≠ .functionCall := by
        rwa [Node.tag, tag_withDeclared, heg.tag]
      rw [callRule_of_ne htag'] at hcall
      obtain rfl := Except.ok.inj hcall
      exact ⟨{ a with form := e }, revised_iff.2 ⟨e, he, callRule_of_ne htag⟩, revised_iff.2 ⟨g', heg, rfl⟩⟩

/-! ## assignments without notes -/

theorem assignmentRule_unification (hw : Widened ctx ctxU) {form : Form Node}
    (hparts : Form.Rel Resembles n.form form) (hn : ∀ c ∈ n.children, c.typeId.index < ctx.types.length)
    (h : assignmentRule .nominal ctx { n with form } = .ok n') : assignmentRule .unification ctxU n = .ok n := by
  obtain ⟨span, scope, type, f⟩ := n
  unfold assignmentRule
  cases hparts with
  | infixOp left right =>
    rcases assignmentRule_cases h with ⟨_, _, _, hform, -⟩ | ⟨-, hsame, -, -⟩
    · exact absurd hform nofun
    · have hsame := hsame _ _ _ rfl
      rw [left.typeId, right.typeId] at hsame
      exact if_neg fun ⟨hk, hne⟩ => hne (hsame hk)
  | @functionDef _ _ _ r _ _ _ _ result body =>
    cases body with
    | none => rfl
    | @some b b' body =>
      have hreturns := returns_of_assignmentRule h rfl
      have hr : r.typeId.index < ctx.types.length := hn r (by simp [Node.children, Form.parts])
      rw [result.typeId, body.typeId, ← hw.coerces_eq, ← hw.type_eq hr] at hreturns
      refine if_neg fun ⟨hvoid, hcoerces⟩ => ?_
      rcases hreturns with hreturns | hreturns
      · exact hvoid hreturns
      · simp [hreturns] at hcoerces
  | variableDef _ _ initializer => cases initializer <;> rfl
  | _ => rfl

/-- **Assignments that pass with notes on initializers pass without**, and in a wider table. -/
theorem assignment_unification (hw : Widened ctx ctxU) (hx : x.Everywhere (Complete ctx))
    (h : Revised (assignmentRule .nominal ctx) x y) : Revised (assignmentRule .unification ctxU) x x := by
  induction x using Node.childInduction generalizing y with
  | step x ih =>
    obtain ⟨form, hparts, hrule⟩ := revised_iff.1 h
    refine revised_iff.2 ⟨x.form, .refl_of_mem fun c hc => ?_, ?_⟩
    · obtain ⟨d, -, hcd⟩ := forall₂_exists hparts.parts hc
      exact ih c hc (hx.child hc) hcd
    · have hresembles := hparts.imp fun h => resembles_of_revised keepsOwn_assignmentRule onlyNotes_assignmentRule h
      have hsame := assignmentRule_unification hw hresembles
        (fun c hc => ((hx.child hc).self.noted (hx.child hc).self.typeId).1) hrule
      cases x
      exact hsame

/-! ## accepted programs -/

/-- Where the checks go through, every initializer fits from the beginning. -/
theorem fits_of_checks {m a b t : Node} (hm : m.Everywhere (FirstTyped .nominal ctx id))
    (hs : m.Everywhere fun z => z.form.Shaped) (ha : arithmetic ctx m = .ok a) (hb : assignment .nominal ctx a = .ok b)
    (ht : calls ctx b = .ok t) : m.Everywhere (Fits ctx) := by
  intro z hz
  obtain ⟨_, -, _, _, _, _, _, hy, ⟨_, rfl⟩, hz', -⟩ := forall₂_exists (passed_preorder ha hb ht) hz
  unfold Fits
  split
  · next name type i hform =>
    obtain ⟨_, _, htype, hi, hcoerces⟩ := coerces_of_checked_initializer hy hz' hform
    have hname : type.IsName := (hform ▸ hs z hz : (Form.variableDef name type (some i)).Shaped).2
    rw [eq_of_revised_name hname htype] at hcoerces
    exact Context.coerces_trans (coerces_of_arithmetic ((hm.below hz).child (by simp [Node.children, hform, Form.parts])) hi)
      hcoerces
  · trivial

/-- Before the first types there are no type variables, so a context mirrors itself. -/
theorem mirrors_self {spans : List Span} (hr : Context.Ready C spans) (hbindings : C.bindings = []) (howned : Owned C) :
    Mirrors C C C where
  table := rfl
  bindings := hbindings
  regular := hr.regular
  widened := .of_types rfl
  scopes := by
    have hended : C.endedScope = id := funext fun scope => by
      have hsame : C.ended = id := funext fun symbol => by
        rw [Context.ended, resolve_of_no_bindings hbindings]
        rfl
      rw [Context.endedScope, hsame, List.map_id]
      rfl
    rw [Context.resolveSymbols_scopes, hended, List.map_id]
  held := howned.imp fun _ hlt => ⟨hlt, fun _ => hr.regular.not_hole_of_no_bindings hbindings _⟩

/-- **Two ways to the same first types.** What a program has with declared types alone it has with unification, in a
table with type variables behind. -/
theorem firstTypes_unification {n m : Node} (hshaped : n.Everywhere fun x => x.form.Shaped) (hnodup : n.declared.Nodup)
    (h : firstTypes .nominal n = .ok (m, ctx)) (hfits : m.Everywhere (Fits ctx)) :
    ∃ ctxU, firstTypes .unification n = .ok (m, ctxU) ∧ Widened ctx ctxU ∧ ctxU.scopes = ctx.scopes ∧ Flat ctx ∧
      Owned ctx := by
  simp only [firstTypes, bind_eq_ok, Prod.exists, pure, Except.pure, Except.ok.injEq] at h
  obtain ⟨c, hc, m, c', hm, h⟩ := h
  obtain ⟨rfl, rfl⟩ := Prod.mk.inj h
  obtain ⟨hsane, hbindings⟩ := sane_of_signatures hshaped hnodup hc
  obtain ⟨hprepared, hhoisted⟩ := hoisted_of_signatures (prepared_of_scopes n) hc
  have hruns := materializes_of_materialize _ hm
  have htypes : c'.types = c.types := hruns.types_eq (List.forall_mem_singleton.2 hhoisted) rfl
  have hbefore : ∀ x ∈ [(scopes .new n).1], x.Everywhere fun z => z.form.Shaped ∧ Hoisted c z := fun x hx z hz => by
    obtain rfl := List.mem_singleton.1 hx
    exact ⟨hsane.shaped _ List.mem_cons_self z hz, hhoisted z hz⟩
  have hafter : m.Everywhere (Fits c) := hfits.mono fun z hz => by
    unfold Fits at hz ⊢
    split at hz
    · rwa [(Widened.of_types htypes).coerces_eq] at hz
    · trivial
  obtain ⟨z, ctxU, hrunU, -, hmirrors, hz⟩ := (hruns.mirrored (mirrors_self hsane.ready hbindings hprepared.owned) hbefore
    (List.forall_mem_singleton.2 hafter)).node
  have hres : ctxU.resolveSymbols.resolve = ctxU.resolve := funext (Context.resolve_of_types rfl rfl)
  have hwidened : Widened c' ctxU := by
    obtain ⟨more, hmore, hholes⟩ := hmirrors.widened
    exact ⟨more, by rw [hmore, htypes], hholes⟩
  refine ⟨ctxU.resolveSymbols, ?_, hwidened, hmirrors.scopes, fun hf => hprepared.flat (htypes ▸ hf), ?_⟩
  · have hmU : materialize .unification c (scopes .new n).1 = .ok (z, ctxU) := hrunU.ran
    simp [firstTypes, hc, hmU, settle, substitute, hres, ← hz.eq, bind, Except.bind, pure, Except.pure]
  · intro _ hscope _ hsymbol
    rw [← hmirrors.scopes, Context.resolveSymbols_scopes] at hscope
    obtain ⟨scope, hin, rfl⟩ := List.mem_map.1 hscope
    obtain ⟨symbol, hin', rfl⟩ := List.mem_map.1 hsymbol
    have hheld := hmirrors.held scope hin symbol hin'
    exact hwidened.known (hmirrors.regular.resolve_lt hheld.known) (hmirrors.regular.resolve_not_hole _)

/-- **Unification is a conservative extension.** A program that is accepted with declared types alone is accepted with
unification. It has the same scopes with the same symbols, and its tree is the same when the declared types of variables
are noted on their initializers; and all types are spelled the same. -/
theorem unification_conservative {source : String} {t : Node} (h : analyze source .nominal = .ok (t, ctx)) :
    ∃ u ctxU, analyze source .unification = .ok (u, ctxU) ∧ u.revise noteInitializer = .ok t ∧
      ctxU.scopes = ctx.scopes ∧ (∀ z ∈ t.preorder, ctxU.display z.typeId = ctx.display z.typeId) ∧
      ∀ scope ∈ ctx.scopes, ∀ symbol ∈ scope.symbols, ctxU.display symbol.type = ctx.display symbol.type := by
  obtain ⟨n, m, a, b, hn, hm, ha, hb, ht⟩ := analyze_eq_ok h
  have hshaped := shaped_of_parseSource hn
  have hnodup := declared_nodup_of_parseSource hn
  obtain ⟨htyped, hr, hshaped'⟩ := typed_of_firstTypes hshaped hnodup hm
  obtain ⟨ctxU, hmU, hw, hscopes, hflat, howned⟩ :=
    firstTypes_unification hshaped hnodup hm (fits_of_checks htyped hshaped' ha hb ht)
  have hcomplete := complete_of_arithmetic hr (complete_of_firstTypes hshaped hnodup hm) ha
  have haU : arithmetic ctxU m = .ok a := Node.Revised.mono (arithmeticRule_widened hw) ha
  have hbU : assignment .unification ctxU a = .ok a := assignment_unification hw hcomplete hb
  obtain ⟨u, hu, hut⟩ := calls_noted hw (Node.Revised.mono noteInitializer_of_assignmentRule hb) ht
  have hdisplay : ∀ {t}, t.index < ctx.types.length → ctxU.display t = ctx.display t :=
    Context.display_eq hr hflat hw.table
  refine ⟨u, ctxU, analyze_of_checks hn hmU haU hbU hu, hut, hscopes, fun z hz => hdisplay ?_,
    fun scope hscope symbol hsymbol => hdisplay (howned scope hscope symbol hsymbol)⟩
  have hz := everywhere_complete h z hz
  exact (hz.noted hz.typeId).1

theorem unification_conservative_half : ∃ t ctx u ctxU,
    analyze "fn half(a: float) -> float { a / 2 } let x: f32 = half(3); let y: f64 = 1 + x;" .nominal = .ok (t, ctx) ∧
      analyze "fn half(a: float) -> float { a / 2 } let x: f32 = half(3); let y: f64 = 1 + x;" .unification =
        .ok (u, ctxU) ∧
      u.revise noteInitializer = .ok t ∧ ctxU.scopes = ctx.scopes ∧
      (∀ z ∈ t.preorder, ctxU.display z.typeId = ctx.display z.typeId) ∧
      ∀ scope ∈ ctx.scopes, ∀ symbol ∈ scope.symbols, ctxU.display symbol.type = ctx.display symbol.type := by
  have haccepted : Yields (fun _ => True)
      (analyze "fn half(a: float) -> float { a / 2 } let x: f32 = half(3); let y: f64 = 1 + x;" .nominal) := by
    decide +kernel
  obtain ⟨⟨t, ctx⟩, h, -⟩ := yields_iff.1 haccepted
  obtain ⟨u, ctxU, hu, hsame⟩ := unification_conservative h
  exact ⟨t, ctx, u, ctxU, h, hu, hsame⟩

end LetFn.Check
