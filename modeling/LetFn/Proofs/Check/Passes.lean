import LetFn.Proofs.Check.FirstTypes

/-!
# The three checks after the first types

Each of `arithmetic`, `assignment` and `calls` is one rule for a node whose parts are done. All that a rule can do is said
once, in `arithmeticRule_cases`, `assignmentRule_cases` and `callRule_cases`; what a rule makes of a node's own type and
what it makes sure of follows from these.

* `Lifted ctx x y` — `y` is `x`, or `x` with a note to which its type widens.

Main facts: `onlyNotes_arithmeticRule`, `onlyNotes_assignmentRule`, `onlyNotes_callRule` (nothing but type notes
changes), `unnoted_of_analyze` (the tree that comes back is the one that was read), `coerces_of_arithmetic` (an
arithmetic expression is only ever raised), `passed_preorder` (the checks go through a program node by node).
-/

namespace LetFn.Check

open Node (Revised Renoted OnlyNotes)

variable {mode : Mode} {ctx : Context} {n n' x y : Node}

/-! ## what each rule does -/

/-- The same node, or the node with a note to which its type widens. -/
def Lifted (ctx : Context) (x y : Node) : Prop :=
  y = x ∨ ∃ t, ctx.coerces x.typeId t = true ∧ y = { x with type := some t }

theorem Lifted.refl (x : Node) : Lifted ctx x x := .inl rfl

theorem Lifted.form (h : Lifted ctx x y) : y.form = x.form := by
  rcases h with rfl | ⟨t, -, rfl⟩ <;> rfl

theorem Lifted.coerces (h : Lifted ctx x y) : ctx.coerces x.typeId y.typeId = true := by
  rcases h with rfl | ⟨t, ht, rfl⟩
  · exact ctx.coerces_refl _
  · exact ht

theorem Lifted.renoted (h : Lifted ctx x y) : Renoted x y := by
  rcases h with rfl | ⟨t, -, rfl⟩
  · exact .refl _
  · exact ⟨some t, rfl⟩

theorem promote_of_numeric {a b : TypeId} (ha : ctx.isNumeric a = true) (hb : ctx.isNumeric b = true) :
    ∃ t, ctx.promote a b = some t := Option.isSome_iff_exists.1 (Context.isSome_promote_iff.2 ⟨ha, hb⟩)

/-- Everything that arithmetic does at a node whose parts are done. -/
theorem arithmeticRule_cases (h : arithmeticRule ctx n = .ok n') :
    (∃ operator left right t, n.form = .infixOp operator left right ∧ operator.kind.isArithmetic = true ∧
      ctx.isNumeric left.typeId = true ∧ ctx.isNumeric right.typeId = true ∧
      ctx.promote left.typeId right.typeId = some t ∧
      n' = { n with type := some t,
                    form := .infixOp operator { left with type := some t } { right with type := some t } }) ∨
    (∃ operator left right, n.form = .infixOp operator left right ∧ operator.kind.isArithmetic = false ∧ n' = n) ∨
    (∃ operator operand, n.form = .prefixOp operator operand ∧ ctx.isNumeric operand.typeId = true ∧
      n' = if operator.kind = .dash then { n with type := some operand.typeId } else n) ∨
    (∃ items trailing, n.form = .block items (some trailing) ∧ n' = { n with type := trailing.type }) ∨
    (n.tag ≠ .infixOp ∧ n.tag ≠ .prefixOp ∧ (∀ items trailing, n.form ≠ .block items (some trailing)) ∧ n' = n) := by
  unfold arithmeticRule at h
  cases hform : n.form with
  | infixOp operator left right =>
    simp only [hform] at h
    by_cases harith : operator.kind.isArithmetic = true
    · simp only [harith, Bool.not_true, Bool.false_eq_true, if_false] at h
      split at h
      · exact absurd h throw_ne_ok
      · next hl =>
        split at h
        · exact absurd h throw_ne_ok
        · next hr =>
          have hl : ctx.isNumeric left.typeId = true := by simpa using hl
          have hr : ctx.isNumeric right.typeId = true := by simpa using hr
          obtain ⟨t, ht⟩ := promote_of_numeric hl hr
          simp only [ht] at h
          exact .inl ⟨operator, left, right, t, rfl, harith, hl, hr, ht, (Except.ok.inj h).symm⟩
    · simp only [harith, Bool.not_false, if_true] at h
      exact .inr (.inl ⟨operator, left, right, rfl, by simpa using harith, (Except.ok.inj h).symm⟩)
  | prefixOp operator operand =>
    simp only [hform] at h
    split at h
    · exact absurd h throw_ne_ok
    · next hnumeric =>
      refine .inr (.inr (.inl ⟨operator, operand, rfl, by simpa using hnumeric, ?_⟩))
      by_cases hdash : operator.kind = .dash
      · rw [if_pos hdash] at h ⊢
        exact (Except.ok.inj h).symm
      · rw [if_neg hdash] at h ⊢
        exact (Except.ok.inj h).symm
  | block items trailing =>
    cases trailing with
    | none =>
      simp only [hform] at h
      exact .inr (.inr (.inr (.inr ⟨by simp [Node.tag, hform, Form.tag], by simp [Node.tag, hform, Form.tag], by simp,
        (Except.ok.inj h).symm⟩)))
    | some trailing =>
      simp only [hform] at h
      exact .inr (.inr (.inr (.inl ⟨items, trailing, rfl, (Except.ok.inj h).symm⟩)))
  | _ =>
    simp only [hform] at h
    exact .inr (.inr (.inr (.inr ⟨by simp [Node.tag, hform, Form.tag], by simp [Node.tag, hform, Form.tag], by simp,
      (Except.ok.inj h).symm⟩)))

/-- Everything that the check of assignments does at a node whose parts are done. -/
theorem assignmentRule_cases (h : assignmentRule mode ctx n = .ok n') :
    (∃ name type initializer, n.form = .variableDef name type (some initializer) ∧ mode = .nominal ∧
      ctx.coerces initializer.typeId type.typeId = true ∧
      n' = { n with form := .variableDef name type (some { initializer with type := some type.typeId }) }) ∨
    (n' = n ∧ (∀ operator left right, n.form = .infixOp operator left right → operator.kind = .assignment →
        left.typeId = right.typeId) ∧
      (∀ name type initializer, n.form = .variableDef name type (some initializer) → mode = .unification) ∧
      ∀ name params result body, n.form = .functionDef name params result (some body) →
        ctx.type result.typeId = .void ∨ ctx.coerces body.typeId result.typeId = true) := by
  unfold assignmentRule at h
  cases hform : n.form with
  | infixOp operator left right =>
    simp only [hform] at h
    split at h
    · exact absurd h throw_ne_ok
    · next hsame =>
      refine .inr ⟨(Except.ok.inj h).symm, fun operator' left' right' heq hk => ?_, by simp, by simp⟩
      obtain ⟨rfl, rfl, rfl⟩ := Form.infixOp.inj heq
      by_contra hne
      exact hsame ⟨hk, hne⟩
  | variableDef name type initializer =>
    cases initializer with
    | none =>
      simp only [hform] at h
      exact .inr ⟨(Except.ok.inj h).symm, by simp, by simp, by simp⟩
    | some initializer =>
      simp only [hform] at h
      split at h
      · next hmode => exact .inr ⟨(Except.ok.inj h).symm, by simp, fun _ _ _ _ => hmode, by simp⟩
      · next hmode =>
        split at h
        · exact absurd h throw_ne_ok
        · next hcoerces =>
          have hmode : mode = .nominal := by cases mode <;> simp_all
          exact .inl ⟨name, type, initializer, rfl, hmode, by simpa using hcoerces, (Except.ok.inj h).symm⟩
  | functionDef name params result body =>
    cases body with
    | none =>
      simp only [hform] at h
      exact .inr ⟨(Except.ok.inj h).symm, by simp, by simp, by simp⟩
    | some body =>
      simp only [hform] at h
      split at h
      · exact absurd h throw_ne_ok
      · next hcoerces =>
        refine .inr ⟨(Except.ok.inj h).symm, by simp, by simp, fun name' params' result' body' heq => ?_⟩
        obtain ⟨-, -, rfl, hsome⟩ := Form.functionDef.inj heq
        obtain rfl := Option.some.inj hsome
        by_cases hvoid : ctx.type result.typeId = .void
        · exact .inl hvoid
        · exact .inr (by simpa [hvoid] using hcoerces)
  | _ =>
    simp only [hform] at h
    exact .inr ⟨(Except.ok.inj h).symm, by simp, by simp, by simp⟩

/-- Arguments that are passed get the types of the parameters, and their own types widen to these. -/
theorem passArguments_cases {decl : Declaration} {index : Nat} {xs ys : List Node} {ts : List TypeId}
    (hlength : xs.length = ts.length) (h : passArguments ctx decl index xs ts = .ok ys) :
    List.Forall₂ (Lifted ctx) xs ys ∧ ys.map (·.type) = ts.map some := by
  induction xs generalizing index ts ys with
  | nil =>
    obtain rfl := Except.ok.inj h
    rw [List.eq_nil_of_length_eq_zero hlength.symm]
    exact ⟨.nil, rfl⟩
  | cons x xs ih =>
    cases ts with
    | nil => exact absurd hlength (by simp)
    | cons t ts =>
      simp only [passArguments] at h
      split at h
      · exact absurd (bind_eq_ok.1 h) fun ⟨_, h, _⟩ => throw_ne_ok h
      · next hcoerces =>
        simp only [bind_eq_ok, pure, Except.pure, Except.ok.injEq] at h
        obtain ⟨ys, hys, rfl⟩ := h
        obtain ⟨hlifted, htypes⟩ := ih (by simpa using hlength) hys
        exact ⟨.cons (.inr ⟨t, by simpa using hcoerces, rfl⟩) hlifted, by simp [htypes]⟩

/-- Arguments that got the types of the parameters may stand for them. -/
theorem coerces_of_passed {xs ys : List Node} {ts : List TypeId} (h : List.Forall₂ (Lifted ctx) xs ys)
    (htypes : ys.map (·.type) = ts.map some) : List.Forall₂ (fun x t => ctx.coerces x.typeId t = true) xs ts := by
  induction h generalizing ts with
  | nil =>
    cases ts with
    | nil => exact .nil
    | cons => simp at htypes
  | @cons x y _ _ hxy _ ih =>
    cases ts with
    | nil => simp at htypes
    | cons t ts =>
      obtain ⟨hy, htypes⟩ := List.cons.inj htypes
      have hy : y.type = some t := hy
      have hid : y.typeId = t := by rw [Node.typeId, hy, Option.getD_some]
      exact .cons (hid ▸ hxy.coerces) (ih htypes)

/-- Everything that the check of calls does at a node whose parts are done. -/
theorem callRule_cases (h : callRule ctx n = .ok n') :
    (∃ callee arguments params result arguments', n.form = .functionCall callee arguments ∧
      ctx.type callee.typeId = .function params result ∧ List.Forall₂ (Lifted ctx) arguments arguments' ∧
      arguments'.map (·.type) = params.map some ∧ n' = { n with form := .functionCall callee arguments' }) ∨
    (n' = n ∧ ∀ callee arguments params result, n.form = .functionCall callee arguments →
      ctx.type callee.typeId ≠ .function params result) := by
  unfold callRule at h
  cases hform : n.form with
  | functionCall callee arguments =>
    simp only [hform] at h
    split at h
    · next params result hfunction =>
      split at h
      · exact absurd (bind_eq_ok.1 h) fun ⟨_, h, _⟩ => throw_ne_ok h
      · next hlength =>
        simp only [bind_eq_ok, pure, Except.pure, Except.ok.injEq] at h
        obtain ⟨ys, hys, rfl⟩ := h
        obtain ⟨hlifted, htypes⟩ := passArguments_cases (by simpa using hlength) hys
        exact .inl ⟨callee, arguments, params, result, ys, rfl, hfunction, hlifted, htypes, rfl⟩
    · next hnot =>
      refine .inr ⟨(Except.ok.inj h).symm, fun callee' arguments' params result heq => ?_⟩
      obtain ⟨rfl, rfl⟩ := Form.functionCall.inj heq
      exact hnot _ _
  | _ =>
    simp only [hform] at h
    exact .inr ⟨(Except.ok.inj h).symm, by simp⟩

/-! ## only notes change -/

theorem onlyNotes_arithmeticRule : OnlyNotes (arithmeticRule ctx) := by
  have hrefl : ∀ f : Form Node, Form.Rel Renoted f f := .refl .refl
  have hrule : ∀ {n n'}, arithmeticRule ctx n = .ok n' →
      n'.span = n.span ∧ n'.scope = n.scope ∧ Form.Rel Renoted n.form n'.form := by
    intro n n' h
    rcases arithmeticRule_cases h with ⟨_, _, _, t, hform, -, -, -, -, rfl⟩ | ⟨_, _, _, -, -, rfl⟩ |
      ⟨operator, _, -, -, rfl⟩ | ⟨_, _, -, rfl⟩ | ⟨-, -, -, rfl⟩
    · exact ⟨rfl, rfl, hform ▸ .infixOp ⟨some t, rfl⟩ ⟨some t, rfl⟩⟩
    · exact ⟨rfl, rfl, hrefl _⟩
    · split <;> exact ⟨rfl, rfl, hrefl _⟩
    · exact ⟨rfl, rfl, hrefl _⟩
    · exact ⟨rfl, rfl, hrefl _⟩
  exact ⟨fun h => (hrule h).1, fun h => (hrule h).2.1, fun h => (hrule h).2.2⟩

/-- Arithmetic notes types on the parts of infix expressions only. -/
theorem form_of_arithmeticRule (hn : n.tag ≠ .infixOp) (h : arithmeticRule ctx n = .ok n') : n'.form = n.form := by
  rcases arithmeticRule_cases h with ⟨_, _, _, _, hform, -⟩ | ⟨_, _, _, -, -, rfl⟩ | ⟨_, _, -, -, rfl⟩ |
    ⟨_, _, -, rfl⟩ | ⟨-, -, -, rfl⟩
  · exact absurd (by simp [Node.tag, hform, Form.tag]) hn
  · rfl
  · split <;> rfl
  · rfl
  · rfl

theorem onlyNotes_assignmentRule : OnlyNotes (assignmentRule mode ctx) := by
  have hrule : ∀ {n n'}, assignmentRule mode ctx n = .ok n' →
      n'.span = n.span ∧ n'.scope = n.scope ∧ Form.Rel Renoted n.form n'.form := by
    intro n n' h
    rcases assignmentRule_cases h with ⟨_, _, _, hform, -, -, rfl⟩ | ⟨rfl, -⟩
    · exact ⟨rfl, rfl, hform ▸ .variableDef (.refl _) (.refl _) (.some ⟨_, rfl⟩)⟩
    · exact ⟨rfl, rfl, .refl .refl _⟩
  exact ⟨fun h => (hrule h).1, fun h => (hrule h).2.1, fun h => (hrule h).2.2⟩

/-- With unification the rule of assignments changes nothing at all. -/
theorem eq_of_assignmentRule (h : assignmentRule .unification ctx n = .ok n') : n' = n := by
  rcases assignmentRule_cases h with ⟨_, _, _, -, hmode, -⟩ | ⟨rfl, -⟩
  · exact absurd hmode nofun
  · rfl

/-- The rule of assignments notes types on the parts of definitions of variables only. -/
theorem form_of_assignmentRule (hn : n.tag ≠ .variableDef) (h : assignmentRule mode ctx n = .ok n') :
    n'.form = n.form := by
  rcases assignmentRule_cases h with ⟨_, _, _, hform, -⟩ | ⟨rfl, -⟩
  · exact absurd (by simp [Node.tag, hform, Form.tag]) hn
  · rfl

theorem onlyNotes_callRule : OnlyNotes (callRule ctx) := by
  have hrule : ∀ {n n'}, callRule ctx n = .ok n' →
      n'.span = n.span ∧ n'.scope = n.scope ∧ Form.Rel Renoted n.form n'.form := by
    intro n n' h
    rcases callRule_cases h with ⟨_, _, _, _, _, hform, -, hlifted, -, rfl⟩ | ⟨rfl, -⟩
    · exact ⟨rfl, rfl, hform ▸ .functionCall (.refl _) (hlifted.imp fun _ _ h => h.renoted)⟩
    · exact ⟨rfl, rfl, .refl .refl _⟩
  exact ⟨fun h => (hrule h).1, fun h => (hrule h).2.1, fun h => (hrule h).2.2⟩

/-- The rule of calls notes types on the arguments of calls only. -/
theorem form_of_callRule (hn : n.tag ≠ .functionCall) (h : callRule ctx n = .ok n') : n'.form = n.form := by
  rcases callRule_cases h with ⟨_, _, _, _, _, hform, -⟩ | ⟨rfl, -⟩
  · exact absurd (by simp [Node.tag, hform, Form.tag]) hn
  · rfl

/-- The body of a function may stand for what the function returns. -/
theorem returns_of_assignmentRule (h : assignmentRule mode ctx n = .ok n') {name : Token} {params : List (Param Node)}
    {result body : Node} (hform : n.form = .functionDef name params result (some body)) :
    ctx.type result.typeId = .void ∨ ctx.coerces body.typeId result.typeId = true := by
  rcases assignmentRule_cases h with ⟨_, _, _, heq, -⟩ | ⟨-, -, -, hreturns⟩
  · simp [hform] at heq
  · exact hreturns _ _ _ _ hform

/-- The arguments of a call may stand for the parameters. -/
theorem arguments_of_callRule (h : callRule ctx n = .ok n') {callee : Node} {arguments : List Node}
    {params : List TypeId} {result : TypeId} (hform : n.form = .functionCall callee arguments)
    (hfunction : ctx.type callee.typeId = .function params result) :
    List.Forall₂ (fun x t => ctx.coerces x.typeId t = true) arguments params := by
  rcases callRule_cases h with ⟨_, _, _, _, ys, heq, hf, hlifted, htypes, -⟩ | ⟨-, hnot⟩
  · obtain ⟨rfl, rfl⟩ := Form.functionCall.inj (hform.symm.trans heq)
    obtain ⟨rfl, -⟩ := Ty.function.inj (hfunction.symm.trans hf)
    exact coerces_of_passed hlifted htypes
  · exact absurd hfunction (hnot _ _ _ _ hform)

/-- A rule that changes notes only is a pass that does. -/
theorem likeness_revisedAs {rule : Node → Except Error Node} (hrule : OnlyNotes rule) :
    Likeness (Node.RevisedAs rule) where
  span := by
    rintro x _ ⟨z, hz, type, rfl⟩
    exact (hrule.span_eq hz :)
  form := by
    rintro x _ ⟨z, hz, type, rfl⟩
    obtain ⟨form, hform, hrun⟩ := Node.revised_iff.1 hz
    exact Form.Rel.comp_iff.2 ⟨form, hform, hrule.parts hrun⟩

theorem unnoted_of_revised {rule : Node → Except Error Node} (hrule : OnlyNotes rule) (h : Revised rule x y) :
    y.unnoted = x.unnoted :=
  (Node.unnoted_of_likeness (likeness_revisedAs hrule) ⟨y, h, .refl y⟩).symm

theorem unnoted_of_checks {s a b t : Node} (hs : firstTypes mode n = .ok (s, ctx)) (ha : arithmetic ctx s = .ok a)
    (hb : assignment mode ctx a = .ok b) (ht : calls ctx b = .ok t) : t.unnoted = n.unnoted :=
  calc t.unnoted = b.unnoted := unnoted_of_revised onlyNotes_callRule ht
    _ = a.unnoted := unnoted_of_revised onlyNotes_assignmentRule hb
    _ = s.unnoted := unnoted_of_revised onlyNotes_arithmeticRule ha
    _ = n.unnoted := unnoted_of_firstTypes hs

/-- **The tree that the analysis gives back is the one that was read**, with notes on it. -/
theorem unnoted_of_analyze {source : String} {t : Node} (h : analyze source mode = .ok (t, ctx)) :
    ∃ n, parseSource source = .ok n ∧ t.unnoted = n.unnoted := by
  obtain ⟨n, s, a, b, hn, hs, ha, hb, ht⟩ := analyze_eq_ok h
  exact ⟨n, hn, unnoted_of_checks hs ha hb ht⟩

/-- The rule leaves the type note of its own node as it was. -/
def KeepsOwn (rule : Node → Except Error Node) : Prop := ∀ {n n'}, rule n = .ok n' → n'.type = n.type

theorem KeepsOwn.typeId {rule : Node → Except Error Node} (hrule : KeepsOwn rule) (h : Revised rule x y) :
    y.typeId = x.typeId := by
  obtain ⟨form, -, h⟩ := Node.revise_eq_ok_iff.1 h
  rw [Node.typeId, Node.typeId, hrule h]

theorem keepsOwn_assignmentRule : KeepsOwn (assignmentRule mode ctx) := fun h => by
  rcases assignmentRule_cases h with ⟨_, _, _, -, -, -, rfl⟩ | ⟨rfl, -⟩ <;> rfl

theorem keepsOwn_callRule : KeepsOwn (callRule ctx) := fun h => by
  rcases callRule_cases h with ⟨_, _, _, _, _, -, -, -, -, rfl⟩ | ⟨rfl, -⟩ <;> rfl

/-! ## types after arithmetic -/

/-- What arithmetic makes sure of at a node with revised parts, and what type it gives the node. -/
def Raised (ctx : Context) (n : Node) (form : Form Node) (t : TypeId) : Prop :=
  match form with
  | .infixOp operator left right =>
    if operator.kind.isArithmetic then
      ctx.isNumeric left.typeId = true ∧ ctx.isNumeric right.typeId = true ∧
        ctx.promote left.typeId right.typeId = some t
    else t = n.typeId
  | .prefixOp operator operand =>
    ctx.isNumeric operand.typeId = true ∧ t = if operator.kind = .dash then operand.typeId else n.typeId
  | .block _ (some trailing) => t = trailing.typeId
  | _ => t = n.typeId

theorem arithmeticRule_spec (h : arithmeticRule ctx n = .ok n') : Raised ctx n n.form n'.typeId := by
  unfold Raised
  rcases arithmeticRule_cases h with ⟨_, _, _, _, hform, harith, hl, hr, ht, rfl⟩ | ⟨_, _, _, hform, harith, rfl⟩ |
    ⟨operator, _, hform, hnumeric, rfl⟩ | ⟨_, _, hform, rfl⟩ | ⟨hbinary, hunary, hblock, rfl⟩
  · simp only [hform, harith, if_true]
    exact ⟨hl, hr, ht⟩
  · simp [hform, harith]
  · simp only [hform]
    refine ⟨hnumeric, ?_⟩
    split <;> rfl
  · simp only [hform]
    rfl
  · split
    · next hform => exact absurd (by simp [Node.tag, hform, Form.tag]) hbinary
    · next hform => exact absurd (by simp [Node.tag, hform, Form.tag]) hunary
    · next hform => exact absurd hform (hblock _ _)
    · rfl

/-- The type of a node after arithmetic, from the types that its parts have then. -/
theorem raised_of_arithmetic (h : x.revise (arithmeticRule ctx) = .ok y) :
    ∃ form, Form.Rel (Revised (arithmeticRule ctx)) x.form form ∧ Raised ctx x form y.typeId := by
  obtain ⟨form, hform, hrule⟩ := Node.revise_eq_ok_iff.1 h
  have hraised := arithmeticRule_spec hrule
  refine ⟨form, Node.reviseParts_eq_ok hform, ?_⟩
  unfold Raised at hraised ⊢
  exact hraised

theorem ne_comparison_of_isArithmetic {k : Kind} (h : k.isArithmetic = true) :
    (k.isComparison || k.isLogical) = false := by
  cases k <;> simp_all [Kind.isArithmetic, Kind.isComparison, Kind.isLogical]

/-- **Arithmetic only raises**: a value that had the first type may stand where the last one is expected. -/
theorem coerces_of_arithmetic {ends : TypeId → TypeId} (hx : x.Everywhere (FirstTyped mode ctx ends))
    (h : x.revise (arithmeticRule ctx) = .ok y) : ctx.coerces x.typeId y.typeId = true := by
  induction x using Node.childInduction generalizing y with
  | step x ih =>
    obtain ⟨form, hparts, hraised⟩ := raised_of_arithmetic h
    have htyped := hx.self.byParts
    have hchild : ∀ c ∈ x.children, ∀ c', Revised (arithmeticRule ctx) c c' →
        ctx.coerces c.typeId c'.typeId = true := fun c hc c' hc' => ih c hc (hx.child hc) hc'
    unfold TypedByParts at htyped
    unfold Node.children at hchild
    generalize x.form = f at hparts htyped hchild
    cases hparts with
    | @infixOp operator l l' r r' left right =>
      have hl := hchild l List.mem_cons_self l' left
      simp only [Raised] at hraised
      split at hraised
      · next harith =>
        rw [htyped, infixType, ne_comparison_of_isArithmetic harith]
        exact Context.coerces_trans hl (Context.coerces_of_promote hraised.2.2)
      · rw [hraised]
        exact ctx.coerces_refl _
    | @prefixOp operator o o' operand =>
      simp only [Raised] at hraised
      rw [hraised.2]
      split
      · next hdash =>
        rw [htyped, prefixType, if_neg (by simp [hdash])]
        exact hchild o List.mem_cons_self o' operand
      · exact ctx.coerces_refl _
    | @block xs ys o o' items trailing =>
      cases trailing with
      | none =>
        simp only [Raised] at hraised
        rw [hraised]
        exact ctx.coerces_refl _
      | @some o o' trailing =>
        simp only [Raised] at hraised
        rw [hraised, htyped]
        exact hchild o (List.mem_append_right _ List.mem_cons_self) o' trailing
    | _ =>
      simp only [Raised] at hraised
      rw [hraised]
      exact ctx.coerces_refl _

/-! ## the three checks in a row -/

/-- The checks of a whole program take one node to another. -/
def Passed (mode : Mode) (ctx : Context) (x t : Node) : Prop :=
  ∃ y y' z z' w, Revised (arithmeticRule ctx) x y ∧ Renoted y y' ∧ Revised (assignmentRule mode ctx) y' z ∧
    Renoted z z' ∧ Revised (callRule ctx) z' w ∧ Renoted w t

theorem passed_preorder {m a b t : Node} (ha : arithmetic ctx m = .ok a) (hb : assignment mode ctx a = .ok b)
    (ht : calls ctx b = .ok t) : List.Forall₂ (Passed mode ctx) m.preorder t.preorder := by
  have harith := Node.revised_preorder onlyNotes_arithmeticRule ha
  have hassign := Node.revised_preorder onlyNotes_assignmentRule hb
  have hcalls := Node.revised_preorder onlyNotes_callRule ht
  refine (Node.forall₂_comp harith (Node.forall₂_comp hassign hcalls)).imp ?_
  rintro x w ⟨y', ⟨y, hy, hyy'⟩, z', ⟨z, hz, hzz'⟩, w', hw, hww'⟩
  exact ⟨y, y', z, z', w', hy, hyy', hz, hzz', hw, hww'⟩

/-- Where a rule leaves a form alone, the form has the revised parts. -/
theorem form_of_revised {rule : Node → Except Error Node} {tag : Tag}
    (hrule : ∀ {n n'}, n.tag ≠ tag → rule n = .ok n' → n'.form = n.form) (hx : x.tag ≠ tag) (h : Revised rule x y) :
    Form.Rel (Revised rule) x.form y.form := by
  obtain ⟨form, hform, h⟩ := Node.revise_eq_ok_iff.1 h
  have hparts := Node.reviseParts_eq_ok hform
  rw [hrule (n := { x with form }) (fun htag => hx (hparts.tag.symm.trans htag)) h]
  exact hparts

/-- The initializer of a variable may stand for the declared type when it is checked. -/
theorem coerces_of_checked_initializer {type : Option TypeId} {z name t i : Node}
    (hy : Revised (arithmeticRule ctx) x y) (hz : Revised (assignmentRule .nominal ctx) { y with type } z)
    (hform : x.form = .variableDef name t (some i)) :
    ∃ t' i', Revised (arithmeticRule ctx) t t' ∧ Revised (arithmeticRule ctx) i i' ∧
      ctx.coerces i'.typeId t'.typeId = true := by
  have hyform := form_of_revised form_of_arithmeticRule (by simp [Node.tag, hform, Form.tag]) hy
  obtain ⟨g, hg, hrule⟩ := Node.revise_eq_ok_iff.1 hz
  have hgform := Node.reviseParts_eq_ok hg
  rw [hform] at hyform
  obtain ⟨_, t', i', hyform, htype, hinit⟩ := hyform.of_initializer
  rw [hyform] at hgform
  obtain ⟨_, t'', i'', rfl, htype', hinit'⟩ := hgform.of_initializer
  rcases assignmentRule_cases hrule with ⟨_, _, _, heq, -, hcoerces, -⟩ | ⟨-, -, hlet, -⟩
  · obtain ⟨rfl, rfl, hsome⟩ := Form.variableDef.inj heq
    obtain rfl := Option.some.inj hsome
    rw [keepsOwn_assignmentRule.typeId hinit', keepsOwn_assignmentRule.typeId htype'] at hcoerces
    exact ⟨t', i', htype, hinit, hcoerces⟩
  · exact absurd (hlet _ _ _ rfl) nofun

end LetFn.Check
