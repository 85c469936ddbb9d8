import LetFn.Proofs.Check.Complete

/-!
# Checks that last

Each check is made once, at a moment when the notes around the node are not what they will be in the end. What was made
sure of then is still true when the whole program is accepted: later checks raise the type of a node as a whole, and
where they write on an operand, an initializer or an argument they leave the parts of that node as they were.

* `Calculated`, `Assigned`, `Passes` — what arithmetic, assignments and calls make sure of at a node;
* `Upheld mode ctx n` — all of that in the final tree.

Main facts: `calculated_of_arithmetic`, `assigned_of_assignment`, `passes_of_calls`, `checks_last`.
-/

namespace LetFn.Check

open Node (Revised Renoted OnlyNotes Everywhere)

variable {mode : Mode} {ctx : Context} {bound : Nat} {n n' x y : Node}

/-! ## what is made sure of -/

/-- What first types and arithmetic make sure of. -/
def Calculated (mode : Mode) (ctx : Context) (n : Node) : Prop :=
  match n.form with
  | .prefixOp _ operand => ctx.isNumeric operand.typeId = true
  | .infixOp operator left right => operator.kind.isArithmetic = true →
    left.typeId = right.typeId ∧ ctx.isNumeric left.typeId = true ∧ ctx.coerces left.typeId n.typeId = true
  | .block _ trailing => ctx.coerces (blockType trailing) n.typeId = true
  | .functionCall callee _ => ∃ params result, ctx.type callee.typeId = .function params result ∧
    ctx.coerces result n.typeId = true
  | .variableDef name type _ => mode = .nominal → typeNamedBy type = .ok type.typeId ∧ name.typeId = type.typeId
  | _ => True

/-- What the check of assignments makes sure of. -/
def Assigned (mode : Mode) (ctx : Context) (n : Node) : Prop :=
  match n.form with
  | .infixOp operator left right => operator.kind = .assignment → left.typeId = right.typeId
  | .functionDef _ _ result body => ∀ x ∈ body,
    ctx.type result.typeId = .void ∨ ctx.coerces x.typeId result.typeId = true
  | .variableDef _ type initializer => mode = .nominal → ∀ x ∈ initializer, x.typeId = type.typeId
  | _ => True

/-- What the check of calls makes sure of. -/
def Passes (ctx : Context) (n : Node) : Prop :=
  match n.form with
  | .functionCall callee arguments => ∀ params result, ctx.type callee.typeId = .function params result →
    arguments.map Node.typeId = params
  | _ => True

/-- **What is true at every node of an accepted program**: operands of arithmetic and of prefix operators are numbers,
both sides of arithmetic and of an assignment have one type, blocks and calls may stand where they stand, functions are
called with the types of their parameters, and values fit what was declared. -/
def Upheld (mode : Mode) (ctx : Context) (n : Node) : Prop :=
  match n.form with
  | .prefixOp _ operand => ctx.isNumeric operand.typeId = true
  | .infixOp operator left right =>
    (operator.kind.isArithmetic = true →
      left.typeId = right.typeId ∧ ctx.isNumeric left.typeId = true ∧ ctx.coerces left.typeId n.typeId = true) ∧
    (operator.kind = .assignment → left.typeId = right.typeId)
  | .block _ trailing => ctx.coerces (blockType trailing) n.typeId = true
  | .functionDef _ _ result body => ∀ x ∈ body,
    ctx.type result.typeId = .void ∨ ctx.coerces x.typeId result.typeId = true
  | .functionCall callee arguments => ∃ params result, ctx.type callee.typeId = .function params result ∧
    arguments.map Node.typeId = params ∧ ctx.coerces result n.typeId = true
  | .variableDef name type initializer => mode = .nominal →
    typeNamedBy type = .ok type.typeId ∧ name.typeId = type.typeId ∧ ∀ x ∈ initializer, x.typeId = type.typeId
  | _ => True

theorem upheld_of_parts (hc : Calculated mode ctx n) (ha : Assigned mode ctx n) (hp : Passes ctx n) :
    Upheld mode ctx n := by
  unfold Calculated at hc
  unfold Assigned at ha
  unfold Passes at hp
  unfold Upheld
  cases hform : n.form with
  | infixOp =>
    simp only [hform] at hc ha ⊢
    exact ⟨hc, ha⟩
  | functionCall =>
    simp only [hform] at hc hp ⊢
    obtain ⟨params, result, hf, hresult⟩ := hc
    exact ⟨params, result, hf, hp params result hf, hresult⟩
  | variableDef =>
    simp only [hform] at hc ha ⊢
    exact fun hmode => ⟨(hc hmode).1, (hc hmode).2, ha hmode⟩
  | prefixOp | block => simpa only [hform] using hc
  | functionDef => simpa only [hform] using ha
  | _ => trivial

/-! ## what survives lifting -/

theorem Calculated.lifted (h : Calculated mode ctx x) (hxy : Lifted ctx x y) : Calculated mode ctx y := by
  have hup : ∀ {t}, ctx.coerces t x.typeId = true → ctx.coerces t y.typeId = true := fun ht =>
    Context.coerces_trans ht hxy.coerces
  unfold Calculated at h ⊢
  rw [hxy.form]
  cases hform : x.form with
  | infixOp =>
    simp only [hform] at h ⊢
    exact fun harith => ⟨(h harith).1, (h harith).2.1, hup (h harith).2.2⟩
  | block =>
    simp only [hform] at h ⊢
    exact hup h
  | functionCall =>
    simp only [hform] at h ⊢
    obtain ⟨params, result, hf, hresult⟩ := h
    exact ⟨params, result, hf, hup hresult⟩
  | prefixOp | variableDef => simpa only [hform] using h
  | _ => trivial

theorem Assigned.lifted (h : Assigned mode ctx x) (hxy : Lifted ctx x y) : Assigned mode ctx y := by
  unfold Assigned at h ⊢
  rw [hxy.form]
  exact h

theorem Passes.lifted (h : Passes ctx x) (hxy : Lifted ctx x y) : Passes ctx y := by
  unfold Passes at h ⊢
  rw [hxy.form]
  exact h

/-! ## what survives a revision that keeps the notes of the parts -/

/-- A node that looks like another from the outside. -/
structure Resembles (x y : Node) : Prop where
  type : y.type = x.type
  span : y.span = x.span
  identifier : y.identifier? = x.identifier?

theorem Resembles.typeId (h : Resembles x y) : y.typeId = x.typeId := by rw [Node.typeId, Node.typeId, h.type]

theorem Resembles.typeNamedBy (h : Resembles x y) : typeNamedBy y = typeNamedBy x := by
  rw [Check.typeNamedBy, Check.typeNamedBy, h.identifier, h.span]

/-- A rule that writes on the parts of a node alone leaves the node as it looks from the outside. -/
theorem resembles_of_revised {rule : Node → Except Error Node} (hkeeps : KeepsOwn rule) (hrule : OnlyNotes rule)
    (h : Revised rule x y) : Resembles x y := by
  obtain ⟨form, hform, hy⟩ := Node.revise_eq_ok_iff.1 h
  have htype := hkeeps hy
  have hspan := hrule.span hy
  refine ⟨htype, hspan, ?_⟩
  have hparts : Form.Rel Renoted form y.form := hrule.parts hy
  have hrevised := Node.reviseParts_eq_ok hform
  unfold Node.identifier?
  generalize x.form = f, y.form = g at hparts hrevised
  cases hrevised <;> cases hparts <;> rfl

theorem blockType_of_resembles {a b : Option Node} (h : Option.Rel Resembles a b) : blockType b = blockType a := by
  cases h with
  | none => rfl
  | some h => exact h.typeId

theorem Calculated.parts {form : Form Node} (h : Calculated mode ctx n) (hparts : Form.Rel Resembles n.form form) :
    Calculated mode ctx { n with form } := by
  obtain ⟨span, scope, noted, f⟩ := n
  unfold Calculated at h ⊢
  cases hparts with
  | prefixOp operand =>
    simp only [operand.typeId]
    exact h
  | infixOp left right =>
    simp only [left.typeId, right.typeId]
    exact h
  | block _ trailing =>
    simp only [blockType_of_resembles trailing]
    exact h
  | functionCall callee _ =>
    simp only [callee.typeId]
    exact h
  | variableDef name type _ =>
    simp only [name.typeId, type.typeId, type.typeNamedBy]
    exact h
  | _ => trivial

theorem Assigned.parts {form : Form Node} (h : Assigned mode ctx n) (hparts : Form.Rel Resembles n.form form) :
    Assigned mode ctx { n with form } := by
  unfold Assigned at h ⊢
  generalize n.form = f at h hparts
  cases hparts with
  | infixOp left right =>
    simp only [left.typeId, right.typeId]
    exact h
  | functionDef _ result body =>
    simp only [result.typeId]
    intro y hy
    obtain ⟨x, hx, hxy⟩ := option_rel_of_mem body hy
    exact hxy.typeId ▸ h x hx
  | variableDef _ type initializer =>
    simp only [type.typeId]
    intro hmode y hy
    obtain ⟨x, hx, hxy⟩ := option_rel_of_mem initializer hy
    exact hxy.typeId.trans (h hmode x hx)
  | _ => trivial

/-! ## the three checks -/

/-- A type that widens from the type of a function is that type. -/
theorem eq_of_coerces_function {a b result : TypeId} {params : List TypeId} (hf : ctx.type a = .function params result)
    (h : ctx.coerces a b = true) : b = a := by
  rcases Context.coerces_iff.1 h with heq | ⟨r, _, hrank, _⟩
  · exact heq.symm
  · rw [hf] at hrank
    exact absurd hrank nofun

theorem eq_of_revised_name (hx : x.IsName) (h : Revised (arithmeticRule ctx) x y) : y = x := by
  obtain ⟨token, -, hform⟩ := hx
  exact eq_of_revised_leaf arithmeticRule_leaf hform h

/-- What is known of a node when it has its first type. -/
structure Begun (mode : Mode) (ctx : Context) (bound : Nat) (n : Node) : Prop where
  typed : n.Everywhere (FirstTyped mode ctx id)
  labelled : Labelled mode bound n
  shaped : n.form.Shaped

/-- **Arithmetic over first types** leaves every operator, block, call and variable as it should be. -/
theorem calculated_of_arithmetic (hr : ctx.Regular) (hx : x.Everywhere (Begun mode ctx bound))
    (h : Revised (arithmeticRule ctx) x y) : y.Everywhere (Calculated mode ctx) := by
  refine everywhere_revised (lifts_arithmeticRule hr) (fun hxy hc => hc.lifted hxy) ?_ hx h
  rintro ⟨span, scope, noted, f⟩ n' form ⟨htyped, hlabelled, hshaped⟩ hparts _ hrule
  have hparts' : Form.Rel (Revised (arithmeticRule ctx)) f form := hparts
  rcases arithmeticRule_cases hrule with ⟨operator, l, r, t, hform, _, _, _, ht, rfl⟩ |
    ⟨operator, l, r, hform, harith, rfl⟩ | ⟨operator, operand, hform, hnumeric, rfl⟩ | ⟨items, trailing, hform, rfl⟩ |
    ⟨hbinary, hunary, hblock, rfl⟩
  · -- the operands and the node get one type
    obtain ⟨-, -, hnumeric⟩ := Context.numeric_of_promote ht
    exact fun _ => ⟨rfl, hnumeric, ctx.coerces_refl t⟩
  · obtain rfl : form = _ := hform
    exact fun h => absurd (h.symm.trans harith) nofun
  · obtain rfl : form = _ := hform
    split <;> exact hnumeric
  · obtain rfl : form = _ := hform
    exact ctx.coerces_refl _
  · have hself := htyped.self.byParts
    cases hparts' with
    | infixOp => exact absurd rfl hbinary
    | prefixOp => exact absurd rfl hunary
    | @block _ _ _ y _ trailing =>
      cases trailing with
      | some => exact absurd rfl (hblock _ _)
      | none =>
        change ctx.coerces .void (noted.getD .void) = true
        rw [show noted.getD .void = .void from hself]
        exact ctx.coerces_refl _
    | @functionCall f₀ f' xs ys callee =>
      obtain ⟨params, hf⟩ := hself
      have hf₀ : f₀.Everywhere (FirstTyped mode ctx id) := htyped.child List.mem_cons_self
      have hup := coerces_of_arithmetic hf₀ callee
      exact ⟨params, _, (eq_of_coerces_function hf hup).symm ▸ hf, ctx.coerces_refl _⟩
    | variableDef name type =>
      rw [eq_of_revised_name hshaped.1 name, eq_of_revised_name hshaped.2 type]
      obtain ⟨hnamed, hname⟩ := hlabelled.declared _ _ _ rfl
      exact fun hmode => ⟨hnamed, hname hmode⟩
    | _ => trivial

/-- **The check of assignments** keeps what arithmetic made sure of, and adds its own. -/
theorem assigned_of_assignment (hx : x.Everywhere (Calculated mode ctx))
    (h : Revised (assignmentRule mode ctx) x y) : y.Everywhere fun z => Calculated mode ctx z ∧ Assigned mode ctx z := by
  refine everywhere_revised lifts_assignmentRule (fun hxy hc => ⟨hc.1.lifted hxy, hc.2.lifted hxy⟩) ?_ hx h
  rintro n n' form hn hparts _ hrule
  have hn := hn.parts (hparts.imp fun h => resembles_of_revised keepsOwn_assignmentRule onlyNotes_assignmentRule h)
  rcases assignmentRule_cases hrule with ⟨name, type, initializer, hform, _, _, rfl⟩ | ⟨rfl, hbinary, hlet, hbody⟩
  · obtain rfl : form = _ := hform
    refine ⟨hn, fun _ z hz => ?_⟩
    obtain rfl := Option.some.inj hz
    rfl
  · refine ⟨hn, ?_⟩
    unfold Assigned
    cases form with
    | infixOp => exact hbinary _ _ _ rfl
    | functionDef =>
      intro z hz
      exact hbody _ _ _ _ (by rw [Option.mem_def.1 hz])
    | variableDef =>
      intro hmode z hz
      have := hlet _ _ _ (by rw [Option.mem_def.1 hz])
      exact absurd (hmode.symm.trans this) nofun
    | _ => trivial

/-- **The check of calls** keeps what was made sure of before, and adds its own. -/
theorem passes_of_calls (hx : x.Everywhere fun z => Calculated mode ctx z ∧ Assigned mode ctx z)
    (h : Revised (callRule ctx) x y) : y.Everywhere (Upheld mode ctx) := by
  have hall : y.Everywhere fun z => Calculated mode ctx z ∧ Assigned mode ctx z ∧ Passes ctx z := by
    refine everywhere_revised lifts_callRule
      (fun hxy hc => ⟨hc.1.lifted hxy, hc.2.1.lifted hxy, hc.2.2.lifted hxy⟩) ?_ hx h
    rintro n n' form hn hparts _ hrule
    have hresembles := hparts.imp fun h => resembles_of_revised keepsOwn_callRule onlyNotes_callRule h
    have hc := hn.1.parts hresembles
    have ha := hn.2.parts hresembles
    rcases callRule_cases hrule with ⟨callee, arguments, params, result, ys, hform, hf, _, htypes, rfl⟩ | ⟨rfl, hnot⟩
    · obtain rfl : form = _ := hform
      refine ⟨hc, trivial, fun params' result' hf' => ?_⟩
      obtain ⟨rfl, -⟩ := Ty.function.inj (hf.symm.trans hf')
      calc ys.map Node.typeId = (ys.map (·.type)).map (·.getD .void) := by
            rw [List.map_map]
            rfl
        _ = params := by simp [htypes, Function.comp_def]
    · refine ⟨hc, ha, ?_⟩
      unfold Passes
      cases form with
      | functionCall => exact fun params result hf => absurd hf (hnot _ _ _ _ rfl)
      | _ => trivial
  exact hall.mono fun z hz => upheld_of_parts hz.1 hz.2.1 hz.2.2

/-- **No check is undone by a later one.** In an accepted program every node has its type, and at every node all that
the checks made sure of is true. -/
theorem checks_last {source : String} {t : Node} (h : analyze source mode = .ok (t, ctx)) :
    (∃ n, parseSource source = .ok n ∧ t.unnoted = n.unnoted) ∧
      t.Everywhere fun z => z.type = some z.typeId ∧ Upheld mode ctx z := by
  obtain ⟨n, s, a, b, hn, hs, ha, hb, ht⟩ := analyze_eq_ok h
  have hshaped := shaped_of_parseSource hn
  have hnodup := declared_nodup_of_parseSource hn
  obtain ⟨htyped, hr, hshaped'⟩ := typed_of_firstTypes hshaped hnodup hs
  obtain ⟨hlabelled, -⟩ := labelled_of_firstTypes hshaped hnodup hs
  have hbegun : s.Everywhere (Begun mode ctx ctx.scopes.length) := fun z hz =>
    ⟨htyped.below hz, hlabelled z hz, hshaped' z hz⟩
  have hupheld := passes_of_calls (assigned_of_assignment (calculated_of_arithmetic hr hbegun ha) hb) ht
  exact ⟨unnoted_of_analyze h, fun z hz => ⟨(everywhere_complete h z hz).typeId, hupheld z hz⟩⟩

/-- The argument and the operands that are integers are raised to `float`. -/
theorem checks_last_scale :
    let noted : List (Tag × Ty) :=
      [(.root, .void), (.functionDef, .void), (.literal, .float), (.literal, .float), (.block, .float),
        (.infixOp, .float), (.literal, .float), (.literal, .float), (.literal, .float), (.statement, .void),
        (.variableDef, .void), (.literal, .float), (.literal, .float), (.infixOp, .float), (.prefixOp, .float),
        (.functionCall, .float), (.literal, .function [.float] .float), (.literal, .float), (.literal, .float)]
    ∃ t ctx,
      analyze "fn scale(a: float) -> float { a * 2 } let x: float = -scale(1) + 2.5;" .nominal = .ok (t, ctx) ∧
      t.preorder.map (fun z => (z.tag, ctx.type z.typeId)) = noted ∧
      (∃ n, parseSource "fn scale(a: float) -> float { a * 2 } let x: float = -scale(1) + 2.5;" = .ok n ∧
        t.unnoted = n.unnoted) ∧
      t.Everywhere fun z => z.type = some z.typeId ∧ Upheld .nominal ctx z := by
  intro noted
  have haccepted : Yields (fun r => r.1.preorder.map (fun z => (z.tag, r.2.type z.typeId)) = noted)
      (analyze "fn scale(a: float) -> float { a * 2 } let x: float = -scale(1) + 2.5;" .nominal) := by decide +kernel
  obtain ⟨⟨t, ctx⟩, h, hnoted⟩ := yields_iff.1 haccepted
  exact ⟨t, ctx, h, hnoted, checks_last h⟩

end LetFn.Check
