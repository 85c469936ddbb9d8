import LetFn.Proofs.Check.Passes

/-!
# Types from the leaves upwards

`Node.typeUp` reads the type of a value off a tree with first types, from its leaves upwards; an assignment has the type
that its left side is said to have. `Node.synthesized` takes the type that the left side has itself, `Node.noted` the
one that was first noted there, which is what the checks after arithmetic see.

Main fact: `nominal_sound`.
-/

namespace LetFn

namespace Node

section

variable (ctx : Context) (target : Node → TypeId → TypeId)

mutual

/-- The type of a value; `target` gives the type of an assignment from its left side and the type of that. -/
def typeUp : Node → TypeId
  | ⟨_, _, type, .literal token⟩ =>
    match token.kind with
    | .integer => .int
    | .float => .float
    | .string => .string
    | _ => type.getD .void
  | ⟨_, _, _, .prefixOp operator operand⟩ => if operator.kind = .not then .int else typeUp operand
  | ⟨_, _, _, .infixOp operator left right⟩ =>
    if operator.kind.isComparison || operator.kind.isLogical then .int
    else if operator.kind.isArithmetic then (ctx.promote (typeUp left) (typeUp right)).getD .void
    else target left (typeUp left)
  | ⟨_, _, _, .block _ trailing⟩ => typeUpOption trailing
  | ⟨_, _, _, .functionCall callee _⟩ =>
    match ctx.type (typeUp callee) with
    | .function _ result => result
    | _ => .void
  | _ => .void

def typeUpOption : Option Node → TypeId
  | none => .void
  | some x => typeUp x

end

end

/-- The type of a value, all of it read off the leaves. -/
def synthesized (ctx : Context) : Node → TypeId := typeUp ctx fun _ t => t

/-- The type of a value as the checks see it: an assignment keeps the type that was first noted on its left side. -/
def noted (ctx : Context) : Node → TypeId := typeUp ctx fun left _ => left.typeId

end Node

namespace Check

open Node (Revised)

variable {ctx : Context} {x y : Node} {target : Node → TypeId → TypeId}

/-- A value of the type that `τ` gives may stand where the node expects one: as the initializer of a variable, as the
body of a function that returns something, as an argument. -/
def Admits (ctx : Context) (τ : Node → TypeId) (n : Node) : Prop :=
  match n.form with
  | .variableDef _ type (some initializer) => ctx.coerces (τ initializer) type.typeId = true
  | .functionDef _ _ result (some body) =>
    ctx.type result.typeId = .void ∨ ctx.coerces (τ body) result.typeId = true
  | .functionCall callee arguments =>
    ∃ params result, ctx.type (τ callee) = .function params result ∧
      List.Forall₂ (fun x t => ctx.coerces (τ x) t = true) arguments params
  | _ => True

instance (ctx : Context) (t : TypeId) (p : List TypeId → Prop) [DecidablePred p] :
    Decidable (∃ params result, ctx.type t = .function params result ∧ p params) :=
  match h : ctx.type t with
  | .function params result => decidable_of_iff (p params) (by grind)
  | .void | .string | .int | .float | .sizedInt _ | .sizedFloat _ | .hole _ => isFalse (by grind)

instance (ctx : Context) (τ : Node → TypeId) : (n : Node) → Decidable (Admits ctx τ n)
  | ⟨_, _, _, .variableDef _ type (some initializer)⟩ =>
    inferInstanceAs (Decidable (ctx.coerces (τ initializer) type.typeId = true))
  | ⟨_, _, _, .functionDef _ _ result (some body)⟩ =>
    inferInstanceAs (Decidable (ctx.type result.typeId = .void ∨ ctx.coerces (τ body) result.typeId = true))
  | ⟨_, _, _, .functionCall callee arguments⟩ =>
    inferInstanceAs (Decidable (∃ params result, ctx.type (τ callee) = .function params result ∧
      List.Forall₂ (fun x t => ctx.coerces (τ x) t = true) arguments params))
  | ⟨_, _, _, .literal _⟩ | ⟨_, _, _, .prefixOp _ _⟩ | ⟨_, _, _, .infixOp _ _ _⟩ | ⟨_, _, _, .statement _⟩
  | ⟨_, _, _, .block _ _⟩ | ⟨_, _, _, .variableDef _ _ none⟩ | ⟨_, _, _, .functionDef _ _ _ none⟩
  | ⟨_, _, _, .root _⟩ => .isTrue trivial

/-- The left side of an assignment was first noted with the type that it has. -/
def Settled (ctx : Context) (n : Node) : Prop :=
  match n.form with
  | .infixOp operator left _ => operator.kind = .assignment → left.typeId = left.synthesized ctx
  | _ => True

instance (ctx : Context) : (n : Node) → Decidable (Settled ctx n)
  | ⟨_, _, _, .infixOp operator left _⟩ =>
    inferInstanceAs (Decidable (operator.kind = .assignment → left.typeId = left.synthesized ctx))
  | ⟨_, _, _, .literal _⟩ | ⟨_, _, _, .prefixOp _ _⟩ | ⟨_, _, _, .statement _⟩ | ⟨_, _, _, .block _ _⟩
  | ⟨_, _, _, .functionDef _ _ _ _⟩ | ⟨_, _, _, .functionCall _ _⟩ | ⟨_, _, _, .variableDef _ _ _⟩
  | ⟨_, _, _, .root _⟩ => .isTrue trivial

/-! ## functions -/

theorem builtin_ne_function (hr : ctx.Regular) {t : TypeId} (ht : Context.Builtin t) {params : List TypeId}
    {result : TypeId} : ctx.type t ≠ .function params result := by
  rw [hr.type_builtin ht]
  obtain ⟨i⟩ := t
  have hi : i < 10 := ht
  interval_cases i <;> nofun

/-- A function is no operand. -/
theorem not_numeric_of_function (hx : x.Everywhere (FirstTyped .nominal ctx id))
    (h : x.revise (arithmeticRule ctx) = .ok y) {params : List TypeId} {result : TypeId}
    (hf : ctx.type x.typeId = .function params result) : ctx.isNumeric y.typeId = false := by
  rcases Context.coerces_iff.1 (coerces_of_arithmetic hx h) with heq | ⟨r, _, hrank, _⟩
  · rw [← heq, Context.isNumeric, hf]
    rfl
  · rw [hf] at hrank
    exact absurd hrank nofun

theorem typeUp_literal {span : Span} {scope : Option ScopeId} {type : Option TypeId} {token : Token}
    (h : TypedByParts .nominal ctx id ⟨span, scope, type, .literal token⟩) :
    Node.typeUp ctx target ⟨span, scope, type, .literal token⟩ =
      Node.typeId ⟨span, scope, type, .literal token⟩ := by
  obtain ⟨hint, hfloat, hstring⟩ := h
  unfold Node.typeUp
  split
  · next hk => exact (hint hk).symm
  · next hk => exact (hfloat hk).symm
  · next hk => exact (hstring hk).symm
  · rfl

/-- A function has the type that it had first, whatever assignments are said to have. -/
theorem typeUp_of_function (htarget : ∀ n, target n n.typeId = n.typeId) (hr : ctx.Regular)
    (hx : x.Everywhere (FirstTyped .nominal ctx id)) (h : x.revise (arithmeticRule ctx) = .ok y)
    {params : List TypeId} {result : TypeId} (hf : ctx.type x.typeId = .function params result) :
    Node.typeUp ctx target x = x.typeId := by
  induction x using Node.childInduction generalizing y params result with
  | step x ih =>
    obtain ⟨form, hparts, hraised⟩ := raised_of_arithmetic h
    have htyped := hx.self.byParts
    have hfun : ∀ c ∈ x.children, ∀ c', Revised (arithmeticRule ctx) c c' →
        ctx.type c.typeId = .function params result → Node.typeUp ctx target c = c.typeId :=
      fun c hc c' hc' hcf => ih c hc (hx.child hc) hc' hcf
    have hfun' : ∀ c ∈ x.children, ∀ c', Revised (arithmeticRule ctx) c c' → ∀ {params result},
        ctx.type c.typeId = .function params result → Node.typeUp ctx target c = c.typeId :=
      fun c hc c' hc' _ _ hcf => ih c hc (hx.child hc) hc' hcf
    have hnot : ∀ c ∈ x.children, ∀ c', Revised (arithmeticRule ctx) c c' →
        ctx.type c.typeId = .function params result → ctx.isNumeric c'.typeId = false :=
      fun c hc c' hc' hcf => not_numeric_of_function (hx.child hc) hc' hcf
    obtain ⟨span, scope, type, f⟩ := x
    clear h ih
    cases hparts with
    | literal token => exact typeUp_literal htyped
    | @infixOp operator l l' r r' left right =>
      simp only [Raised] at hraised
      simp only [TypedByParts, infixType] at htyped
      rw [htyped] at hf
      simp only [Node.typeUp]
      split at hf
      · exact absurd hf (builtin_ne_function hr (show Context.Builtin .int by decide))
      · next hcmp =>
        rw [if_neg hcmp] at htyped
        rw [if_neg hcmp, htyped, hfun l List.mem_cons_self l' left hf]
        split at hraised
        · rw [hnot l List.mem_cons_self l' left hf] at hraised
          exact absurd hraised.1 Bool.false_ne_true
        · next harith => rw [if_neg harith, htarget]
    | @prefixOp operator o o' operand =>
      simp only [TypedByParts, prefixType] at htyped
      rw [htyped] at hf
      split at hf
      · exact absurd hf (builtin_ne_function hr (show Context.Builtin .int by decide))
      · have hnumeric := hraised.1
        rw [hnot o List.mem_cons_self o' operand hf] at hnumeric
        exact absurd hnumeric Bool.false_ne_true
    | @block xs ys o o' items trailing =>
      cases trailing with
      | none => exact htyped.symm
      | @some o o' trailing =>
        rw [show Node.typeId ⟨span, scope, type, .block xs (some o)⟩ = o.typeId from htyped] at hf ⊢
        exact hfun o (List.mem_append_right _ List.mem_cons_self) o' trailing hf
    | @functionCall callee callee' xs ys hcallee arguments =>
      obtain ⟨params', hparams⟩ := htyped
      simp only [id] at hparams
      simp only [Node.typeUp]
      rw [hfun' callee List.mem_cons_self callee' hcallee hparams, hparams]
    | functionDef => exact htyped.1.symm
    | variableDef => exact htyped.1.symm
    | statement | root => exact htyped.symm

/-! ## the type that the checks see -/

/-- After arithmetic a value has the type that is noted. -/
theorem noted_of_arithmetic (hr : ctx.Regular) (hx : x.Everywhere (FirstTyped .nominal ctx id))
    (hs : x.Everywhere fun z => z.form.Shaped) (h : x.revise (arithmeticRule ctx) = .ok y) :
    y.typeId = x.noted ctx := by
  induction x using Node.childInduction generalizing y with
  | step x ih =>
    obtain ⟨form, hparts, hraised⟩ := raised_of_arithmetic h
    have htyped := hx.self.byParts
    have hshaped := hs.self
    have hchild : ∀ c ∈ x.children, ∀ c', Revised (arithmeticRule ctx) c c' → c'.typeId = c.noted ctx :=
      fun c hc c' hc' => ih c hc (hx.child hc) (hs.child hc) hc'
    have hfun : ∀ c ∈ x.children, ∀ c', Revised (arithmeticRule ctx) c c' → ∀ {params result},
        ctx.type c.typeId = .function params result → c.noted ctx = c.typeId :=
      fun c hc c' hc' _ _ hcf => typeUp_of_function (fun _ => rfl) hr (hx.child hc) hc' hcf
    obtain ⟨span, scope, type, f⟩ := x
    clear h ih
    cases hparts with
    | literal token => exact hraised.trans (typeUp_literal htyped).symm
    | @infixOp operator l l' r r' left right =>
      have hl := hchild l List.mem_cons_self l' left
      have hr := hchild r (by simp [Node.children, Form.parts]) r' right
      simp only [Raised, hl, hr] at hraised
      simp only [TypedByParts, infixType] at htyped
      simp only [Node.noted, Node.typeUp]
      by_cases harith : operator.kind.isArithmetic = true
      · rw [if_pos harith] at hraised ⊢
        rw [if_neg (by simp [ne_comparison_of_isArithmetic harith])]
        rw [← Node.noted, hraised.2.2, Option.getD_some]
      · rw [if_neg harith] at hraised ⊢
        rw [hraised, htyped]
    | @prefixOp operator o o' operand =>
      have ho := hchild o List.mem_cons_self o' operand
      have hkind : operator.kind = .dash ∨ operator.kind = .not := hshaped
      simp only [Raised, ho] at hraised
      simp only [TypedByParts, prefixType] at htyped
      simp only [Node.noted, Node.typeUp]
      rcases hkind with hk | hk
      · rw [if_neg (by simp [hk]), hraised.2, if_pos hk]
        rfl
      · rw [if_pos hk] at htyped ⊢
        rw [hraised.2, if_neg (by simp [hk]), htyped]
    | @block xs ys o o' items trailing =>
      cases trailing with
      | none => exact hraised.trans htyped
      | @some o o' trailing =>
        exact hraised.trans (hchild o (List.mem_append_right _ List.mem_cons_self) o' trailing)
    | @functionCall callee callee' xs ys hcallee arguments =>
      obtain ⟨params, hparams⟩ := htyped
      simp only [id] at hparams
      have hcallee := hfun callee List.mem_cons_self callee' hcallee hparams
      simp only [Node.noted] at hcallee
      simp only [Node.noted, Node.typeUp, hcallee, hparams]
      exact hraised
    | functionDef => exact hraised.trans htyped.1
    | variableDef => exact hraised.trans htyped.1
    | statement | root => exact hraised.trans htyped

/-! ## the type that a value has -/

/-- The noted type is at most raised: a value that it allows has a type at least as high. -/
theorem coerces_synthesized (hr : ctx.Regular) (hx : x.Everywhere (FirstTyped .nominal ctx id))
    (hs : x.Everywhere fun z => z.form.Shaped) (h : x.revise (arithmeticRule ctx) = .ok y) :
    ctx.coerces (x.noted ctx) (x.synthesized ctx) = true := by
  induction x using Node.childInduction generalizing y with
  | step x ih =>
    obtain ⟨form, hparts, hraised⟩ := raised_of_arithmetic h
    have htyped := hx.self.byParts
    have hchild : ∀ c ∈ x.children, ∀ c', Revised (arithmeticRule ctx) c c' →
        ctx.coerces (c.noted ctx) (c.synthesized ctx) = true :=
      fun c hc c' hc' => ih c hc (hx.child hc) (hs.child hc) hc'
    have hnoted : ∀ c ∈ x.children, ∀ c', Revised (arithmeticRule ctx) c c' →
        c'.typeId = c.noted ctx ∧ ctx.coerces c.typeId (c.noted ctx) = true := fun c hc c' hc' => by
      have hc'' := noted_of_arithmetic hr (hx.child hc) (hs.child hc) hc'
      exact ⟨hc'', hc'' ▸ coerces_of_arithmetic (hx.child hc) hc'⟩
    have hfun : ∀ c ∈ x.children, ∀ c', Revised (arithmeticRule ctx) c c' → ∀ {params result},
        ctx.type c.typeId = .function params result → c.noted ctx = c.typeId ∧ c.synthesized ctx = c.typeId :=
      fun c hc c' hc' _ _ hcf => ⟨typeUp_of_function (fun _ => rfl) hr (hx.child hc) hc' hcf,
        typeUp_of_function (fun _ => rfl) hr (hx.child hc) hc' hcf⟩
    obtain ⟨span, scope, type, f⟩ := x
    clear h ih
    cases hparts with
    | @infixOp operator l l' r r' left right =>
      have hl := hchild l List.mem_cons_self l' left
      have hr' := hchild r (by simp [Node.children, Form.parts]) r' right
      obtain ⟨hnl, hfirst⟩ := hnoted l List.mem_cons_self l' left
      obtain ⟨hnr, -⟩ := hnoted r (by simp [Node.children, Form.parts]) r' right
      simp only [Raised, hnl, hnr] at hraised
      simp only [Node.noted, Node.synthesized, Node.typeUp]
      split
      · exact ctx.coerces_refl _
      · split
        · next harith =>
          rw [if_pos harith] at hraised
          obtain ⟨t, ht, hle⟩ := hr.promote_mono hl hr' hraised.2.2
          have ht' := hraised.2.2
          simp only [Node.noted] at ht'
          simp only [Node.synthesized] at ht
          rw [ht, ht']
          exact hle
        · exact Context.coerces_trans hfirst hl
    | @prefixOp operator o o' operand =>
      simp only [Node.noted, Node.synthesized, Node.typeUp]
      split
      · exact ctx.coerces_refl _
      · exact hchild o List.mem_cons_self o' operand
    | @block xs ys o o' items trailing =>
      cases trailing with
      | none => exact ctx.coerces_refl _
      | @some o o' trailing => exact hchild o (List.mem_append_right _ List.mem_cons_self) o' trailing
    | @functionCall callee callee' xs ys hcallee arguments =>
      obtain ⟨params, hparams⟩ := htyped
      obtain ⟨hn, hsy⟩ := hfun callee List.mem_cons_self callee' hcallee hparams
      simp only [Node.noted, Node.synthesized] at hn hsy
      simp only [Node.noted, Node.synthesized, Node.typeUp, hn, hsy]
      exact ctx.coerces_refl _
    | _ => exact ctx.coerces_refl _

theorem settled_left {operator : Token} {left right : Node} {span : Span} {scope : Option ScopeId}
    {type : Option TypeId} (h : Settled ctx ⟨span, scope, type, .infixOp operator left right⟩)
    (hshaped : (Form.infixOp operator left right).Shaped) (harith : operator.kind.isArithmetic ≠ true)
    (hcmp : ¬ (operator.kind.isComparison || operator.kind.isLogical) = true) :
    left.typeId = left.synthesized ctx := by
  refine h ?_
  rcases hshaped with hk | ⟨power, hrule⟩
  · exact hk
  · cases hk : operator.kind <;>
      simp_all [Grammar.standard, Kind.isArithmetic, Kind.isComparison, Kind.isLogical]

/-- Where all assignments are settled, the checks see the type that a value has. -/
theorem noted_eq_synthesized (hs : x.Everywhere fun z => z.form.Shaped) (hx : x.Everywhere (Settled ctx)) :
    x.noted ctx = x.synthesized ctx := by
  induction x using Node.childInduction with
  | step x ih =>
    have hchild : ∀ c ∈ x.children, Node.typeUp ctx (fun left _ => left.typeId) c = Node.typeUp ctx (fun _ t => t) c :=
      fun c hc => ih c hc (hs.child hc) (hx.child hc)
    have hself := hx.self
    have hshaped := hs.self
    obtain ⟨span, scope, type, f⟩ := x
    simp only [Node.noted, Node.synthesized]
    cases f with
    | infixOp operator left right =>
      simp only [Node.typeUp, hchild left List.mem_cons_self,
        hchild right (by simp [Node.children, Form.parts])]
      split
      · rfl
      · next hcmp =>
        split
        · rfl
        · next harith => exact settled_left hself hshaped harith hcmp
    | prefixOp operator operand => simp only [Node.typeUp, hchild operand List.mem_cons_self]
    | block items trailing =>
      cases trailing with
      | none => rfl
      | some o => exact hchild o (List.mem_append_right _ List.mem_cons_self)
    | functionCall callee arguments => simp only [Node.typeUp, hchild callee List.mem_cons_self]
    | _ => rfl

/-- An assignment that is not settled is seen with another type than it has. -/
theorem settled_of_noted_eq (h : x.noted ctx = x.synthesized ctx) : Settled ctx x := by
  obtain ⟨span, scope, type, f⟩ := x
  cases f with
  | infixOp operator left right =>
    intro hk
    simpa [Node.noted, Node.synthesized, Node.typeUp, hk, Kind.isComparison, Kind.isLogical, Kind.isArithmetic] using h
  | _ => trivial

/-! ## accepted programs -/

theorem noted_of_isName (hx : FirstTyped .nominal ctx id x) (hn : x.IsName) : x.noted ctx = x.typeId := by
  obtain ⟨t, -, hform⟩ := hn
  obtain ⟨span, scope, type, f⟩ := x
  obtain rfl : f = .literal t := hform
  exact typeUp_literal hx.byParts

theorem forall₂_coerces {R : Node → Node → Prop} {xs ys : List Node} {ts : List TypeId} (h : List.Forall₂ R xs ys)
    (hR : ∀ x ∈ xs, ∀ {y}, R x y → y.typeId = x.noted ctx)
    (hts : List.Forall₂ (fun y t => ctx.coerces y.typeId t = true) ys ts) :
    List.Forall₂ (fun x t => ctx.coerces (x.noted ctx) t = true) xs ts := by
  induction h generalizing ts with
  | nil =>
    cases hts
    exact .nil
  | cons hxy _ ih =>
    cases hts with
    | cons ht hts =>
      rw [hR _ List.mem_cons_self hxy] at ht
      exact .cons ht (ih (fun x hx => hR x (List.mem_cons_of_mem _ hx)) hts)

section

variable (hr : ctx.Regular) (hx : x.Everywhere (FirstTyped .nominal ctx id))
  (hs : x.Everywhere fun z => z.form.Shaped) (hy : Revised (arithmeticRule ctx) x y)

include hr hx hs hy

/-- The initializer of a variable is noted with a type that widens to the declared one. -/
theorem coerces_initializer {type : Option TypeId} {z : Node}
    (hz : Revised (assignmentRule .nominal ctx) { y with type } z) {name t i : Node}
    (hform : x.form = .variableDef name t (some i)) : ctx.coerces (i.noted ctx) t.typeId = true := by
  have hi : i ∈ x.children := by simp [Node.children, hform, Form.parts]
  have ht : t ∈ x.children := by simp [Node.children, hform, Form.parts]
  have hname : t.IsName := (hform ▸ hs.self : (Form.variableDef name t (some i)).Shaped).2
  obtain ⟨t', i', htype, hinit, hcoerces⟩ := coerces_of_checked_initializer hy hz hform
  rw [noted_of_arithmetic hr (hx.child hi) (hs.child hi) hinit, noted_of_arithmetic hr (hx.child ht) (hs.child ht) htype,
    noted_of_isName (hx.child ht).self hname] at hcoerces
  exact hcoerces

/-- The body of a function that returns something is noted with a type that widens to what it returns. -/
theorem coerces_body {type : Option TypeId} {z : Node}
    (hz : Revised (assignmentRule .nominal ctx) { y with type } z) {name : Token} {params : List (Param Node)}
    {result body : Node} (hform : x.form = .functionDef name params result (some body)) :
    ctx.type result.typeId = .void ∨ ctx.coerces (body.noted ctx) result.typeId = true := by
  have hyform := form_of_revised form_of_arithmeticRule (by simp [Node.tag, hform, Form.tag]) hy
  obtain ⟨g, hg, hrule⟩ := Node.revise_eq_ok_iff.1 hz
  have hgform := Node.reviseParts_eq_ok hg
  have hb : body ∈ x.children := by simp [Node.children, hform, Form.parts]
  have ht : result ∈ x.children := by simp [Node.children, hform, Form.parts]
  have hname : result.IsName := (hform ▸ hs.self : (Form.functionDef name params result (some body)).Shaped).2.2.1
  rw [hform] at hyform
  obtain ⟨_, result', body', hyform, hresult, hbody⟩ := hyform.of_body
  rw [hyform] at hgform
  obtain ⟨_, result'', body'', rfl, hresult', hbody'⟩ := hgform.of_body
  have hcoerces := returns_of_assignmentRule hrule rfl
  rw [keepsOwn_assignmentRule.typeId hbody', keepsOwn_assignmentRule.typeId hresult',
    noted_of_arithmetic hr (hx.child hb) (hs.child hb) hbody,
    noted_of_arithmetic hr (hx.child ht) (hs.child ht) hresult, noted_of_isName (hx.child ht).self hname] at hcoerces
  exact hcoerces

/-- The arguments of a call are noted with types that widen to those of the parameters. -/
theorem coerces_arguments {type type' : Option TypeId} {z w : Node}
    (hz : Revised (assignmentRule .nominal ctx) { y with type } z) (hw : Revised (callRule ctx) { z with type := type' } w)
    {callee : Node} {arguments : List Node} (hform : x.form = .functionCall callee arguments) :
    ∃ params result, ctx.type (callee.noted ctx) = .function params result ∧
      List.Forall₂ (fun x t => ctx.coerces (x.noted ctx) t = true) arguments params := by
  have hyform := form_of_revised form_of_arithmeticRule (by simp [Node.tag, hform, Form.tag]) hy
  have htag : y.tag = .functionCall := by rw [Node.tag, hyform.tag, hform, Form.tag]
  have hzform := form_of_revised form_of_assignmentRule (x := { y with type }) (by rw [Node.tag] at htag ⊢; simp [htag]) hz
  obtain ⟨g, hg, hrule⟩ := Node.revise_eq_ok_iff.1 hw
  have hgform := Node.reviseParts_eq_ok hg
  have hchildren : x.children = callee :: arguments := by rw [Node.children, hform, Form.parts]
  have htyped := hx.self.byParts
  unfold TypedByParts at htyped
  simp only [hform] at htyped
  obtain ⟨params, hparams⟩ := htyped
  have hmem : ∀ c ∈ callee :: arguments, c ∈ x.children := fun c hc => hchildren ▸ hc
  have hnoted : ∀ c ∈ callee :: arguments, ∀ {c₁ c₂ c₃}, Revised (arithmeticRule ctx) c c₁ →
      Revised (assignmentRule .nominal ctx) c₁ c₂ → Revised (callRule ctx) c₂ c₃ → c₃.typeId = c.noted ctx :=
    fun c hc c₁ c₂ c₃ h₁ h₂ h₃ => by
      rw [keepsOwn_callRule.typeId h₃, keepsOwn_assignmentRule.typeId h₂,
        noted_of_arithmetic hr (hx.child (hmem c hc)) (hs.child (hmem c hc)) h₁]
  rw [hform] at hyform
  obtain ⟨callee₁, arguments₁, hyform, hc₁, ha₁⟩ := hyform.of_call
  rw [hyform] at hzform
  obtain ⟨callee₂, arguments₂, hzform, hc₂, ha₂⟩ := hzform.of_call
  rw [hzform] at hgform
  obtain ⟨callee₃, arguments₃, rfl, hc₃, ha₃⟩ := hgform.of_call
  have hcallee : callee.noted ctx = callee.typeId :=
    typeUp_of_function (fun _ => rfl) hr (hx.child (hmem callee List.mem_cons_self)) hc₁ hparams
  have hself := hnoted callee List.mem_cons_self hc₁ hc₂ hc₃
  simp only [id, ← hcallee] at hparams
  refine ⟨params, _, hparams, ?_⟩
  have hcoerces := arguments_of_callRule hrule rfl (hself ▸ hparams)
  have hargs : ∀ c ∈ arguments, ∀ {c₃}, (∃ c₁, Revised (arithmeticRule ctx) c c₁ ∧
      ∃ c₂, Revised (assignmentRule .nominal ctx) c₁ c₂ ∧ Revised (callRule ctx) c₂ c₃) → c₃.typeId = c.noted ctx :=
    fun c hc _ ⟨_, h₁, _, h₂, h₃⟩ => hnoted c (List.mem_cons_of_mem callee hc) h₁ h₂ h₃
  exact forall₂_coerces (Node.forall₂_comp ha₁ (Node.forall₂_comp ha₂ ha₃)) hargs hcoerces

end

theorem forall₂_congr {τ τ' : Node → TypeId} {xs : List Node} {ts : List TypeId} (h : ∀ c ∈ xs, τ c = τ' c)
    (hx : List.Forall₂ (fun x t => ctx.coerces (τ x) t = true) xs ts) :
    List.Forall₂ (fun x t => ctx.coerces (τ' x) t = true) xs ts := by
  induction hx with
  | nil => exact .nil
  | cons ht _ ih =>
    rw [h _ List.mem_cons_self] at ht
    exact .cons ht (ih fun c hc => h c (List.mem_cons_of_mem _ hc))

theorem admits_congr {τ τ' : Node → TypeId} (h : ∀ c ∈ x.children, τ c = τ' c) (hx : Admits ctx τ x) :
    Admits ctx τ' x := by
  unfold Admits at hx ⊢
  unfold Node.children at h
  split at hx
  · rwa [h _ (by simp [*, Form.parts])] at hx
  · rwa [h _ (by simp [*, Form.parts])] at hx
  · next callee arguments hform =>
    rw [hform, Form.parts] at h
    obtain ⟨params, result, hf, hargs⟩ := hx
    rw [h callee List.mem_cons_self] at hf
    exact ⟨params, result, hf, forall₂_congr (fun c hc => h c (List.mem_cons_of_mem _ hc)) hargs⟩
  · trivial

/-- Every value that is expected to have a type is noted with one that widens to it. -/
theorem admits_noted {m a b t : Node} (hr : ctx.Regular) (hm : m.Everywhere (FirstTyped .nominal ctx id))
    (hs : m.Everywhere fun z => z.form.Shaped) (ha : arithmetic ctx m = .ok a)
    (hb : assignment .nominal ctx a = .ok b) (ht : calls ctx b = .ok t) (hx : x ∈ m.preorder) :
    Admits ctx (Node.noted ctx) x := by
  obtain ⟨_, _, y, _, z, _, w, hy, ⟨τ, rfl⟩, hz, ⟨τ', rfl⟩, hw, -⟩ := forall₂_exists (passed_preorder ha hb ht) hx
  unfold Admits
  split
  · next hform => exact coerces_initializer hr (hm.below hx) (hs.below hx) hy hz hform
  · next hform => exact coerces_body hr (hm.below hx) (hs.below hx) hy hz hform
  · next hform => exact coerces_arguments hr (hm.below hx) (hs.below hx) hy hz hw hform
  · trivial

/-- **What the check of a program makes sure of.** A program that is accepted has first types from which every value that
is expected to have a type is noted with one that widens to it. The type that a value has is at least the noted one, and
is that one everywhere exactly where every assignment is settled; so where they are, the values themselves fit. -/
theorem nominal_sound {source : String} {t : Node} (h : analyze source .nominal = .ok (t, ctx)) :
    ∃ n m, parseSource source = .ok n ∧ firstTypes .nominal n = .ok (m, ctx) ∧
      (∀ z ∈ m.preorder, Admits ctx (Node.noted ctx) z) ∧
      (∀ z ∈ m.preorder, ctx.coerces (z.noted ctx) (z.synthesized ctx) = true) ∧
      (m.Everywhere (Settled ctx) ↔ ∀ z ∈ m.preorder, z.noted ctx = z.synthesized ctx) ∧
      ∀ z ∈ m.preorder, z.Everywhere (Settled ctx) → Admits ctx (Node.synthesized ctx) z := by
  obtain ⟨n, m, a, b, hn, hm, ha, hb, ht⟩ := analyze_eq_ok h
  obtain ⟨htyped, hr, hshaped⟩ := typed_of_firstTypes (shaped_of_parseSource hn) (declared_nodup_of_parseSource hn) hm
  have hadmits : ∀ z ∈ m.preorder, Admits ctx (Node.noted ctx) z := fun z hz =>
    admits_noted hr htyped hshaped ha hb ht hz
  have hsame : ∀ z ∈ m.preorder, z.Everywhere (Settled ctx) → z.noted ctx = z.synthesized ctx := fun z hz hsettled =>
    noted_eq_synthesized (hshaped.below hz) hsettled
  refine ⟨n, m, hn, hm, hadmits, fun z hz => ?_, ⟨fun hsettled z hz => hsame z hz (hsettled.below hz),
    fun heq z hz => settled_of_noted_eq (heq z hz)⟩, fun z hz hsettled => ?_⟩
  · obtain ⟨_, _, y, _, _, _, _, hy, -⟩ := forall₂_exists (passed_preorder ha hb ht) hz
    exact coerces_synthesized hr (htyped.below hz) (hshaped.below hz) hy
  · refine admits_congr (fun c hc => ?_) (hadmits z hz)
    exact noted_eq_synthesized ((hshaped.below hz).child hc) (hsettled.child hc)

theorem nominal_sound_scale : ∃ t ctx n m,
    analyze "fn scale(a: float) -> float { a * 2 } let x: float = scale(1) + 2.5;" .nominal = .ok (t, ctx) ∧
      parseSource "fn scale(a: float) -> float { a * 2 } let x: float = scale(1) + 2.5;" = .ok n ∧
      firstTypes .nominal n = .ok (m, ctx) ∧ m.Everywhere (Settled ctx) ∧
      ∀ z ∈ m.preorder, Admits ctx (Node.synthesized ctx) z := by
  have haccepted : Yields (fun _ => True)
      (analyze "fn scale(a: float) -> float { a * 2 } let x: float = scale(1) + 2.5;" .nominal) := by decide +kernel
  have hsettled : Yields (fun n => Yields (fun r => ∀ z ∈ r.1.preorder, Settled r.2 z) (firstTypes .nominal n))
      (parseSource "fn scale(a: float) -> float { a * 2 } let x: float = scale(1) + 2.5;") := by decide +kernel
  obtain ⟨⟨t, ctx⟩, h, -⟩ := yields_iff.1 haccepted
  obtain ⟨n, m, hn, hm, -, -, -, hadmits⟩ := nominal_sound h
  rw [hn] at hsettled
  simp only [Yields, hm] at hsettled
  have hm' : m.Everywhere (Settled ctx) := hsettled
  exact ⟨t, ctx, n, m, h, hn, hm, hm', fun z hz => hadmits z hz (hm'.below hz)⟩

/-- The sum is a float, but the assignment is seen with the type that was first noted on it, which is int. -/
theorem unsettled_sum_admitted : ∃ t ctx n m, analyze "let x: i32 = (1 + 2.0) = 3.0;" .nominal = .ok (t, ctx) ∧
    parseSource "let x: i32 = (1 + 2.0) = 3.0;" = .ok n ∧ firstTypes .nominal n = .ok (m, ctx) ∧
      ∃ z ∈ m.preorder, ¬ Admits ctx (Node.synthesized ctx) z := by
  have haccepted : Yields (fun _ => True) (analyze "let x: i32 = (1 + 2.0) = 3.0;" .nominal) := by decide +kernel
  have hfails : Yields (fun n => Yields (fun r => ∃ z ∈ r.1.preorder, ¬ Admits r.2 (Node.synthesized r.2) z)
      (firstTypes .nominal n)) (parseSource "let x: i32 = (1 + 2.0) = 3.0;") := by decide +kernel
  obtain ⟨⟨t, ctx⟩, h, -⟩ := yields_iff.1 haccepted
  obtain ⟨n, m, _, _, hn, hm, -⟩ := analyze_eq_ok h
  rw [hn] at hfails
  simp only [Yields, hm] at hfails
  exact ⟨t, ctx, n, m, h, hn, hm, hfails⟩

end Check

end LetFn
