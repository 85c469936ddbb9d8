import LetFn.Proofs.Check.Passes

/-!
# Notes that only go up

The three checks after the first types write on nodes that they do not own: arithmetic on its operands, a definition of
a variable on its initializer, a call on its arguments. Whatever they write there is a type to which the former one
widens, so what was made sure of at a node is still true when its surroundings are done.

* `Lifts ctx rule` — the rule does nothing to the parts of a node but lift them.

Main facts: `lifts_arithmeticRule`, `lifts_assignmentRule`, `lifts_callRule`, `everywhere_revised` (a property that each
step makes sure of, and that survives lifting, holds of every node in the end).
-/

namespace LetFn.Check

open Node (Revised Renoted Everywhere)

variable {mode : Mode} {ctx : Context} {n n' x y z : Node}

/-- The rule writes on the parts of its node only types to which theirs widen. -/
def Lifts (ctx : Context) (rule : Node → Except Error Node) : Prop :=
  ∀ {n n'}, rule n = .ok n' → Form.Rel (Lifted ctx) n.form n'.form

/-! ## every rule lifts -/

theorem lifts_arithmeticRule (hr : ctx.Regular) : Lifts ctx (arithmeticRule ctx) := by
  intro n n' h
  rcases arithmeticRule_cases h with ⟨operator, left, right, t, hform, -, -, -, ht, rfl⟩ | ⟨_, _, _, -, -, rfl⟩ |
    ⟨operator, operand, -, -, rfl⟩ | ⟨_, _, -, rfl⟩ | ⟨-, -, -, rfl⟩
  · rw [hform]
    exact .infixOp (.inr ⟨t, Context.coerces_of_promote ht, rfl⟩) (.inr ⟨t, Context.coerces_of_promote_right hr.nodup ht, rfl⟩)
  · exact .refl .refl _
  · split <;> exact .refl .refl _
  · exact .refl .refl _
  · exact .refl .refl _

theorem lifts_assignmentRule : Lifts ctx (assignmentRule mode ctx) := by
  intro n n' h
  rcases assignmentRule_cases h with ⟨name, type, initializer, hform, -, hcoerces, rfl⟩ | ⟨rfl, -⟩
  · rw [hform]
    exact .variableDef (.refl _) (.refl _) (.some (.inr ⟨_, hcoerces, rfl⟩))
  · exact .refl .refl _

theorem lifts_callRule : Lifts ctx (callRule ctx) := by
  intro n n' h
  rcases callRule_cases h with ⟨callee, arguments, _, _, arguments', hform, -, hlifted, -, rfl⟩ | ⟨rfl, -⟩
  · rw [hform]
    exact .functionCall (.refl _) hlifted
  · exact .refl .refl _

/-! ## what survives -/

section

variable {rule : Node → Except Error Node} {P Q : Node → Prop}

/-- **A property that survives lifting holds of every node of a revised tree** if the rule makes sure of it at every
node, over parts that were revised before. -/
theorem everywhere_revised (hlifts : Lifts ctx rule) (hstable : ∀ {x y}, Lifted ctx x y → P x → P y)
    (hstep : ∀ {n n' form}, Q n → Form.Rel (Revised rule) n.form form → (∀ c ∈ form.parts, P c) →
      rule { n with form } = .ok n' → P n')
    (hx : x.Everywhere Q) (h : Revised rule x y) : y.Everywhere P := by
  induction x using Node.childInduction generalizing y with
  | step x ih =>
    obtain ⟨form, hform, hrule⟩ := Node.revise_eq_ok_iff.1 h
    have hparts := Node.reviseParts_eq_ok hform
    have hrevised : ∀ c ∈ form.parts, c.Everywhere P := fun c hc => by
      obtain ⟨b, hb, hbc⟩ := forall₂_of_mem hparts.parts hc
      exact ih b hb (hx.child hb) hbc
    refine Node.everywhere_iff.2 ⟨hstep hx.self hparts (fun c hc => (hrevised c hc).self) hrule, fun d hd => ?_⟩
    -- a part of the node is a revised part, lifted at most
    obtain ⟨c, hc, hcd⟩ := forall₂_of_mem (hlifts hrule).parts hd
    refine Node.everywhere_iff.2 ⟨hstable hcd (hrevised c hc).self, fun e he => ?_⟩
    rw [Node.children, hcd.form] at he
    exact (hrevised c hc).child he

/-- A leaf that the rule leaves alone is its own revision. -/
theorem eq_of_revised_leaf {token : Token} (hrule : ∀ {n}, n.form = .literal token → rule n = .ok n)
    (hx : x.form = .literal token) (h : Revised rule x y) : y = x := by
  obtain ⟨form, hform, h⟩ := Node.revise_eq_ok_iff.1 h
  rw [hx] at hform
  obtain rfl := Except.ok.inj hform
  rw [hrule rfl] at h
  rw [← Except.ok.inj h]
  obtain ⟨_, _, _, _⟩ := x
  cases hx
  rfl

theorem arithmeticRule_leaf {token : Token} (h : n.form = .literal token) : arithmeticRule ctx n = .ok n := by
  simp [arithmeticRule, h, pure, Except.pure]

theorem assignmentRule_leaf {token : Token} (h : n.form = .literal token) : assignmentRule mode ctx n = .ok n := by
  simp [assignmentRule, h, pure, Except.pure]

theorem callRule_leaf {token : Token} (h : n.form = .literal token) : callRule ctx n = .ok n := by
  simp [callRule, h, pure, Except.pure]

end

end LetFn.Check
