import LetFn.Proofs.Grammar.Running
import LetFn.Proofs.Token.Spelling
import LetFn.Tree.Print

/-!
# Precedence

The parser reads operands with operators between them from left to right, in calls of its own that ask for powers of
their own. What comes of that can be said of the whole chain at once: it is split at an operator of the weakest power
in it, and so is what stands on either side.

* `Operand`, `Operation` — a literal with its signs, and an operator with the operand behind it;
* `x.Leads y` — of two operators, the chain is split at `x`, which stands before `y`;
* `split` — the chain at its weakest operator: the last of them, or the first if that is `=`;
* `splitTree` — the tree that splitting makes.

A right operand takes in exactly the operators that its own operator leads (`Operation.leads_iff_right`), which is why
the two agree.

Main facts: `split_eq_some_iff`, `splitTree_append`, `extensions_eq_splitTree`, `expression_splits`.
-/

namespace LetFn

/-- The least power of what the right operand of an operator takes in. -/
def Power.right : Power → Power
  | .assignment => .assignment
  | p => p.next

namespace Grammar

/-! ## chains -/

/-- The power of an operator that stands between two operands. -/
def operatorPower? : Kind → Option Power
  | .assignment => some .assignment
  | .and | .or => some .conditionalTerm
  | .less | .lessEquals | .greater | .greaterEquals | .equals | .notEquals => some .conditionalFactor
  | .plus | .dash => some .additive
  | .star | .slash => some .multiplicative
  | _ => none

/-- A literal behind any number of `-` and `!`. -/
structure Operand where
  signs : List Token
  literal : Token
  signs_kind : ∀ t ∈ signs, t.kind = .dash ∨ t.kind = .not
  literal_kind : literal.kind ∈ primaryKinds

/-- An infix operator and the operand behind it. -/
structure Operation where
  operator : Token
  power : Power
  operand : Operand
  power_eq : operatorPower? operator.kind = some power

def Operand.tokens (x : Operand) : List Token := x.signs ++ [x.literal]

def Operation.tokens (x : Operation) : List Token := x.operator :: x.operand.tokens

/-- The tokens of operations one behind the other. -/
def tokensOf (xs : List Operation) : List Token := xs.flatMap Operation.tokens

/-- Of two operators with `x` standing before `y`, the chain is split at `x`. -/
def Operation.Leads (x y : Operation) : Prop := x.power < y.power ∨ x.power = y.power ∧ x.power = .assignment

instance (x y : Operation) : Decidable (x.Leads y) := inferInstanceAs (Decidable (_ ∨ _))

/-- A chain at the operator that leads it, with what stands before and behind that. -/
def split : List Operation → Option (List Operation × Operation × List Operation)
  | [] => none
  | x :: xs =>
    match split xs with
    | none => some ([], x, [])
    | some (before, y, after) => if x.Leads y then some ([], x, xs) else some (x :: before, y, after)

/-! ## powers -/

section

variable {x y z : Operation}

theorem operatorPower?_eq_some {k : Kind} {p : Power} (h : operatorPower? k = some p) :
    standard.infixRule? k = some (p, if p = .assignment then .assignment else .binary) ∧
      2 ≤ p.level ∧ p.level ≤ 6 := by
  cases k <;> simp only [operatorPower?, Option.some.injEq, reduceCtorEq] at h <;> subst h <;> decide

theorem level_inj {p q : Power} : p.level = q.level ↔ p = q := by
  refine ⟨fun h => ?_, congrArg _⟩
  cases p <;> cases q <;> first | rfl | exact absurd h (by decide)

theorem Operation.leads_iff_level :
    x.Leads y ↔ x.power.level < y.power.level ∨ x.power.level = y.power.level ∧ x.power.level = 2 := by
  rw [Leads, ← level_inj, ← level_inj]
  rfl

theorem Operation.leads_iff :
    x.Leads y ↔ ¬ y.power < x.power ∧ (x.power ≠ .assignment → y.power ≠ x.power) := by
  have hlt : y.power < x.power ↔ y.power.level < x.power.level := Iff.rfl
  have hassign : x.power = .assignment ↔ x.power.level = 2 := level_inj.symm
  rw [leads_iff_level, hlt, ne_eq, ne_eq, hassign, ← level_inj]
  omega

theorem Operation.not_leads_iff :
    ¬ y.Leads x ↔ ¬ y.power < x.power ∧ (x.power = .assignment → y.power ≠ x.power) := by
  have hlt : y.power < x.power ↔ y.power.level < x.power.level := Iff.rfl
  have hassign : x.power = .assignment ↔ x.power.level = 2 := level_inj.symm
  rw [leads_iff_level, hlt, ne_eq, hassign, ← level_inj]
  omega

/-- **The right operand takes in what its operator leads.** -/
theorem Operation.leads_iff_right : x.Leads y ↔ ¬ y.power < x.power.right := by
  obtain ⟨-, hx⟩ := operatorPower?_eq_some x.power_eq
  have hright : x.power.right.level = if x.power.level = 2 then 2 else x.power.level + 1 := by
    revert hx
    cases x.power <;> decide
  have hlt : y.power < x.power.right ↔ y.power.level < x.power.right.level := Iff.rfl
  rw [leads_iff_level, hlt, hright]
  split <;> omega

theorem Operation.Leads.trans (h : x.Leads y) (h' : y.Leads z) : x.Leads z := by
  rw [leads_iff_level] at *
  omega

theorem Operation.not_leads_trans (h : ¬ x.Leads y) (h' : ¬ y.Leads z) : ¬ x.Leads z := by
  rw [leads_iff_level] at *
  omega

theorem Operation.Leads.trans_not (h : x.Leads y) (h' : ¬ z.Leads y) : x.Leads z := by
  rw [leads_iff_level] at *
  omega

end

/-! ## splitting -/

section

variable {x y w : Operation} {xs ys ws before after : List Operation}

/-- The chain is split at an operator of the weakest power, at the last of these, or at the first if it is `=`. -/
structure SplitsAt (before : List Operation) (x : Operation) (after xs : List Operation) : Prop where
  eq : xs = before ++ x :: after
  weakest : ∀ y ∈ xs, ¬ y.power < x.power
  first : x.power = .assignment → ∀ y ∈ before, y.power ≠ x.power
  last : x.power ≠ .assignment → ∀ y ∈ after, y.power ≠ x.power

theorem split_eq_none_iff : split xs = none ↔ xs = [] := by
  cases xs with
  | nil => simp [split]
  | cons x xs =>
    simp only [split]
    split
    · simp
    · split <;> simp

theorem split_spec (h : split xs = some (before, x, after)) :
    xs = before ++ x :: after ∧ (∀ y ∈ before, ¬ y.Leads x) ∧ ∀ y ∈ after, x.Leads y := by
  induction xs generalizing before x after with
  | nil => simp [split] at h
  | cons z zs ih =>
    simp only [split] at h
    split at h
    · next hnone =>
      obtain rfl := split_eq_none_iff.1 hnone
      obtain ⟨rfl, rfl, rfl⟩ := h
      simp
    · next before y after hsome =>
      obtain ⟨rfl, hbefore, hafter⟩ := ih hsome
      split at h
      · next hleads =>
        obtain ⟨rfl, rfl, rfl⟩ := h
        refine ⟨rfl, by simp, fun u hu => ?_⟩
        rcases List.mem_append.1 hu with hu | hu
        · exact hleads.trans_not (hbefore u hu)
        · rcases List.mem_cons.1 hu with rfl | hu
          · exact hleads
          · exact hleads.trans (hafter u hu)
      · next hnot =>
        obtain ⟨rfl, rfl, rfl⟩ := h
        exact ⟨rfl, List.forall_mem_cons.2 ⟨hnot, hbefore⟩, hafter⟩

/-- An operator that leads all behind it. -/
theorem split_cons (h : ∀ y ∈ xs, x.Leads y) : split (x :: xs) = some ([], x, xs) := by
  simp only [split]
  split
  · next hnone => rw [split_eq_none_iff.1 hnone]
  · next before y after hsome =>
    obtain ⟨rfl, -, -⟩ := split_spec hsome
    exact if_pos (h y (by simp))

/-- Operators that do not lead the one at which the rest is split go to its left. -/
theorem split_append (h : split ys = some (before, x, after)) (hxs : ∀ y ∈ xs, ¬ y.Leads x) :
    split (xs ++ ys) = some (xs ++ before, x, after) := by
  induction xs with
  | nil => exact h
  | cons z zs ih =>
    obtain ⟨hz, hzs⟩ := List.forall_mem_cons.1 hxs
    simp only [List.cons_append, split, ih hzs]
    exact if_neg hz

/-- **Where a chain is split.** -/
theorem split_eq_some_iff : split xs = some (before, x, after) ↔ SplitsAt before x after xs := by
  constructor
  · intro h
    obtain ⟨heq, hbefore, hafter⟩ := split_spec h
    simp only [Operation.not_leads_iff] at hbefore
    simp only [Operation.leads_iff] at hafter
    refine ⟨heq, fun y hy => ?_, fun hx y hy => (hbefore y hy).2 hx, fun hx y hy => (hafter y hy).2 hx⟩
    rw [heq] at hy
    rcases List.mem_append.1 hy with hy | hy
    · exact (hbefore y hy).1
    · rcases List.mem_cons.1 hy with rfl | hy
      · exact Nat.lt_irrefl _
      · exact (hafter y hy).1
  · rintro ⟨rfl, hweakest, hfirst, hlast⟩
    have hafter : ∀ y ∈ after, x.Leads y := fun y hy =>
      Operation.leads_iff.2 ⟨hweakest y (by simp [hy]), fun hx => hlast hx y hy⟩
    have hbefore : ∀ y ∈ before, ¬ y.Leads x := fun y hy =>
      Operation.not_leads_iff.2 ⟨hweakest y (by simp [hy]), fun hx => hfirst hx y hy⟩
    simpa using split_append (split_cons hafter) hbefore

end

/-! ## trees -/

/-- An operator before its operand. -/
def signed (operator : Token) (operand : Node) : Except Span.Fault Node := do
  let span ← operator.span.extend operand.span
  return { span, form := .prefixOp operator operand }

/-- An operator between its operands. -/
def joined (operator : Token) (left right : Node) : Except Span.Fault Node := do
  let span ← left.span.extend right.span
  return { span, form := .infixOp operator left right }

/-- Each sign applies to what stands behind it. -/
def Operand.tree (x : Operand) : Except Span.Fault Node :=
  x.signs.foldr (fun sign operand => operand >>= signed sign) (pure (.leaf x.literal))

/-- The tree of a chain that begins with `first`: split, and the same on both sides. -/
def splitTree (first : Except Span.Fault Node) (xs : List Operation) : Except Span.Fault Node :=
  match _h : split xs with
  | none => first
  | some (before, x, after) => do
    let left ← splitTree first before
    let right ← splitTree x.operand.tree after
    joined x.operator left right
termination_by xs.length
decreasing_by
  all_goals
    obtain ⟨rfl, -, -⟩ := split_spec _h
    simp only [List.length_append, List.length_cons]
    omega

section

variable {x w : Operation} {xs ws before after : List Operation} {first : Except Span.Fault Node}

theorem splitTree_nil : splitTree first [] = first := by
  rw [splitTree]
  rfl

theorem splitTree_of_split (h : split xs = some (before, x, after)) :
    splitTree first xs = (do
      let left ← splitTree first before
      let right ← splitTree x.operand.tree after
      joined x.operator left right) := by
  rw [splitTree]
  split
  · next hnone => exact absurd (hnone.symm.trans h) nofun
  · next hsome =>
    obtain ⟨rfl, rfl, rfl⟩ := hsome.symm.trans h
    rfl

theorem splitTree_error {fault : Span.Fault} : splitTree (.error fault) xs = .error fault := by
  induction hlength : xs.length using Nat.strongRecOn generalizing xs with
  | ind length ih =>
    cases h : split xs with
    | none => rw [split_eq_none_iff.1 h, splitTree_nil]
    | some r =>
      obtain ⟨before, x, after⟩ := r
      obtain ⟨rfl, -, -⟩ := split_spec h
      rw [splitTree_of_split h, ih before.length (by simp at hlength; omega) rfl]
      rfl

/-- **A chain can be folded from the left** up to an operator that no operator before it leads. -/
theorem splitTree_append (h : ∀ y ∈ xs, ¬ y.Leads w) :
    splitTree first (xs ++ w :: ws) = splitTree (splitTree first xs) (w :: ws) := by
  induction hlength : ws.length using Nat.strongRecOn generalizing ws with
  | ind length ih =>
    cases hsplit : split (w :: ws) with
    | none => exact absurd (split_eq_none_iff.1 hsplit) nofun
    | some r =>
      obtain ⟨before, x, after⟩ := r
      obtain ⟨heq, hbefore, -⟩ := split_spec hsplit
      have hw : ¬ w.Leads x ∨ w = x := by
        cases before with
        | nil => exact .inr (List.cons.inj heq).1
        | cons v before => exact .inl ((List.cons.inj heq).1 ▸ hbefore v List.mem_cons_self)
      have hxs : ∀ y ∈ xs, ¬ y.Leads x := fun y hy =>
        hw.elim (Operation.not_leads_trans (h y hy)) fun hw => hw ▸ h y hy
      have hleft : splitTree first (xs ++ before) = splitTree (splitTree first xs) before := by
        cases before with
        | nil => rw [List.append_nil, splitTree_nil]
        | cons v before =>
          obtain ⟨rfl, rfl⟩ := List.cons.inj heq
          exact ih before.length (by simp at hlength; omega) rfl
      rw [splitTree_of_split (split_append hsplit hxs), splitTree_of_split hsplit, hleft]

/-- One operator with what it leads, folded before the rest. -/
theorem splitTree_cons_append {n : Node} (hxs : ∀ y ∈ xs, x.Leads y) (hws : ∀ w ∈ ws.head?, ¬ x.Leads w) :
    splitTree (.ok n) (x :: (xs ++ ws)) = splitTree (splitTree x.operand.tree xs >>= joined x.operator n) ws := by
  have hfirst : splitTree (.ok n) (x :: xs) = splitTree x.operand.tree xs >>= joined x.operator n := by
    rw [splitTree_of_split (split_cons hxs), splitTree_nil]
    rfl
  rw [← hfirst]
  cases ws with
  | nil => rw [List.append_nil, splitTree_nil]
  | cons w ws =>
    have hw : ¬ x.Leads w := hws w rfl
    have hnone : ∀ y ∈ x :: xs, ¬ y.Leads w :=
      List.forall_mem_cons.2 ⟨hw, fun y hy hlead => hw ((hxs y hy).trans hlead)⟩
    have hfold : splitTree (.ok n) ((x :: xs) ++ w :: ws) = splitTree (splitTree (.ok n) (x :: xs)) (w :: ws) :=
      splitTree_append hnone
    exact hfold

end

/-! ## runs -/

/-- The operations that are taken in where the given power is asked for. -/
def atLeast (least : Power) (x : Operation) : Bool := ¬ x.power < least

/-- A tree with the cursor behind it. -/
def outcome (tree : Except Span.Fault Node) (c : Cursor) : Except Failure (Node × Cursor) := do
  let n ← tree
  return (n, c)

section

variable {e : Token} {fuel : Nat} {least : Power} {follow ts : List Token} {n : Node} {x first : Operand}
  {xs : List Operation}

theorem outcome_ok {c : Cursor} : outcome (.ok n) c = .ok (n, c) := rfl

theorem outcome_signed {operator : Token} {operand : Node} {c : Cursor} :
    outcome (signed operator operand) c = (do
      let span ← operator.span.extend operand.span
      return ({ span, form := .prefixOp operator operand }, c)) := by
  unfold outcome signed
  cases operator.span.extend operand.span <;> rfl

theorem outcome_joined {operator : Token} {left right : Node} {c : Cursor} :
    outcome (joined operator left right) c = (do
      let span ← left.span.extend right.span
      return ({ span, form := .infixOp operator left right }, c)) := by
  unfold outcome joined
  cases left.span.extend right.span <;> rfl

theorem stops_tokensOf (hfollow : Stops .lowest follow) (hxs : ∀ x ∈ xs.head?, atLeast least x = false) :
    Stops least (tokensOf xs ++ follow) := by
  intro power rule hrule
  cases xs with
  | nil => exact absurd (hfollow power rule hrule) (Nat.not_lt_zero _)
  | cons x xs =>
    obtain ⟨hoperator, -⟩ := operatorPower?_eq_some x.power_eq
    obtain ⟨rfl, -⟩ := Prod.mk.inj (Option.some.inj (hoperator.symm.trans hrule))
    simpa [atLeast] using hxs x rfl

/-- A sign applies to what stands behind it, and to no more where no call follows. -/
theorem opening_sign {sign : Token} {tree : Except Span.Fault Node} {us : List Token} (he : e.kind = .eof)
    (hsign : sign.kind = .dash ∨ sign.kind = .not) (hus : Stops .highest us) (hf : 1 ≤ fuel)
    (h : standard.opening fuel ⟨ts, e⟩ = outcome tree ⟨us, e⟩) :
    standard.opening (fuel + 3) ⟨sign :: ts, e⟩ = outcome (tree >>= signed sign) ⟨us, e⟩ := by
  have hkind : (⟨sign :: ts, e⟩ : Cursor).kind = sign.kind := rfl
  have hnext : (⟨sign :: ts, e⟩ : Cursor).next = ⟨ts, e⟩ := rfl
  have hcurrent : (⟨sign :: ts, e⟩ : Cursor).current = sign := rfl
  have hrule := prefixRule?_eq_some_iff.2 (.inr (.inl ⟨hsign, rfl⟩))
  unfold Grammar.opening
  rw [hkind, hrule]
  simp only [Grammar.apply, Grammar.expression]
  rw [hnext, hcurrent, h]
  cases tree with
  | error => rfl
  | ok operand =>
    have hstop := extensions_stop (n := operand) he hf hus
    simp only [outcome, bind, Except.bind, liftM, monadLift, MonadLift.monadLift, Except.mapError, pure, Except.pure,
      hstop]
    exact outcome_signed.symm

/-- A literal is read with its signs. -/
theorem opening_eq_tree (he : e.kind = .eof) (hts : Stops .highest ts)
    (hf : 16 * (x.tokens ++ ts).length + 2 ≤ fuel) :
    standard.opening fuel ⟨x.tokens ++ ts, e⟩ = outcome x.tree ⟨ts, e⟩ := by
  obtain ⟨signs, literal, hsigns, hliteral⟩ := x
  simp only [Operand.tokens, Operand.tree] at hf ⊢
  induction signs generalizing fuel with
  | nil =>
    obtain ⟨f, rfl⟩ : ∃ f, fuel = f + 1 := ⟨fuel - 1, by omega⟩
    exact opening_eq_ok he (run_primary hliteral (by omega))
  | cons sign signs ih =>
    obtain ⟨hsign, hsigns⟩ := List.forall_mem_cons.1 hsigns
    simp only [List.cons_append, List.length_cons] at hf ⊢
    obtain ⟨f, rfl⟩ : ∃ f, fuel = f + 3 := ⟨fuel - 3, by omega⟩
    have hlength : 16 * (signs ++ [literal] ++ ts).length + 2 ≤ f := by omega
    exact opening_sign he hsign hts (by omega) (ih hsigns hlength)

/-- An operator makes a node of the expression before it and the right operand that it asks for. -/
theorem extend_operation (x : Operation) : standard.extend (fuel + 1)
    (if x.power = .assignment then .assignment else .binary) x.power n ⟨x.operator :: ts, e⟩ = (do
      let (right, c) ← standard.expression fuel x.power.right ⟨ts, e⟩
      outcome (joined x.operator n right) c) := by
  have hnext : (⟨x.operator :: ts, e⟩ : Cursor).next = ⟨ts, e⟩ := rfl
  have hcurrent : (⟨x.operator :: ts, e⟩ : Cursor).current = x.operator := rfl
  split
  · next hassign =>
    simp only [Grammar.extend, hnext, hcurrent, outcome_joined, hassign, Power.right]
  · next hbinary =>
    have hright : x.power.right = x.power.next := by
      revert hbinary
      cases x.power <;> simp [Power.right]
    simp only [Grammar.extend, hnext, hcurrent, outcome_joined, hright]

theorem tag_of_joined {operator : Token} {left right m : Node} (h : joined operator left right = .ok m) :
    m.tag = .infixOp := by
  simp only [joined, bind_eq_ok, pure, Except.pure, Except.ok.injEq] at h
  obtain ⟨span, -, rfl⟩ := h
  rfl

/-- An operand with what extends it. -/
theorem expression_of_extensions {c : Cursor} (he : e.kind = .eof) (hfollow : Stops .lowest follow)
    (hf : 16 * (first.tokens ++ (tokensOf xs ++ follow)).length + 2 ≤ fuel)
    (h : ∀ n, standard.extensions fuel least n ⟨tokensOf xs ++ follow, e⟩ =
      outcome (splitTree (.ok n) (xs.takeWhile (atLeast least))) c) :
    standard.expression (fuel + 1) least ⟨first.tokens ++ (tokensOf xs ++ follow), e⟩ =
      outcome (splitTree first.tree (xs.takeWhile (atLeast least))) c := by
  have hstops : Stops .highest (tokensOf xs ++ follow) := stops_tokensOf hfollow fun x _ => by
    obtain ⟨-, -, hlevel⟩ := operatorPower?_eq_some x.power_eq
    have hlt : x.power < .highest := Nat.lt_succ_of_le hlevel
    simp [atLeast, hlt]
  unfold Grammar.expression
  rw [opening_eq_tree he hstops hf]
  cases first.tree with
  | error => rw [splitTree_error]; rfl
  | ok n => exact h n

/-- The operations that a right operand takes in, and those that are left to extend the node that is made of it. -/
theorem takeWhile_right (xs : List Operation) {x : Operation} (hx : atLeast least x) :
    let taken := xs.takeWhile (atLeast x.power.right)
    let rest := xs.dropWhile (atLeast x.power.right)
    (x :: xs).takeWhile (atLeast least) = x :: (taken ++ rest.takeWhile (atLeast least)) ∧
      (x :: xs).dropWhile (atLeast least) = rest.dropWhile (atLeast least) ∧
      (∀ y ∈ taken, x.Leads y) ∧ ∀ w ∈ (rest.takeWhile (atLeast least)).head?, ¬ x.Leads w := by
  intro taken rest
  have htaken : ∀ y ∈ taken, x.Leads y := fun y hy => by
    have hy := List.mem_takeWhile_imp hy
    rw [Operation.leads_iff_right]
    simpa [atLeast] using hy
  have hleast : ∀ y ∈ taken, atLeast least y := fun y hy => by
    have hy := (Operation.leads_iff.1 (htaken y hy)).1
    simp only [atLeast, decide_eq_true_eq] at hx ⊢
    exact fun hlt => hy (Nat.lt_of_lt_of_le hlt (Nat.le_of_not_lt hx))
  have hxs : taken ++ rest = xs := List.takeWhile_append_dropWhile
  refine ⟨?_, ?_, htaken, fun w hw => ?_⟩
  · rw [List.takeWhile_cons_of_pos hx, ← hxs, List.takeWhile_append_of_pos hleast]
  · rw [List.dropWhile_cons_of_pos hx, ← hxs, List.dropWhile_append_of_pos hleast]
  · have hhead := List.head?_dropWhile_not (atLeast x.power.right) xs
    rw [List.head?_takeWhile, Option.mem_def, Option.filter_eq_some_iff] at hw
    rw [show (xs.dropWhile (atLeast x.power.right)).head? = some w from hw.1] at hhead
    rw [Operation.leads_iff_right]
    simpa [atLeast] using hhead

/-- One operator is taken in, and the node that is made of it goes on. -/
theorem extensions_cons {x : Operation} {r : Except Span.Fault Node} {us : List Token} (hx : atLeast least x)
    (hright : standard.expression fuel x.power.right ⟨ts, e⟩ = outcome r ⟨us, e⟩) :
    standard.extensions (fuel + 2) least n ⟨x.operator :: ts, e⟩ = (do
      let left ← (r >>= joined x.operator n : Except Span.Fault Node)
      standard.extensions (fuel + 1) least left ⟨us, e⟩) := by
  have hkind : (⟨x.operator :: ts, e⟩ : Cursor).kind = x.operator.kind := rfl
  have hstrong : ¬ x.power < least := by simpa [atLeast] using hx
  obtain ⟨hoperator, -⟩ := operatorPower?_eq_some x.power_eq
  rw [Grammar.extensions, hkind, hoperator]
  simp only [hstrong, if_false]
  rw [extend_operation, hright]
  cases r with
  | error => rfl
  | ok right =>
    have hjoined : (Except.ok right >>= joined x.operator n) = joined x.operator n right := rfl
    rw [hjoined, outcome_ok]
    simp only [bind, Except.bind]
    cases h : joined x.operator n right with
    | error => rfl
    | ok left =>
      have htag : left.tag ≠ .statement := by
        rw [tag_of_joined h]
        decide
      exact if_neg htag

/-- **Extending an expression makes the tree that splitting makes** of the operations that are taken in, with the
expression at the beginning. -/
theorem extensions_eq_splitTree (he : e.kind = .eof) (hfollow : Stops .lowest follow)
    (hf : 16 * (tokensOf xs ++ follow).length + 1 ≤ fuel) :
    standard.extensions fuel least n ⟨tokensOf xs ++ follow, e⟩ =
      outcome (splitTree (.ok n) (xs.takeWhile (atLeast least)))
        ⟨tokensOf (xs.dropWhile (atLeast least)) ++ follow, e⟩ := by
  -- a right operand takes in some of the operations, and the rest of them extends the node that is made of it
  induction hlength : xs.length using Nat.strongRecOn generalizing xs least n fuel with
  | ind length ih =>
    cases xs with
    | nil =>
      rw [List.takeWhile_nil, List.dropWhile_nil, splitTree_nil]
      have hstops : Stops least (tokensOf [] ++ follow) := stops_tokensOf hfollow (by simp)
      exact extensions_stop he (by omega) hstops
    | cons x xs =>
      by_cases hx : atLeast least x
      · have htokens : tokensOf (x :: xs) ++ follow = x.operator :: (x.operand.tokens ++ (tokensOf xs ++ follow)) := by
          simp [tokensOf, Operation.tokens]
        obtain ⟨htake, hdrop, htaken, hrest⟩ := takeWhile_right xs hx
        rw [htokens, List.length_cons] at hf
        rw [htokens, htake, hdrop, splitTree_cons_append htaken hrest]
        have hsuffix := List.dropWhile_suffix (l := xs) (atLeast x.power.right)
        have hshorter : (tokensOf (xs.dropWhile (atLeast x.power.right)) ++ follow).length ≤
            (tokensOf xs ++ follow).length :=
          ((hsuffix.sublist.flatMap Operation.tokens).append_right follow).length_le
        obtain ⟨f, rfl⟩ : ∃ f, fuel = f + 3 := ⟨fuel - 3, by omega⟩
        have hlt : xs.length < length := by simp [← hlength]
        have hrestlt := Nat.lt_of_le_of_lt hsuffix.length_le hlt
        have hf' : 16 * (x.operand.tokens ++ (tokensOf xs ++ follow)).length + 2 ≤ f := by omega
        have hf'' : 16 * (tokensOf xs ++ follow).length + 1 ≤ f := by
          rw [List.length_append] at hf'
          omega
        have hright : standard.expression (f + 1) x.power.right ⟨x.operand.tokens ++ (tokensOf xs ++ follow), e⟩ =
            outcome (splitTree x.operand.tree (xs.takeWhile (atLeast x.power.right)))
              ⟨tokensOf (xs.dropWhile (atLeast x.power.right)) ++ follow, e⟩ :=
          expression_of_extensions he hfollow hf' fun n => ih xs.length hlt hf'' rfl
        rw [extensions_cons hx hright]
        cases splitTree x.operand.tree (xs.takeWhile (atLeast x.power.right)) >>= joined x.operator n with
        | error => rw [splitTree_error]; rfl
        | ok left => exact ih _ hrestlt (by omega) rfl
      · rw [List.takeWhile_cons_of_neg hx, List.dropWhile_cons_of_neg hx, splitTree_nil]
        exact extensions_stop he (by omega) (stops_tokensOf hfollow (by simpa using hx))

theorem expression_eq_splitTree (he : e.kind = .eof) (hfollow : Stops .lowest follow)
    (hf : 16 * (first.tokens ++ (tokensOf xs ++ follow)).length + 3 ≤ fuel) :
    standard.expression fuel least ⟨first.tokens ++ (tokensOf xs ++ follow), e⟩ =
      outcome (splitTree first.tree (xs.takeWhile (atLeast least)))
        ⟨tokensOf (xs.dropWhile (atLeast least)) ++ follow, e⟩ := by
  obtain ⟨f, rfl⟩ : ∃ f, fuel = f + 1 := ⟨fuel - 1, by omega⟩
  have hf' : 16 * (tokensOf xs ++ follow).length + 1 ≤ f := by
    rw [List.length_append] at hf
    omega
  exact expression_of_extensions he hfollow (by omega) fun n => extensions_eq_splitTree he hfollow hf'

/-! ## tokens in order -/

theorem signed_ok {operator : Token} {operand : Node} (h : operator.span.stop ≤ operand.span.start) :
    signed operator operand =
      .ok { span := ⟨operator.span.start, operand.span.stop⟩, form := .prefixOp operator operand } := by
  rw [signed, Span.extend, if_pos h]
  rfl

theorem joined_ok {operator : Token} {left right : Node} (h : left.span.stop ≤ right.span.start) :
    joined operator left right =
      .ok { span := ⟨left.span.start, right.span.stop⟩, form := .infixOp operator left right } := by
  rw [joined, Span.extend, if_pos h]
  rfl

theorem Operand.tree_ok {offset : Nat} (h : InOrder offset (x.tokens ++ ts)) :
    ∃ n, x.tree = .ok n ∧ offset ≤ n.span.start ∧ InOrder n.span.stop ts := by
  obtain ⟨signs, literal, hsigns, hliteral⟩ := x
  simp only [tokens, tree] at h ⊢
  clear hsigns
  induction signs generalizing offset with
  | nil =>
    obtain ⟨hstart, -, hts⟩ := h
    exact ⟨.leaf literal, rfl, hstart, hts⟩
  | cons sign signs ih =>
    obtain ⟨hstart, hproper, hrest⟩ := h
    obtain ⟨operand, htree, hbehind, hts⟩ := ih hrest
    refine ⟨{ span := ⟨sign.span.start, operand.span.stop⟩, form := .prefixOp sign operand }, ?_, hstart, hts⟩
    rw [List.foldr_cons, htree]
    exact signed_ok hbehind

/-- Tokens that stand in order make a tree. -/
theorem splitTree_ok (h : InOrder n.span.stop (tokensOf xs ++ ts)) :
    ∃ m, splitTree (.ok n) xs = .ok m ∧ m.span.start = n.span.start ∧ InOrder m.span.stop ts := by
  induction hlength : xs.length using Nat.strongRecOn generalizing xs n ts with
  | ind length ih =>
    cases hsplit : split xs with
    | none =>
      obtain rfl := split_eq_none_iff.1 hsplit
      exact ⟨n, splitTree_nil, rfl, h⟩
    | some r =>
      obtain ⟨before, x, after⟩ := r
      obtain ⟨rfl, -, -⟩ := split_spec hsplit
      have hbefore : before.length < length := by simp at hlength; omega
      have hafter : after.length < length := by simp at hlength; omega
      have htokens : tokensOf (before ++ x :: after) ++ ts =
          tokensOf before ++ (x.operator :: (x.operand.tokens ++ (tokensOf after ++ ts))) := by
        simp [tokensOf, Operation.tokens]
      rw [htokens] at h
      obtain ⟨left, hleft, hstart, hoperator, hproper, hbehind⟩ := ih _ hbefore h rfl
      obtain ⟨operand, hoperand, hoperand_start, hrest⟩ := Operand.tree_ok hbehind
      obtain ⟨right, hright, hright_start, hts⟩ := ih _ hafter hrest rfl
      refine ⟨{ span := ⟨left.span.start, right.span.stop⟩, form := .infixOp x.operator left right }, ?_, hstart, hts⟩
      rw [splitTree_of_split hsplit, hleft, hoperand]
      simp only [bind, Except.bind, hright]
      exact joined_ok (by omega)

end

/-! ## expressions -/

/-- **An expression of operands and infix operators is read as the tree that splitting makes.** All of it is read at the
lowest power. Where a power is asked for, that is so of the operations up to the first of less power, and the cursor
stays before that one. Nothing but tokens out of their order keeps a chain from having a tree. -/
theorem expression_splits (first : Operand) (rest : List Operation) {follow : List Token}
    (hfollow : front follow = .eof) (length : Nat) {fuel : Nat}
    (hf : 16 * (first.tokens ++ (tokensOf rest ++ follow)).length + 3 ≤ fuel) :
    (standard.expression fuel .lowest ⟨first.tokens ++ (tokensOf rest ++ follow), .eof length⟩ =
      outcome (splitTree first.tree rest) ⟨follow, .eof length⟩) ∧
    (∀ least, standard.expression fuel least ⟨first.tokens ++ (tokensOf rest ++ follow), .eof length⟩ =
      outcome (splitTree first.tree (rest.takeWhile (atLeast least)))
        ⟨tokensOf (rest.dropWhile (atLeast least)) ++ follow, .eof length⟩) ∧
    (∀ offset, InOrder offset (first.tokens ++ tokensOf rest) →
      ∀ least, ∃ n, splitTree first.tree (rest.takeWhile (atLeast least)) = .ok n) ∧
    ∀ xs before x after, split xs = some (before, x, after) ↔ SplitsAt before x after xs := by
  have hstops : Stops .lowest follow := fun power rule hrule => by
    rw [hfollow] at hrule
    exact absurd hrule nofun
  have hrun : ∀ least, standard.expression fuel least ⟨first.tokens ++ (tokensOf rest ++ follow), .eof length⟩ =
      outcome (splitTree first.tree (rest.takeWhile (atLeast least)))
        ⟨tokensOf (rest.dropWhile (atLeast least)) ++ follow, .eof length⟩ :=
    fun least => expression_eq_splitTree rfl hstops hf
  have hlowest : ∀ x ∈ rest, atLeast .lowest x := fun x _ => decide_eq_true (Nat.not_lt_zero _)
  refine ⟨?_, hrun, fun offset ho least => ?_, fun xs before x after => split_eq_some_iff⟩
  · have hall := hrun .lowest
    rwa [List.takeWhile_eq_self_iff.2 hlowest, List.dropWhile_eq_nil_iff.2 hlowest] at hall
  · have htokens : tokensOf rest =
        tokensOf (rest.takeWhile (atLeast least)) ++ tokensOf (rest.dropWhile (atLeast least)) := by
      rw [tokensOf, tokensOf, tokensOf, ← List.flatMap_append, List.takeWhile_append_dropWhile]
    rw [htokens] at ho
    obtain ⟨n, hfirst, -, hbehind⟩ := Operand.tree_ok ho
    obtain ⟨m, htree, -⟩ := splitTree_ok hbehind
    rw [hfirst]
    exact ⟨m, htree⟩

/-- In `a = -b - c * d == e = f` the first `=` comes last, and `==` after the operators before it. -/
theorem expression_splits_mixed :
    let operand (name : String) (i : Nat) : Operand :=
      ⟨[], ⟨.identifier, some (.str name), ⟨i, i + 1⟩⟩, nofun, List.mem_cons_self⟩
    let minus (x : Operand) (i : Nat) : Operand :=
      { x with signs := ⟨.dash, none, ⟨i, i + 1⟩⟩ :: x.signs, signs_kind := by simpa using x.signs_kind }
    let first := operand "a" 0
    let rest : List Operation := [
      ⟨⟨.assignment, none, ⟨1, 2⟩⟩, .assignment, minus (operand "b" 3) 2, rfl⟩,
      ⟨⟨.dash, none, ⟨4, 5⟩⟩, .additive, operand "c" 5, rfl⟩,
      ⟨⟨.star, none, ⟨6, 7⟩⟩, .multiplicative, operand "d" 7, rfl⟩,
      ⟨⟨.equals, none, ⟨8, 9⟩⟩, .conditionalFactor, operand "e" 9, rfl⟩,
      ⟨⟨.assignment, none, ⟨10, 11⟩⟩, .assignment, operand "f" 11, rfl⟩]
    let follow : List Token := [.eof 12]
    let c : Cursor := ⟨first.tokens ++ (tokensOf rest ++ follow), .eof 12⟩
    front follow = .eof ∧ 16 * c.rest.length + 3 ≤ c.fuel ∧
      standard.expression c.fuel .lowest c = outcome (splitTree first.tree rest) ⟨follow, .eof 12⟩ ∧
      Yields (fun n => n.print = "(a = (((-b - (c * d)) == e) = f))") (splitTree first.tree rest) := by
  intro operand minus first rest follow c
  have hf : 16 * c.rest.length + 3 ≤ c.fuel := by decide
  obtain ⟨hrun, -⟩ := expression_splits first rest (show front follow = .eof from rfl) 12 hf
  have hprint : Yields (fun r => r.1.print = "(a = (((-b - (c * d)) == e) = f))")
      (standard.expression c.fuel .lowest c) := by
    decide +kernel
  refine ⟨rfl, hf, hrun, ?_⟩
  rw [hrun] at hprint
  revert hprint
  cases splitTree first.tree rest with
  | error => exact id
  | ok n => exact id

end Grammar

end LetFn
