import LetFn.Proofs.Grammar.Separated

/-!
# What stands where in a parsed tree

The passes and the printer look at a node and take for granted what they find in its places: a body is a block, a name
is a leaf with an identifier, an operator is one that they know, and a whole program is never a part of another one.
The tables of the grammar, the loop that extends an expression and the last step of a block see to it together, for any
tokens that the parser accepts.

* `Grammar.infixKinds` — the operators between two operands;
* `Node.InPlace n` — what may be taken for granted at the node `n`.

Main fact: `parse_inPlace`.
-/

namespace LetFn

namespace Grammar

/-- The operators between two operands. -/
def infixKinds : List Kind :=
  [.assignment, .and, .or, .less, .lessEquals, .greater, .greaterEquals, .equals, .notEquals, .plus, .dash, .star, .slash]

theorem mem_infixKinds_iff {k : Kind} :
    k ∈ infixKinds ↔ k = .assignment ∨ ∃ power, standard.infixRule? k = some (power, .binary) := by
  cases k <;> simp [infixKinds, standard]

end Grammar

/-- What may be taken for granted at a node below the root. -/
structure Node.InPlace (n : Node) : Prop where
  inner : n.tag ≠ .root
  /-- The tokens of leaves and signs, the names, the bodies and the values of blocks. -/
  shaped : n.form.Shaped
  infixOp : ∀ op left right, n.form = .infixOp op left right → op.kind ∈ Grammar.infixKinds

theorem Node.InPlace.of_shaped {n : Node} (hinner : n.tag ≠ .root) (h : n.form.Shaped) : n.InPlace where
  inner := hinner
  shaped := h
  infixOp op left right hform := by
    rw [hform] at h
    exact Grammar.mem_infixKinds_iff.2 h

/-- **Everything below the root of a parsed tree is in its place.** -/
theorem parse_inPlace {tokens : List Token} {length : Nat} {root : Node} (h : parse tokens length = .ok root) :
    root.tag = .root ∧ ∀ c ∈ root.children, c.Everywhere Node.InPlace := by
  obtain ⟨xs, us, rfl, hreads⟩ := reads_of_parse h
  refine ⟨rfl, fun c hc x hx => ?_⟩
  have hmade := hreads.made (P := fun _ => True) (fun _ _ => trivial) c hc x hx
  exact .of_shaped hmade.inner (hreads.shaped c hc x hx)

/-- A definition whose body ends in a value, with a name that has no text, and a statement behind it. -/
theorem parse_inPlace_definition :
    let tokens : List Token := [(.fnWord, none), (.identifier, none), (.openParen, none),
      (.identifier, some (.str "a")), (.colon, none), (.identifier, some (.str "i32")), (.closeParen, none),
      (.arrow, none), (.identifier, some (.str "i32")), (.openCurly, none), (.dash, none),
      (.identifier, some (.str "a")), (.star, none), (.integer, some (.int 2)), (.closeCurly, none),
      (.string, none), (.semicolon, none)].mapIdx fun i (kind, value) => ⟨kind, value, ⟨i, i + 1⟩⟩
    ∃ root, parse tokens 17 = .ok root ∧
      root.tags = [.root, .functionDef, .literal, .literal, .block, .infixOp, .prefixOp, .literal, .literal, .literal,
        .statement, .literal] ∧
      root.tag = .root ∧ ∀ c ∈ root.children, c.Everywhere Node.InPlace := by
  intro tokens
  have hparse : Yields (fun root => root.tags = [.root, .functionDef, .literal, .literal, .block, .infixOp, .prefixOp,
      .literal, .literal, .literal, .statement, .literal]) (parse tokens 17) := by decide +kernel
  obtain ⟨root, h, htags⟩ := yields_iff.1 hparse
  exact ⟨root, h, htags, parse_inPlace h⟩

end LetFn
