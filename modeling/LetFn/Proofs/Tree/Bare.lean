import LetFn.Proofs.Tree.Pieces

/-!
# Trees without places

`Node.bare n` is the tree `n` without places and notes, with tokens as their lexemes are read. Trees that are the same
in this respect have the same shapes and the same text.

Main facts: `tags_bare`, `chars_bare`.
-/

namespace LetFn

def Token.bare (t : Token) : Token := ⟨t.piece.kind, t.piece.value, default⟩

theorem Token.bare_eq_iff {t u : Token} : t.bare = u.bare ↔ t.piece = u.piece := by
  constructor
  · intro h
    have := Token.mk.inj h
    exact Piece.mk.injEq .. ▸ ⟨this.1, this.2.1⟩
  · intro h
    rw [bare, bare, h]

namespace Node

mutual

/-- The tree without places and notes. -/
def bare : Node → Node
  | ⟨_, _, _, form⟩ => { span := default, form := bareForm form }

def bareForm : Form Node → Form Node
  | .literal token => .literal token.bare
  | .prefixOp operator operand => .prefixOp operator.bare (bare operand)
  | .infixOp operator left right => .infixOp operator.bare (bare left) (bare right)
  | .statement inner => .statement (bare inner)
  | .block items trailing => .block (bareList items) (bareOption trailing)
  | .functionDef name params result body =>
    .functionDef name.bare (bareParams params) (bare result) (bareOption body)
  | .functionCall callee arguments => .functionCall (bare callee) (bareList arguments)
  | .variableDef name type initializer => .variableDef (bare name) (bare type) (bareOption initializer)
  | .root items => .root (bareList items)

def bareList : List Node → List Node
  | [] => []
  | x :: xs => bare x :: bareList xs

def bareOption : Option Node → Option Node
  | none => none
  | some x => some (bare x)

def bareParams : List (Param Node) → List (Param Node)
  | [] => []
  | ⟨name, type⟩ :: ps => ⟨bare name, bare type⟩ :: bareParams ps

end

theorem bareList_eq (xs : List Node) : bareList xs = xs.map bare := by
  induction xs with
  | nil => rfl
  | cons x xs ih => rw [bareList, ih, List.map_cons]

theorem bareOption_eq (x : Option Node) : bareOption x = x.map bare := by cases x <;> rfl

theorem bareParams_eq (ps : List (Param Node)) : bareParams ps = ps.map fun p => ⟨p.name.bare, p.type.bare⟩ := by
  induction ps with
  | nil => rfl
  | cons p ps ih => rw [bareParams, ih, List.map_cons]

theorem bare_eq (n : Node) : n.bare = { span := default, form := bareForm n.form } := by
  obtain ⟨_, _, _, form⟩ := n
  rw [bare]

theorem bare_eq_iff {m n : Node} : m.bare = n.bare ↔ bareForm m.form = bareForm n.form := by
  rw [bare_eq, bare_eq, Node.mk.injEq]
  simp

theorem bare_withSpan (n : Node) (span : Span) : bare { n with span } = n.bare := bare_eq_iff.2 rfl

theorem tag_bareForm (form : Form Node) : (bareForm form).tag = form.tag := by cases form <;> rfl

@[simp] theorem tag_bare (n : Node) : n.bare.tag = n.tag := by rw [bare_eq, tag, tag, tag_bareForm]

theorem tag_eq_of_bare {m n : Node} (h : m.bare = n.bare) : m.tag = n.tag := by rw [← tag_bare, h, tag_bare]

theorem parts_bareForm (form : Form Node) : (bareForm form).parts = form.parts.map bare := by
  cases form with
  | block items trailing => cases trailing <;> simp [bareForm, Form.parts, bareList_eq, bareOption_eq]
  | functionDef name params result body =>
    have : (params.map fun p => (⟨p.name.bare, p.type.bare⟩ : Param Node)).flatMap (fun p => [p.name, p.type]) =
        (params.flatMap fun p => [p.name, p.type]).map bare := by
      induction params with
      | nil => rfl
      | cons p ps ih => simp_all
    cases body <;> simp [bareForm, Form.parts, bareParams_eq, bareOption_eq, this]
  | variableDef name type initializer => cases initializer <;> simp [bareForm, Form.parts, bareOption_eq]
  | _ => simp [bareForm, Form.parts, bareList_eq]

theorem children_bare (n : Node) : n.bare.children = n.children.map bare := by
  rw [bare_eq, children, children, parts_bareForm]

/-- The shapes of a tree do not depend on places. -/
theorem tags_bare (n : Node) : n.bare.tags = n.tags := by
  induction n using childInduction with
  | step n ih =>
    rw [tags, tags, preorder_eq, preorder_eq, children_bare, List.map_cons, List.map_cons, tag_bare, List.flatMap_map,
      List.map_flatMap, List.map_flatMap]
    congr 1
    exact List.flatMap_congr ih

theorem capturesMore_bare (n : Node) : n.bare.capturesMore = n.capturesMore := by simp [capturesMore]

end Node

theorem Token.lexeme_bare (t : Token) : t.bare.lexeme = t.lexeme := by
  obtain ⟨kind, value, span⟩ := t
  unfold bare piece
  split
  · next h =>
    obtain rfl : value = some (.float .infinity) := h
    cases kind <;> exact Binary64.text_infinity.symm
  · rfl

namespace Node

theorem kind_bare {t : Token} (ht : t.Spelled) (hk : t.kind ∉ Grammar.primaryKinds) : t.bare.kind = t.kind :=
  congrArg Piece.kind (piece_of_mark ht hk)

/-- The text of a tree does not depend on places. -/
theorem chars_bare {n : Node} (h : n.Everywhere fun x => x.form.Written) (depth : Nat) :
    n.bare.chars depth = n.chars depth := by
  induction n using childInduction generalizing depth with
  | step n ih =>
    obtain ⟨hshaped, hspelled, hinner⟩ := h.self
    have ih : ∀ c ∈ n.children, ∀ depth, c.bare.chars depth = c.chars depth := fun c hc => ih c hc (h.child hc)
    have hoperand : ∀ c ∈ n.children, ∀ depth, c.bare.operandChars depth = c.operandChars depth := fun c hc depth => by
      rw [operandChars, operandChars, capturesMore_bare, ih c hc]
    obtain ⟨span, scope, type, form⟩ := n
    cases form with
    | literal token => simp only [bare, bareForm, chars_literal, Token.lexeme_bare]
    | prefixOp operator x =>
      have hk : operator.kind ∉ Grammar.primaryKinds := by rcases hshaped with h | h <;> rw [h] <;> decide
      simp only [bare, bareForm, chars_prefixOp]
      rw [kind_bare (hspelled _ (by simp [Form.tokens])) hk, hoperand x (by simp [children, Form.parts])]
    | infixOp operator left right =>
      have hk := not_primary_of_mark (mark_of_operator hshaped)
      simp only [bare, bareForm, chars_infixOp]
      rw [kind_bare (hspelled _ (by simp [Form.tokens])) hk, hoperand left (by simp [children, Form.parts]),
        hoperand right (by simp [children, Form.parts])]
    | statement inner =>
      simp only [bare, bareForm, chars_statement, ih inner (by simp [children, Form.parts])]
    | block items trailing =>
      have hlines : (items ++ trailing.toList).flatMap (fun x => lineChars (depth + 1) x.bare) =
          (items ++ trailing.toList).flatMap (lineChars (depth + 1)) :=
        List.flatMap_congr fun x hx => by rw [lineChars, lineChars, ih x hx]
      simp only [bare, bareForm, bareList_eq, bareOption_eq, chars_block]
      rw [Option.toList_map, ← List.map_append, List.flatMap_map, hlines]
      simp only [List.map_eq_nil_iff]
    | functionDef name params result body =>
      have hparams : (params.map fun p => p.name.bare.chars depth ++ ':' :: ' ' :: p.type.bare.chars depth) =
          params.map fun p => p.name.chars depth ++ ':' :: ' ' :: p.type.chars depth :=
        List.map_congr_left fun p hp => by
          rw [ih p.name (mem_children_of_param rfl hp).1, ih p.type (mem_children_of_param rfl hp).2]
      simp only [bare, bareForm, bareParams_eq, bareOption_eq, chars_functionDef, List.map_map, Function.comp_def,
        Token.lexeme_bare]
      rw [hparams, ih result (by simp [children, Form.parts])]
      cases body with
      | none => rfl
      | some b => simp [ih b (by simp [children, Form.parts])]
    | functionCall f arguments =>
      have harguments : arguments.map (fun x => x.bare.operandChars depth) = arguments.map (operandChars depth) :=
        List.map_congr_left fun x hx => hoperand x (List.mem_cons_of_mem _ hx) depth
      simp only [bare, bareForm, bareList_eq, chars_functionCall, List.map_map, Function.comp_def]
      rw [harguments, calleeChars, calleeChars, tag_bare, hoperand f List.mem_cons_self, ih f List.mem_cons_self]
    | variableDef name typeName initializer =>
      simp only [bare, bareForm, bareOption_eq, chars_variableDef]
      rw [ih name (by simp [children, Form.parts]), ih typeName (by simp [children, Form.parts])]
      cases initializer with
      | none => rfl
      | some x => simp [ih x (by simp [children, Form.parts])]
    | root items => exact absurd rfl hinner

/-- What the text of a node begins with is not what ends an item or goes on with a node. -/
theorem exists_pieces_cons {n : Node} (h : n.Everywhere fun x => x.form.Written) :
    ∃ q qs, n.pieces = q :: qs ∧ (Grammar.standard.prefixRule? q.kind).isSome := by
  induction n using childInduction with
  | step n ih =>
    obtain ⟨hshaped, hspelled, hinner⟩ := h.self
    have ih := fun c hc => ih c hc (h.child hc)
    obtain ⟨span, scope, type, form⟩ := n
    cases form with
    | literal token =>
      refine ⟨_, _, by rw [pieces], ?_⟩
      unfold Token.piece
      split
      · rfl
      · simp only [Form.Shaped, Grammar.primaryKinds, List.mem_cons, List.not_mem_nil, or_false] at hshaped
        rcases hshaped with h | h | h | h <;> simp [Token.face, h, Grammar.standard]
    | prefixOp operator x =>
      have hk : operator.kind ∉ Grammar.primaryKinds := by rcases hshaped with h | h <;> rw [h] <;> decide
      refine ⟨_, _, by rw [pieces], ?_⟩
      rw [piece_of_mark (hspelled _ (by simp [Form.tokens])) hk]
      rcases hshaped with h | h <;> simp [h, Grammar.standard]
    | infixOp => exact ⟨_, _, by rw [pieces]; rfl, rfl⟩
    | statement inner =>
      obtain ⟨q, qs, hq, hrule⟩ := ih inner (by simp [children, Form.parts])
      exact ⟨q, _, by rw [pieces, hq]; rfl, hrule⟩
    | block => exact ⟨_, _, by rw [pieces]; rfl, rfl⟩
    | functionDef => exact ⟨_, _, by rw [pieces], rfl⟩
    | functionCall f arguments =>
      obtain ⟨q, qs, hq, hrule⟩ := ih f List.mem_cons_self
      rw [pieces_functionCall, callee, calleePieces, operandPieces]
      split
      · exact ⟨_, _, rfl, rfl⟩
      · split
        · exact ⟨_, _, rfl, rfl⟩
        · exact ⟨q, _, by rw [hq]; rfl, hrule⟩
    | variableDef => exact ⟨_, _, by rw [pieces], rfl⟩
    | root => exact absurd rfl hinner

end Node

namespace Form

theorem ofItems_of_shaped {items : List Node} {trailing : Option Node} (h : (Form.block items trailing).Shaped) :
    ofItems (items ++ trailing.toList) = .block items trailing := by
  cases trailing with
  | none =>
    rw [Option.toList_none, List.append_nil, ofItems]
    cases hlast : items.getLast? with
    | none =>
      obtain rfl := List.getLast?_eq_none_iff.1 hlast
      rfl
    | some x =>
      have := h.2 rfl x hlast
      simp [this]
  | some x =>
    have := h.1 x rfl
    simp [ofItems, this]

theorem bareForm_ofItems (xs : List Node) : Node.bareForm (ofItems xs) = ofItems (xs.map Node.bare) := by
  have hexpr : ∀ x : Node, x.bare.isExpression = x.isExpression := fun x => by simp [Node.isExpression]
  unfold ofItems
  rw [List.getLast?_map]
  cases xs.getLast? with
  | none => rfl
  | some x =>
    simp only [Option.map_some, hexpr]
    split <;> simp [Node.bareForm, Node.bareList_eq, Node.bareOption_eq, List.map_dropLast]

end Form

end LetFn
