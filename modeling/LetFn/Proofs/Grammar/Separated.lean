import LetFn.Proofs.Tree.Bare

/-!
# Items that stay apart

The text of a tree has nothing but line breaks between items, and the parser takes no notice of those. So what follows an
item may go on with it, and an item may break off before its end:

* an opening parenthesis or a dash goes on with an expression or with a definition of a variable;
* an opening brace goes on with the header of a function that has no body;
* an item that calls a block or a function definition breaks off behind that;
* a statement has no parentheses inside of a statement and behind an equals sign, where it cannot stand.

`Node.Separated n` says that none of this happens in the text of `n`.

Main fact: `Reads.written`.
-/

namespace LetFn

namespace Node

/-- What stands at the beginning of a chain of calls. -/
def callHead : Node → Node
  | ⟨_, _, _, .functionCall callee _⟩ => callHead callee
  | n => n

/-- A call of a block or of a function definition. -/
def CallsBlock (n : Node) : Prop := n.tag = .functionCall ∧ (n.callHead.tag = .block ∨ n.callHead.tag = .functionDef)

instance (n : Node) : Decidable n.CallsBlock := inferInstanceAs (Decidable (_ ∧ _))

/-- What a statement makes a statement of; any other node itself. -/
def stripped (n : Node) : Node :=
  match n.form with
  | .statement inner => inner
  | _ => n

/-- The kind of the first token of the text. -/
def leading (n : Node) : Kind :=
  match n.pieces with
  | [] => .eof
  | q :: _ => q.kind

/-- The text ends with the header of a function that has no body. -/
def EndsInHeader : Node → Prop
  | ⟨_, _, _, .functionDef _ _ _ none⟩ => True
  | ⟨_, _, _, .prefixOp _ operand⟩ => operand.capturesMore = false ∧ EndsInHeader operand
  | ⟨_, _, _, .variableDef _ _ (some initializer)⟩ => EndsInHeader initializer
  | _ => False

instance decidableEndsInHeader : (n : Node) → Decidable n.EndsInHeader
  | ⟨_, _, _, .functionDef _ _ _ none⟩ => .isTrue (by simp only [EndsInHeader])
  | ⟨_, _, _, .functionDef _ _ _ (some _)⟩ => .isFalse (by simp only [EndsInHeader, not_false_eq_true])
  | ⟨_, _, _, .prefixOp _ operand⟩ =>
    have := decidableEndsInHeader operand
    decidable_of_iff (operand.capturesMore = false ∧ EndsInHeader operand) (by simp only [EndsInHeader])
  | ⟨_, _, _, .variableDef _ _ (some initializer)⟩ =>
    have := decidableEndsInHeader initializer
    decidable_of_iff (EndsInHeader initializer) (by simp only [EndsInHeader])
  | ⟨_, _, _, .variableDef _ _ none⟩ | ⟨_, _, _, .literal _⟩ | ⟨_, _, _, .infixOp _ _ _⟩ | ⟨_, _, _, .statement _⟩
  | ⟨_, _, _, .block _ _⟩ | ⟨_, _, _, .functionCall _ _⟩ | ⟨_, _, _, .root _⟩ =>
    .isFalse (by simp only [EndsInHeader, not_false_eq_true])

/-- `y` may follow `x` without going on with it. -/
def MayFollow (x y : Node) : Prop :=
  (x.tag ∈ [.statement, .block, .functionDef] ∨ y.leading ∉ [.openParen, .dash]) ∧
    (x.EndsInHeader → y.leading ≠ .openCurly)

instance (x y : Node) : Decidable (MayFollow x y) := inferInstanceAs (Decidable (_ ∧ _))

/-- Items that are read one by one again. -/
structure Apart (xs : List Node) : Prop where
  alone : ∀ x ∈ xs, ¬ x.stripped.CallsBlock
  neighbours : xs.IsChain MayFollow

instance (xs : List Node) : Decidable (Apart xs) :=
  decidable_of_iff ((∀ x ∈ xs, ¬ x.stripped.CallsBlock) ∧ xs.IsChain MayFollow) ⟨fun h => ⟨h.1, h.2⟩, fun h => ⟨h.1, h.2⟩⟩

end Node

/-- The parts of the form are read as they were written. -/
def Form.Separated : Form Node → Prop
  | .statement inner => inner.tag ≠ .statement
  | .variableDef _ _ initializer => ∀ x ∈ initializer, x.tag ≠ .statement
  | .block items trailing => Node.Apart (items ++ trailing.toList)
  | .root items => Node.Apart items
  | _ => True

instance : ∀ form : Form Node, Decidable form.Separated
  | .statement inner => inferInstanceAs (Decidable (inner.tag ≠ .statement))
  | .variableDef _ _ (some x) => decidable_of_iff (x.tag ≠ .statement) (by simp [Form.Separated])
  | .variableDef _ _ none => .isTrue (by simp [Form.Separated])
  | .block items trailing => inferInstanceAs (Decidable (Node.Apart (items ++ trailing.toList)))
  | .root items => inferInstanceAs (Decidable (Node.Apart items))
  | .literal _ | .prefixOp _ _ | .infixOp _ _ _ | .functionDef _ _ _ _ | .functionCall _ _ => .isTrue trivial

/-- **The text of the tree keeps its nodes apart.** -/
def Node.Separated (n : Node) : Prop := n.Everywhere fun x => x.form.Separated

instance (n : Node) : Decidable n.Separated := inferInstanceAs (Decidable (∀ x ∈ n.preorder, x.form.Separated))

namespace Node

theorem callHead_call {span : Span} {scope : Option ScopeId} {type : Option TypeId} (f : Node) (xs : List Node) :
    callHead ⟨span, scope, type, .functionCall f xs⟩ = f.callHead := by rw [callHead]

theorem callHead_of_tag {n : Node} (h : n.tag ≠ .functionCall) : n.callHead = n := by
  obtain ⟨_, _, _, form⟩ := n
  cases form <;> first | rfl | exact absurd rfl h

theorem stripped_of_tag {n : Node} (h : n.tag ≠ .statement) : n.stripped = n := by
  obtain ⟨_, _, _, form⟩ := n
  cases form <;> first | rfl | exact absurd rfl h

end Node

/-! ## what was read is written -/

namespace Grammar

open Node (Everywhere)

/-- The node has only tokens that are `P`, no notes, and is no whole program. -/
structure Made (P : Token → Prop) (x : Node) : Prop where
  tokens : ∀ t ∈ x.form.tokens, P t
  inner : x.form.tag ≠ .root
  scope : x.scope = none
  type : x.type = none

def Phrase.Made (P : Token → Prop) : Phrase → Prop
  | .expression _ n | .item n | .opening n => Everywhere (Grammar.Made P) n
  | .extensions _ left n => Everywhere (Grammar.Made P) left → Everywhere (Grammar.Made P) n
  | .items _ ns | .arguments ns => ∀ n ∈ ns, Everywhere (Grammar.Made P) n
  | .parameters ps => ∀ p ∈ ps, Everywhere (Grammar.Made P) p.name ∧ Everywhere (Grammar.Made P) p.type

section

variable {P : Token → Prop}

theorem everywhere_made {n : Node} {tokens : List Token} (hts : ∀ t ∈ tokens, P t) (hn : n.form.tokens ⊆ tokens)
    (hroot : n.form.tag ≠ .root) (hscope : n.scope = none) (htype : n.type = none)
    (hc : ∀ c ∈ n.children, Everywhere (Made P) c) : Everywhere (Made P) n :=
  Node.everywhere_iff.2 ⟨⟨fun t ht => hts t (hn ht), hroot, hscope, htype⟩, hc⟩

theorem everywhere_made_leaf {t : Token} (ht : P t) : Everywhere (Made P) (.leaf t) :=
  everywhere_made (by simpa using ht : ∀ u ∈ [t], P u) (by simp [Node.leaf, Form.tokens]) nofun rfl rfl
    (by simp [Node.leaf, Node.children, Form.parts])

theorem everywhere_made_functionDef {span : Span} {name : Token} {ps : List (Param Node)} {result : Node}
    {body : Option Node} (hname : P name)
    (hps : ∀ p ∈ ps, Everywhere (Made P) p.name ∧ Everywhere (Made P) p.type)
    (hresult : Everywhere (Made P) result) (hbody : ∀ b ∈ body, Everywhere (Made P) b) :
    Everywhere (Made P) { span, form := .functionDef name ps result body } := by
  refine everywhere_made (by simpa using hname : ∀ u ∈ [name], P u) (by simp [Form.tokens]) nofun rfl rfl ?_
  exact Form.forall_functionDef.2 ⟨hps, hbody, hresult⟩

theorem everywhere_made_variableDef {span : Span} {name type : Token} {initializer : Option Node} (hname : P name)
    (htype : P type) (hinitializer : ∀ x ∈ initializer, Everywhere (Made P) x) :
    Everywhere (Made P) { span, form := .variableDef (.leaf name) (.leaf type) initializer } := by
  refine everywhere_made (by simp : ∀ u ∈ ([] : List Token), P u) (by simp [Form.tokens]) nofun rfl rfl ?_
  exact Form.forall_variableDef.2 ⟨everywhere_made_leaf hname, everywhere_made_leaf htype, hinitializer⟩

theorem everywhere_made_infixOp {span : Span} {operator : Token} {left right : Node} (hoperator : P operator)
    (hleft : Everywhere (Made P) left) (hright : Everywhere (Made P) right) :
    Everywhere (Made P) { span, form := .infixOp operator left right } := by
  refine everywhere_made (by simpa using hoperator : ∀ u ∈ [operator], P u) (by simp [Form.tokens]) nofun rfl rfl ?_
  exact Form.forall_infixOp.2 ⟨hleft, hright⟩

/-- What is read has its tokens from the text and no notes. -/
theorem Reads.made {φ : Phrase} {ts us : List Token} (h : Reads φ ts us) (hts : ∀ t ∈ ts, P t) : φ.Made P := by
  induction h with
  | expression start _ ihs ihm => exact ihm (start.forall_rest hts) (ihs hts)
  | closedItem _ _ ih => exact ih hts
  | openItem start _ _ ihs ihm => exact ihm (start.forall_rest hts) (ihs hts)
  | primary => exact everywhere_made_leaf (hts _ List.mem_cons_self)
  | operator _ _ _ ih =>
    have ih := ih fun t ht => hts t (List.mem_cons_of_mem _ ht)
    exact everywhere_made hts (by simp [Form.tokens]) (by simp [Form.tag]) rfl rfl (List.forall_mem_singleton.2 ih)
  | grouping _ _ _ _ ih =>
    obtain ⟨hself, hc⟩ := Node.everywhere_iff.1 (ih fun t ht => hts t (List.mem_cons_of_mem _ ht))
    exact Node.everywhere_iff.2 ⟨⟨hself.tokens, hself.inner, hself.scope, hself.type⟩, hc⟩
  | @block o c xs span _ _ _ _ _ _ ih =>
    have ih := ih fun t ht => hts t (List.mem_cons_of_mem _ ht)
    obtain ⟨items, trailing, hform, rfl, -⟩ := Form.exists_of_ofItems xs
    refine everywhere_made hts (by simp [hform, Form.tokens]) (by simp [hform, Form.tag]) rfl rfl fun x hx => ?_
    rw [Node.children, hform] at hx
    exact ih x hx
  | @prototype word name o c arrow result ps span ts us _ _ _ params _ _ _ _ _ ih =>
    have hts' : ∀ t ∈ ts, P t := fun t ht => hts t (by simp [ht])
    have hresult := params.forall_rest hts' result (by simp)
    exact everywhere_made_functionDef (hts name (by simp)) (ih hts') (everywhere_made_leaf hresult) (by simp)
  | @definition word name o c arrow result ps body span ts us vs _ _ _ params _ _ _ _ _ _ ih ihb =>
    have hts' : ∀ t ∈ ts, P t := fun t ht => hts t (by simp [ht])
    have hrest := params.forall_rest hts'
    refine everywhere_made_functionDef (hts name (by simp)) (ih hts') (everywhere_made_leaf (hrest result (by simp)))
      fun b hb => ?_
    obtain rfl := Option.some.inj hb
    exact ihb fun t ht => hrest t (by simp [ht])
  | declaration => exact everywhere_made_variableDef (hts _ (by simp)) (hts _ (by simp)) (by simp)
  | initialization _ _ _ _ _ _ _ ih =>
    refine everywhere_made_variableDef (hts _ (by simp)) (hts _ (by simp)) fun x hx => ?_
    obtain rfl := Option.some.inj hx
    exact ih fun t ht => hts t (by simp [ht])
  | stop => exact fun h => h
  | binary _ _ right _ _ ihr ihm | assignment _ _ right _ _ ihr ihm =>
    obtain ⟨ht, hts⟩ := List.forall_mem_cons.1 hts
    exact fun hl => ihm (right.forall_rest hts) (everywhere_made_infixOp ht hl (ihr hts))
  | call _ inner _ _ _ iha ihm =>
    have hts' := fun t ht => hts t (List.mem_cons_of_mem _ ht)
    have hrest := fun t ht => inner.forall_rest hts' t (List.mem_cons_of_mem _ ht)
    exact fun hl => ihm hrest (everywhere_made hts (by simp [Form.tokens]) (by simp [Form.tag]) rfl rfl
      (Form.forall_functionCall.2 ⟨hl, iha hts'⟩))
  | statement =>
    exact fun hl => everywhere_made hts (by simp [Form.tokens]) (by simp [Form.tag]) rfl rfl
      (List.forall_mem_singleton.2 hl)
  | noItems | noArguments | noParameters => exact List.forall_mem_nil _
  | moreItems _ _ first _ ihf iho => exact List.forall_mem_cons.2 ⟨ihf hts, iho (first.forall_rest hts)⟩
  | lastArgument _ _ _ _ ih => exact List.forall_mem_singleton.2 (ih hts)
  | moreArguments _ _ first _ _ ihf iho =>
    have hrest := fun t ht => first.forall_rest hts t (List.mem_cons_of_mem _ ht)
    exact List.forall_mem_cons.2 ⟨ihf hts, iho hrest⟩
  | lastParameter =>
    exact List.forall_mem_singleton.2
      ⟨everywhere_made_leaf (hts _ (by simp)), everywhere_made_leaf (hts _ (by simp))⟩
  | moreParameters _ _ _ _ _ ih =>
    exact List.forall_mem_cons.2 ⟨⟨everywhere_made_leaf (hts _ (by simp)), everywhere_made_leaf (hts _ (by simp))⟩,
      ih fun t ht => hts t (by simp [ht])⟩

end

/-- Items that were read off spelled tokens are written. -/
theorem Reads.written {close : Kind} {xs : List Node} {ts us : List Token} (h : Reads (.items close xs) ts us)
    (hts : ∀ t ∈ ts, t.Spelled) : ∀ x ∈ xs, x.Everywhere fun y => y.form.Written :=
  fun x hx y hy => ⟨h.shaped x hx y hy, (h.made hts x hx y hy).tokens, (h.made hts x hx y hy).inner⟩

end Grammar

end LetFn
