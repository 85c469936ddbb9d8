import LetFn.Proofs.Grammar.Rereading

/-!
# Printing a program and reading it again

The text of a program is read as the program again if it keeps the nodes of the program apart. Programs are of this
kind whose items end in a semicolon or a brace, as long as nothing is made a statement twice or inside of a definition
and no call stands behind a brace. The two trees then differ in nothing but places.

* `Node.unplaced` — a tree without its places.
* `Node.Terminated` — the items of the program and of its blocks are ended, all but the last.

Main facts: `prints_again`, `ended_items_read_back`.
-/

namespace LetFn

/-! ## trees up to places -/

def Token.unplaced (t : Token) : Token := { t with span := default }

theorem Token.bare_eq_unplaced {t : Token} (h : t.value ≠ some (.float .infinity)) : t.bare = t.unplaced := by
  rw [bare, piece, if_neg h]
  rfl

namespace Node

mutual

/-- The tree with every place replaced by one and the same. -/
def unplaced : Node → Node
  | ⟨_, scope, type, form⟩ => ⟨default, scope, type, unplacedForm form⟩

def unplacedForm : Form Node → Form Node
  | .literal token => .literal token.unplaced
  | .prefixOp operator operand => .prefixOp operator.unplaced (unplaced operand)
  | .infixOp operator left right => .infixOp operator.unplaced (unplaced left) (unplaced right)
  | .statement inner => .statement (unplaced inner)
  | .block items trailing => .block (unplacedList items) (unplacedOption trailing)
  | .functionDef name params result body =>
    .functionDef name.unplaced (unplacedParams params) (unplaced result) (unplacedOption body)
  | .functionCall callee arguments => .functionCall (unplaced callee) (unplacedList arguments)
  | .variableDef name type initializer => .variableDef (unplaced name) (unplaced type) (unplacedOption initializer)
  | .root items => .root (unplacedList items)

def unplacedList : List Node → List Node
  | [] => []
  | x :: xs => unplaced x :: unplacedList xs

def unplacedOption : Option Node → Option Node
  | none => none
  | some x => some (unplaced x)

def unplacedParams : List (Param Node) → List (Param Node)
  | [] => []
  | ⟨name, type⟩ :: ps => ⟨unplaced name, unplaced type⟩ :: unplacedParams ps

end

section

attribute [local simp] unplaced unplacedForm unplacedList unplacedOption unplacedParams bare bareForm bareList bareOption
  bareParams

theorem unplacedList_eq (xs : List Node) : unplacedList xs = xs.map unplaced := by
  induction xs with
  | nil => rfl
  | cons x xs ih => rw [unplacedList, ih, List.map_cons]

theorem bareList_eq_unplaced {xs : List Node} (h : ∀ x ∈ xs, x.bare = x.unplaced) : bareList xs = unplacedList xs := by
  rw [bareList_eq, unplacedList_eq, List.map_congr_left h]

theorem bareOption_eq_unplaced {x : Option Node} (h : ∀ y ∈ x, y.bare = y.unplaced) :
    bareOption x = unplacedOption x := by
  cases x with
  | none => rfl
  | some x => simp [h x rfl]

theorem bareParams_eq_unplaced {ps : List (Param Node)}
    (h : ∀ p ∈ ps, p.name.bare = p.name.unplaced ∧ p.type.bare = p.type.unplaced) : bareParams ps = unplacedParams ps := by
  induction ps with
  | nil => rfl
  | cons p ps ih =>
    obtain ⟨hname, htype⟩ := h p List.mem_cons_self
    simp [hname, htype, ih fun q hq => h q (List.mem_cons_of_mem _ hq)]

/-- Where every float is finite and nothing is noted, only the places are left out. -/
theorem bare_eq_unplaced {n : Node}
    (h : n.Everywhere (Grammar.Made fun t => t.value ≠ some (.float .infinity))) (hroot : n.tag ≠ .root) :
    n.bare = n.unplaced := by
  induction n using childInduction with
  | step n ih =>
    obtain ⟨htokens, -, hscope, htype⟩ := h.self
    have ih : ∀ c ∈ n.children, c.bare = c.unplaced := fun c hc => ih c hc (h.child hc) (h.child hc).self.inner
    obtain ⟨span, scope, type, form⟩ := n
    obtain rfl : scope = none := hscope
    obtain rfl : type = none := htype
    simp only [bare, unplaced, mk.injEq, true_and]
    cases form with
    | literal token => simp [Token.bare_eq_unplaced (htokens token (by simp [Form.tokens]))]
    | prefixOp operator x =>
      simp [Token.bare_eq_unplaced (htokens operator (by simp [Form.tokens])), ih x (by simp [children, Form.parts])]
    | infixOp operator left right =>
      simp [Token.bare_eq_unplaced (htokens operator (by simp [Form.tokens])), ih left (by simp [children, Form.parts]),
        ih right (by simp [children, Form.parts])]
    | statement inner => simp [ih inner (by simp [children, Form.parts])]
    | block items trailing =>
      rw [bareForm, unplacedForm, bareList_eq_unplaced fun x hx => ih x (List.mem_append_left _ hx),
        bareOption_eq_unplaced fun x hx => ih x (List.mem_append_right _ (Option.mem_toList.2 hx))]
    | functionDef name params result body =>
      rw [bareForm, unplacedForm, Token.bare_eq_unplaced (htokens name (by simp [Form.tokens])),
        bareParams_eq_unplaced fun p hp => ⟨ih _ (mem_children_of_param rfl hp).1, ih _ (mem_children_of_param rfl hp).2⟩,
        ih result (by simp [children, Form.parts]),
        bareOption_eq_unplaced fun b hb => ih b (List.mem_append_left _ (List.mem_append_right _ (Option.mem_toList.2 hb)))]
    | functionCall f arguments =>
      rw [bareForm, unplacedForm, ih f List.mem_cons_self,
        bareList_eq_unplaced fun x hx => ih x (List.mem_cons_of_mem _ hx)]
    | variableDef name typeName initializer =>
      rw [bareForm, unplacedForm, ih name (by simp [children, Form.parts]), ih typeName (by simp [children, Form.parts]),
        bareOption_eq_unplaced fun x hx => ih x (by simp_all [children, Form.parts])]
    | root => exact absurd rfl hroot

end

end Node

/-! ## infinite numbers -/

/-- No infinite number; such a number is written as a name. -/
def Piece.Plain (q : Piece) : Prop := q.value ≠ some (.float .infinity)

theorem Token.piece_plain (t : Token) : t.piece.Plain := by
  unfold piece Piece.Plain
  split
  · simp
  · assumption

theorem Piece.Plain.mark (k : Kind) : Piece.Plain ⟨k, none⟩ := nofun

namespace Node

section

variable {ps : List Piece}

theorem plain_cons_mark {k : Kind} (h : ∀ q ∈ ps, q.Plain) : ∀ q ∈ (⟨k, none⟩ :: ps : List Piece), q.Plain :=
  List.forall_mem_cons.2 ⟨.mark _, h⟩

theorem plain_inParens (h : ∀ q ∈ ps, q.Plain) : ∀ q ∈ inParens ps, q.Plain :=
  plain_cons_mark (List.forall_mem_append.2 ⟨h, List.forall_mem_singleton.2 (.mark _)⟩)

theorem plain_operand {n : Node} (h : ∀ q ∈ n.pieces, q.Plain) : ∀ q ∈ n.operand, q.Plain := by
  unfold operand operandPieces
  split
  · exact plain_inParens h
  · exact h

theorem plain_callee {n : Node} (h : ∀ q ∈ n.pieces, q.Plain) : ∀ q ∈ n.callee, q.Plain := by
  unfold callee calleePieces
  split
  · exact plain_inParens h
  · exact plain_operand h

theorem plain_commas {pss : List (List Piece)} (h : ∀ ps ∈ pss, ∀ q ∈ ps, q.Plain) : ∀ q ∈ commaPieces pss, q.Plain := by
  induction pss with
  | nil => exact nofun
  | cons ps pss ih =>
    obtain ⟨hps, hpss⟩ := List.forall_mem_cons.1 h
    cases pss with
    | nil => exact hps
    | cons qs pss => exact List.forall_mem_append.2 ⟨hps, plain_cons_mark (ih hpss)⟩

/-- The text of a tree has no infinite number. -/
theorem plain_pieces (n : Node) : ∀ q ∈ n.pieces, q.Plain := by
  induction n using childInduction with
  | step n ih =>
    obtain ⟨span, scope, type, form⟩ := n
    replace ih : ∀ c ∈ form.parts, ∀ q ∈ c.pieces, q.Plain := ih
    cases form with
    | literal token => exact List.forall_mem_singleton.2 token.piece_plain
    | prefixOp operator x =>
      rw [pieces]
      exact List.forall_mem_cons.2 ⟨operator.piece_plain, plain_operand (List.forall_mem_singleton.1 ih)⟩
    | infixOp operator left right =>
      obtain ⟨hleft, hright⟩ := Form.forall_infixOp.1 ih
      have hop := List.forall_mem_cons.2 ⟨operator.piece_plain, plain_operand hright⟩
      rw [pieces]
      exact plain_inParens (List.forall_mem_append.2 ⟨plain_operand hleft, hop⟩)
    | statement inner =>
      rw [pieces]
      exact List.forall_mem_append.2 ⟨List.forall_mem_singleton.1 ih, List.forall_mem_singleton.2 (.mark _)⟩
    | block items trailing =>
      rw [pieces_block]
      exact plain_cons_mark (List.forall_mem_append.2 ⟨List.forall_mem_flatMap.2 ih, List.forall_mem_singleton.2 (.mark _)⟩)
    | functionDef name params result body =>
      obtain ⟨hps, hbody, hresult⟩ := Form.forall_functionDef.1 ih
      have hparams : ∀ ps ∈ params.map fun p => p.name.pieces ++ ⟨.colon, none⟩ :: p.type.pieces, ∀ q ∈ ps, q.Plain :=
        List.forall_mem_map.2 fun p hp => List.forall_mem_append.2 ⟨(hps p hp).1, plain_cons_mark (hps p hp).2⟩
      have hend := List.forall_mem_append.2
        ⟨hresult, List.forall_mem_flatMap.2 fun x hx => hbody x (Option.mem_toList.1 hx)⟩
      rw [pieces_functionDef]
      exact plain_cons_mark (List.forall_mem_cons.2 ⟨name.piece_plain,
        List.forall_mem_append.2 ⟨plain_inParens (plain_commas hparams), plain_cons_mark hend⟩⟩)
    | functionCall f arguments =>
      obtain ⟨hf, harguments⟩ := Form.forall_functionCall.1 ih
      have hcommas := plain_commas (List.forall_mem_map.2 fun x hx => plain_operand (harguments x hx))
      rw [pieces_functionCall]
      exact List.forall_mem_append.2 ⟨plain_callee hf, plain_inParens hcommas⟩
    | variableDef name typeName initializer =>
      obtain ⟨hname, htype, hinitializer⟩ := Form.forall_variableDef.1 ih
      have hinit : ∀ q ∈ initializer.toList.flatMap (⟨.assignment, none⟩ :: ·.pieces), q.Plain :=
        List.forall_mem_flatMap.2 fun x hx => plain_cons_mark (hinitializer x (Option.mem_toList.1 hx))
      rw [pieces_variableDef]
      exact plain_cons_mark (List.forall_mem_append.2 ⟨hname,
        plain_cons_mark (List.forall_mem_append.2 ⟨htype, hinit⟩)⟩)
    | root items =>
      rw [pieces_root]
      exact List.forall_mem_flatMap.2 ih

end

end Node

/-! ## texts that are read back -/

/-- Items that keep apart are read back from the text of their program. -/
theorem exists_reads_print {span : Span} {xs : List Node} (hw : ∀ x ∈ xs, x.Everywhere fun y => y.form.Written)
    (hs : Node.Separated { span, form := .root xs }) :
    ∃ ts ys us, tokenize (Node.print { span, form := .root xs }) = .ok ts ∧ Grammar.Reads (.items .eof ys) ts us ∧
      ys.map Node.bare = xs.map Node.bare ∧ ∀ t ∈ ts, t.Spelled ∧ t.value ≠ some (.float .infinity) := by
  obtain ⟨ts, hts, hfaces⟩ := @Node.scans_print span none none xs hw 0
  obtain ⟨ys, us, hbare, hreads⟩ :=
    Grammar.reads_of_pieces hw (fun x hx => hs.child hx) hs.self hfaces (scan_inOrder hts)
  refine ⟨ts, ys, us, hts, hreads, hbare, fun t ht => ⟨spelled_of_scan hts t ht, ?_⟩⟩
  have hface : t.face ∈ xs.flatMap Node.pieces ++ [⟨.eof, none⟩] := hfaces ▸ List.mem_map_of_mem ht
  rcases List.mem_append.1 hface with hface | hface
  · obtain ⟨x, -, hx⟩ := List.mem_flatMap.1 hface
    exact x.plain_pieces _ hx
  · intro hv
    have := congrArg Piece.value (List.mem_singleton.1 hface)
    simp [Token.face, hv] at this

section

variable {span : Span} {xs ys : List Node}

theorem bare_root (h : ys.map Node.bare = xs.map Node.bare) (span' : Span) :
    Node.bare { span := span', form := .root ys } = Node.bare { span, form := .root xs } :=
  Node.bare_eq_iff.2 (by rw [Node.bareForm, Node.bareForm, Node.bareList_eq, Node.bareList_eq, h])

theorem chars_root (hys : ∀ y ∈ ys, y.Everywhere fun z => z.form.Written)
    (hxs : ∀ x ∈ xs, x.Everywhere fun z => z.form.Written) (h : ys.map Node.bare = xs.map Node.bare) :
    ys.map (Node.chars 0) = xs.map (Node.chars 0) := by
  have hbare : ∀ zs : List Node, (∀ z ∈ zs, z.Everywhere fun w => w.form.Written) →
      (zs.map Node.bare).map (Node.chars 0) = zs.map (Node.chars 0) := fun zs hzs => by
    rw [List.map_map]
    exact List.map_congr_left fun z hz => Node.chars_bare (hzs z hz) 0
  rw [← hbare ys hys, h, hbare xs hxs]

end

section

variable {source : String} {n : Node}

/-- **A program that is kept apart is read back from its text**: as a program of the same shapes and of the same text. -/
theorem prints_again (h : parseSource source = .ok n) (hs : n.Separated) :
    ∃ m, parseSource n.print = .ok m ∧ m.tags = n.tags ∧ m.print = n.print := by
  obtain ⟨tokens, xs, us, htokens, rfl, hreads⟩ := exists_reads_of_parseSource h
  have hw := hreads.written (spelled_of_scan htokens)
  obtain ⟨ts, ys, vs, hts, hys, hbare, htokens'⟩ := exists_reads_print hw hs
  have hw' := hys.written fun t ht => (htokens' t ht).1
  refine ⟨_, bind_eq_ok.2 ⟨ts, liftError_eq_ok.2 hts, parse_eq_ok_iff.2 ⟨ys, vs, rfl, hys⟩⟩, ?_, ?_⟩
  · rw [← Node.tags_bare, bare_root hbare, Node.tags_bare]
  · rw [← String.toList_inj, Node.print_root, Node.print_root, chars_root hw' hw hbare]

theorem prints_again_lets : ∃ n m, parseSource "let a: i32 = -1\nlet b: i32 = f(a)\n{ a = (b) + 2; }" = .ok n ∧ n.Separated ∧
    parseSource n.print = .ok m ∧ m.tags = n.tags ∧ m.print = n.print := by
  have hread : Yields (fun n => n.Separated) (parseSource "let a: i32 = -1\nlet b: i32 = f(a)\n{ a = (b) + 2; }") := by
    decide +kernel
  obtain ⟨n, hn, hs⟩ := yields_iff.1 hread
  obtain ⟨m, hm, htags, hprint⟩ := prints_again hn hs
  exact ⟨n, m, hn, hs, hm, htags, hprint⟩

/-- The statement in parentheses is written without them, with two semicolons that cannot be read. -/
theorem nested_statement_lost : ∃ n, parseSource "(a;);" = .ok n ∧ n.print = "a;;" ∧ ∀ m, parseSource n.print ≠ .ok m := by
  have hread : Yields (fun n => n.print = "a;;" ∧ ¬ Yields (fun _ => True) (parseSource n.print)) (parseSource "(a;);") := by
    decide +kernel
  obtain ⟨n, hn, hprint, hfails⟩ := yields_iff.1 hread
  exact ⟨n, hn, hprint, fun m hm => hfails (yields_iff.2 ⟨m, hm, trivial⟩)⟩

end

/-! ## programs whose items are ended -/

/-- The float is neither a number nor the mark of a failed computation. -/
def Binary64.IsInfinite (x : Binary64) : Prop := x.isFinite = false ∧ x.isNaN = false

instance (x : Binary64) : Decidable x.IsInfinite := inferInstanceAs (Decidable (_ ∧ _))

namespace Node

/-- The text ends with a semicolon or a closing brace of its own. -/
def Ended (n : Node) : Prop :=
  match n.form with
  | .statement _ | .block _ _ | .functionDef _ _ _ (some _) => True
  | _ => False

instance (n : Node) : Decidable n.Ended := by
  unfold Ended
  split <;> infer_instance

end Node

/-- Finite floats, statements where a statement may stand, calls behind what is no block, and items that are ended, all
but the last. -/
def Form.Terminated : Form Node → Prop
  | .literal token => ∀ x, token.value = some (.float x) → ¬ x.IsInfinite
  | .statement inner => inner.tag ≠ .statement
  | .variableDef _ _ initializer => ∀ x ∈ initializer, x.tag ≠ .statement
  | .functionCall callee _ => callee.tag ≠ .block ∧ callee.tag ≠ .functionDef
  | .block items trailing => ∀ x ∈ (items ++ trailing.toList).dropLast, x.Ended
  | .root items => ∀ x ∈ items.dropLast, x.Ended
  | _ => True

instance (form : Form Node) : Decidable form.Terminated := by
  cases form with
  | literal token =>
    exact match h : token.value with
    | some (.float x) => decidable_of_iff (¬ x.IsInfinite) (by simp [Form.Terminated, h])
    | some (.int _) | some (.str _) | none => .isTrue (by simp [Form.Terminated, h])
  | _ => unfold Form.Terminated; infer_instance

/-- **Every item but the last is ended**, in the program and in every block. -/
def Node.Terminated (n : Node) : Prop := n.Everywhere fun x => x.form.Terminated

namespace Node

theorem Terminated.child {n c : Node} (h : n.Terminated) (hc : c ∈ n.children) : c.Terminated := Everywhere.child h hc

theorem Terminated.callHead {n : Node} (h : n.Terminated) (htag : n.tag = .functionCall) :
    n.callHead.tag ≠ .block ∧ n.callHead.tag ≠ .functionDef := by
  induction n using childInduction with
  | step n ih =>
    obtain ⟨span, scope, type, form⟩ := n
    cases form <;> cases htag
    next f xs =>
    rw [callHead_call]
    by_cases hf : f.tag = .functionCall
    · exact ih f List.mem_cons_self (h.child List.mem_cons_self) hf
    · rw [callHead_of_tag hf]
      exact Everywhere.self h

theorem Terminated.not_callsBlock {n : Node} (h : n.Terminated) : ¬ n.stripped.CallsBlock := by
  have hstripped : n.stripped.Terminated := by
    obtain ⟨span, scope, type, form⟩ := n
    cases form with
    | statement inner =>
      have : inner.Terminated := h.child (by simp [children, Form.parts])
      exact this
    | _ => exact h
  rintro ⟨htag, hhead⟩
  obtain ⟨hblock, hdef⟩ := hstripped.callHead htag
  exact hhead.elim hblock hdef

theorem Ended.mayFollow {x : Node} (h : x.Ended) (y : Node) : x.MayFollow y := by
  obtain ⟨span, scope, type, form⟩ := x
  unfold MayFollow
  cases form with
  | statement | block => exact ⟨.inl (by simp [tag, Form.tag]), fun hheader => by simp [EndsInHeader] at hheader⟩
  | functionDef name params result body =>
    cases body with
    | none => exact absurd h (by simp [Ended])
    | some b => exact ⟨.inl (by simp [tag, Form.tag]), fun hheader => by simp [EndsInHeader] at hheader⟩
  | _ => exact absurd h (by simp [Ended])

theorem isChain_of_ended {xs : List Node} (h : ∀ x ∈ xs.dropLast, x.Ended) : xs.IsChain MayFollow := by
  induction xs with
  | nil => exact .nil
  | cons x xs ih =>
    cases xs with
    | nil => exact .singleton x
    | cons y ys =>
      rw [List.dropLast_cons_cons] at h
      obtain ⟨hx, hys⟩ := List.forall_mem_cons.1 h
      exact .cons_cons (hx.mayFollow y) (ih hys)

/-- Items that are ended keep apart. -/
theorem Terminated.separated {n : Node} (h : n.Terminated) : n.Separated := by
  intro x hx
  have hself := h x hx
  have hbelow : x.Terminated := Everywhere.below h hx
  have halone : ∀ c ∈ x.children, ¬ c.stripped.CallsBlock := fun c hc => (hbelow.child hc).not_callsBlock
  obtain ⟨span, scope, type, form⟩ := x
  cases form with
  | statement | variableDef => exact hself
  | block items trailing => exact ⟨halone, isChain_of_ended hself⟩
  | root items => exact ⟨halone, isChain_of_ended hself⟩
  | _ => trivial

end Node

theorem Form.Terminated.finite {form : Form Node} (h : form.Terminated) (hw : form.Written) :
    ∀ t ∈ form.tokens, t.value ≠ some (.float .infinity) := by
  obtain ⟨hshaped, hspelled, -⟩ := hw
  have hmark : ∀ t ∈ form.tokens, t.kind ∉ Grammar.primaryKinds → t.value ≠ some (.float .infinity) := fun t ht hk => by
    rw [(hspelled t ht).none_of_kind hk]
    simp
  cases form with
  | literal token =>
    intro t ht hv
    obtain rfl := List.mem_singleton.1 ht
    exact h _ hv (by decide)
  | prefixOp operator x =>
    intro t ht
    obtain rfl := List.mem_singleton.1 ht
    exact hmark _ ht (by rcases hshaped with hk | hk <;> rw [hk] <;> decide)
  | infixOp operator left right =>
    intro t ht
    obtain rfl := List.mem_singleton.1 ht
    exact hmark _ ht (not_primary_of_mark (Node.mark_of_operator hshaped))
  | functionDef name params result body =>
    rintro ⟨kind, value, span⟩ ht
    obtain rfl := List.mem_singleton.1 ht
    obtain rfl : kind = .identifier := hshaped.1
    obtain ⟨text, rfl, -⟩ := (hspelled _ ht).identifier
    simp
  | _ => exact fun _ ht => absurd ht List.not_mem_nil

theorem unplaced_root {xs ys : List Node} (hys : ∀ y ∈ ys, y.bare = y.unplaced) (hxs : ∀ x ∈ xs, x.bare = x.unplaced)
    (h : ys.map Node.bare = xs.map Node.bare) (span span' : Span) :
    Node.unplaced { span := span', form := .root ys } = Node.unplaced { span, form := .root xs } := by
  have : ys.map Node.unplaced = xs.map Node.unplaced := by
    rw [← List.map_congr_left hys, h, List.map_congr_left hxs]
  simp only [Node.unplaced, Node.unplacedForm, Node.unplacedList_eq, this]

/-- **A program with ended items is read back from its text**, the same in everything but places. -/
theorem ended_items_read_back {source : String} {n : Node} (h : parseSource source = .ok n) (ht : n.Terminated) :
    ∃ m, parseSource n.print = .ok m ∧ m.unplaced = n.unplaced := by
  obtain ⟨tokens, xs, us, htokens, rfl, hreads⟩ := exists_reads_of_parseSource h
  have hspelled := spelled_of_scan htokens
  have hw := hreads.written hspelled
  obtain ⟨ts, ys, vs, hts, hys, hbare, htokens'⟩ := exists_reads_print hw ht.separated
  refine ⟨_, bind_eq_ok.2 ⟨ts, liftError_eq_ok.2 hts, parse_eq_ok_iff.2 ⟨ys, vs, rfl, hys⟩⟩,
    unplaced_root (fun y hy => ?_) (fun x hx => ?_) hbare _ _⟩
  · have hmade := hys.made htokens' y hy
    exact Node.bare_eq_unplaced (hmade.mono fun z hz => ⟨fun t ht => (hz.tokens t ht).2, hz.inner, hz.scope, hz.type⟩)
      hmade.self.inner
  · have hmade := hreads.made hspelled x hx
    refine Node.bare_eq_unplaced (fun z hz => ?_) hmade.self.inner
    have hfinite := ((ht.child hx) z hz).finite (hw x hx z hz)
    exact ⟨hfinite, (hmade z hz).inner, (hmade z hz).scope, (hmade z hz).type⟩

theorem ended_items_read_back_scale : ∃ n m,
    parseSource "fn scale(a: float) -> float { let b: float = a; b * 2.5 }\nscale(-1) + 3 * 4" = .ok n ∧ n.Terminated ∧
      parseSource n.print = .ok m ∧ m.unplaced = n.unplaced := by
  have hread : Yields (fun n => ∀ x ∈ n.preorder, x.form.Terminated)
      (parseSource "fn scale(a: float) -> float { let b: float = a; b * 2.5 }\nscale(-1) + 3 * 4") := by
    decide +kernel
  obtain ⟨n, hn, ht⟩ := yields_iff.1 hread
  obtain ⟨m, hm, heq⟩ := ended_items_read_back hn ht
  exact ⟨n, m, hn, ht, hm, heq⟩

end LetFn
