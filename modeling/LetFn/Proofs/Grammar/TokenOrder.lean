import LetFn.Proofs.Token.Spelling

/-!
# The order of tokens in a tree

A walk over a tree in the order of its source comes by every token that the parser took, brackets and separators left
out. Where the tree keeps a token the walk meets that token; where only the shape of a node says that there was one, as
for the semicolon of a statement, it meets a mark.

* `Node.trail n` — what the walk over `n` meets;
* `Node.met n` — the same without the marks that nodes stand for, which leaves the `=` of an initialized variable;
* `Covers ms ts` — the walk that meets `ms` comes by the tokens `ts`.

Main facts: `Reads.accounts`, `met_eq`, `parse_accounts`.
-/

namespace LetFn

/-! ## walks in the order of the source -/

/-- What a walk meets: a token of the tree, or the place of a token that the tree leaves out. -/
inductive Met where
  | token (t : Token)
  | mark (k : Kind)
deriving DecidableEq, Repr

/-- Tokens that a node stands for. -/
def nodeMarks : List Kind := [.semicolon, .openCurly, .letWord, .fnWord]

/-- Tokens that leave no trace in a tree. -/
def separators : List Kind := [.openParen, .closeParen, .closeCurly, .comma, .colon, .arrow]

/-- Where the tree keeps a token it is that very token; at a mark stands any token of the kind. -/
def Met.Is : Met → Token → Prop
  | .token t, u => u = t
  | .mark k, u => u.kind = k

/-- The mark of this kind. -/
def Met.marks (k : Kind) : Met → Bool
  | .token _ => false
  | .mark l => l = k

/-- The marks of a node of this tag. -/
def Tag.marks : Tag → List Kind
  | .statement => [.semicolon]
  | .block => [.openCurly]
  | .functionDef => [.fnWord]
  | .variableDef => [.letWord]
  | _ => []

/-- A token of the tree, or the mark of an `=`. -/
def Met.isKept : Met → Bool
  | .token _ => true
  | .mark k => k ∉ nodeMarks

/-- The piece that was met; a mark has no value. -/
def Met.piece : Met → Piece
  | .token t => t.face
  | .mark k => ⟨k, none⟩

namespace Node

mutual

/-- What a walk in the order of the source meets. -/
def trail : Node → List Met
  | ⟨_, _, _, .literal token⟩ => [.token token]
  | ⟨_, _, _, .prefixOp operator operand⟩ => .token operator :: trail operand
  | ⟨_, _, _, .infixOp operator left right⟩ => trail left ++ .token operator :: trail right
  | ⟨_, _, _, .statement inner⟩ => trail inner ++ [.mark .semicolon]
  | ⟨_, _, _, .block items trailing⟩ => .mark .openCurly :: (trailItems items ++ trailOption trailing)
  | ⟨_, _, _, .functionDef name params result body⟩ =>
    .mark .fnWord :: .token name :: (trailParams params ++ trail result ++ trailOption body)
  | ⟨_, _, _, .functionCall callee arguments⟩ => trail callee ++ trailItems arguments
  | ⟨_, _, _, .variableDef name type initializer⟩ =>
    .mark .letWord :: (trail name ++ trail type ++ trailInitializer initializer)
  | ⟨_, _, _, .root items⟩ => trailItems items

def trailItems : List Node → List Met
  | [] => []
  | x :: xs => trail x ++ trailItems xs

def trailParams : List (Param Node) → List Met
  | [] => []
  | ⟨name, type⟩ :: ps => trail name ++ trail type ++ trailParams ps

def trailOption : Option Node → List Met
  | none => []
  | some x => trail x

def trailInitializer : Option Node → List Met
  | none => []
  | some x => .mark .assignment :: trail x

end

/-- What a walk meets without the marks that nodes stand for. -/
def met (n : Node) : List Met := n.trail.filter Met.isKept

/-! ## walks by children -/

theorem trailItems_eq (xs : List Node) : trailItems xs = xs.flatMap trail := by
  induction xs with
  | nil => rfl
  | cons x xs ih => rw [trailItems, ih, List.flatMap_cons]

theorem trailParams_eq (ps : List (Param Node)) :
    trailParams ps = (ps.flatMap fun p => [p.name, p.type]).flatMap trail := by
  induction ps with
  | nil => rfl
  | cons p ps ih => simp [trailParams, ih]

theorem trailOption_eq (x : Option Node) : trailOption x = x.toList.flatMap trail := by
  cases x <;> simp [trailOption]

theorem trailInitializer_eq (x : Option Node) :
    trailInitializer x = x.toList.flatMap fun x => .mark .assignment :: x.trail := by
  cases x <;> simp [trailInitializer]

theorem trail_eq (n : Node) : n.trail =
    match n.form with
    | .literal token => [.token token]
    | .prefixOp operator operand => .token operator :: operand.trail
    | .infixOp operator left right => left.trail ++ .token operator :: right.trail
    | .statement inner => inner.trail ++ [.mark .semicolon]
    | .block items trailing => .mark .openCurly :: (items ++ trailing.toList).flatMap trail
    | .functionDef name params result body =>
      .mark .fnWord :: .token name :: ((params.flatMap fun p => [p.name, p.type]).flatMap trail ++ result.trail ++
        body.toList.flatMap trail)
    | .functionCall callee arguments => callee.trail ++ arguments.flatMap trail
    | .variableDef name type initializer =>
      .mark .letWord :: (name.trail ++ type.trail ++
        initializer.toList.flatMap fun x => .mark .assignment :: x.trail)
    | .root items => items.flatMap trail := by
  obtain ⟨span, scope, type, form⟩ := n
  cases form <;>
    simp [trail, trailItems_eq, trailParams_eq, trailOption_eq, trailInitializer_eq]

/-- The walk, node by node. -/
theorem met_eq (n : Node) : n.met =
    match n.form with
    | .literal token => [.token token]
    | .prefixOp operator operand => .token operator :: operand.met
    | .infixOp operator left right => left.met ++ .token operator :: right.met
    | .statement inner => inner.met
    | .block items trailing => (items ++ trailing.toList).flatMap met
    | .functionDef name params result body =>
      .token name :: ((params.flatMap fun p => [p.name, p.type]).flatMap met ++ result.met ++ body.toList.flatMap met)
    | .functionCall callee arguments => callee.met ++ arguments.flatMap met
    | .variableDef name type initializer =>
      name.met ++ type.met ++ initializer.toList.flatMap fun x => .mark .assignment :: x.met
    | .root items => items.flatMap met := by
  unfold met
  rw [trail_eq]
  obtain ⟨span, scope, type, form⟩ := n
  cases form <;> simp [List.filter_flatMap, List.filter_cons, Met.isKept, nodeMarks]

/-! ## marks and nodes -/

section

attribute [local simp] Met.marks Tag.marks tag Form.tag children Form.parts List.countP_cons List.countP_flatMap
  List.count_singleton Function.comp_def

theorem countP_trail_eq (n : Node) {k : Kind} (hk : k ≠ .assignment) : n.trail.countP (Met.marks k) =
    n.tag.marks.count k + (n.children.map fun c => c.trail.countP (Met.marks k)).sum := by
  have hne : Kind.assignment ≠ k := hk.symm
  rw [trail_eq]
  obtain ⟨span, scope, type, form⟩ := n
  cases form with
  | literal | prefixOp | infixOp | functionCall | root => simp
  | statement => simp; omega
  | block => simp; omega
  | functionDef => simp; omega
  -- an initializer has the mark of its `=` in front
  | variableDef name type initializer => cases initializer <;> simp [hne] <;> omega

end

theorem count_tags_eq (n : Node) (k : Kind) : (n.tags.flatMap Tag.marks).count k =
    n.tag.marks.count k + (n.children.map fun c => (c.tags.flatMap Tag.marks).count k).sum := by
  unfold tags
  rw [preorder_eq, List.map_cons, List.flatMap_cons, List.count_append, List.map_flatMap, List.flatMap_assoc,
    List.count_flatMap]
  rfl

/-- The walk meets the marks of the nodes of the tree. -/
theorem countP_trail (n : Node) {k : Kind} (hk : k ≠ .assignment) :
    n.trail.countP (Met.marks k) = (n.tags.flatMap Tag.marks).count k := by
  induction n using childInduction with
  | step n ih =>
    rw [countP_trail_eq n hk, count_tags_eq, List.map_congr_left ih]

end Node

/-! ## tokens that a walk comes by -/

/-- The walk that meets `ms` comes by the tokens `ts`; the end of the source is none of them. -/
inductive Covers : List Met → List Token → Prop where
  | nil : Covers [] []
  | token {t ms ts} (kind : t.kind ∉ .eof :: nodeMarks ++ separators) (more : Covers ms ts) :
      Covers (.token t :: ms) (t :: ts)
  | mark {t ms ts} (kind : t.kind ∈ .assignment :: nodeMarks) (more : Covers ms ts) :
      Covers (.mark t.kind :: ms) (t :: ts)
  | skip {t ms ts} (kind : t.kind ∈ separators) (more : Covers ms ts) : Covers ms (t :: ts)

namespace Covers

variable {ms ns : List Met} {ts us : List Token}

theorem append (h : Covers ms ts) (h' : Covers ns us) : Covers (ms ++ ns) (ts ++ us) := by
  induction h with
  | nil => exact h'
  | token kind _ ih => exact .token kind ih
  | mark kind _ ih => exact .mark kind ih
  | skip kind _ ih => exact .skip kind ih

theorem kind_ne_eof (h : Covers ms ts) : ∀ t ∈ ts, t.kind ≠ .eof := by
  have hmarks : Kind.eof ∉ Kind.assignment :: nodeMarks := by decide
  have hseparators : Kind.eof ∉ separators := by decide
  induction h with
  | nil => exact fun t ht => absurd ht List.not_mem_nil
  | token kind _ ih => exact List.forall_mem_cons.2 ⟨fun he => kind (he ▸ List.mem_cons_self), ih⟩
  | mark kind _ ih => exact List.forall_mem_cons.2 ⟨fun he => hmarks (he ▸ kind), ih⟩
  | skip kind _ ih => exact List.forall_mem_cons.2 ⟨fun he => hseparators (he ▸ kind), ih⟩

/-- Without the marks of nodes, what is met are the tokens that are left without those and the separators. -/
theorem kept (h : Covers ms ts) :
    List.Forall₂ Met.Is (ms.filter Met.isKept) (ts.filter fun t => t.kind ∉ nodeMarks ++ separators) := by
  induction h with
  | nil => exact .nil
  | @token t ms ts kind _ ih =>
    have hkind : t.kind ∉ nodeMarks ++ separators := fun he => kind (List.mem_cons_of_mem _ he)
    rw [List.filter_cons_of_pos (by rfl), List.filter_cons_of_pos (by simpa using hkind)]
    exact .cons rfl ih
  | @mark t ms ts kind _ ih =>
    rcases List.mem_cons.1 kind with hequals | hmark
    · rw [List.filter_cons_of_pos (by rw [hequals]; rfl), List.filter_cons_of_pos (by rw [hequals]; rfl)]
      exact .cons rfl ih
    · rwa [List.filter_cons_of_neg (by simp [Met.isKept, hmark]), List.filter_cons_of_neg (by simp [hmark])]
  | @skip t ms ts kind _ ih => rwa [List.filter_cons_of_neg (by simp [kind])]

/-- There are as many marks of a node as there are tokens of their kind. -/
theorem countP_eq {k : Kind} (h : Covers ms ts) (hk : k ∈ nodeMarks) :
    ms.countP (Met.marks k) = ts.countP (·.kind = k) := by
  induction h with
  | nil => rfl
  | @token t ms ts kind _ ih =>
    have hne : t.kind ≠ k := fun he => kind (by simp [he, hk])
    rw [List.countP_cons_of_neg (by simp [Met.marks]), List.countP_cons_of_neg (by simp [hne]), ih]
  | @mark t ms ts kind _ ih => rw [List.countP_cons, List.countP_cons, ih, Met.marks]
  | @skip t ms ts kind _ ih =>
    have hdisjoint : ∀ k ∈ nodeMarks, k ∉ separators := by decide
    have hne : t.kind ≠ k := fun he => hdisjoint k hk (he ▸ kind)
    rw [List.countP_cons_of_neg (by simp [hne]), ih]

/-- If no `=` has a value, what is met are the pieces of the tokens. -/
theorem pieces (h : Covers ms ts) (hvalue : ∀ t ∈ ts, t.kind = .assignment → t.value = none) :
    (ms.filter Met.isKept).map Met.piece =
      (ts.filter fun t => t.kind ∉ nodeMarks ++ separators).map Token.face := by
  induction h with
  | nil => rfl
  | @token t ms ts kind _ ih =>
    have hkind : t.kind ∉ nodeMarks ++ separators := fun he => kind (List.mem_cons_of_mem _ he)
    rw [List.filter_cons_of_pos (by rfl), List.filter_cons_of_pos (by simpa using hkind), List.map_cons, List.map_cons,
      ih fun u hu => hvalue u (List.mem_cons_of_mem _ hu)]
    rfl
  | @mark t ms ts kind _ ih =>
    have ih := ih fun u hu => hvalue u (List.mem_cons_of_mem _ hu)
    rcases List.mem_cons.1 kind with hequals | hmark
    · rw [List.filter_cons_of_pos (by rw [hequals]; rfl), List.filter_cons_of_pos (by rw [hequals]; rfl),
        List.map_cons, List.map_cons, ih, Met.piece, Token.face, hvalue t List.mem_cons_self hequals]
    · rwa [List.filter_cons_of_neg (by simp [Met.isKept, hmark]), List.filter_cons_of_neg (by simp [hmark])]
  | @skip t ms ts kind _ ih =>
    rw [List.filter_cons_of_neg (by simp [kind]), ih fun u hu => hvalue u (List.mem_cons_of_mem _ hu)]

/-- The nodes of a tag are counted by the tokens of the mark that only they leave. -/
theorem count_tags {n : Node} {tag : Tag} {k : Kind} (h : Covers n.trail ts) (hk : k ∈ nodeMarks)
    (htag : ∀ t : Tag, t.marks.count k = if t = tag then 1 else 0) : n.tags.count tag = ts.countP (·.kind = k) := by
  have hcount : ∀ tags : List Tag, (tags.flatMap Tag.marks).count k = tags.count tag := by
    intro tags
    induction tags with
    | nil => rfl
    | cons t tags ih => simp [List.count_cons, htag, ih, Nat.add_comm]
  have hne : k ≠ .assignment := by
    rintro rfl
    revert hk
    decide
  rw [← h.countP_eq hk, n.countP_trail hne, hcount]

end Covers

/-! ## every reading accounts for its tokens -/

namespace Grammar

/-- The trees that a phrase stands for. -/
def Phrase.trees : Phrase → List Node
  | .expression _ n | .item n | .opening n | .extensions _ _ n => [n]
  | .items _ ns | .arguments ns => ns
  | .parameters ps => ps.flatMap fun p => [p.name, p.type]

/-- The tree that was there before the phrase began. -/
def Phrase.before : Phrase → List Node
  | .extensions _ left _ => [left]
  | _ => []

/-- The tokens that a reading takes are those that a walk comes by, behind the tree that was there before. -/
def Accounts (φ : Phrase) (ts us : List Token) : Prop :=
  ∃ ds ms, ts = ds ++ us ∧ φ.trees.flatMap Node.trail = φ.before.flatMap Node.trail ++ ms ∧ Covers ms ds

theorem Accounts.of_covers {φ : Phrase} {ts us : List Token} (ds : List Token) (hts : ts = ds ++ us)
    (hbefore : φ.before = []) (h : Covers (φ.trees.flatMap Node.trail) ds) : Accounts φ ts us :=
  ⟨ds, _, hts, by rw [hbefore]; rfl, h⟩

theorem Accounts.covers {φ : Phrase} {ts us : List Token} (h : Accounts φ ts us) (hbefore : φ.before = []) :
    ∃ ds, ts = ds ++ us ∧ Covers (φ.trees.flatMap Node.trail) ds := by
  obtain ⟨ds, ms, hts, htrail, hcovers⟩ := h
  rw [hbefore] at htrail
  exact ⟨ds, hts, htrail ▸ hcovers⟩

section

variable {t : Token} {ms : List Met} {ts : List Token} {k : Kind}

theorem covers_primary (hk : t.kind ∈ primaryKinds) (more : Covers ms ts) : Covers (.token t :: ms) (t :: ts) := by
  have hkinds : ∀ k ∈ primaryKinds, k ∉ .eof :: nodeMarks ++ separators := by decide
  exact .token (hkinds _ hk) more

theorem covers_operator (hk : t.kind ∈ [.assignment, .dash, .not]) (more : Covers ms ts) :
    Covers (.token t :: ms) (t :: ts) := by
  have hkinds : ∀ k ∈ [Kind.assignment, .dash, .not], k ∉ .eof :: nodeMarks ++ separators := by decide
  exact .token (hkinds _ hk) more

theorem covers_binary {power : Power} (hrule : standard.infixRule? t.kind = some (power, .binary))
    (more : Covers ms ts) : Covers (.token t :: ms) (t :: ts) := by
  have hkinds : ∀ k, standard.infixRule? k = some (power, .binary) → k ∉ .eof :: nodeMarks ++ separators := by
    intro k
    cases k <;> simp [standard, nodeMarks, separators]
  exact .token (hkinds _ hrule) more

theorem covers_name (hk : t.kind = .identifier) (more : Covers ms ts) : Covers (.token t :: ms) (t :: ts) :=
  covers_primary (hk ▸ List.mem_cons_self) more

theorem covers_mark (h : t.kind = k) (hk : k ∈ .assignment :: nodeMarks) (more : Covers ms ts) :
    Covers (.mark k :: ms) (t :: ts) := by
  subst h
  exact .mark hk more

theorem covers_skip (h : t.kind = k) (hk : k ∈ separators) (more : Covers ms ts) : Covers ms (t :: ts) :=
  .skip (h ▸ hk) more

end

attribute [local simp] Node.trail Node.trailItems_eq Node.trailParams_eq Node.trailOption_eq Node.trailInitializer_eq

/-- An expression and the extensions behind it account for their tokens one after the other. -/
theorem Accounts.extend {least : Power} {x n : Node} {ts us vs : List Token} (hx : Accounts (.opening x) ts us)
    (hn : Accounts (.extensions least x n) us vs) : Accounts (.opening n) ts vs := by
  obtain ⟨ds, rfl, hds⟩ := hx.covers rfl
  obtain ⟨es, ms, rfl, hn, hms⟩ := hn
  refine .of_covers (ds ++ es) (by simp) rfl ?_
  exact (show _ = _ from hn) ▸ hds.append hms

theorem Accounts.infixOp {least power : Power} {operator : Token} {left right n : Node} {span : Span}
    {ts us vs : List Token} (hoperator : ∀ {ms ts}, Covers ms ts → Covers (.token operator :: ms) (operator :: ts))
    (hright : Accounts (.expression power right) ts us)
    (hn : Accounts (.extensions least { span, form := .infixOp operator left right } n) us vs) :
    Accounts (.extensions least left n) (operator :: ts) vs := by
  obtain ⟨ds, rfl, hds⟩ := hright.covers rfl
  obtain ⟨es, ms, rfl, hn, hms⟩ := hn
  refine ⟨operator :: ds ++ es, .token operator :: right.trail ++ ms, by simp, ?_, ?_⟩
  · rw [Phrase.trees] at hn ⊢
    simpa [Phrase.before] using hn
  · simpa [Phrase.trees] using hoperator (hds.append hms)

theorem Reads.accounts {φ : Phrase} {ts us : List Token} (h : Reads φ ts us) : Accounts φ ts us := by
  induction h with
  | expression _ _ ihs ihm => exact ihs.extend ihm
  | closedItem _ _ ih => exact ih
  | openItem _ _ _ ihs ihm => exact ihs.extend ihm
  | @primary t ts kind => exact .of_covers [t] rfl rfl (covers_primary kind .nil)
  | @operator t x span ts us kind _ _ ih =>
    obtain ⟨ds, rfl, hx⟩ := ih.covers rfl
    refine .of_covers (t :: ds) rfl rfl ?_
    simpa [Phrase.trees] using covers_operator (by rcases kind with h | h <;> simp [h]) hx
  | @grouping o c x span ts us opener _ closer _ ih =>
    obtain ⟨ds, rfl, hx⟩ := ih.covers rfl
    refine .of_covers (o :: ds ++ [c]) (by simp) rfl ?_
    have htrail : ({ x with span } : Node).trail = x.trail := by rw [Node.trail_eq, Node.trail_eq]
    have := covers_skip opener (by decide) (hx.append (covers_skip closer (by decide) .nil))
    simpa [Phrase.trees, htrail] using this
  | @block o c xs span ts us opener _ closer _ ih =>
    obtain ⟨ds, rfl, hx⟩ := ih.covers rfl
    obtain ⟨items, trailing, hform, rfl, -⟩ := Form.exists_of_ofItems xs
    refine .of_covers (o :: ds ++ [c]) (by simp) rfl ?_
    have := covers_mark opener (by decide) (hx.append (covers_skip closer (by decide) .nil))
    simpa [Phrase.trees, hform] using this
  | @prototype word name o c arrow result ps span ts us fnWord identifier opener _ closer arrow_kind result_kind _ _ ih =>
    obtain ⟨ds, rfl, hps⟩ := ih.covers rfl
    refine .of_covers (word :: name :: o :: ds ++ [c, arrow, result]) (by simp) rfl ?_
    have hend := covers_skip closer (by decide) (covers_skip arrow_kind (by decide) (covers_name result_kind .nil))
    have := covers_mark fnWord (by decide) (covers_name identifier (covers_skip opener (by decide) (hps.append hend)))
    simpa [Phrase.trees, Node.leaf] using this
  | @definition word name o c arrow result ps body span ts us vs fnWord identifier opener _ closer arrow_kind result_kind
      _ _ _ ih ihb =>
    obtain ⟨ds, rfl, hps⟩ := ih.covers rfl
    obtain ⟨es, rfl, hb⟩ := ihb.covers rfl
    refine .of_covers (word :: name :: o :: ds ++ [c, arrow, result] ++ es) (by simp) rfl ?_
    have hend := covers_skip closer (by decide) (covers_skip arrow_kind (by decide) (covers_name result_kind hb))
    have := covers_mark fnWord (by decide) (covers_name identifier (covers_skip opener (by decide) (hps.append hend)))
    simpa [Phrase.trees, Node.leaf] using this
  | @declaration word name colon type span us letWord identifier colon_kind type_kind _ _ =>
    refine .of_covers [word, name, colon, type] rfl rfl ?_
    have := covers_name identifier (covers_skip colon_kind (by decide) (covers_name type_kind .nil))
    simpa [Phrase.trees, Node.leaf] using covers_mark letWord (by decide) this
  | @initialization word name colon type equals x span us vs letWord identifier colon_kind type_kind assignment _ _ ih =>
    obtain ⟨ds, rfl, hx⟩ := ih.covers rfl
    refine .of_covers (word :: name :: colon :: type :: equals :: ds) rfl rfl ?_
    have := covers_name type_kind (covers_mark assignment (by decide) hx)
    have := covers_name identifier (covers_skip colon_kind (by decide) this)
    simpa [Phrase.trees, Node.leaf] using covers_mark letWord (by decide) this
  | stop => exact ⟨[], [], rfl, by simp [Phrase.trees, Phrase.before], .nil⟩
  | binary rule _ _ _ _ ihr ihm => exact .infixOp (covers_binary rule) ihr ihm
  | assignment kind _ _ _ _ ihr ihm => exact .infixOp (covers_operator (by simp [kind])) ihr ihm
  | @call least o c left n xs span ts us vs opener _ closer _ _ iha ihm =>
    obtain ⟨ds, rfl, ha⟩ := iha.covers rfl
    obtain ⟨es, ms, rfl, hn, hm⟩ := ihm
    refine ⟨o :: ds ++ c :: es, xs.flatMap Node.trail ++ ms, by simp, ?_, ?_⟩
    · rw [Phrase.trees] at hn ⊢
      simpa [Phrase.before] using hn
    · exact covers_skip opener (by decide) (ha.append (covers_skip closer (by decide) hm))
  | @statement least t left span ts kind _ _ =>
    refine ⟨[t], [.mark .semicolon], rfl, by simp [Phrase.trees, Phrase.before], ?_⟩
    exact covers_mark kind (by decide) .nil
  | noItems | noArguments | noParameters => exact .of_covers [] rfl rfl .nil
  | moreItems _ _ _ _ ihf iho =>
    obtain ⟨ds, rfl, hf⟩ := ihf.covers rfl
    obtain ⟨es, rfl, ho⟩ := iho.covers rfl
    exact .of_covers (ds ++ es) (by simp) rfl (by simpa [Phrase.trees] using hf.append ho)
  | lastArgument _ _ _ _ ih => exact ih
  | @moreArguments comma x xs ts us vs _ _ _ comma_kind _ ihf iho =>
    obtain ⟨ds, rfl, hf⟩ := ihf.covers rfl
    obtain ⟨es, rfl, ho⟩ := iho.covers rfl
    refine .of_covers (ds ++ comma :: es) (by simp) rfl ?_
    simpa [Phrase.trees] using hf.append (covers_skip comma_kind (by decide) ho)
  | @lastParameter name colon type us identifier colon_kind type_kind _ =>
    refine .of_covers [name, colon, type] rfl rfl ?_
    exact covers_name identifier (covers_skip colon_kind (by decide) (covers_name type_kind .nil))
  | @moreParameters name colon type comma ps us vs identifier colon_kind type_kind comma_kind _ ih =>
    obtain ⟨ds, rfl, hp⟩ := ih.covers rfl
    refine .of_covers (name :: colon :: type :: comma :: ds) rfl rfl ?_
    have := covers_name type_kind (covers_skip comma_kind (by decide) hp)
    simpa [Phrase.trees, Node.leaf] using covers_name identifier (covers_skip colon_kind (by decide) this)

/-- Where the items end there are no tokens left, or the end of the source. -/
theorem Reads.front_of_items {xs : List Node} {close : Kind} {ts us : List Token} (h : Reads (.items close xs) ts us) :
    front us = close := by
  generalize hφ : Phrase.items close xs = φ at h
  induction h generalizing xs with
  | noItems closed => cases hφ; exact closed
  | moreItems _ _ _ _ _ ih => cases hφ; exact ih rfl
  | _ => cases hφ

end Grammar

/-! ## programs -/

/-- The tokens before the first end of the source. -/
def beforeEnd (tokens : List Token) : List Token := tokens.takeWhile (·.kind ≠ .eof)

/-- The tokens before the first end of the source that a tree does not drop. -/
def keptTokens (tokens : List Token) : List Token :=
  (beforeEnd tokens).filter fun t => t.kind ∉ nodeMarks ++ separators

theorem beforeEnd_append {ds us : List Token} (hds : ∀ t ∈ ds, t.kind ≠ .eof) (hus : front us = .eof) :
    beforeEnd (ds ++ us) = ds := by
  have hpos : ∀ t ∈ ds, decide (t.kind ≠ .eof) = true := by simpa using hds
  unfold beforeEnd
  rw [List.takeWhile_append_of_pos hpos]
  cases us with
  | nil => simp
  | cons u us => simp [show u.kind = .eof from hus]

/-- How the tokens of a program and its tree hang together. -/
structure Accounted (tokens : List Token) (root : Node) : Prop where
  /-- A walk meets the tokens that are kept, one by one in their order. -/
  inOrder : List.Forall₂ Met.Is root.met (keptTokens tokens)
  /-- Only the `=` of an initialized variable is not in the tree, so the walk meets the tokens with their values if the
  `=` have none. -/
  pieces : (∀ t ∈ beforeEnd tokens, t.kind = .assignment → t.value = none) →
    root.met.map Met.piece = (keptTokens tokens).map Token.face
  statements : root.tags.count .statement = (beforeEnd tokens).countP (·.kind = .semicolon)
  blocks : root.tags.count .block = (beforeEnd tokens).countP (·.kind = .openCurly)
  variableDefs : root.tags.count .variableDef = (beforeEnd tokens).countP (·.kind = .letWord)
  functionDefs : root.tags.count .functionDef = (beforeEnd tokens).countP (·.kind = .fnWord)

/-- **The parser neither loses, duplicates nor reorders tokens.** -/
theorem parse_accounts {tokens : List Token} {length : Nat} {root : Node} (h : parse tokens length = .ok root) :
    Accounted tokens root := by
  obtain ⟨xs, us, rfl, r⟩ := reads_of_parse h
  obtain ⟨ds, rfl, hcovers⟩ := r.accounts.covers rfl
  have hbefore : beforeEnd (ds ++ us) = ds := beforeEnd_append hcovers.kind_ne_eof r.front_of_items
  have hroot : Covers (Node.trail { span := ⟨0, length⟩, form := .root xs }) ds := by
    rw [Node.trail_eq]
    exact hcovers
  constructor
  case inOrder => simpa only [keptTokens, hbefore, Node.met] using hroot.kept
  case pieces => simpa only [keptTokens, hbefore, Node.met] using hroot.pieces
  all_goals
    rw [hbefore]
    refine hroot.count_tags (by decide) fun t => ?_
    cases t <;> rfl

/-- A block with a statement and a value, and a token behind the end of the source. -/
theorem parse_accounts_block :
    let tokens : List Token := [(.openCurly, none), (.letWord, none), (.identifier, some (.str "x")), (.colon, none),
      (.identifier, some (.str "int")), (.assignment, none), (.dash, none), (.integer, some (.int 1)), (.semicolon, none),
      (.identifier, some (.str "x")), (.closeCurly, none), (.eof, none), (.comma, none)].mapIdx
        fun i (kind, value) => ⟨kind, value, ⟨i, i + 1⟩⟩
    ∃ root, parse tokens 13 = .ok root ∧ root.tags.length = 9 ∧ Accounted tokens root := by
  intro tokens
  have hparse : Yields (fun root => root.tags.length = 9) (parse tokens 13) := by decide +kernel
  obtain ⟨root, h, htags⟩ := yields_iff.1 hparse
  exact ⟨root, h, htags, parse_accounts h⟩

end LetFn
