import LetFn.Proofs.Grammar.Reading
import LetFn.Token.Scan

/-!
# Trees that were read

* `Form.Shaped form` — what the grammar says about one form: which tokens stand where, where names stand, that bodies
  are blocks and that the value of a block is an expression;
* `Node.declared n` — the spans of the names that the definitions in a tree declare, those of parameters included.

Main facts: `shaped_of_parseSource` (every node of a program is shaped), `declared_nodup_of_parseSource` (no two names
are declared at one place).
-/

namespace LetFn

namespace Node

/-- A leaf that holds an identifier. -/
def IsName (n : Node) : Prop := ∃ t : Token, t.kind = .identifier ∧ n.form = .literal t

/-- The spans of the names that the node itself declares. -/
def ownNames (n : Node) : List Span :=
  match n.form with
  | .functionDef name params _ _ => name.span :: params.map (·.name.span)
  | .variableDef name _ _ => [name.span]
  | _ => []

/-- The spans of all names that the tree declares. -/
def declared (n : Node) : List Span := n.preorder.flatMap ownNames

theorem declared_eq (n : Node) : n.declared = n.ownNames ++ n.children.flatMap declared := by
  unfold declared
  rw [preorder_eq, List.flatMap_cons, List.flatMap_assoc]

theorem declared_of_isName {n : Node} (h : IsName n) : n.declared = [] := by
  obtain ⟨t, -, hform⟩ := h
  rw [declared_eq]
  simp [ownNames, children, hform, Form.parts]

end Node

namespace Form

/-- The tokens, names and bodies are where the grammar wants them. -/
def Shaped : Form Node → Prop
  | .literal t => t.kind ∈ Grammar.primaryKinds
  | .prefixOp op _ => op.kind = .dash ∨ op.kind = .not
  | .infixOp op _ _ => op.kind = .assignment ∨ ∃ power, Grammar.standard.infixRule? op.kind = some (power, .binary)
  | .block items trailing =>
    (∀ x ∈ trailing, x.isExpression = true) ∧ (trailing = none → ∀ x ∈ items.getLast?, x.isExpression = false)
  | .functionDef name params result body =>
    name.kind = .identifier ∧ (∀ p ∈ params, p.name.IsName ∧ p.type.IsName) ∧ result.IsName ∧
      ∀ b ∈ body, b.tag = .block
  | .variableDef name type _ => name.IsName ∧ type.IsName
  | _ => True

theorem exists_of_ofItems (xs : List Node) : ∃ items trailing, ofItems xs = .block items trailing ∧
    items ++ trailing.toList = xs ∧ (ofItems xs).Shaped := by
  unfold ofItems
  cases hlast : xs.getLast? with
  | none =>
    obtain rfl := List.getLast?_eq_none_iff.1 hlast
    exact ⟨[], none, rfl, rfl, by simp [Shaped]⟩
  | some x =>
    by_cases hx : x.isExpression
    · refine ⟨xs.dropLast, some x, by simp [hx], ?_, by simp [hx, Shaped]⟩
      rw [Option.toList_some, List.dropLast_append_getLast? x hlast]
    · refine ⟨xs, none, by simp [hx], by simp, ?_⟩
      have : ∀ y ∈ xs.getLast?, y.isExpression = false := by
        intro y hy
        obtain rfl := Option.some.inj (hlast.symm.trans hy)
        simpa using hx
      simpa [hx, Shaped] using this

end Form

/-! ## every node of a reading is shaped -/

namespace Grammar

open Node (Everywhere IsName)

/-- A node whose form is shaped. -/
abbrev ShapedNode (n : Node) : Prop := n.form.Shaped

/-- What a phrase that was read tells about the shapes of its nodes. -/
def Phrase.Shaped : Phrase → Prop
  | .expression _ n | .item n | .opening n => Everywhere ShapedNode n
  | .extensions _ left n => Everywhere ShapedNode left → Everywhere ShapedNode n
  | .items _ ns | .arguments ns => ∀ n ∈ ns, Everywhere ShapedNode n
  | .parameters ps => ∀ p ∈ ps, p.name.IsName ∧ p.type.IsName

theorem isName_leaf {t : Token} (h : t.kind = .identifier) : IsName (.leaf t) := ⟨t, h, rfl⟩

theorem everywhere_leaf {t : Token} (h : t.kind ∈ primaryKinds) : Everywhere ShapedNode (.leaf t) :=
  Node.everywhere_iff.2 ⟨h, by simp [Node.leaf, Node.children, Form.parts]⟩

theorem everywhere_name {n : Node} (h : IsName n) : Everywhere ShapedNode n := by
  obtain ⟨t, ht, hform⟩ := h
  refine Node.everywhere_iff.2 ⟨?_, by simp [Node.children, hform, Form.parts]⟩
  simp [ShapedNode, hform, Form.Shaped, ht, primaryKinds]

theorem everywhere_functionDef {span : Span} {name : Token} {ps : List (Param Node)} {result : Node}
    {body : Option Node} (hname : name.kind = .identifier) (hps : ∀ p ∈ ps, p.name.IsName ∧ p.type.IsName)
    (hresult : result.IsName) (hbody : ∀ b ∈ body, b.tag = .block ∧ Everywhere ShapedNode b) :
    Everywhere ShapedNode { span, form := .functionDef name ps result body } := by
  refine Node.everywhere_iff.2 ⟨⟨hname, hps, hresult, fun b hb => (hbody b hb).1⟩, Form.forall_functionDef.2 ⟨?_, ?_, ?_⟩⟩
  · exact fun p hp => ⟨everywhere_name (hps p hp).1, everywhere_name (hps p hp).2⟩
  · exact fun b hb => (hbody b hb).2
  · exact everywhere_name hresult

theorem everywhere_variableDef {span : Span} {name type : Token} {initializer : Option Node}
    (hname : name.kind = .identifier) (htype : type.kind = .identifier)
    (hinitializer : ∀ x ∈ initializer, Everywhere ShapedNode x) :
    Everywhere ShapedNode { span, form := .variableDef (.leaf name) (.leaf type) initializer } :=
  Node.everywhere_iff.2 ⟨⟨isName_leaf hname, isName_leaf htype⟩, Form.forall_variableDef.2
    ⟨everywhere_name (isName_leaf hname), everywhere_name (isName_leaf htype), hinitializer⟩⟩

theorem everywhere_infixOp {span : Span} {operator : Token} {left right : Node}
    (hoperator : operator.kind = .assignment ∨ ∃ power, standard.infixRule? operator.kind = some (power, .binary))
    (hleft : Everywhere ShapedNode left) (hright : Everywhere ShapedNode right) :
    Everywhere ShapedNode { span, form := .infixOp operator left right } :=
  Node.everywhere_iff.2 ⟨hoperator, Form.forall_infixOp.2 ⟨hleft, hright⟩⟩

/-- A block is the only thing that begins with an opening brace. -/
theorem Reads.tag_of_openCurly {φ : Phrase} {ts us : List Token} (h : Reads φ ts us) {n : Node}
    (hφ : φ = .opening n) (hts : front ts = .openCurly) : n.tag = .block := by
  cases h with
  | block =>
    obtain rfl := Phrase.opening.inj hφ
    obtain ⟨items, trailing, h, -, -⟩ := Form.exists_of_ofItems ‹_›
    simp [Node.tag, h, Form.tag]
  | primary kind =>
    rw [front_cons] at hts
    rw [hts] at kind
    exact absurd kind (by decide)
  | _ => simp_all

theorem Reads.shaped {φ : Phrase} {ts us : List Token} (h : Reads φ ts us) : φ.Shaped := by
  induction h with
  | expression _ _ ihs ihm => exact ihm ihs
  | closedItem _ _ ih => exact ih
  | openItem _ _ _ ihs ihm => exact ihm ihs
  | primary kind => exact everywhere_leaf kind
  | operator kind _ _ ih => exact Node.everywhere_iff.2 ⟨kind, List.forall_mem_singleton.2 ih⟩
  | grouping _ _ _ _ ih =>
    have h := Node.everywhere_iff.1 ih
    exact Node.everywhere_iff.2 h
  | @block o c xs span _ _ _ _ _ _ ih =>
    obtain ⟨items, trailing, hform, rfl, hshaped⟩ := Form.exists_of_ofItems xs
    refine Node.everywhere_iff.2 ⟨hshaped, fun x hx => ?_⟩
    rw [Node.children, hform] at hx
    exact ih x hx
  | prototype _ identifier _ _ _ _ result_kind _ _ ih =>
    exact everywhere_functionDef identifier ih (isName_leaf result_kind) (by simp)
  | definition _ identifier _ _ _ _ result_kind braced body_reads _ ih ihb =>
    refine everywhere_functionDef identifier ih (isName_leaf result_kind) fun b hb => ?_
    obtain rfl := Option.some.inj hb
    exact ⟨body_reads.tag_of_openCurly rfl braced, ihb⟩
  | declaration _ identifier _ type_kind _ _ => exact everywhere_variableDef identifier type_kind (by simp)
  | initialization _ identifier _ type_kind _ _ _ ih =>
    exact everywhere_variableDef identifier type_kind fun x hx => Option.some.inj hx ▸ ih
  | stop => exact fun h => h
  | binary rule _ _ _ _ ihr ihm => exact fun hl => ihm (everywhere_infixOp (.inr ⟨_, rule⟩) hl ihr)
  | assignment kind _ _ _ _ ihr ihm => exact fun hl => ihm (everywhere_infixOp (.inl kind) hl ihr)
  | call _ _ _ _ _ iha ihm =>
    exact fun hl => ihm (Node.everywhere_iff.2 ⟨trivial, Form.forall_functionCall.2 ⟨hl, iha⟩⟩)
  | statement => exact fun hl => Node.everywhere_iff.2 ⟨trivial, List.forall_mem_singleton.2 hl⟩
  | noItems | noArguments | noParameters => exact List.forall_mem_nil _
  | moreItems _ _ _ _ ihf iho | moreArguments _ _ _ _ _ ihf iho => exact List.forall_mem_cons.2 ⟨ihf, iho⟩
  | lastArgument _ _ _ _ ih => exact List.forall_mem_singleton.2 ih
  | lastParameter identifier _ type_kind _ =>
    exact List.forall_mem_singleton.2 ⟨isName_leaf identifier, isName_leaf type_kind⟩
  | moreParameters identifier _ type_kind _ _ ih =>
    exact List.forall_mem_cons.2 ⟨⟨isName_leaf identifier, isName_leaf type_kind⟩, ih⟩

/-! ## declared names stand at tokens of their own -/

/-- The spans of the names that a phrase declares. -/
def Phrase.declared : Phrase → List Span
  | .expression _ n | .item n | .opening n => n.declared
  | .extensions _ _ _ => []
  | .items _ ns | .arguments ns => ns.flatMap Node.declared
  | .parameters ps => ps.map (·.name.span)

/-- The names that a phrase declares stand at tokens that it took, in their order; an extension adds to the names that
were there before. -/
def Declares (φ : Phrase) (ts us : List Token) : Prop :=
  ∃ ds, ts = ds ++ us ∧
    match φ with
    | .extensions _ left n => ∃ more, n.declared = left.declared ++ more ∧ more.Sublist (ds.map (·.span))
    | φ => φ.declared.Sublist (ds.map (·.span))

theorem Declares.opening {n : Node} {ts us : List Token} (ds : List Token) (hts : ts = ds ++ us)
    (h : n.declared.Sublist (ds.map (·.span))) : Declares (.opening n) ts us := ⟨ds, hts, h⟩

theorem declared_leaf (t : Token) : (Node.leaf t).declared = [] := by
  rw [Node.declared_eq]
  rfl

theorem declared_functionDef {span : Span} {name : Token} {ps : List (Param Node)} {result : Node}
    {body : Option Node} (hps : ∀ p ∈ ps, p.name.IsName ∧ p.type.IsName) (hresult : result.IsName) :
    ({ span, form := .functionDef name ps result body } : Node).declared =
      name.span :: ps.map (·.name.span) ++ body.toList.flatMap Node.declared := by
  have hnames : (ps.flatMap fun p => [p.name, p.type]).flatMap Node.declared = [] := by
    refine List.flatMap_eq_nil_iff.2 fun c hc => ?_
    obtain ⟨p, hp, hc⟩ := List.mem_flatMap.1 hc
    simp only [List.mem_cons, List.not_mem_nil, or_false] at hc
    rcases hc with rfl | rfl
    · exact Node.declared_of_isName (hps p hp).1
    · exact Node.declared_of_isName (hps p hp).2
  rw [Node.declared_eq]
  simp [Node.ownNames, Node.children, Form.parts, List.flatMap_append, hnames, Node.declared_of_isName hresult]

theorem declared_variableDef {span : Span} {name type : Token} {initializer : Option Node} :
    ({ span, form := .variableDef (.leaf name) (.leaf type) initializer } : Node).declared =
      name.span :: initializer.toList.flatMap Node.declared := by
  rw [Node.declared_eq]
  simp only [Node.ownNames, Node.children, Form.parts, List.flatMap_cons, declared_leaf, List.nil_append]
  rfl

/-- Behind its beginning an expression has the names that the extensions add. -/
theorem Declares.extend {least : Power} {x n : Node} {ts us vs : List Token} (hx : Declares (.opening x) ts us)
    (hn : Declares (.extensions least x n) us vs) : Declares (.opening n) ts vs := by
  obtain ⟨ds, rfl, hx⟩ := hx
  obtain ⟨es, rfl, more, hn, hmore⟩ := hn
  refine .opening (ds ++ es) (by simp) ?_
  rw [hn, List.map_append]
  exact hx.append hmore

theorem Declares.infixOp {least power : Power} {operator : Token} {left right n : Node} {span : Span}
    {ts us vs : List Token} (hright : Declares (.expression power right) ts us)
    (hn : Declares (.extensions least { span, form := .infixOp operator left right } n) us vs) :
    Declares (.extensions least left n) (operator :: ts) vs := by
  obtain ⟨ds, rfl, hright⟩ := hright
  obtain ⟨es, rfl, more, hn, hmore⟩ := hn
  refine ⟨operator :: ds ++ es, by simp, right.declared ++ more, ?_, ?_⟩
  · rw [hn, Node.declared_eq]
    simp [Node.ownNames, Node.children, Form.parts]
  · simpa [Phrase.declared] using (hright.append hmore).cons operator.span

theorem Reads.declares {φ : Phrase} {ts us : List Token} (h : Reads φ ts us) : Declares φ ts us := by
  induction h with
  | expression _ _ ihs ihm => exact ihs.extend ihm
  | closedItem _ _ ih => exact ih
  | openItem _ _ _ ihs ihm => exact ihs.extend ihm
  | @primary t ts => exact .opening [t] rfl (by simp [declared_leaf])
  | @operator t x span ts us _ _ _ ih =>
    obtain ⟨ds, rfl, hx⟩ := ih
    refine .opening (t :: ds) rfl ?_
    rw [Node.declared_eq]
    simpa [Node.ownNames, Node.children, Form.parts, Phrase.declared] using hx.cons t.span
  | @grouping o c x span ts us _ _ _ _ ih =>
    obtain ⟨ds, rfl, hx⟩ := ih
    refine .opening (o :: ds ++ [c]) (by simp) ?_
    have : ({ x with span } : Node).declared = x.declared := by
      rw [Node.declared_eq, Node.declared_eq]
      rfl
    rw [this]
    simpa [Phrase.declared] using (hx.trans (List.sublist_append_left _ [c.span])).cons o.span
  | @block o c xs span ts us _ _ _ _ ih =>
    obtain ⟨ds, rfl, hx⟩ := ih
    obtain ⟨items, trailing, hform, rfl, -⟩ := Form.exists_of_ofItems xs
    refine .opening (o :: ds ++ [c]) (by simp) ?_
    rw [Node.declared_eq]
    simp only [Node.ownNames, Node.children, hform, List.nil_append]
    exact ((hx.trans (List.sublist_append_left _ [c.span])).cons o.span).trans (by simp)
  | @prototype word name o c arrow result ps span ts us _ _ _ params _ _ result_kind _ _ ih =>
    obtain ⟨ds, rfl, hps⟩ := ih
    refine .opening (word :: name :: o :: ds ++ [c, arrow, result]) (by simp) ?_
    rw [declared_functionDef params.shaped (isName_leaf result_kind)]
    have := ((hps.trans (List.sublist_append_left _ [c.span, arrow.span, result.span])).cons o.span).cons_cons name.span
    simpa [Phrase.declared] using this.cons word.span
  | @definition word name o c arrow result ps body span ts us vs _ _ _ params _ _ result_kind _ _ _ ih ihb =>
    obtain ⟨ds, rfl, hps⟩ := ih
    obtain ⟨es, rfl, hb⟩ := ihb
    refine .opening (word :: name :: o :: ds ++ [c, arrow, result] ++ es) (by simp) ?_
    rw [declared_functionDef params.shaped (isName_leaf result_kind)]
    have hps := hps.trans (List.sublist_append_left _ [c.span, arrow.span, result.span])
    have := (((hps.append hb).cons o.span).cons_cons name.span).cons word.span
    simpa [Phrase.declared] using this
  | @declaration word name colon type span us _ _ _ _ _ _ =>
    refine .opening [word, name, colon, type] rfl ?_
    rw [declared_variableDef]
    simp
  | @initialization word name colon type equals x span us vs _ _ _ _ _ _ _ ih =>
    obtain ⟨ds, rfl, hx⟩ := ih
    refine .opening (word :: name :: colon :: type :: equals :: ds) rfl ?_
    rw [declared_variableDef]
    have := ((((hx.cons equals.span).cons type.span).cons colon.span).cons_cons name.span).cons word.span
    simpa [Phrase.declared] using this
  | stop => exact ⟨[], rfl, [], by simp⟩
  | binary _ _ _ _ _ ihr ihm | assignment _ _ _ _ _ ihr ihm => exact ihr.infixOp ihm
  | @call least o c left n xs span ts us vs _ _ _ _ _ iha ihm =>
    obtain ⟨ds, rfl, ha⟩ := iha
    obtain ⟨es, rfl, more, hn, hm⟩ := ihm
    refine ⟨o :: ds ++ [c] ++ es, by simp, xs.flatMap Node.declared ++ more, ?_, ?_⟩
    · rw [hn, Node.declared_eq]
      simp [Node.ownNames, Node.children, Form.parts]
    · have ha := ha.trans (List.sublist_append_left _ [c.span])
      simpa [Phrase.declared] using (ha.append hm).cons o.span
  | @statement least t left span ts _ _ _ =>
    refine ⟨[t], rfl, [], ?_, by simp⟩
    rw [Node.declared_eq]
    simp [Node.ownNames, Node.children, Form.parts]
  | noItems | noArguments | noParameters => exact ⟨[], rfl, by simp [Phrase.declared]⟩
  | moreItems _ _ _ _ ihf iho =>
    obtain ⟨ds, rfl, hf⟩ := ihf
    obtain ⟨es, rfl, ho⟩ := iho
    refine ⟨ds ++ es, by simp, ?_⟩
    simp only [Phrase.declared, List.flatMap_cons, List.map_append] at hf ho ⊢
    exact hf.append ho
  | lastArgument _ _ _ _ ih =>
    obtain ⟨ds, rfl, hf⟩ := ih
    exact ⟨ds, rfl, by simpa [Phrase.declared] using hf⟩
  | @moreArguments comma x xs ts us vs _ _ _ _ _ ihf iho =>
    obtain ⟨ds, rfl, hf⟩ := ihf
    obtain ⟨es, rfl, ho⟩ := iho
    refine ⟨ds ++ [comma] ++ es, by simp, ?_⟩
    have hf := hf.trans (List.sublist_append_left _ [comma.span])
    simpa [Phrase.declared] using hf.append ho
  | @lastParameter name colon type us _ _ _ _ =>
    exact ⟨[name, colon, type], rfl, by simp [Phrase.declared, Node.leaf]⟩
  | @moreParameters name colon type comma ps us vs _ _ _ _ _ ih =>
    obtain ⟨ds, rfl, hp⟩ := ih
    refine ⟨name :: colon :: type :: comma :: ds, rfl, ?_⟩
    have := (((hp.cons comma.span).cons type.span).cons colon.span).cons_cons name.span
    simpa [Phrase.declared, Node.leaf] using this

/-- What is left behind a reading are tokens from before it. -/
theorem Reads.forall_rest {P : Token → Prop} {φ : Phrase} {ts us : List Token} (h : Reads φ ts us)
    (hts : ∀ t ∈ ts, P t) : ∀ t ∈ us, P t := by
  obtain ⟨ds, rfl, -⟩ := h.declares
  exact fun t ht => hts t (List.mem_append_right _ ht)

end Grammar

/-! ## trees that differ in their notes -/

/-- Related nodes have the same span and, over related parts, the same form. -/
structure Likeness (R : Node → Node → Prop) : Prop where
  span : ∀ {x y}, R x y → y.span = x.span
  form : ∀ {x y}, R x y → Form.Rel R x.form y.form

section

variable {R : Node → Node → Prop} {x y : Node}

/-- Other type notes change no span and no form. -/
theorem likeness_mapType (f : Option TypeId → Option TypeId) : Likeness fun x y => y = x.mapType f where
  span := by
    rintro x y rfl
    rw [Node.mapType_eq]
  form := by
    rintro x y rfl
    have hlist : ∀ xs : List Node, List.Forall₂ (fun x y => y = x.mapType f) xs (xs.map (Node.mapType f)) := fun xs =>
      List.forall₂_map_right_iff.2 (List.forall₂_same.2 fun _ _ => rfl)
    have hoption : ∀ x : Option Node, Option.Rel (fun x y => y = x.mapType f) x (x.map (Node.mapType f)) := fun x => by
      cases x with
      | none => exact .none
      | some x => exact .some rfl
    rw [Node.mapType_eq]
    cases x.form with
    | literal token => exact .literal token
    | prefixOp => exact .prefixOp rfl
    | infixOp => exact .infixOp rfl rfl
    | statement => exact .statement rfl
    | block xs x =>
      simp only [Node.mapTypeParts, Node.mapTypeList_eq, Node.mapTypeOption_eq]
      exact .block (hlist xs) (hoption x)
    | functionDef name ps r b =>
      simp only [Node.mapTypeParts, Node.mapTypeParams_eq, Node.mapTypeOption_eq]
      exact .functionDef (List.forall₂_map_right_iff.2 (List.forall₂_same.2 fun _ _ => ⟨rfl, rfl⟩)) rfl (hoption b)
    | functionCall f xs =>
      simp only [Node.mapTypeParts, Node.mapTypeList_eq]
      exact .functionCall rfl (hlist xs)
    | variableDef n t i =>
      simp only [Node.mapTypeParts, Node.mapTypeOption_eq]
      exact .variableDef rfl rfl (hoption i)
    | root xs =>
      simp only [Node.mapTypeParts, Node.mapTypeList_eq]
      exact .root (hlist xs)

theorem Likeness.tag (hR : Likeness R) (h : R x y) : y.tag = x.tag := (hR.form h).tag

theorem Likeness.isName (hR : Likeness R) (h : R x y) (hx : x.IsName) : y.IsName := by
  obtain ⟨t, ht, hform⟩ := hx
  have hf := hR.form h
  rw [hform] at hf
  generalize hg : y.form = g at hf
  cases hf
  exact ⟨t, ht, hg⟩

theorem forall₂_of_mem {α β : Type} {S : α → β → Prop} {xs : List α} {ys : List β} (h : List.Forall₂ S xs ys)
    {b : β} (hb : b ∈ ys) : ∃ a ∈ xs, S a b := by
  induction h with
  | nil => exact absurd hb List.not_mem_nil
  | cons hs _ ih =>
    rcases List.mem_cons.1 hb with rfl | hb
    · exact ⟨_, List.mem_cons_self, hs⟩
    · obtain ⟨a, ha, hs⟩ := ih hb
      exact ⟨a, List.mem_cons_of_mem _ ha, hs⟩

theorem forall₂_exists {α β : Type} {S : α → β → Prop} {xs : List α} {ys : List β} (h : List.Forall₂ S xs ys)
    {a : α} (ha : a ∈ xs) : ∃ b ∈ ys, S a b := forall₂_of_mem (List.Forall₂.flip h) ha

theorem option_rel_of_mem {α β : Type} {S : α → β → Prop} {a : Option α} {b : Option β} (h : Option.Rel S a b)
    {z : β} (hz : z ∈ b) : ∃ w ∈ a, S w z := by
  cases h with
  | none => exact absurd hz nofun
  | some h =>
    obtain rfl := Option.some.inj hz
    exact ⟨_, rfl, h⟩

theorem option_rel_getLast? {α β : Type} {S : α → β → Prop} {xs : List α} {ys : List β} (h : List.Forall₂ S xs ys) :
    Option.Rel S xs.getLast? ys.getLast? := by
  induction h with
  | nil => exact .none
  | @cons a b xs ys hs _ ih =>
    rw [List.getLast?_cons, List.getLast?_cons]
    generalize xs.getLast? = x, ys.getLast? = y at ih
    cases ih with
    | none => exact .some hs
    | some h => exact .some h

theorem Likeness.shaped (hR : Likeness R) {f g : Form Node} (h : Form.Rel R f g) (hf : f.Shaped) : g.Shaped := by
  have hexpr : ∀ {a b}, R a b → b.isExpression = a.isExpression := fun hab => by
    rw [Node.isExpression, Node.isExpression, hR.tag hab]
  cases h with
  | block items trailing =>
    refine ⟨fun z hz => ?_, fun hnone z hz => ?_⟩
    · obtain ⟨w, hw, hwz⟩ := option_rel_of_mem trailing hz
      exact (hexpr hwz).trans (hf.1 w hw)
    · subst hnone
      cases trailing
      obtain ⟨w, hw, hwz⟩ := option_rel_of_mem (option_rel_getLast? items) hz
      exact (hexpr hwz).trans (hf.2 rfl w hw)
  | functionDef params result body =>
    refine ⟨hf.1, fun q hq => ?_, hR.isName result hf.2.2.1, fun b hb => ?_⟩
    · obtain ⟨p, hp, hpq⟩ := forall₂_of_mem params hq
      exact ⟨hR.isName hpq.name (hf.2.1 p hp).1, hR.isName hpq.type (hf.2.1 p hp).2⟩
    · obtain ⟨a, ha, hab⟩ := option_rel_of_mem body hb
      exact (hR.tag hab).trans (hf.2.2.2 a ha)
  | variableDef name type _ => exact ⟨hR.isName name hf.1, hR.isName type hf.2⟩
  | _ => exact hf

/-- What a change of notes leaves true of a node, it leaves true of all nodes of a tree. -/
theorem Likeness.everywhere {P : Node → Prop} (hR : Likeness R) (hP : ∀ {x y}, R x y → P x → P y) (h : R x y)
    (hx : x.Everywhere P) : y.Everywhere P := by
  induction x using Node.childInduction generalizing y with
  | step x ih =>
    refine Node.everywhere_iff.2 ⟨hP h hx.self, fun d hd => ?_⟩
    obtain ⟨c, hc, hcd⟩ := forall₂_of_mem (hR.form h).parts hd
    exact ih c hc hcd (hx.child hc)

theorem Likeness.everywhere_shaped (hR : Likeness R) (h : R x y) (hx : x.Everywhere fun z => z.form.Shaped) :
    y.Everywhere fun z => z.form.Shaped :=
  hR.everywhere (fun h => hR.shaped (hR.form h)) h hx

/-- Trees that differ in their notes list the same nodes but for these, in the same order. -/
theorem Likeness.preorder (hR : Likeness R) (h : R x y) : List.Forall₂ R x.preorder y.preorder := by
  induction x using Node.childInduction generalizing y with
  | step x ih =>
    rw [Node.preorder_eq, Node.preorder_eq]
    have hparts : List.Forall₂ (fun c d => c ∈ x.children ∧ R c d) x.children y.children :=
      (List.forall₂_and_left _ _).2 ⟨fun _ hc => hc, (hR.form h).parts⟩
    exact .cons h (List.rel_flatMap hparts fun c d hcd => ih c hcd.1 hcd.2)

theorem Likeness.span_params (hR : Likeness R) {ps qs : List (Param Node)} (h : List.Forall₂ (Param.Rel R) ps qs) :
    qs.map (·.name.span) = ps.map (·.name.span) := by
  induction h with
  | nil => rfl
  | cons hp _ ih => rw [List.map_cons, List.map_cons, ih, hR.span hp.name]

theorem Likeness.ownNames (hR : Likeness R) (h : R x y) : y.ownNames = x.ownNames := by
  have hform := hR.form h
  unfold Node.ownNames
  generalize x.form = f, y.form = g at hform
  cases hform with
  | functionDef params _ _ => simp only [hR.span_params params]
  | variableDef name _ _ => simp only [hR.span name]
  | _ => rfl

theorem Likeness.declared (hR : Likeness R) (h : R x y) : y.declared = x.declared := by
  induction x using Node.childInduction generalizing y with
  | step x ih =>
    rw [Node.declared_eq, Node.declared_eq, hR.ownNames h]
    congr 1
    have hparts : List.Forall₂ R x.children y.children := (hR.form h).parts
    generalize x.children = xs, y.children = ys at hparts ih
    induction hparts with
    | nil => rfl
    | cons hcd _ ihs =>
      rw [List.flatMap_cons, List.flatMap_cons, ih _ List.mem_cons_self hcd,
        ihs fun c hc => ih c (List.mem_cons_of_mem _ hc)]

end

/-! ## the tokens of a source -/

theorem utf8Length_pos {cs : List Char} (h : cs ≠ []) : 0 < Source.utf8Length cs := by
  cases cs with
  | nil => exact absurd rfl h
  | cons c cs =>
    have := c.utf8Size_pos
    rw [Source.utf8Length_cons]
    omega

theorem Pattern.span_of_read? {p : Pattern} {taken : List Char} {span : Span} {t : Token}
    (h : p.read? taken span = .ok (some t)) : t.span = span := by
  unfold Pattern.read? at h
  cases p with
  | name => cases hk : Kind.keyword? (String.ofList taken) <;> simp [hk] at h <;> rw [← h]
  | integer =>
    by_cases hn : Nat.ofDigitChars 10 taken 0 ≤ maxInteger <;> simp [hn] at h
    rw [← h]
  | _ => simp at h <;> rw [← h]

/-- The tokens of a source begin at different offsets, each behind the one before. -/
theorem scan_ordered {offset : Nat} {cs : List Char} {tokens : List Token} (h : scan offset cs = .ok tokens) :
    tokens.Pairwise (fun a b => a.span.start < b.span.start) ∧ ∀ t ∈ tokens, offset ≤ t.span.start := by
  fun_induction scan offset cs generalizing tokens with
  | case1 offset =>
    obtain rfl := Except.ok.inj h
    simp [Token.eof, Span.point]
  | case2 => simp at h
  | case3 offset c cs p taken rest hfirst _ stop =>
    rename_i ih
    simp only [bind_eq_ok, pure, Except.pure, Except.ok.injEq] at h
    obtain ⟨token, htoken, others, hothers, rfl⟩ := h
    obtain ⟨hsorted, hstart⟩ := ih hothers
    have hpos : offset < stop := by
      have := utf8Length_pos (Pattern.append_of_split? (Pattern.split?_of_first? hfirst)).2
      omega
    cases token with
    | none => exact ⟨hsorted, fun t ht => by have := hstart t ht; omega⟩
    | some token =>
      have hspan := Pattern.span_of_read? htoken
      have hbehind : ∀ t ∈ others, token.span.start < t.span.start := by
        intro t ht
        rw [hspan]
        exact Nat.lt_of_lt_of_le hpos (hstart t ht)
      refine ⟨List.pairwise_cons.2 ⟨hbehind, hsorted⟩, fun t ht => ?_⟩
      rcases List.mem_cons.1 ht with rfl | ht
      · exact Nat.le_of_eq (congrArg Span.start hspan).symm
      · exact Nat.le_trans (Nat.le_of_lt hpos) (hstart t ht)

/-! ## whole programs -/

theorem exists_reads_of_parseSource {source : String} {n : Node} (h : parseSource source = .ok n) :
    ∃ tokens xs us, tokenize source = .ok tokens ∧ n = { span := ⟨0, source.utf8ByteSize⟩, form := .root xs } ∧
      Grammar.Reads (.items .eof xs) tokens us := by
  simp only [parseSource, bind_eq_ok, liftError_eq_ok] at h
  obtain ⟨tokens, htokens, h⟩ := h
  obtain ⟨xs, us, rfl, hreads⟩ := reads_of_parse h
  exact ⟨tokens, xs, us, htokens, rfl, hreads⟩

/-- Every node of a program is shaped. -/
theorem shaped_of_parseSource {source : String} {n : Node} (h : parseSource source = .ok n) :
    n.Everywhere fun x => x.form.Shaped := by
  obtain ⟨tokens, xs, us, -, rfl, hreads⟩ := exists_reads_of_parseSource h
  exact Node.everywhere_iff.2 ⟨trivial, hreads.shaped⟩

/-- **No two names of a program are declared at one place.** -/
theorem declared_nodup_of_parseSource {source : String} {n : Node} (h : parseSource source = .ok n) :
    n.declared.Nodup := by
  obtain ⟨tokens, xs, us, htokens, rfl, hreads⟩ := exists_reads_of_parseSource h
  obtain ⟨ds, rfl, hsub⟩ := hreads.declares
  have hsorted := (scan_ordered htokens).1.sublist (List.sublist_append_left ds us)
  have hnodup : (ds.map (·.span)).Nodup := by
    refine List.pairwise_map.2 (hsorted.imp fun {a b} hlt heq => ?_)
    rw [heq] at hlt
    omega
  rw [Node.declared_eq]
  exact hnodup.sublist hsub

end LetFn
