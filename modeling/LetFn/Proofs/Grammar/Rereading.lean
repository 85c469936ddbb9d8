import LetFn.Proofs.Grammar.Running
import LetFn.Proofs.Grammar.Separated

/-!
# Reading a printed tree

The pieces of a tree whose text keeps its nodes apart are read as that tree again. Every operand is read as an opening
and the calls behind it, since infix expressions, statements and definitions of variables have parentheses there.

* `Rereads n` — tokens that are the pieces of `n` are read as `n` in front of every token that `n` admits.

Main facts: `rereads`, `reads_of_pieces`.
-/

namespace LetFn

theorem InOrder.right {offset : Nat} (ds : List Token) {us : List Token} (h : InOrder offset (ds ++ us)) : InOrder offset us := by
  induction ds generalizing offset with
  | nil => exact h
  | cons d ds ih => exact (ih h.2.2).mono (Nat.le_trans h.1 h.2.1)

namespace Grammar

/-! ## what may stand behind a node -/

/-- No rule of at least the given power applies at a token of this kind. -/
def Weak (least : Power) (k : Kind) : Prop :=
  ∀ power rule, standard.infixRule? k = some (power, rule) → power < least

theorem Weak.ne_openParen {least : Power} {k : Kind} (h : Weak least k) : k ≠ .openParen := by
  rintro rfl
  exact Power.not_highest_lt least (h .highest .call rfl)

theorem Weak.of_none {least : Power} {k : Kind} (h : standard.infixRule? k = none) : Weak least k := by
  intro power rule hrule
  rw [h] at hrule
  exact absurd hrule (by simp)

/-- A token of this kind may stand behind the text of the node and leaves it as it is. -/
def Admits : Node → Kind → Prop
  | ⟨_, _, _, .prefixOp _ operand⟩, k => k ≠ .openParen ∧ (operand.capturesMore = true ∨ Admits operand k)
  | ⟨_, _, _, .functionDef _ _ _ none⟩, k => k ≠ .openCurly
  | ⟨_, _, _, .variableDef _ _ none⟩, k => k ≠ .assignment
  | ⟨_, _, _, .variableDef _ _ (some initializer)⟩, k => Weak .assignment k ∧ Admits initializer k
  | _, _ => True

theorem admits_of_weak {n : Node} {k : Kind} (hk : n.tag = .block ∨ n.tag = .functionDef ∨ Weak .assignment k)
    (hheader : n.EndsInHeader → k ≠ .openCurly) : Admits n k := by
  induction n using Node.childInduction with
  | step n ih =>
    obtain ⟨span, scope, type, form⟩ := n
    cases form with
    | prefixOp operator x =>
      have hweak : Weak .assignment k := (hk.resolve_left nofun).resolve_left nofun
      refine ⟨hweak.ne_openParen, ?_⟩
      by_cases hx : x.capturesMore = true
      · exact .inl hx
      · exact .inr (ih x (by simp [Node.children, Form.parts]) (.inr (.inr hweak)) fun h => hheader ⟨by simpa using hx, h⟩)
    | functionDef name params result body =>
      cases body with
      | none => exact hheader trivial
      | some b => simp only [Admits]
    | variableDef name typeName initializer =>
      have hweak : Weak .assignment k := (hk.resolve_left nofun).resolve_left nofun
      cases initializer with
      | none =>
        rintro rfl
        exact absurd (hweak .assignment .assignment rfl) (by decide)
      | some x => exact ⟨hweak, ih x (by simp [Node.children, Form.parts]) (.inr (.inr hweak)) hheader⟩
    | _ => simp only [Admits]

/-- What stands behind an operand without parentheses. -/
theorem admits_operand {n : Node} {k : Kind} (hn : n.capturesMore = false) (hparen : k ≠ .openParen)
    (hcurly : k ≠ .openCurly) : Admits n k := by
  induction n using Node.childInduction with
  | step n ih =>
    obtain ⟨span, scope, type, form⟩ := n
    cases form with
    | prefixOp operator x =>
      refine ⟨hparen, ?_⟩
      by_cases hx : x.capturesMore = true
      · exact .inl hx
      · exact .inr (ih x (by simp [Node.children, Form.parts]) (by simpa using hx))
    | functionDef name params result body => cases body <;> simp [Admits, hcurly]
    | variableDef => exact absurd hn (by simp [Node.capturesMore, Node.tag, Form.tag])
    | _ => simp only [Admits]

/-! ## reading a node once more -/

/-- From `h` the rules that follow an expression lead to `n`, and on from there. -/
def Leads (h : Node) (ts : List Token) (n : Node) (us : List Token) : Prop :=
  ∀ least m vs, Reads (.extensions least n m) us vs → Reads (.extensions least h m) ts vs

/-- `n'` is `n` once more, behind an offset and in front of `us`. -/
structure Again (n n' : Node) (offset : Nat) (us : List Token) : Prop where
  bare : n'.bare = n.bare
  start : offset ≤ n'.span.start
  stop : InOrder n'.span.stop us

/-- An expression begins with `n'`: an opening of the shape that the calls of `n` begin with, and calls that follow. -/
def Begins (n n' : Node) (ts us : List Token) : Prop :=
  ∃ h mid, Reads (.opening h) ts mid ∧ Leads h mid n' us ∧ h.tag = n.callHead.tag ∧
    (n.tag ≠ .functionCall → h = n' ∧ mid = us)

/-- Tokens that are the pieces of the node are read as the node. -/
def Rereads (n : Node) : Prop := ∀ ds us offset, ds.map Token.face = n.pieces → InOrder offset (ds ++ us) →
  Admits n (front us) → ∃ n', Again n n' offset us ∧ Begins n n' (ds ++ us) us

section

variable {n n' x : Node} {ds ts us : List Token} {offset : Nat} {least : Power}

theorem Begins.of_opening (h : Reads (.opening n') ts us) (hbare : n'.bare = n.bare) (htag : n.tag ≠ .functionCall) :
    Begins n n' ts us :=
  ⟨n', us, h, fun _ _ _ hm => hm, by rw [Node.callHead_of_tag htag, Node.tag_eq_of_bare hbare], fun _ => ⟨rfl, rfl⟩⟩

theorem Begins.expression (h : Begins n n' ts us) (hstop : Weak least (front us)) :
    Reads (.expression least n') ts us := by
  obtain ⟨h, mid, hopen, hleads, -⟩ := h
  exact .expression hopen (hleads _ _ _ (.stop hstop))

theorem kind_of_face {t : Token} {q : Piece} (h : t.face = q) : t.kind = q.kind := congrArg Piece.kind h

theorem bare_of_face {t u : Token} (h : t.face = u.piece) : t.bare = u.bare :=
  Token.bare_eq_iff.2 (Token.piece_eq_of_face h)

/-- What a span reaches over. -/
theorem extend_eq {a b : Span} (h : a.stop ≤ b.start) : a.extend b = .ok ⟨a.start, b.stop⟩ := by
  rw [Span.extend_eq_ok_iff]
  exact ⟨h, rfl⟩

/-- The node as a whole expression in front of a closing parenthesis; here a statement may stand, too. -/
theorem Rereads.inner (hn : Rereads n.stripped) (hs : n.form.Separated) (hds : ds.map Token.face = n.pieces)
    (ho : InOrder offset (ds ++ us)) (hus : front us = .closeParen) :
    ∃ n', Again n n' offset us ∧ Reads (.expression .lowest n') (ds ++ us) us := by
  have hweak : ∀ {least}, Weak least .closeParen := .of_none rfl
  obtain ⟨span, scope, type, form⟩ := n
  by_cases htag : form.tag = .statement
  · cases form <;> cases htag
    next x =>
    simp only [Node.pieces, List.map_eq_append_iff, List.map_eq_singleton_iff] at hds
    obtain ⟨dx, _, rfl, hdx, t, rfl, ht⟩ := hds
    rw [List.append_assoc] at ho
    obtain ⟨x', hx, h, mid, hopen, hleads, -⟩ := hn dx ([t] ++ us) offset hdx ho
      (by
        rw [List.singleton_append, front_cons, kind_of_face ht]
        exact admits_of_weak (.inr (.inr fun p r hr => by cases hr; decide)) fun _ => by decide)
    refine ⟨{ span := ⟨x'.span.start, t.span.stop⟩, form := .statement x' }, ⟨?_, hx.start, hx.stop.2.2⟩, ?_⟩
    · exact Node.bare_eq_iff.2 (congrArg Form.statement hx.bare)
    · rw [List.append_assoc]
      exact .expression hopen (hleads _ _ _ (.statement (kind_of_face ht) (by decide) (extend_eq hx.stop.1)))
  · have hstripped : Node.stripped ⟨span, scope, type, form⟩ = ⟨span, scope, type, form⟩ := by
      cases form <;> first | rfl | exact absurd rfl htag
    rw [hstripped] at hn
    obtain ⟨n', hn', hb⟩ := hn ds us offset hds ho
      (by rw [hus]; exact admits_of_weak (.inr (.inr hweak)) fun _ => by decide)
    exact ⟨n', hn', hb.expression (by rw [hus]; exact hweak)⟩

/-- What is read as a whole expression is read in parentheses. -/
theorem reads_inParens {ps : List Piece} (hinner : ∀ {ds us offset}, ds.map Token.face = ps →
      InOrder offset (ds ++ us) → front us = .closeParen →
      ∃ n', Again n n' offset us ∧ Reads (.expression .lowest n') (ds ++ us) us)
    (hds : ds.map Token.face = Node.inParens ps) (ho : InOrder offset (ds ++ us)) :
    ∃ n', Again n n' offset us ∧ Reads (.opening n') (ds ++ us) us := by
  simp only [Node.inParens, List.cons_append, List.map_eq_cons_iff, List.map_eq_append_iff, List.map_eq_nil_iff]
    at hds
  obtain ⟨o, _, rfl, hopen, dn, _, rfl, hdn, c, _, rfl, hclose, rfl⟩ := hds
  have ho' : InOrder o.span.stop (dn ++ c :: us) := by simpa using ho.2.2
  obtain ⟨n', hn', hreads⟩ := hinner hdn ho' (kind_of_face hclose)
  have hc := ho'.right
  have hgroup := Reads.grouping (kind_of_face hopen) hreads (kind_of_face hclose) (extend_eq hc.1)
  refine ⟨{ n' with span := ⟨o.span.start, c.span.stop⟩ }, ⟨?_, ho.1, hc.2.2⟩, by simpa using hgroup⟩
  exact (Node.bare_withSpan n' _).trans hn'.bare

theorem Rereads.inParens (hn : Rereads n.stripped) (hs : n.form.Separated)
    (hds : ds.map Token.face = Node.inParens n.pieces) (ho : InOrder offset (ds ++ us)) :
    ∃ n', Again n n' offset us ∧ Reads (.opening n') (ds ++ us) us :=
  reads_inParens (fun hds ho hus => hn.inner hs hds ho hus) hds ho

/-- The node as an operand. -/
theorem Rereads.operand (hn : Rereads n.stripped) (hs : n.form.Separated) (hds : ds.map Token.face = n.operand)
    (ho : InOrder offset (ds ++ us)) (ha : n.capturesMore = true ∨ Admits n (front us)) :
    ∃ n', Again n n' offset us ∧ Begins n n' (ds ++ us) us := by
  unfold Node.operand Node.operandPieces at hds
  split at hds
  · next hc =>
    obtain ⟨n', hn', hreads⟩ := hn.inParens hs hds ho
    have htag : n.tag ≠ .functionCall := by
      intro h
      simp [Node.capturesMore, h] at hc
    exact ⟨n', hn', .of_opening hreads hn'.bare htag⟩
  · next hc =>
    have hstripped : n.stripped = n := by
      obtain ⟨_, _, _, form⟩ := n
      cases form <;> first | rfl | simp [Node.capturesMore, Node.tag, Form.tag] at hc
    rw [hstripped] at hn
    exact hn ds us offset hds ho (ha.resolve_left hc)

/-- The node as the function of a call. -/
theorem Rereads.callee (hn : Rereads n.stripped) (hs : n.form.Separated) (hds : ds.map Token.face = n.callee)
    (ho : InOrder offset (ds ++ us)) (hus : front us = .openParen) :
    ∃ n', Again n n' offset us ∧ Begins n n' (ds ++ us) us := by
  unfold Node.callee Node.calleePieces at hds
  split at hds
  · next htag =>
    obtain ⟨n', hn', hreads⟩ := hn.inParens hs hds ho
    exact ⟨n', hn', .of_opening hreads hn'.bare (by rw [htag]; decide)⟩
  · next htag =>
    refine hn.operand hs hds ho ?_
    by_cases hc : n.capturesMore = true
    · exact .inl hc
    · right
      rw [hus]
      obtain ⟨_, _, _, form⟩ := n
      cases form with
      | prefixOp => exact absurd rfl htag
      | functionDef name params result body => cases body <;> simp [Admits]
      | variableDef => exact absurd rfl hc
      | _ => simp only [Admits]

/-- The first token of an opening begins nothing else. -/
theorem Reads.front_opening (h : Reads (.opening n) ts us) : (standard.prefixRule? (front ts)).isSome := by
  cases h with
  | primary kind =>
    simp only [primaryKinds, List.mem_cons, List.not_mem_nil, or_false] at kind
    rcases kind with h | h | h | h <;> simp [h, standard]
  | operator kind => rcases kind with h | h <;> simp [h, standard]
  | grouping opener => simp [opener, standard]
  | block opener => simp [opener, standard]
  | prototype fnWord => simp [fnWord, standard]
  | definition fnWord => simp [fnWord, standard]
  | declaration letWord => simp [letWord, standard]
  | initialization letWord => simp [letWord, standard]

theorem Begins.front_ne (h : Begins n n' ts us) {k : Kind} (hk : standard.prefixRule? k = none) : front ts ≠ k := by
  rintro rfl
  obtain ⟨_, _, hopen, -⟩ := h
  have := hopen.front_opening
  rw [hk] at this
  exact absurd this (by decide)

/-- A part of a node that is read as it is. -/
structure Ready (x : Node) : Prop where
  written : x.Everywhere fun y => y.form.Written
  separated : x.form.Separated
  rereads : Rereads x.stripped

theorem admits_behind {k : Kind} (hk : k = .comma ∨ k = .closeParen) : Admits n k := by
  refine admits_of_weak (.inr (.inr (.of_none ?_))) fun _ => ?_ <;> rcases hk with rfl | rfl <;> decide

theorem reads_arguments {xs : List Node} (hxs : ∀ x ∈ xs, Ready x)
    (hds : ds.map Token.face = Node.commaPieces (xs.map Node.operand)) (ho : InOrder offset (ds ++ us))
    (hus : front us = .closeParen) :
    ∃ xs', xs'.map Node.bare = xs.map Node.bare ∧ Reads (.arguments xs') (ds ++ us) us := by
  induction xs generalizing ds offset with
  | nil =>
    obtain rfl : ds = [] := by simpa [Node.commaPieces] using hds
    exact ⟨[], rfl, .noArguments hus⟩
  | cons x xs ih =>
    obtain ⟨-, hs, hx⟩ := hxs x List.mem_cons_self
    cases xs with
    | nil =>
      have hdx : ds.map Token.face = x.operand := by simpa [Node.commaPieces] using hds
      obtain ⟨x', hx', hb⟩ := hx.operand hs hdx ho (.inr (admits_behind (.inr hus)))
      exact ⟨[x'], by simp [hx'.bare], .lastArgument (hb.front_ne rfl) (hb.front_ne rfl)
        (hb.expression (by rw [hus]; exact .of_none rfl)) hus⟩
    | cons y ys =>
      simp only [List.map_cons, Node.commaPieces, List.map_eq_append_iff, List.map_eq_cons_iff] at hds
      obtain ⟨dx, _, rfl, hdx, c, dy, rfl, hc, hdy⟩ := hds
      have hc := kind_of_face hc
      rw [List.append_assoc] at ho ⊢
      obtain ⟨x', hx', hb⟩ := hx.operand hs hdx ho (.inr (admits_behind (.inl (by simpa using hc))))
      obtain ⟨ys', hys', hreads⟩ := ih (fun z hz => hxs z (List.mem_cons_of_mem _ hz)) hdy hx'.stop.2.2
      have hfirst : Reads (.expression .assignment x') (dx ++ (c :: dy ++ us)) (c :: (dy ++ us)) :=
        hb.expression (by simpa [hc] using .of_none rfl)
      exact ⟨x' :: ys', by rw [List.map_cons, hx'.bare, hys']; rfl,
        .moreArguments (hb.front_ne rfl) (hb.front_ne rfl) hfirst hc hreads⟩

theorem read_name (hn : n.IsName) (hds : ds.map Token.face = n.pieces) :
    ∃ t, ds = [t] ∧ t.kind = .identifier ∧ (Node.leaf t).bare = n.bare := by
  obtain ⟨u, hu, hform⟩ := hn
  obtain ⟨_, _, _, form⟩ := n
  obtain rfl : form = _ := hform
  simp only [Node.pieces, List.map_eq_singleton_iff] at hds
  obtain ⟨t, rfl, ht⟩ := hds
  refine ⟨t, rfl, ?_, Node.bare_eq_iff.2 (congrArg Form.literal (bare_of_face ht))⟩
  rw [kind_of_face ht, Token.piece]
  split
  · rfl
  · exact hu

theorem reads_parameters {ps : List (Param Node)} (hps : ∀ p ∈ ps, p.name.IsName ∧ p.type.IsName)
    (hds : ds.map Token.face =
      Node.commaPieces (ps.map fun p => p.name.pieces ++ ⟨.colon, none⟩ :: p.type.pieces))
    (hus : front us = .closeParen) :
    ∃ ps', Node.bareParams ps' = Node.bareParams ps ∧ Reads (.parameters ps') (ds ++ us) us := by
  induction ps generalizing ds with
  | nil =>
    obtain rfl : ds = [] := by simpa [Node.commaPieces] using hds
    exact ⟨[], rfl, .noParameters hus⟩
  | cons p ps ih =>
    obtain ⟨hname, htype⟩ := hps p List.mem_cons_self
    cases ps with
    | nil =>
      simp only [List.map_cons, List.map_nil, Node.commaPieces, List.map_eq_append_iff, List.map_eq_cons_iff] at hds
      obtain ⟨dn, _, rfl, hdn, c, dt, rfl, hc, hdt⟩ := hds
      obtain ⟨name, rfl, hkind, hb⟩ := read_name hname hdn
      obtain ⟨type, rfl, hkind', hb'⟩ := read_name htype hdt
      have hlast : front us ≠ .comma := by rw [hus]; decide
      exact ⟨[⟨.leaf name, .leaf type⟩], by simp only [Node.bareParams, hb, hb'],
        .lastParameter hkind (kind_of_face hc) hkind' hlast⟩
    | cons q qs =>
      simp only [List.map_cons, Node.commaPieces, List.map_eq_append_iff, List.map_eq_cons_iff] at hds
      obtain ⟨_, _, rfl, ⟨dn, _, rfl, hdn, c, dt, rfl, hc, hdt⟩, comma, dq, rfl, hcomma, hdq⟩ := hds
      obtain ⟨name, rfl, hkind, hb⟩ := read_name hname hdn
      obtain ⟨type, rfl, hkind', hb'⟩ := read_name htype hdt
      obtain ⟨qs', hqs', hreads⟩ := ih (fun r hr => hps r (List.mem_cons_of_mem _ hr)) hdq
      exact ⟨⟨.leaf name, .leaf type⟩ :: qs', by rw [Node.bareParams, hb, hb', hqs']; rfl,
        .moreParameters hkind (kind_of_face hc) hkind' (kind_of_face hcomma) hreads⟩

/-! ## items -/

theorem Weak.infixRule?_eq_none {k : Kind} (h : Weak .lowest k) : standard.infixRule? k = none := by
  cases hrule : standard.infixRule? k with
  | none => rfl
  | some p =>
    have := h p.1 p.2 hrule
    exact absurd this (Nat.not_lt_zero _)

/-- A call chain that does not begin with a block is not closed behind its beginning. -/
theorem not_closes {h : Node} (htag : h.tag = n.callHead.tag) (hn : n.tag = .functionCall) (halone : ¬ n.CallsBlock) :
    ¬ Closes h ts := by
  rintro ⟨hblock, -⟩
  rw [htag] at hblock
  exact halone ⟨hn, hblock⟩

theorem reads_item (hx : Ready x) (halone : ¬ x.stripped.CallsBlock) (hds : ds.map Token.face = x.pieces)
    (ho : InOrder offset (ds ++ us)) (hgo : x.tag ∈ [.statement, .block, .functionDef] ∨ Weak .lowest (front us))
    (hheader : x.EndsInHeader → front us ≠ .openCurly) (hsemicolon : front us ≠ .semicolon) :
    ∃ x', Again x x' offset us ∧ Reads (.item x') (ds ++ us) us := by
  obtain ⟨-, hs, hx⟩ := hx
  obtain ⟨span, scope, type, form⟩ := x
  by_cases htag : form.tag = .statement
  · cases form <;> cases htag
    next y =>
    simp only [Node.pieces, List.map_eq_append_iff, List.map_eq_singleton_iff] at hds
    obtain ⟨dy, _, rfl, hdy, t, rfl, ht⟩ := hds
    have ht := kind_of_face ht
    rw [List.append_assoc] at ho ⊢
    obtain ⟨y', hy, h, mid, hopen, hleads, hhead, hmid⟩ := hx dy ([t] ++ us) offset hdy ho
      (by
        rw [List.singleton_append, front_cons, ht]
        exact admits_of_weak (.inr (.inr fun p r hr => by cases hr; decide)) fun _ => by decide)
    have hopened : ¬ Closes h mid := by
      by_cases hcall : y.tag = .functionCall
      · exact not_closes hhead hcall halone
      · obtain ⟨rfl, rfl⟩ := hmid hcall
        exact fun hc => hc.2 ht
    exact ⟨{ span := ⟨y'.span.start, t.span.stop⟩, form := .statement y' },
      ⟨Node.bare_eq_iff.2 (congrArg Form.statement hy.bare), hy.start, hy.stop.2.2⟩,
      .openItem hopen hopened (hleads _ _ _ (.statement ht (by decide) (extend_eq hy.stop.1)))⟩
  · rw [Node.stripped_of_tag (n := ⟨span, scope, type, form⟩) htag] at hx halone
    have hgo : form.tag = .block ∨ form.tag = .functionDef ∨ Weak .lowest (front us) := by
      rcases hgo with hgo | hgo
      · simp only [List.mem_cons, List.not_mem_nil, or_false] at hgo
        rcases hgo with hgo | hgo | hgo
        · exact absurd hgo htag
        · exact .inl hgo
        · exact .inr (.inl hgo)
      · exact .inr (.inr hgo)
    have hadmits := admits_of_weak (n := ⟨span, scope, type, form⟩) (k := front us)
      (hgo.imp_right (.imp_right fun h => .of_none h.infixRule?_eq_none)) hheader
    obtain ⟨x', hx', h, mid, hopen, hleads, hhead, hmid⟩ := hx ds us offset hds ho hadmits
    refine ⟨x', hx', ?_⟩
    by_cases hblock : form.tag = .block ∨ form.tag = .functionDef
    · obtain ⟨rfl, rfl⟩ := hmid (by rintro hcall; rcases hblock with h | h <;> cases h.symm.trans hcall)
      refine .closedItem hopen ⟨?_, hsemicolon⟩
      rwa [Node.tag_eq_of_bare hx'.bare]
    · have hopened : ¬ Closes h mid := by
        by_cases hcall : form.tag = .functionCall
        · exact not_closes hhead hcall halone
        · rintro ⟨hc, -⟩
          rw [hhead, Node.callHead_of_tag (n := ⟨span, scope, type, form⟩) hcall] at hc
          exact hblock hc
      have hweak : Weak .lowest (front us) := by
        rcases hgo with h | h | h
        · exact absurd (.inl h) hblock
        · exact absurd (.inr h) hblock
        · exact h
      exact .openItem hopen hopened (hleads _ _ _ (.stop hweak))

theorem Reads.front_item (h : Reads (.item n) ts us) : (standard.prefixRule? (front ts)).isSome := by
  cases h with
  | closedItem start => exact start.front_opening
  | openItem start => exact start.front_opening

/-- The first token of what is written as a node. -/
theorem front_of_pieces {qs : List Piece} (hx : x.Everywhere fun y => y.form.Written)
    (hds : ds.map Token.face = x.pieces ++ qs) :
    front (ds ++ us) = x.leading ∧ (standard.prefixRule? x.leading).isSome := by
  obtain ⟨q, ps, hps, hrule⟩ := Node.exists_pieces_cons hx
  rw [hps, List.cons_append, List.map_eq_cons_iff] at hds
  obtain ⟨d, ds, rfl, hd, -⟩ := hds
  have hleading : x.leading = q.kind := by rw [Node.leading, hps]
  exact ⟨by rw [List.cons_append, front_cons, hleading, kind_of_face hd], by rwa [hleading]⟩

/-- A kind that begins an expression goes on with one only if it is one of these two. -/
theorem infixRule?_of_prefixRule? {k : Kind} (h : (standard.prefixRule? k).isSome) (hk : k ∉ [.openParen, .dash]) :
    standard.infixRule? k = none := by
  cases k <;> first | rfl | exact absurd h (by decide) | exact absurd hk (by decide)

theorem reads_items {close : Kind} {xs : List Node} (hclose : close = .closeCurly ∨ close = .eof)
    (hxs : ∀ x ∈ xs, Ready x) (hapart : Node.Apart xs) (hds : ds.map Token.face = xs.flatMap Node.pieces)
    (ho : InOrder offset (ds ++ us)) (hus : front us = close) :
    ∃ xs', xs'.map Node.bare = xs.map Node.bare ∧ Reads (.items close xs') (ds ++ us) us := by
  induction xs generalizing ds offset with
  | nil =>
    obtain rfl : ds = [] := by simpa using hds
    exact ⟨[], rfl, .noItems hus⟩
  | cons x xs ih =>
    rw [List.flatMap_cons, List.map_eq_append_iff] at hds
    obtain ⟨dx, dr, rfl, hdx, hdr⟩ := hds
    rw [List.append_assoc] at ho ⊢
    obtain ⟨halone, hchain⟩ := hapart
    have hapart : Node.Apart xs := ⟨fun y hy => halone y (List.mem_cons_of_mem _ hy), hchain.tail⟩
    -- what stands behind the item: the next one or the closing token
    have hnext : (x.tag ∈ [.statement, .block, .functionDef] ∨ Weak .lowest (front (dr ++ us))) ∧
        (x.EndsInHeader → front (dr ++ us) ≠ .openCurly) ∧ front (dr ++ us) ≠ .semicolon := by
      cases xs with
      | nil =>
        obtain rfl : dr = [] := by simpa using hdr
        rw [List.nil_append, hus]
        rcases hclose with rfl | rfl <;> exact ⟨.inr (.of_none rfl), fun _ => by decide, by decide⟩
      | cons y ys =>
        obtain ⟨hgo, hheader⟩ := (List.isChain_cons_cons.1 hchain).1
        obtain ⟨hfront, hrule⟩ : front (dr ++ us) = y.leading ∧ (standard.prefixRule? y.leading).isSome :=
          front_of_pieces (hxs y (by simp)).written hdr
        rw [hfront]
        refine ⟨hgo.imp_right fun h => .of_none (infixRule?_of_prefixRule? hrule h), hheader, fun h => ?_⟩
        rw [h] at hrule
        exact absurd hrule (by decide)
    obtain ⟨x', hx', hreads⟩ := reads_item (hxs x List.mem_cons_self) (halone x List.mem_cons_self) hdx ho hnext.1
      hnext.2.1 hnext.2.2
    obtain ⟨ys', hys', hrest⟩ := ih (fun y hy => hxs y (List.mem_cons_of_mem _ hy)) hapart hdr hx'.stop
    have hfirst := hreads.front_item
    refine ⟨x' :: ys', by rw [List.map_cons, hx'.bare, hys']; rfl, .moreItems ?_ ?_ hreads hrest⟩
    · rintro h
      rw [h] at hfirst
      rcases hclose with rfl | rfl <;> exact absurd hfirst (by decide)
    · rintro h
      rw [h] at hfirst
      exact absurd hfirst (by decide)

/-! ## every node is read again -/

variable {span : Span} {scope : Option ScopeId} {type : Option TypeId}

theorem rereads_literal {t : Token} (ht : t.kind ∈ primaryKinds) :
    Rereads ⟨span, scope, type, .literal t⟩ := by
  intro ds us offset hds ho _
  simp only [Node.pieces, List.map_eq_singleton_iff] at hds
  obtain ⟨d, rfl, hd⟩ := hds
  have hkind : d.kind ∈ primaryKinds := by
    rw [kind_of_face hd, Token.piece]
    split
    · decide
    · exact ht
  have hbare : (Node.leaf d).bare = Node.bare ⟨span, scope, type, .literal t⟩ :=
    Node.bare_eq_iff.2 (congrArg Form.literal (bare_of_face hd))
  exact ⟨.leaf d, ⟨hbare, ho.1, ho.2.2⟩, .of_opening (.primary hkind) hbare (by rintro ⟨⟩)⟩

theorem rereads_prefixOp {t : Token} (ht : t.Spelled) (hk : t.kind = .dash ∨ t.kind = .not) (hx : Ready x) :
    Rereads ⟨span, scope, type, .prefixOp t x⟩ := by
  intro ds us offset hds ho hadmits
  rw [Node.pieces, List.map_eq_cons_iff] at hds
  obtain ⟨d, dx, rfl, hd, hdx⟩ := hds
  obtain ⟨hparen, hadmits⟩ := hadmits
  obtain ⟨x', hx', hb⟩ := hx.rereads.operand hx.separated hdx ho.2.2 hadmits
  have hkind : d.kind = t.kind := by
    have hprimary : t.kind ∉ primaryKinds := by rcases hk with h | h <;> rw [h] <;> decide
    rw [kind_of_face hd, Node.piece_of_mark ht hprimary]
  have hstop : Weak .highest (front us) := by
    intro power rule hrule
    cases hfront : front us <;> rw [hfront] at hrule <;> first | exact absurd hfront hparen | cases hrule <;> decide
  have hbare : Node.bare { span := ⟨d.span.start, x'.span.stop⟩, form := .prefixOp d x' } =
      Node.bare ⟨span, scope, type, .prefixOp t x⟩ :=
    Node.bare_eq_iff.2 (by simp only [Node.bareForm, bare_of_face hd, hx'.bare])
  exact ⟨_, ⟨hbare, ho.1, hx'.stop⟩,
    .of_opening (.operator (hkind ▸ hk) (hb.expression hstop) (extend_eq hx'.start)) hbare (by rintro ⟨⟩)⟩

/-- An infix expression without the parentheses that it is written in. -/
theorem reads_infixOp {t : Token} {left right : Node} (ht : t.Spelled)
    (hk : t.kind = .assignment ∨ ∃ power, standard.infixRule? t.kind = some (power, .binary)) (hl : Ready left)
    (hr : Ready right) (hds : ds.map Token.face = left.operand ++ t.piece :: right.operand)
    (ho : InOrder offset (ds ++ us)) (hus : front us = .closeParen) :
    ∃ n', Again ⟨span, scope, type, .infixOp t left right⟩ n' offset us ∧
      Reads (.expression .lowest n') (ds ++ us) us := by
  obtain ⟨dl, _, rfl, hdl, h⟩ := List.map_eq_append_iff.1 hds
  obtain ⟨d, dr, rfl, hd, hdr⟩ := List.map_eq_cons_iff.1 h
  rw [List.append_assoc, List.cons_append] at ho ⊢
  have hkind : d.kind = t.kind := by
    rw [kind_of_face hd, Node.piece_of_mark ht (not_primary_of_mark (Node.mark_of_operator hk))]
  have hbehind : left.capturesMore = true ∨ Admits left (front (d :: (dr ++ us))) := by
    by_cases hc : left.capturesMore = true
    · exact .inl hc
    · refine .inr (admits_operand (by simpa using hc) ?_ ?_) <;> rw [front_cons, hkind] <;>
        rcases hk with h | ⟨power, h⟩ <;> intro hk <;> simp [hk, standard] at h
  obtain ⟨l', hl', h, mid, hopening, hleads, -⟩ := hl.rereads.operand hl.separated hdl ho hbehind
  obtain ⟨r', hr', hb⟩ := hr.rereads.operand hr.separated hdr hl'.stop.2.2 (.inr (admits_behind (.inr hus)))
  have hspan := extend_eq (Nat.le_trans hl'.stop.1 (Nat.le_trans hl'.stop.2.1 hr'.start))
  have hweak : ∀ {least}, Weak least (front us) := fun {_} => hus ▸ .of_none rfl
  refine ⟨{ span := ⟨l'.span.start, r'.span.stop⟩, form := .infixOp d l' r' }, ⟨?_, hl'.start, hr'.stop⟩, ?_⟩
  · exact Node.bare_eq_iff.2 (by simp only [Node.bareForm, bare_of_face hd, hl'.bare, hr'.bare])
  · rcases hk with hk | ⟨power, hk⟩
    · exact .expression hopening (hleads _ _ _ (.assignment (hkind.trans hk) (by decide) (hb.expression hweak) hspan
        (.stop hweak)))
    · exact .expression hopening (hleads _ _ _ (.binary (hkind ▸ hk) (Nat.not_lt_zero _) (hb.expression hweak) hspan
        (.stop hweak)))

theorem rereads_infixOp {t : Token} {left right : Node} (ht : t.Spelled)
    (hk : t.kind = .assignment ∨ ∃ power, standard.infixRule? t.kind = some (power, .binary)) (hl : Ready left)
    (hr : Ready right) : Rereads ⟨span, scope, type, .infixOp t left right⟩ := by
  intro ds us offset hds ho _
  rw [Node.pieces] at hds
  obtain ⟨n', hn', hreads⟩ := reads_inParens (fun hds ho hus => reads_infixOp ht hk hl hr hds ho hus) hds ho
  exact ⟨n', hn', .of_opening hreads hn'.bare nofun⟩

theorem rereads_block {items : List Node} {trailing : Option Node} (hshaped : (Form.block items trailing).Shaped)
    (hapart : Node.Apart (items ++ trailing.toList)) (hxs : ∀ x ∈ items ++ trailing.toList, Ready x) :
    Rereads ⟨span, scope, type, .block items trailing⟩ := by
  intro ds us offset hds ho _
  simp only [Node.pieces_block, List.cons_append, List.map_eq_cons_iff, List.map_eq_append_iff, List.map_eq_nil_iff]
    at hds
  obtain ⟨o, _, rfl, hopen, dx, _, rfl, hdx, c, _, rfl, hclose, rfl⟩ := hds
  have ho' : InOrder o.span.stop (dx ++ c :: us) := by simpa using ho.2.2
  obtain ⟨xs', hxs', hreads⟩ := reads_items (.inl rfl) hxs hapart hdx ho' (kind_of_face hclose)
  have hc := ho'.right
  have hblock := Reads.block (kind_of_face hopen) hreads (kind_of_face hclose) (extend_eq hc.1)
  have hbare : Node.bare { span := ⟨o.span.start, c.span.stop⟩, form := .ofItems xs' } =
      Node.bare ⟨span, scope, type, .block items trailing⟩ :=
    Node.bare_eq_iff.2 (by
      show Node.bareForm (.ofItems xs') = Node.bareForm (.block items trailing)
      rw [← Form.ofItems_of_shaped hshaped, Form.bareForm_ofItems, Form.bareForm_ofItems, hxs'])
  exact ⟨_, ⟨hbare, ho.1, hc.2.2⟩, .of_opening (by simpa using hblock) hbare nofun⟩

theorem not_endsInHeader_of_block (h : n.tag = .block) : ¬ n.EndsInHeader := by
  obtain ⟨_, _, _, form⟩ := n
  cases form <;> cases h
  exact id

theorem rereads_functionDef {name : Token} {params : List (Param Node)} {result : Node} {body : Option Node}
    (hshaped : (Form.functionDef name params result body).Shaped) (hbody : ∀ b ∈ body, Ready b) :
    Rereads ⟨span, scope, type, .functionDef name params result body⟩ := by
  intro ds us offset hds ho hadmits
  obtain ⟨hname, hparams, hresult, hblock⟩ := hshaped
  simp only [Node.pieces_functionDef, Node.inParens, List.cons_append, List.append_assoc, List.map_eq_cons_iff,
    List.map_eq_append_iff, List.nil_append] at hds
  obtain ⟨w, _, rfl, hword, i, _, rfl, hi, o, _, rfl, hopen, dp, _, rfl, hdp, c, _, rfl, hclose, a, _, rfl, harrow,
    dt, db, rfl, hdt, hdb⟩ := hds
  obtain ⟨t, rfl, hkind, ht⟩ := read_name hresult hdt
  have hi' : i.kind = .identifier := by
    rw [kind_of_face hi, Token.piece]
    split
    · rfl
    · exact hname
  obtain ⟨ps', hps', hreads⟩ : ∃ ps', Node.bareParams ps' = Node.bareParams params ∧
      Reads (.parameters ps') (dp ++ c :: a :: t :: (db ++ us)) (c :: a :: t :: (db ++ us)) :=
    reads_parameters hparams hdp (kind_of_face hclose)
  have htype : InOrder w.span.stop (t :: (db ++ us)) :=
    InOrder.right (i :: o :: dp ++ [c, a]) (by simpa using ho.2.2)
  obtain ⟨hstart, hstop, ho'⟩ := htype
  cases body with
  | none =>
    obtain rfl : db = [] := by simpa using hdb
    have hbare : Node.bare { span := ⟨w.span.start, t.span.stop⟩, form := .functionDef i ps' (.leaf t) none } =
        Node.bare ⟨span, scope, type, .functionDef name params result none⟩ :=
      Node.bare_eq_iff.2 (by simp only [Node.bareForm, bare_of_face hi, hps', ht])
    have hopening := Reads.prototype (kind_of_face hword) hi' (kind_of_face hopen) hreads (kind_of_face hclose)
      (kind_of_face harrow) hkind hadmits (extend_eq (b := t.span) hstart)
    exact ⟨_, ⟨hbare, ho.1, ho'⟩, .of_opening (by simpa using hopening) hbare (by rintro ⟨⟩)⟩
  | some b =>
    simp only [Option.toList_some, List.flatMap_cons, List.flatMap_nil, List.append_nil] at hdb
    obtain ⟨-, hs, hrereads⟩ := hbody b rfl
    have hb := hblock b rfl
    obtain ⟨b', hb', hb'reads⟩ : ∃ b', Again b b' t.span.stop us ∧ Reads (.opening b') (db ++ us) us := by
      rw [Node.stripped_of_tag (by rw [hb]; decide)] at hrereads
      obtain ⟨b', hb', h, mid, hopening, -, -, hmid⟩ := hrereads db us _ hdb ho'
        (admits_of_weak (.inl hb) fun h => absurd h (not_endsInHeader_of_block hb))
      obtain ⟨rfl, rfl⟩ := hmid (by rw [hb]; decide)
      exact ⟨h, hb', hopening⟩
    have hbraced : front (db ++ us) = .openCurly := by
      obtain ⟨_, _, _, form⟩ := b
      cases form <;> cases hb
      rw [Node.pieces_block, List.cons_append, List.map_eq_cons_iff] at hdb
      obtain ⟨d, _, rfl, hd, -⟩ := hdb
      exact kind_of_face hd
    have hbare : Node.bare { span := ⟨w.span.start, b'.span.stop⟩, form := .functionDef i ps' (.leaf t) (some b') } =
        Node.bare ⟨span, scope, type, .functionDef name params result (some b)⟩ :=
      Node.bare_eq_iff.2 (by simp only [Node.bareForm, Node.bareOption, bare_of_face hi, hps', ht, hb'.bare])
    have hspan : w.span.extend b'.span = .ok ⟨w.span.start, b'.span.stop⟩ :=
      extend_eq (Nat.le_trans hstart (Nat.le_trans hstop hb'.start))
    have hopening := Reads.definition (kind_of_face hword) hi' (kind_of_face hopen) hreads (kind_of_face hclose)
      (kind_of_face harrow) hkind hbraced hb'reads hspan
    exact ⟨_, ⟨hbare, ho.1, hb'.stop⟩, .of_opening (by simpa using hopening) hbare (by rintro ⟨⟩)⟩

theorem rereads_functionCall {f : Node} {xs : List Node} (hf : Ready f) (hxs : ∀ x ∈ xs, Ready x) :
    Rereads ⟨span, scope, type, .functionCall f xs⟩ := by
  intro ds us offset hds ho _
  simp only [Node.pieces_functionCall, Node.inParens, List.cons_append, List.map_eq_cons_iff,
    List.map_eq_append_iff, List.map_eq_nil_iff] at hds
  obtain ⟨df, _, rfl, hdf, o, _, rfl, hopen, dx, _, rfl, hdx, c, _, rfl, hclose, rfl⟩ := hds
  have ho' : InOrder offset (df ++ o :: (dx ++ c :: us)) := by simpa using ho
  obtain ⟨f', hf', h, mid, hopening, hleads, hhead, -⟩ := hf.rereads.callee hf.separated hdf ho' (kind_of_face hopen)
  obtain ⟨xs', hxs', hreads⟩ := reads_arguments hxs hdx hf'.stop.2.2 (kind_of_face hclose)
  have hc : InOrder f'.span.stop (c :: us) := InOrder.right (o :: dx) hf'.stop
  have hbare : Node.bare { span := ⟨f'.span.start, c.span.stop⟩, form := .functionCall f' xs' } =
      Node.bare ⟨span, scope, type, .functionCall f xs⟩ :=
    Node.bare_eq_iff.2 (by simp only [Node.bareForm, Node.bareList_eq, hf'.bare, hxs'])
  refine ⟨_, ⟨hbare, hf'.start, hc.2.2⟩, h, mid, by simpa using hopening, fun least m vs hm => ?_, ?_, fun hn => absurd rfl hn⟩
  · exact hleads _ _ _ (.call (kind_of_face hopen) hreads (kind_of_face hclose) (extend_eq hc.1) hm)
  · rw [hhead, Node.callHead_call]

theorem rereads_variableDef {name typeName : Node} {initializer : Option Node} (hname : name.IsName)
    (htype : typeName.IsName) (hx : ∀ x ∈ initializer, Ready x ∧ x.tag ≠ .statement) :
    Rereads ⟨span, scope, type, .variableDef name typeName initializer⟩ := by
  intro ds us offset hds ho hadmits
  simp only [Node.pieces_variableDef, List.map_eq_cons_iff, List.map_eq_append_iff] at hds
  obtain ⟨w, _, rfl, hword, dn, _, rfl, hdn, c, _, rfl, hcolon, dt, dx, rfl, hdt, hdx⟩ := hds
  obtain ⟨i, rfl, hi, hi'⟩ := read_name hname hdn
  obtain ⟨t, rfl, ht, ht'⟩ := read_name htype hdt
  have htype : InOrder w.span.stop (t :: (dx ++ us)) := InOrder.right [i, c] (by simpa using ho.2.2)
  obtain ⟨hstart, hstop, ho'⟩ := htype
  cases initializer with
  | none =>
    obtain rfl : dx = [] := by simpa using hdx
    have hbare : Node.bare { span := ⟨w.span.start, t.span.stop⟩, form := .variableDef (.leaf i) (.leaf t) none } =
        Node.bare ⟨span, scope, type, .variableDef name typeName none⟩ :=
      Node.bare_eq_iff.2 (by simp only [Node.bareForm, hi', ht'])
    exact ⟨_, ⟨hbare, ho.1, ho'⟩, .of_opening (.declaration (kind_of_face hword) hi (kind_of_face hcolon) ht hadmits
      (extend_eq (b := t.span) hstart)) hbare (by rintro ⟨⟩)⟩
  | some x =>
    simp only [Option.toList_some, List.flatMap_cons, List.flatMap_nil, List.append_nil, List.map_eq_cons_iff] at hdx
    obtain ⟨e, dx, rfl, he, hdx⟩ := hdx
    obtain ⟨⟨-, hs, hrereads⟩, hstatement⟩ := hx x rfl
    rw [Node.stripped_of_tag hstatement] at hrereads
    obtain ⟨x', hx', hb⟩ := hrereads dx us _ hdx ho'.2.2 hadmits.2
    have hbare : Node.bare { span := ⟨w.span.start, x'.span.stop⟩, form := .variableDef (.leaf i) (.leaf t) (some x') } =
        Node.bare ⟨span, scope, type, .variableDef name typeName (some x)⟩ :=
      Node.bare_eq_iff.2 (by simp only [Node.bareForm, Node.bareOption, hi', ht', hx'.bare])
    have hspan : w.span.extend x'.span = .ok ⟨w.span.start, x'.span.stop⟩ :=
      extend_eq (Nat.le_trans hstart (Nat.le_trans hstop (Nat.le_trans ho'.1 (Nat.le_trans ho'.2.1 hx'.start))))
    exact ⟨_, ⟨hbare, ho.1, hx'.stop⟩, .of_opening (.initialization (kind_of_face hword) hi (kind_of_face hcolon) ht
      (kind_of_face he) (hb.expression hadmits.1) hspan) hbare (by rintro ⟨⟩)⟩

/-- **A written tree whose text keeps its nodes apart is read again.** -/
theorem rereads {n : Node} (hw : n.Everywhere fun x => x.form.Written) (hs : n.Separated) : Rereads n.stripped := by
  induction n using Node.childInduction with
  | step n ih =>
    have ready : ∀ c ∈ n.children, Ready c := fun c hc =>
      ⟨hw.child hc, (hs.child hc).self, ih c hc (hw.child hc) (hs.child hc)⟩
    obtain ⟨hshaped, hspelled, hinner⟩ := hw.self
    have hself := hs.self
    obtain ⟨span, scope, type, form⟩ := n
    cases form with
    | literal t => exact rereads_literal hshaped
    | prefixOp t x => exact rereads_prefixOp (hspelled t (by simp [Form.tokens])) hshaped (ready x (by simp [Node.children, Form.parts]))
    | infixOp t left right =>
      exact rereads_infixOp (hspelled t (by simp [Form.tokens])) hshaped (ready left (by simp [Node.children, Form.parts]))
        (ready right (by simp [Node.children, Form.parts]))
    | statement x =>
      have hx := (ready x (by simp [Node.children, Form.parts])).rereads
      rwa [Node.stripped_of_tag hself] at hx
    | block items trailing => exact rereads_block hshaped hself ready
    | functionDef name params result body =>
      exact rereads_functionDef hshaped fun b hb => ready b (by simp_all [Node.children, Form.parts])
    | functionCall f xs =>
      exact rereads_functionCall (ready f List.mem_cons_self) fun x hx => ready x (List.mem_cons_of_mem _ hx)
    | variableDef name typeName initializer =>
      exact rereads_variableDef hshaped.1 hshaped.2 fun x hx =>
        ⟨ready x (by simp_all [Node.children, Form.parts]), hself x hx⟩
    | root => exact absurd rfl hinner

end

/-- Items that keep apart are read again up to the end. -/
theorem reads_of_pieces {xs : List Node} {ts : List Token} {offset : Nat}
    (hw : ∀ x ∈ xs, x.Everywhere fun y => y.form.Written) (hs : ∀ x ∈ xs, x.Separated) (hapart : Node.Apart xs)
    (hts : ts.map Token.face = xs.flatMap Node.pieces ++ [⟨.eof, none⟩]) (ho : InOrder offset ts) :
    ∃ xs' us, xs'.map Node.bare = xs.map Node.bare ∧ Reads (.items .eof xs') ts us := by
  obtain ⟨ds, us, rfl, hds, hus⟩ := List.map_eq_append_iff.1 hts
  obtain ⟨e, rfl, he⟩ := List.map_eq_singleton_iff.1 hus
  obtain ⟨xs', hxs', hreads⟩ := reads_items (.inr rfl)
    (fun x hx => ⟨hw x hx, (hs x hx).self, rereads (hw x hx) (hs x hx)⟩) hapart hds ho (kind_of_face he)
  exact ⟨xs', [e], hxs', hreads⟩

end Grammar

end LetFn
