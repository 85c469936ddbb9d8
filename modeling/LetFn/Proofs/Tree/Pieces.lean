import LetFn.Proofs.Token.Spelling
import LetFn.Tree.Print

/-!
# The pieces of a printed tree

`Node.pieces n` is what the text of `n` consists of: the lexemes with the parentheses and commas that the printer adds,
without the blanks between them.

Main facts: `scans_print`.
-/

namespace LetFn

namespace Node

def inParens (ps : List Piece) : List Piece := ⟨.openParen, none⟩ :: ps ++ [⟨.closeParen, none⟩]

def operandPieces (n : Node) (ps : List Piece) : List Piece := if n.capturesMore then inParens ps else ps

def calleePieces (n : Node) (ps : List Piece) : List Piece :=
  if n.tag = .prefixOp then inParens ps else n.operandPieces ps

/-- What stands in a list, with commas between. -/
def commaPieces : List (List Piece) → List Piece
  | [] => []
  | [ps] => ps
  | ps :: qs :: rest => ps ++ ⟨.comma, none⟩ :: commaPieces (qs :: rest)

mutual

/-- The pieces of the text of a node. -/
def pieces : Node → List Piece
  | ⟨_, _, _, .literal token⟩ => [token.piece]
  | ⟨_, _, _, .prefixOp operator operand⟩ => operator.piece :: operandPieces operand (pieces operand)
  | ⟨_, _, _, .infixOp operator left right⟩ =>
    inParens (operandPieces left (pieces left) ++ operator.piece :: operandPieces right (pieces right))
  | ⟨_, _, _, .statement inner⟩ => pieces inner ++ [⟨.semicolon, none⟩]
  | ⟨_, _, _, .block items trailing⟩ =>
    ⟨.openCurly, none⟩ :: (piecesItems items ++ piecesOption trailing) ++ [⟨.closeCurly, none⟩]
  | ⟨_, _, _, .functionDef name params result body⟩ =>
    ⟨.fnWord, none⟩ :: name.piece :: (inParens (commaPieces (piecesParams params)) ++
      ⟨.arrow, none⟩ :: (pieces result ++ piecesOption body))
  | ⟨_, _, _, .functionCall callee arguments⟩ =>
    calleePieces callee (pieces callee) ++ inParens (commaPieces (piecesArguments arguments))
  | ⟨_, _, _, .variableDef name type initializer⟩ =>
    ⟨.letWord, none⟩ :: (pieces name ++ ⟨.colon, none⟩ :: (pieces type ++ piecesInitializer initializer))
  | ⟨_, _, _, .root items⟩ => piecesItems items

def piecesItems : List Node → List Piece
  | [] => []
  | x :: xs => pieces x ++ piecesItems xs

def piecesArguments : List Node → List (List Piece)
  | [] => []
  | x :: xs => operandPieces x (pieces x) :: piecesArguments xs

def piecesParams : List (Param Node) → List (List Piece)
  | [] => []
  | ⟨name, type⟩ :: ps => (pieces name ++ ⟨.colon, none⟩ :: pieces type) :: piecesParams ps

def piecesOption : Option Node → List Piece
  | none => []
  | some x => pieces x

def piecesInitializer : Option Node → List Piece
  | none => []
  | some x => ⟨.assignment, none⟩ :: pieces x

end

/-- The pieces of a node as an operand. -/
def operand (n : Node) : List Piece := n.operandPieces n.pieces

/-- The pieces of a node as the function of a call. -/
def callee (n : Node) : List Piece := n.calleePieces n.pieces

section

variable {span : Span} {scope : Option ScopeId} {type : Option TypeId}

attribute [local simp] pieces piecesItems piecesArguments piecesParams piecesOption piecesInitializer

theorem piecesItems_eq (xs : List Node) : piecesItems xs = xs.flatMap pieces := by
  induction xs with
  | nil => rfl
  | cons x xs ih => rw [piecesItems, ih, List.flatMap_cons]

theorem pieces_block (items : List Node) (trailing : Option Node) :
    pieces ⟨span, scope, type, .block items trailing⟩ =
      ⟨.openCurly, none⟩ :: (items ++ trailing.toList).flatMap pieces ++ [⟨.closeCurly, none⟩] := by
  cases trailing <;> simp [piecesItems_eq]

theorem pieces_functionDef (name : Token) (params : List (Param Node)) (result : Node) (body : Option Node) :
    pieces ⟨span, scope, type, .functionDef name params result body⟩ =
      ⟨.fnWord, none⟩ :: name.piece ::
        (inParens (commaPieces (params.map fun p => p.name.pieces ++ ⟨.colon, none⟩ :: p.type.pieces)) ++
          ⟨.arrow, none⟩ :: (result.pieces ++ body.toList.flatMap pieces)) := by
  have hparams : piecesParams params = params.map fun p => p.name.pieces ++ ⟨.colon, none⟩ :: p.type.pieces := by
    induction params with
    | nil => rfl
    | cons p ps ih => rw [piecesParams, ih, List.map_cons]
  cases body <;> simp [hparams]

theorem pieces_functionCall (f : Node) (arguments : List Node) :
    pieces ⟨span, scope, type, .functionCall f arguments⟩ =
      f.callee ++ inParens (commaPieces (arguments.map operand)) := by
  have harguments : piecesArguments arguments = arguments.map operand := by
    induction arguments with
    | nil => rfl
    | cons x xs ih => rw [piecesArguments, ih, List.map_cons, operand]
  rw [pieces, harguments, callee]

theorem pieces_variableDef (name typeName : Node) (initializer : Option Node) :
    pieces ⟨span, scope, type, .variableDef name typeName initializer⟩ =
      ⟨.letWord, none⟩ :: (name.pieces ++ ⟨.colon, none⟩ :: (typeName.pieces ++
        initializer.toList.flatMap (⟨.assignment, none⟩ :: ·.pieces))) := by
  cases initializer <;> simp

theorem pieces_root (items : List Node) : pieces ⟨span, scope, type, .root items⟩ = items.flatMap pieces := by
  rw [pieces, piecesItems_eq]

end

/-- The characters of the text of a node whose lines are indented `depth` times. -/
def chars (depth : Nat) (n : Node) : List Char := (n.printWith (fun _ => "") depth).toList

/-! ## the text in characters -/

section

variable {depth : Nat} {span : Span} {scope : Option ScopeId} {type : Option TypeId}

def parenChars (cs : List Char) : List Char := '(' :: cs ++ [')']

def operandChars (depth : Nat) (n : Node) : List Char := if n.capturesMore then parenChars (n.chars depth) else n.chars depth

def calleeChars (depth : Nat) (n : Node) : List Char :=
  if n.tag = .prefixOp then parenChars (n.chars depth) else n.operandChars depth

attribute [local simp] chars parenChars parenthesized printWith printItems printArguments printParams printLines
  printLastLine printBody printInitializer

theorem toList_asOperand (n : Node) : (n.asOperand (n.printWith (fun _ => "") depth)).toList = n.operandChars depth := by
  unfold asOperand operandChars
  split <;> simp

theorem toList_asCallee (n : Node) : (n.asCallee (n.printWith (fun _ => "") depth)).toList = n.calleeChars depth := by
  unfold asCallee calleeChars
  split
  · simp
  · exact toList_asOperand n

theorem chars_literal (token : Token) : chars depth ⟨span, scope, type, .literal token⟩ = token.lexeme.toList := by
  simp

theorem chars_prefixOp (operator : Token) (operand : Node) :
    chars depth ⟨span, scope, type, .prefixOp operator operand⟩ =
      operator.kind.symbol.toList ++ operand.operandChars depth := by
  simp [toList_asOperand]

theorem chars_infixOp (operator : Token) (left right : Node) :
    chars depth ⟨span, scope, type, .infixOp operator left right⟩ =
      parenChars (left.operandChars depth ++ ' ' :: (operator.kind.symbol.toList ++ ' ' :: right.operandChars depth)) := by
  simp [toList_asOperand]

theorem chars_statement (inner : Node) :
    chars depth ⟨span, scope, type, .statement inner⟩ = inner.chars depth ++ [';'] := by
  simp

def indentChars (depth : Nat) : List Char := (indentation depth).toList

/-- An item of a block, on a line of its own. -/
def lineChars (depth : Nat) (n : Node) : List Char := indentChars depth ++ (n.chars depth ++ ['\n'])

theorem toList_printLines (xs : List Node) :
    (printLines (fun _ => "") depth xs).toList = xs.flatMap (lineChars depth) := by
  induction xs with
  | nil => rfl
  | cons x xs ih => simp [ih, lineChars, indentChars]

theorem toList_printLastLine (x : Option Node) :
    (printLastLine (fun _ => "") depth x).toList = x.toList.flatMap (lineChars depth) := by
  cases x <;> simp [lineChars, indentChars]

theorem chars_block (items : List Node) (trailing : Option Node) :
    chars depth ⟨span, scope, type, .block items trailing⟩ =
      if items ++ trailing.toList = [] then ['{', ' ', '}']
      else '{' :: '\n' :: ((items ++ trailing.toList).flatMap (lineChars (depth + 1)) ++ (indentChars depth ++ ['}'])) := by
  have : (items.isEmpty && trailing.isNone) = true ↔ items ++ trailing.toList = [] := by
    cases trailing <;> simp
  simp only [chars, printWith, this]
  split <;> simp [toList_printLines, toList_printLastLine, indentChars]

theorem chars_functionDef (name : Token) (params : List (Param Node)) (result : Node) (body : Option Node) :
    chars depth ⟨span, scope, type, .functionDef name params result body⟩ =
      'f' :: 'n' :: ' ' :: (name.lexeme.toList ++
        (parenChars ([',', ' '].intercalate (params.map fun p => p.name.chars depth ++ ':' :: ' ' :: p.type.chars depth)) ++
          ' ' :: '-' :: '>' :: ' ' :: (result.chars depth ++ body.toList.flatMap (' ' :: ·.chars depth)))) := by
  have hparams : (printParams (fun _ => "") depth params).map String.toList =
      params.map fun p => p.name.chars depth ++ ':' :: ' ' :: p.type.chars depth := by
    induction params with
    | nil => rfl
    | cons p ps ih => simp [ih]
  have hbody : (printBody (fun _ => "") depth body).toList = body.toList.flatMap (' ' :: ·.chars depth) := by
    cases body <;> simp
  rw [← hparams]
  simp [hbody]

theorem chars_functionCall (callee : Node) (arguments : List Node) :
    chars depth ⟨span, scope, type, .functionCall callee arguments⟩ =
      callee.calleeChars depth ++ parenChars ([',', ' '].intercalate (arguments.map (operandChars depth))) := by
  have harguments : (printArguments (fun _ => "") depth arguments).map String.toList =
      arguments.map (operandChars depth) := by
    induction arguments with
    | nil => rfl
    | cons x xs ih => simp [ih, toList_asOperand]
  simp [toList_asCallee, ← harguments]

theorem chars_variableDef (name typeName : Node) (initializer : Option Node) :
    chars depth ⟨span, scope, type, .variableDef name typeName initializer⟩ =
      'l' :: 'e' :: 't' :: ' ' :: (name.chars depth ++ ':' :: ' ' :: (typeName.chars depth ++
        initializer.toList.flatMap (' ' :: '=' :: ' ' :: ·.chars depth))) := by
  cases initializer <;> simp

theorem print_root (items : List Node) :
    (print ⟨span, scope, type, .root items⟩).toList = ['\n'].intercalate (items.map (chars 0)) := by
  have hitems : (printItems (fun _ => "") 0 items).map String.toList = items.map (chars 0) := by
    induction items with
    | nil => rfl
    | cons x xs ih => simp [ih]
  simp [print, ← hitems]

end

end Node

/-! ## pieces of text side by side -/

/-- The text is cut into these pieces, whatever stands behind it. -/
def Takes (cs : List Char) (qs : List Piece) : Prop :=
  ∀ rest ps, Scans rest ps → Scans (cs ++ rest) (qs ++ ps)

/-- The text is cut into these pieces in front of a delimiter. -/
def Cuts (cs : List Char) (qs : List Piece) : Prop :=
  ∀ rest ps, Pattern.Delimited rest → Scans rest ps → Scans (cs ++ rest) (qs ++ ps)

section

variable {cs ds : List Char} {ps qs : List Piece} {k : Kind}

theorem Pattern.delimited_cons {c : Char} (hc : c ∈ [' ', '\n', ';', ')', '(', ',', ':']) (cs : List Char) :
    Pattern.Delimited (c :: cs) := fun _ hd => Option.some.inj hd ▸ hc

theorem Takes.cuts (h : Takes cs ps) : Cuts cs ps := fun rest rs _ hs => h rest rs hs

theorem Takes.nil : Takes [] [] := fun _ _ hs => hs

theorem Takes.append (h : Takes cs ps) (h' : Takes ds qs) : Takes (cs ++ ds) (ps ++ qs) := by
  intro rest rs hs
  rw [List.append_assoc, List.append_assoc]
  exact h _ _ (h' rest rs hs)

theorem Takes.append_cuts (h : Takes cs ps) (h' : Cuts ds qs) : Cuts (cs ++ ds) (ps ++ qs) := by
  intro rest rs hrest hs
  rw [List.append_assoc, List.append_assoc]
  exact h _ _ (h' rest rs hrest hs)

theorem Cuts.append {c : Char} (h : Cuts cs ps) (hc : c ∈ [' ', '\n', ';', ')', '(', ',', ':'])
    (h' : Takes (c :: ds) qs) : Takes (cs ++ c :: ds) (ps ++ qs) := by
  intro rest rs hs
  rw [List.append_assoc, List.append_assoc]
  exact h _ _ (Pattern.delimited_cons hc _) (h' rest rs hs)

theorem Cuts.append_cuts {c : Char} (h : Cuts cs ps) (hc : c ∈ [' ', '\n', ';', ')', '(', ',', ':'])
    (h' : Cuts (c :: ds) qs) : Cuts (cs ++ c :: ds) (ps ++ qs) := by
  intro rest rs hrest hs
  rw [List.append_assoc, List.append_assoc]
  exact h _ _ (Pattern.delimited_cons hc _) (h' rest rs hrest hs)

theorem Takes.blanks (h : ∀ c ∈ cs, Text.isBlank c = true) : Takes cs [] := by
  induction cs with
  | nil => exact .nil
  | cons c cs ih =>
    intro rest rs hs
    exact (ih (fun d hd => h d (List.mem_cons_of_mem _ hd)) rest rs hs).blank (h c List.mem_cons_self)

theorem takes_space : Takes [' '] [] := .blanks (List.all_eq_true.1 (by decide))

theorem takes_newline : Takes ['\n'] [] := .blanks (List.all_eq_true.1 (by decide))

/-- A mark that no further character turns into another one. -/
theorem Takes.mark (hk : Pattern.mark k ∈ Pattern.table) (hg : k ∉ Pattern.growing) :
    Takes k.symbol.toList [⟨k, none⟩] := fun _ _ hs => hs.mark hk fun h => absurd h hg

theorem Takes.markBlank (hk : Pattern.mark k ∈ Pattern.table) : Takes (k.symbol.toList ++ [' ']) [⟨k, none⟩] := by
  intro rest rs hs
  rw [List.append_assoc]
  refine Scans.mark hk (fun _ c hc => ?_) (hs.blank (by decide))
  obtain rfl := Option.some.inj hc
  decide

theorem Takes.keyword (hk : k ∈ Kind.keywords) : Takes (k.symbol.toList ++ [' ']) [⟨k, none⟩] := by
  intro rest rs hs
  rw [List.append_assoc]
  exact Scans.keyword hk (Pattern.delimited_cons (by decide) _) (hs.blank (by decide))

theorem Cuts.lexeme {t : Token} (ht : t.Spelled) (hk : t.kind ∈ Grammar.primaryKinds) :
    Cuts t.lexeme.toList [t.piece] := fun _ _ hrest hs => hs.lexeme ht hk hrest

open Node (parenChars inParens commaPieces)

theorem Cuts.inParens (h : Cuts cs ps) : Takes (parenChars cs) (inParens ps) := by
  have hclose : Takes [')'] [⟨.closeParen, none⟩] := Takes.mark (k := .closeParen) (by decide) (by decide)
  exact (Takes.mark (k := .openParen) (by decide) (by decide)).append (h.append (by decide) hclose)

/-- Texts with commas between them. -/
theorem cuts_commas {α : Type} {f : α → List Char} {g : α → List Piece} {xs : List α} (h : ∀ x ∈ xs, Cuts (f x) (g x)) :
    Cuts ([',', ' '].intercalate (xs.map f)) (commaPieces (xs.map g)) := by
  induction xs with
  | nil => exact Takes.nil.cuts
  | cons x xs ih =>
    have hx := h x List.mem_cons_self
    have hxs := ih fun y hy => h y (List.mem_cons_of_mem _ hy)
    cases xs with
    | nil => simpa [commaPieces, List.intercalate] using hx
    | cons y ys =>
      have hcomma : Takes [',', ' '] [⟨.comma, none⟩] := Takes.markBlank (k := .comma) (by decide)
      have := hx.append_cuts (by decide) (hcomma.append_cuts hxs)
      simpa [commaPieces, List.intercalate, List.intersperse] using this

end

/-! ## the text of a tree -/

/-- The tokens of a form that stand in the source as they are. -/
def Form.tokens : Form Node → List Token
  | .literal token | .prefixOp token _ | .infixOp token _ _ | .functionDef token _ _ _ => [token]
  | _ => []

/-- What the text of a node below the root needs. -/
structure Form.Written (form : Form Node) : Prop where
  shaped : form.Shaped
  spelled : ∀ t ∈ form.tokens, t.Spelled
  inner : form.tag ≠ .root

/-- The text does not begin with a character that goes on with a mark. -/
def Opens (cs : List Char) : Prop := ∃ c ds, cs = c :: ds ∧ c ∉ ['=', '>', '/']

theorem opens_digits {cs : List Char} (h : IsDigits cs) (ds : List Char) : Opens (cs ++ ds) := by
  obtain ⟨c, cs, rfl⟩ := List.exists_cons_of_ne_nil h.1
  refine ⟨c, _, rfl, fun hc => ?_⟩
  have := h.2 c List.mem_cons_self
  simp only [List.mem_cons, List.not_mem_nil, or_false] at hc
  rcases hc with rfl | rfl | rfl <;> exact absurd this (by decide)

theorem Token.Spelled.opens {t : Token} (ht : t.Spelled) (hk : t.kind ∈ Grammar.primaryKinds) :
    Opens t.lexeme.toList := by
  obtain ⟨kind, value, span⟩ := t
  simp only [Grammar.primaryKinds, List.mem_cons, List.not_mem_nil, or_false] at hk
  rcases hk with rfl | rfl | rfl | rfl
  · obtain ⟨name, rfl, ⟨c, ds, hname, hc, -⟩, -⟩ := ht.identifier
    refine ⟨c, ds, hname, fun hmem => ?_⟩
    simp only [List.mem_cons, List.not_mem_nil, or_false] at hmem
    rcases hmem with rfl | rfl | rfl <;> exact absurd hc (by decide)
  · obtain ⟨m, rfl, -⟩ := ht.integer
    rw [Token.lexeme_integer, ← List.append_nil (Nat.toDigits 10 m)]
    exact opens_digits (isDigits_toDigits m) []
  · obtain ⟨x, rfl, hx⟩ := ht.float
    by_cases hfinite : x.isFinite = true
    · obtain ⟨whole, fraction, htext, hw, -⟩ := Binary64.exists_text hx hfinite
      simp only [Token.lexeme, Value.text, htext]
      exact opens_digits hw _
    · obtain rfl := hx.eq_infinity (by simpa using hfinite)
      exact ⟨'i', ['n', 'f'], congrArg String.toList Binary64.text_infinity, by decide⟩
  · obtain ⟨text, rfl, -⟩ := ht.string
    exact ⟨'"', Literal.encode text.toList ++ ['"'], by simp [Token.lexeme], by decide⟩

theorem Opens.append {cs : List Char} (h : Opens cs) (ds : List Char) : Opens (cs ++ ds) := by
  obtain ⟨c, cs, rfl, hc⟩ := h
  exact ⟨c, cs ++ ds, rfl, hc⟩

theorem Opens.parenChars (cs : List Char) : Opens (Node.parenChars cs) := ⟨'(', _, rfl, by decide⟩

/-- A mark in front of a text that does not go on with it. -/
theorem Cuts.mark {k : Kind} {cs : List Char} {ps : List Piece} (hk : Pattern.mark k ∈ Pattern.table) (ho : Opens cs)
    (h : Cuts cs ps) : Cuts (k.symbol.toList ++ cs) (⟨k, none⟩ :: ps) := by
  intro rest rs hrest hs
  rw [List.append_assoc]
  obtain ⟨c, ds, hcs, hc⟩ := ho.append rest
  refine Scans.mark hk (fun _ d hd => ?_) (h rest rs hrest hs)
  rw [hcs] at hd
  exact Option.some.inj hd ▸ hc

namespace Node

/-- The text begins a token of its own and is cut into the pieces of the node. -/
def Cut (depth : Nat) (n : Node) : Prop := Opens (n.chars depth) ∧ Cuts (n.chars depth) n.pieces

section

variable {depth : Nat} {n : Node}

theorem Cut.operand (h : n.Cut depth) : Opens (n.operandChars depth) ∧ Cuts (n.operandChars depth) n.operand := by
  unfold operandChars Node.operand operandPieces
  split
  · exact ⟨.parenChars _, h.2.inParens.cuts⟩
  · exact h

theorem Cut.callee (h : n.Cut depth) : Opens (n.calleeChars depth) ∧ Cuts (n.calleeChars depth) n.callee := by
  unfold calleeChars Node.callee calleePieces
  split
  · exact ⟨.parenChars _, h.2.inParens.cuts⟩
  · exact h.operand

theorem takes_indent (depth : Nat) : Takes (indentChars depth) [] := by
  refine .blanks fun c hc => ?_
  simp only [indentChars, indentation, String.toList_join, List.mem_flatMap] at hc
  obtain ⟨s, hs, hc⟩ := hc
  obtain rfl := List.eq_of_mem_replicate hs
  obtain rfl : c = ' ' := by simpa using hc
  decide

theorem takes_lines {xs : List Node} (h : ∀ x ∈ xs, x.Cut depth) :
    Takes (xs.flatMap (lineChars depth)) (xs.flatMap pieces) := by
  induction xs with
  | nil => exact .nil
  | cons x xs ih =>
    have hline := (takes_indent depth).append ((h x List.mem_cons_self).2.append (by decide) takes_newline)
    have := hline.append (ih fun y hy => h y (List.mem_cons_of_mem _ hy))
    simpa [lineChars] using this

end

theorem piece_of_mark {t : Token} (ht : t.Spelled) (hk : t.kind ∉ Grammar.primaryKinds) : t.piece = ⟨t.kind, none⟩ := by
  simp [Token.piece, Token.face, ht.none_of_kind hk]

theorem mark_of_operator {k : Kind}
    (h : k = .assignment ∨ ∃ power, Grammar.standard.infixRule? k = some (power, .binary)) :
    Pattern.mark k ∈ Pattern.table := by
  rcases h with rfl | ⟨power, h⟩
  · decide
  · cases k <;> first | decide | simp [Grammar.standard] at h

/-! ### the text of each form -/

section

variable {span : Span} {scope : Option ScopeId} {type : Option TypeId} {depth : Nat}

theorem cut_literal {token : Token} (ht : token.Spelled) (hk : token.kind ∈ Grammar.primaryKinds) :
    Cut depth ⟨span, scope, type, .literal token⟩ := by
  rw [Cut, chars_literal]
  exact ⟨ht.opens hk, Cuts.lexeme ht hk⟩

theorem cut_prefixOp {operator : Token} {x : Node} (ht : operator.Spelled)
    (hk : operator.kind = .dash ∨ operator.kind = .not) (hx : x.Cut depth) :
    Cut depth ⟨span, scope, type, .prefixOp operator x⟩ := by
  have hmark : Pattern.mark operator.kind ∈ Pattern.table := by
    rcases hk with h | h <;> rw [h] <;> decide
  obtain ⟨ho, hc⟩ := hx.operand
  rw [Cut, chars_prefixOp, pieces, piece_of_mark ht (not_primary_of_mark hmark)]
  refine ⟨?_, hc.mark hmark ho⟩
  rcases hk with h | h <;> rw [h] <;> exact ⟨_, _, rfl, by decide⟩

theorem cut_infixOp {operator : Token} {left right : Node} (ht : operator.Spelled)
    (hk : operator.kind = .assignment ∨ ∃ power, Grammar.standard.infixRule? operator.kind = some (power, .binary))
    (hleft : left.Cut depth) (hright : right.Cut depth) :
    Cut depth ⟨span, scope, type, .infixOp operator left right⟩ := by
  have hmark := mark_of_operator hk
  have hop : Cuts (' ' :: (operator.kind.symbol.toList ++ ' ' :: right.operandChars depth))
      (⟨operator.kind, none⟩ :: right.operand) := by
    have := takes_space.append_cuts ((Takes.markBlank hmark).append_cuts hright.operand.2)
    simpa using this
  rw [Cut, chars_infixOp, pieces, piece_of_mark ht (not_primary_of_mark hmark)]
  exact ⟨.parenChars _, (hleft.operand.2.append_cuts (by decide) hop).inParens.cuts⟩

theorem cut_statement {inner : Node} (hinner : inner.Cut depth) :
    Cut depth ⟨span, scope, type, .statement inner⟩ := by
  obtain ⟨ho, hc⟩ := hinner
  have hmark : Takes [';'] [⟨.semicolon, none⟩] := Takes.mark (k := .semicolon) (by decide) (by decide)
  rw [Cut, chars_statement, pieces]
  exact ⟨ho.append _, (hc.append (by decide) hmark).cuts⟩

theorem cut_block {items : List Node} {trailing : Option Node}
    (hitems : ∀ x ∈ items ++ trailing.toList, x.Cut (depth + 1)) :
    Cut depth ⟨span, scope, type, .block items trailing⟩ := by
  have hlines := takes_lines hitems
  have hopen : Takes ['{'] [⟨.openCurly, none⟩] := Takes.mark (k := .openCurly) (by decide) (by decide)
  have hclose : Takes ['}'] [⟨.closeCurly, none⟩] := Takes.mark (k := .closeCurly) (by decide) (by decide)
  rw [Cut, chars_block, pieces_block]
  split
  · next hempty =>
    rw [hempty]
    exact ⟨⟨'{', _, rfl, by decide⟩, (hopen.append (takes_space.append hclose)).cuts⟩
  · have hend := (takes_indent depth).append hclose
    have := hopen.append (takes_newline.append (hlines.append hend))
    exact ⟨⟨'{', _, rfl, by decide⟩, (by simpa using this : Takes _ _).cuts⟩

theorem cut_functionDef {name : Token} {params : List (Param Node)} {result : Node} {body : Option Node}
    (ht : name.Spelled) (hk : name.kind = .identifier)
    (hparts : ∀ c ∈ (Form.functionDef name params result body).parts, c.Cut depth) :
    Cut depth ⟨span, scope, type, .functionDef name params result body⟩ := by
  obtain ⟨hps, hbody, hresult⟩ := Form.forall_functionDef.1 hparts
  have hword : Takes ['f', 'n', ' '] [⟨.fnWord, none⟩] := Takes.keyword (k := .fnWord) (by decide)
  have hname : Cuts name.lexeme.toList [name.piece] := Cuts.lexeme ht (by rw [hk]; decide)
  have hcolon : Takes [':', ' '] [⟨.colon, none⟩] := Takes.markBlank (k := .colon) (by decide)
  have harrow : Takes ['-', '>', ' '] [⟨.arrow, none⟩] := Takes.markBlank (k := .arrow) (by decide)
  have hparams : Cuts ([',', ' '].intercalate
      (params.map fun p => p.name.chars depth ++ ':' :: ' ' :: p.type.chars depth))
      (commaPieces (params.map fun p => p.name.pieces ++ ⟨.colon, none⟩ :: p.type.pieces)) :=
    cuts_commas fun p hp => (hps p hp).1.2.append_cuts (by decide) (hcolon.append_cuts (hps p hp).2.2)
  rw [Cut, chars_functionDef, pieces_functionDef]
  refine ⟨⟨'f', _, rfl, by decide⟩, ?_⟩
  have hsignature := fun {cs ps} (h : Cuts cs ps) => hword.append_cuts (hname.append_cuts (by decide)
    (hparams.inParens.append_cuts (takes_space.append_cuts (harrow.append_cuts h))))
  cases body with
  | none => simpa [parenChars] using hsignature hresult.2
  | some b =>
    have hbody := takes_space.append_cuts (hbody b rfl).2
    simpa [parenChars] using hsignature (hresult.2.append_cuts (by decide) hbody)

theorem cut_functionCall {f : Node} {arguments : List Node} (hf : f.Cut depth)
    (harguments : ∀ x ∈ arguments, x.Cut depth) : Cut depth ⟨span, scope, type, .functionCall f arguments⟩ := by
  have hcommas : Cuts ([',', ' '].intercalate (arguments.map (operandChars depth)))
      (commaPieces (arguments.map operand)) := cuts_commas fun x hx => (harguments x hx).operand.2
  rw [Cut, chars_functionCall, pieces_functionCall]
  exact ⟨hf.callee.1.append _, (hf.callee.2.append (by decide) hcommas.inParens).cuts⟩

theorem cut_variableDef {name typeName : Node} {initializer : Option Node} (hname : name.Cut depth)
    (htype : typeName.Cut depth) (hinitializer : ∀ x ∈ initializer, x.Cut depth) :
    Cut depth ⟨span, scope, type, .variableDef name typeName initializer⟩ := by
  have hlet : Takes ['l', 'e', 't', ' '] [⟨.letWord, none⟩] := Takes.keyword (k := .letWord) (by decide)
  have hcolon : Takes [':', ' '] [⟨.colon, none⟩] := Takes.markBlank (k := .colon) (by decide)
  rw [Cut, chars_variableDef, pieces_variableDef]
  refine ⟨⟨'l', _, rfl, by decide⟩, ?_⟩
  have htyped := fun {cs ps} (h : Cuts cs ps) =>
    hlet.append_cuts (hname.2.append_cuts (by decide) (hcolon.append_cuts h))
  cases initializer with
  | none => simpa using htyped htype.2
  | some x =>
    have hequals : Takes ['=', ' '] [⟨.assignment, none⟩] := Takes.markBlank (k := .assignment) (by decide)
    have hinit := takes_space.append_cuts (hequals.append_cuts (hinitializer x rfl).2)
    simpa using htyped (htype.2.append_cuts (by decide) hinit)

end

theorem cut_of_everywhere {n : Node} (h : n.Everywhere fun x => x.form.Written) (depth : Nat) : n.Cut depth := by
  induction n using childInduction generalizing depth with
  | step n ih =>
    obtain ⟨hshaped, hspelled, hinner⟩ := h.self
    have hparts : ∀ depth, ∀ c ∈ n.form.parts, c.Cut depth := fun depth c hc => ih c hc (h.child hc) depth
    obtain ⟨span, scope, type, form⟩ := n
    cases form with
    | literal token => exact cut_literal (hspelled token List.mem_cons_self) hshaped
    | prefixOp operator x =>
      exact cut_prefixOp (hspelled operator List.mem_cons_self) hshaped (List.forall_mem_singleton.1 (hparts depth))
    | infixOp operator left right =>
      obtain ⟨hleft, hright⟩ := Form.forall_infixOp.1 (hparts depth)
      exact cut_infixOp (hspelled operator List.mem_cons_self) hshaped hleft hright
    | statement inner => exact cut_statement (List.forall_mem_singleton.1 (hparts depth))
    | block items trailing => exact cut_block (hparts (depth + 1))
    | functionDef name params result body =>
      exact cut_functionDef (hspelled name List.mem_cons_self) hshaped.1 (hparts depth)
    | functionCall f arguments =>
      obtain ⟨hf, harguments⟩ := Form.forall_functionCall.1 (hparts depth)
      exact cut_functionCall hf harguments
    | variableDef name typeName initializer =>
      obtain ⟨hname, htype, hinitializer⟩ := Form.forall_variableDef.1 (hparts depth)
      exact cut_variableDef hname htype hinitializer
    | root items => exact absurd rfl hinner

theorem scans_lines {xs : List Node} (h : ∀ x ∈ xs, x.Cut 0) :
    Scans (['\n'].intercalate (xs.map (chars 0))) (xs.flatMap pieces ++ [⟨.eof, none⟩]) := by
  induction xs with
  | nil => exact Scans.nil
  | cons x xs ih =>
    have hx := (h x List.mem_cons_self).2
    have hxs := ih fun y hy => h y (List.mem_cons_of_mem _ hy)
    cases xs with
    | nil => simpa [List.intercalate] using hx [] _ (by simp [Pattern.Delimited]) Scans.nil
    | cons y ys =>
      have := hx _ _ (Pattern.delimited_cons (by decide) _) (hxs.blank (c := '\n') (by decide))
      simpa [List.intercalate, List.intersperse] using this

/-- **The text of a tree is cut into its pieces.** -/
theorem scans_print {span : Span} {scope : Option ScopeId} {type : Option TypeId} {xs : List Node}
    (h : ∀ x ∈ xs, x.Everywhere fun y => y.form.Written) :
    Scans (print ⟨span, scope, type, .root xs⟩).toList (xs.flatMap pieces ++ [⟨.eof, none⟩]) := by
  rw [print_root]
  exact scans_lines fun x hx => cut_of_everywhere (h x hx) 0

end Node

end LetFn
