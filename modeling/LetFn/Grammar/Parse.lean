import LetFn.Grammar.Basic
import LetFn.Grammar.Cursor
import LetFn.Token.Scan
import LetFn.Tree.Basic

/-!
# Parsing

A tree is read off the tokens from left to right. `Grammar.expression` reads what the rule for the current token makes
of it and then lets the rules that follow an expression extend it for as long as they hold tightly enough.
`Grammar.item` does the same for an item of a block or of the program, which ends where a block or a function
definition closes.

The functions call each other, and `fuel` bounds the depth of the calls. With a grammar in which every rule takes a
token before it comes to itself again, as in the standard one, the bound in `Cursor.fuel` is never reached
(`parse_ne_unfinished`).
-/

namespace LetFn

/-- Why there is no tree: the program is wrong, the spans of the given tokens are, or the grammar goes in circles. -/
inductive Failure where
  | error (e : Error)
  | fault (f : Span.Fault)
  | unfinished
deriving DecidableEq, Repr

instance : MonadLift (Except Error) (Except Failure) := ⟨Except.mapError .error⟩

instance : MonadLift (Except Span.Fault) (Except Failure) := ⟨Except.mapError .fault⟩

/-- A bound on the depth of calls that suffices for the tokens that are left. -/
def Cursor.fuel (c : Cursor) : Nat := 16 * (c.rest.length + 1)

/-- The items of a block and its value: the last item, if that is an expression. -/
def Form.ofItems (items : List Node) : Form Node :=
  match items.getLast? with
  | some last => if last.isExpression then .block items.dropLast (some last) else .block items none
  | none => .block [] none

namespace Grammar

section

variable (g : Grammar)

mutual

/-- An expression, extended by rules of at least the given power. -/
def expression : Nat → Power → Cursor → Except Failure (Node × Cursor)
  | 0, _, _ => throw .unfinished
  | fuel + 1, least, c => do
    let (left, c) ← opening fuel c
    extensions fuel least left c

/-- One item of a block or of the program. After a block or a function definition only a semicolon goes on with it. -/
def item : Nat → Cursor → Except Failure (Node × Cursor)
  | 0, _ => throw .unfinished
  | fuel + 1, c => do
    let (left, c) ← opening fuel c
    if (left.tag = .block ∨ left.tag = .functionDef) ∧ c.kind ≠ .semicolon then return (left, c)
    extensions fuel .lowest left c

/-- What the rule for the current token reads. -/
def opening : Nat → Cursor → Except Failure (Node × Cursor)
  | 0, _ => throw .unfinished
  | fuel + 1, c =>
    match g.prefixRule? c.kind with
    | some rule => apply fuel rule c
    | none => throw (.error ⟨.noPrefixRule c.current.lexeme, c.current.span, none⟩)

/-- Extends an expression for as long as the next token has a rule of at least the given power; a statement ends. -/
def extensions : Nat → Power → Node → Cursor → Except Failure (Node × Cursor)
  | 0, _, _, _ => throw .unfinished
  | fuel + 1, least, left, c =>
    match g.infixRule? c.kind with
    | none => return (left, c)
    | some (power, rule) =>
      if power < least then return (left, c)
      else do
        let (left, c) ← extend fuel rule power left c
        if left.tag = .statement then return (left, c)
        extensions fuel least left c

/-- What a rule reads at the beginning of an expression or a type. -/
def apply : Nat → PrefixRule → Cursor → Except Failure (Node × Cursor)
  | 0, _, _ => throw .unfinished
  | fuel + 1, rule, c =>
    match rule with
    | .primary =>
      match c.kind with
      | .identifier | .integer | .float | .string => return (.leaf c.current, c.next)
      | _ => throw (.error (c.unexpected "literal"))
    | .operator => do
      let operator := c.current
      let (operand, c) ← expression fuel .highest c.next
      let span ← operator.span.extend operand.span
      return ({ span, form := .prefixOp operator operand }, c)
    | .grouping => do
      let opener := c.current
      let (inner, c) ← expression fuel .lowest c.next
      let (closer, c) ← c.expectDetailed .closeParen "expected `)` to close parenthesized expression"
      let span ← opener.span.extend closer.span
      return ({ inner with span }, c)
    | .block => do
      let (opener, c) ← c.expect .openCurly
      let (items, c) ← blockItems fuel c
      let (closer, c) ← c.expect .closeCurly
      let span ← opener.span.extend closer.span
      return ({ span, form := .ofItems items }, c)
    | .functionDef => do
      let (word, c) ← c.expect .fnWord
      let (name, c) ← c.expectDetailed .identifier "expected function name"
      let (_, c) ← c.expect .openParen
      let (params, c) ← parameters fuel c
      let (_, c) ← c.expect .closeParen
      let (_, c) ← c.expect .arrow
      let (result, c) ← typeExpression fuel c
      if c.kind = .openCurly then
        let (body, c) ← apply fuel .block c
        let span ← word.span.extend body.span
        return ({ span, form := .functionDef name params result (some body) }, c)
      else
        let span ← word.span.extend result.span
        return ({ span, form := .functionDef name params result none }, c)
    | .variableDef => do
      let (word, c) ← c.expect .letWord
      let (name, c) ← c.expectDetailed .identifier "expected identifier during variable declaration"
      let (_, c) ← c.expectDetailed .colon "expected `:` and a type after variable name"
      let (type, c) ← typeExpression fuel c
      if c.kind = .assignment then
        let (initializer, c) ← expression fuel .assignment c.next
        let span ← word.span.extend initializer.span
        return ({ span, form := .variableDef (.leaf name) type (some initializer) }, c)
      else
        let span ← word.span.extend type.span
        return ({ span, form := .variableDef (.leaf name) type none }, c)
    | .item => item fuel c
    | .type => typeExpression fuel c
    | .namedType => do
      let (token, c) ← c.expect .identifier
      return (.leaf token, c)

/-- What a rule makes of the expression before it. -/
def extend : Nat → InfixRule → Power → Node → Cursor → Except Failure (Node × Cursor)
  | 0, _, _, _, _ => throw .unfinished
  | fuel + 1, rule, power, left, c =>
    match rule with
    | .binary => do
      let operator := c.current
      let (right, c) ← expression fuel power.next c.next
      let span ← left.span.extend right.span
      return ({ span, form := .infixOp operator left right }, c)
    | .assignment => do
      let operator := c.current
      let (right, c) ← expression fuel power c.next
      let span ← left.span.extend right.span
      return ({ span, form := .infixOp operator left right }, c)
    | .call => do
      let (arguments, c) ← arguments fuel c.next
      let (closer, c) ← c.expect .closeParen
      let span ← left.span.extend closer.span
      return ({ span, form := .functionCall left arguments }, c)
    | .statement => do
      let span ← left.span.extend c.current.span
      return ({ span, form := .statement left }, c.next)

/-- The items of a block up to its closing brace. -/
def blockItems : Nat → Cursor → Except Failure (List Node × Cursor)
  | 0, _ => throw .unfinished
  | fuel + 1, c =>
    if c.kind = .closeCurly then return ([], c)
    else if !c.hasTokens then throw (.error (c.unexpected "\x7d"))
    else do
      let (first, c) ← item fuel c
      let (others, c) ← blockItems fuel c
      return (first :: others, c)

/-- The arguments of a call up to its closing parenthesis; a comma may stand before that. -/
def arguments : Nat → Cursor → Except Failure (List Node × Cursor)
  | 0, _ => throw .unfinished
  | fuel + 1, c =>
    if c.kind = .closeParen then return ([], c)
    else if !c.hasTokens then throw (.error (c.unexpected ")"))
    else do
      let (first, c) ← expression fuel .assignment c
      match c.kind with
      | .comma =>
        let (others, c) ← arguments fuel c.next
        return (first :: others, c)
      | .closeParen => return ([first], c)
      | _ => throw (.error (c.unexpected ", or )"))

/-- The parameters of a function up to the first that no comma follows; a comma may stand at the end. -/
def parameters : Nat → Cursor → Except Failure (List (Param Node) × Cursor)
  | 0, _ => throw .unfinished
  | fuel + 1, c =>
    if c.kind = .closeParen then return ([], c)
    else do
      let (name, c) ← c.expectDetailed .identifier "expected parameter name"
      let (_, c) ← c.expect .colon
      let (type, c) ← typeExpression fuel c
      if c.kind = .comma then
        let (others, c) ← parameters fuel c.next
        return (⟨.leaf name, type⟩ :: others, c)
      else return ([⟨.leaf name, type⟩], c)

def typeExpression : Nat → Cursor → Except Failure (Node × Cursor)
  | 0, _ => throw .unfinished
  | fuel + 1, c =>
    match g.typeRule? c.kind with
    | some rule => apply fuel rule c
    | none => throw (.error (c.unexpectedDetailed "expected a type"))

end

/-- The items of the program up to the end of the tokens. -/
def items : Nat → Cursor → Except Failure (List Node)
  | 0, _ => throw .unfinished
  | fuel + 1, c =>
    if c.hasTokens then do
      let (first, c) ← g.item fuel c
      let others ← items fuel c
      return first :: others
    else return []

end

end Grammar

/-- The tree of a program, given by its tokens and the length of its source. -/
def parse (tokens : List Token) (length : Nat) : Except Failure Node := do
  let c := Cursor.start tokens length
  let items ← Grammar.standard.items c.fuel c
  return { span := ⟨0, length⟩, form := .root items }

/-- The tree of a source. -/
def parseSource (source : String) : Except Failure Node := do
  parse (← tokenize source) source.utf8ByteSize

end LetFn
