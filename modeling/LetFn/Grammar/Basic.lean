import LetFn.Token.Kind

/-!
# Grammars

A `Grammar` says what may begin an expression, what may follow one and what may begin a type, each by the kind of the
token there. A rule that follows an expression has a `Power`; it applies where that is not below the least power asked
for. `Grammar.standard` is the grammar of the language.
-/

namespace LetFn

/-- How tightly a rule holds its operands, the weakest first. -/
inductive Power where
  | lowest | statement | assignment | conditionalTerm | conditionalFactor | additive | multiplicative | highest
deriving DecidableEq, Repr

namespace Power

def all : List Power :=
  [lowest, statement, assignment, conditionalTerm, conditionalFactor, additive, multiplicative, highest]

def name : Power → String
  | lowest => "Lowest"
  | statement => "Statement"
  | assignment => "Assignment"
  | conditionalTerm => "ConditionalTerm"
  | conditionalFactor => "ConditionalFactor"
  | additive => "Additive"
  | multiplicative => "Multiplicative"
  | highest => "Highest"

def level : Power → Nat
  | lowest => 0
  | statement => 1
  | assignment => 2
  | conditionalTerm => 3
  | conditionalFactor => 4
  | additive => 5
  | multiplicative => 6
  | highest => 7

instance : LT Power := ⟨fun a b => a.level < b.level⟩

instance (a b : Power) : Decidable (a < b) := inferInstanceAs (Decidable (a.level < b.level))

/-- The next stronger power; an operand read at it leaves operators of the same power to the left. -/
def next : Power → Power
  | lowest => statement
  | statement => assignment
  | assignment => conditionalTerm
  | conditionalTerm => conditionalFactor
  | conditionalFactor => additive
  | additive => multiplicative
  | multiplicative => highest
  | highest => highest

end Power

/-- What may begin an expression or a type. -/
inductive PrefixRule where
  /-- A name or a literal. -/
  | primary
  /-- An operator before its operand. -/
  | operator
  | grouping
  | block
  | functionDef
  | variableDef
  /-- An item of a block or of the program. -/
  | item
  /-- Whatever the grammar says about types. -/
  | type
  /-- A type by its name. -/
  | namedType
deriving DecidableEq, Repr

/-- What may follow an expression. -/
inductive InfixRule where
  /-- An operator that groups to the left. -/
  | binary
  /-- An operator that groups to the right. -/
  | assignment
  | call
  | statement
deriving DecidableEq, Repr

structure Grammar where
  prefixRule? : Kind → Option PrefixRule
  infixRule? : Kind → Option (Power × InfixRule)
  typeRule? : Kind → Option PrefixRule

namespace Grammar

/-- The grammar without rules. -/
def empty : Grammar := ⟨fun _ => none, fun _ => none, fun _ => none⟩

/-- The grammar of the language. -/
def standard : Grammar where
  prefixRule?
    | .identifier | .integer | .float | .string => some .primary
    | .dash | .not => some .operator
    | .openParen => some .grouping
    | .openCurly => some .block
    | .fnWord => some .functionDef
    | .letWord => some .variableDef
    | _ => none
  infixRule?
    | .semicolon => some (.statement, .statement)
    | .assignment => some (.assignment, .assignment)
    | .and | .or => some (.conditionalTerm, .binary)
    | .less | .lessEquals | .greater | .greaterEquals | .equals | .notEquals => some (.conditionalFactor, .binary)
    | .plus | .dash => some (.additive, .binary)
    | .star | .slash => some (.multiplicative, .binary)
    | .openParen => some (.highest, .call)
    | _ => none
  typeRule?
    | .identifier => some .namedType
    | _ => none

/-- A rule of its own for the beginning of an expression with a token of this kind. -/
def withPrefixRule (g : Grammar) (kind : Kind) (rule : PrefixRule) : Grammar :=
  { g with prefixRule? := fun k => if k = kind then some rule else g.prefixRule? k }

def withInfixRule (g : Grammar) (kind : Kind) (power : Power) (rule : InfixRule) : Grammar :=
  { g with infixRule? := fun k => if k = kind then some (power, rule) else g.infixRule? k }

def withTypeRule (g : Grammar) (kind : Kind) (rule : PrefixRule) : Grammar :=
  { g with typeRule? := fun k => if k = kind then some rule else g.typeRule? k }

/-- The standard rules for types, and the rules of `g` where there is none. -/
def withStandardTypes (g : Grammar) : Grammar :=
  { g with typeRule? := fun k => (standard.typeRule? k).or (g.typeRule? k) }

/-- The standard rules, and the rules of `g` where there is none. -/
def withStandard (g : Grammar) : Grammar :=
  { g.withStandardTypes with
    prefixRule? := fun k => (standard.prefixRule? k).or (g.prefixRule? k)
    infixRule? := fun k => (standard.infixRule? k).or (g.infixRule? k) }

end Grammar

end LetFn
