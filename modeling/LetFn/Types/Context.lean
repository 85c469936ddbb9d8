import LetFn.Error.Basic
import LetFn.Types.Basic

/-!
# Contexts

A `Context` holds what the checker knows: the table of types, where equal types share one number, the scopes with
their symbols, and what the type variables stand for. Nothing is ever removed from it, so a number that it gave out
stays good.

* `intern` gives a type its number;
* `promote` and `coerces` compare numeric types by rank;
* `declare` enters a symbol, `lookup` finds the nearest one from a scope outwards;
* `display` spells a type.
-/

namespace LetFn

inductive SymbolKind where
  | variable
  | parameter
  /-- A function, with the spans of its parameters' names. -/
  | function (params : List Span) (hasBody : Bool)
deriving DecidableEq, Repr

/-- Whether a function comes with a body; nothing for other symbols. -/
def SymbolKind.body? : SymbolKind → Option Bool
  | function _ hasBody => some hasBody
  | _ => none

structure Symbol where
  name : String
  type : TypeId
  /-- The span of the name where it is declared. -/
  span : Span
  kind : SymbolKind
deriving DecidableEq, Repr

/-- A level of the program: the symbols declared right in it, one for each name. -/
structure Scope where
  parent : Option ScopeId
  symbols : List Symbol
deriving DecidableEq, Repr

namespace Scope

def find? (s : Scope) (name : String) : Option Symbol := s.symbols.find? (·.name = name)

/-- Enters a symbol, in place of the one of that name if there is one. -/
def put (s : Scope) (symbol : Symbol) : Scope :=
  match s.find? symbol.name with
  | some _ => { s with symbols := s.symbols.map fun old => if old.name = symbol.name then symbol else old }
  | none => { s with symbols := s.symbols ++ [symbol] }

end Scope

structure Context where
  /-- The type of number `i` stands at place `i`. -/
  types : List Ty
  /-- The scope of number `i` stands at place `i`. -/
  scopes : List Scope
  /-- What each type variable stands for, once that is known. -/
  bindings : List (Option TypeId)
deriving DecidableEq, Repr

namespace Context

/-- The context at the start: the built-in types and the scope around the program. -/
def new : Context := ⟨Ty.builtins.map (·.2), [⟨none, []⟩], []⟩

/-! ## types -/

/-- The type of a number; a number that was never given out counts as `void`. -/
def type (ctx : Context) (t : TypeId) : Ty := ctx.types.getD t.index .void

/-- The number of a type, which is entered into the table if it is new. -/
def intern (ctx : Context) (t : Ty) : TypeId × Context :=
  match ctx.types.idxOf? t with
  | some i => (⟨i⟩, ctx)
  | none => (⟨ctx.types.length⟩, { ctx with types := ctx.types ++ [t] })

def isNumeric (ctx : Context) (t : TypeId) : Bool := (ctx.type t).isNumeric

/-- The higher of two numeric types. -/
def promote (ctx : Context) (a b : TypeId) : Option TypeId := do
  let rankA ← (ctx.type a).rank?
  let rankB ← (ctx.type b).rank?
  return if rankB ≤ rankA then a else b

/-- Whether a value of type `a` may stand where `b` is expected: the types are the same, or `b` is the higher of two
numeric types. -/
def coerces (ctx : Context) (a b : TypeId) : Bool := a = b || ctx.promote a b = some b

/-- Spells a type, looking through function types at most `fuel` deep. -/
def displayWithin (ctx : Context) : Nat → TypeId → String
  | 0, _ => ""
  | fuel + 1, t =>
    match ctx.type t with
    | .void => "void"
    | .string => "string"
    | .int => "int"
    | .sizedInt bits => "i" ++ toString bits
    | .float => "float"
    | .sizedFloat bits => "f" ++ toString bits
    | .function params result =>
      "fn(" ++ ", ".intercalate (params.map (ctx.displayWithin fuel)) ++ ") -> " ++ ctx.displayWithin fuel result
    | .hole v => "t" ++ toString v.index

/-- The spelling of a type. The parts of a function type are made before it, so its number bounds its depth. -/
def display (ctx : Context) (t : TypeId) : String := ctx.displayWithin (t.index + 1) t

/-! ## scopes -/

/-- A new scope inside another. -/
def openScope (ctx : Context) (parent : ScopeId) : ScopeId × Context :=
  (⟨ctx.scopes.length⟩, { ctx with scopes := ctx.scopes ++ [⟨some parent, []⟩] })

def scope? (ctx : Context) (s : ScopeId) : Option Scope := ctx.scopes[s.index]?

/-- The symbol of this name that is declared right in the scope. -/
def symbolIn? (ctx : Context) (s : ScopeId) (name : String) : Option Symbol := (ctx.scope? s).bind (·.find? name)

def put (ctx : Context) (s : ScopeId) (symbol : Symbol) : Context :=
  { ctx with scopes := ctx.scopes.modify s.index (·.put symbol) }

/-- Declares a symbol. A declaration seen before, known by its span, changes nothing. A function without a body may be
declared again with the same type, and a body then takes its place. Every other second declaration of a name in one
scope is an error. -/
def declare (ctx : Context) (s : ScopeId) (symbol : Symbol) : Except Error Context :=
  match ctx.symbolIn? s symbol.name with
  | none => .ok (ctx.put s symbol)
  | some old =>
    if old.span = symbol.span then .ok ctx
    else
      match old.kind.body?, symbol.kind.body? with
      | some oldBody, some newBody =>
        if old.type = symbol.type ∧ !(oldBody && newBody) then .ok (if newBody then ctx.put s symbol else ctx)
        else .error ⟨.alreadyDeclared symbol.name, symbol.span, some old.span⟩
      | _, _ => .error ⟨.alreadyDeclared symbol.name, symbol.span, some old.span⟩

/-- Gives a symbol that is declared right in the scope another type. -/
def setSymbolType (ctx : Context) (s : ScopeId) (name : String) (t : TypeId) : Context :=
  match ctx.symbolIn? s name with
  | some symbol => ctx.put s { symbol with type := t }
  | none => ctx

/-- The nearest symbol of a name, with its scope, going outwards through at most `fuel` scopes. -/
def lookupWithin (ctx : Context) : Nat → ScopeId → String → Option (ScopeId × Symbol)
  | 0, _, _ => none
  | fuel + 1, s, name =>
    match ctx.scope? s with
    | none => none
    | some scope =>
      match scope.find? name with
      | some symbol => some (s, symbol)
      | none => scope.parent.bind fun parent => ctx.lookupWithin fuel parent name

/-- The nearest symbol of a name. A scope is made after its parent, so its number bounds the way outwards. -/
def lookup (ctx : Context) (s : ScopeId) (name : String) : Option (ScopeId × Symbol) :=
  ctx.lookupWithin (s.index + 1) s name

def resolveSymbol (ctx : Context) (s : ScopeId) (name : String) (span : Span) : Except Error Symbol :=
  match ctx.lookup s name with
  | some (_, symbol) => .ok symbol
  | none => .error ⟨.unknownIdentifier name, span, none⟩

/-- The type that a name in a type expression stands for. -/
def resolveTypeName (name : String) (span : Span) : Except Error TypeId :=
  match TypeId.named? name with
  | some t => .ok t
  | none => .error ⟨.unknownType name, span, none⟩

end Context

end LetFn
