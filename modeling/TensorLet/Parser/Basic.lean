import TensorLet.Numeric.Decimal
import TensorLet.Program
import TensorLet.SymbolTable
import TensorLet.Text.Outline
import TensorLet.Token.Cursor

/-!
# Parser states and steps

A parser is a cursor over a source together with what it has found so far: the
symbols declared, the trace of what it did, and how deep and how high the
expression it is in has grown. A step either gives a value or stops at an
error, and in both cases leaves a parser from which work can go on.

The two counters are bounded by `maxNesting` and `maxHeight`. `nestingRoom` and
`headroom` say how far each of them may still go.
-/

namespace TensorLet

/-- A parser at some point of its source. -/
structure Parser where
  cursor : Cursor
  symbols : SymbolTable
  trace : Outline
  nesting : Nat
  height : Nat

/-- A step of a parser that gives a value or an error. -/
abbrev Parse (α : Type) := EStateM Error Parser α

namespace Parser

/-- How many brackets and signs may still be nested. -/
def nestingRoom (p : Parser) : Nat := maxNesting - p.nesting

/-- How many levels the tree may still grow. -/
def headroom (p : Parser) : Nat := maxHeight - p.height

/-- Runs a step: its outcome, and the parser after it. -/
def run {α : Type} (p : Parser) (step : Parse α) : Except Error α × Parser :=
  match step p with
  | .ok a p' => (.ok a, p')
  | .error e p' => (.error e, p')

end Parser

namespace Parse

/-! ## Trace -/

/-- Opens a tag in the trace. -/
def openTag (tag : String) : Parse Unit := fun p =>
  .ok () { p with trace := p.trace.openTag tag }

/-- Closes a tag in the trace. -/
def closeTag (tag : String) : Parse Unit := fun p =>
  .ok () { p with trace := p.trace.closeTag tag }

/-- Runs a step inside a tag. The tag stays open if the step fails. -/
def tagged {α : Type} (tag : String) (step : Parse α) : Parse α := do
  openTag tag
  let a ← step
  closeTag tag
  pure a

/-! ## Tokens -/

/-- The token under the cursor. -/
def current : Parse Token := fun p => .ok p.cursor.current p

/-- Takes the current token and moves to the next one. The token enters the
trace first, also when the next piece of the source is an error. -/
def advance : Parse Token := fun p =>
  let trace :=
    match p.cursor.current.traceText? with
    | some text => p.trace.line text
    | none => p.trace
  match p.cursor.advance with
  | (.ok token, cursor) => .ok token { p with cursor := cursor, trace := trace }
  | (.error e, cursor) => .error e { p with cursor := cursor, trace := trace }

/-- Stops at the current token, where something else should be. -/
def unexpected {α : Type} (expected : Expectation) : Parse α := do
  let found ← current
  throw ⟨.unexpected expected found, found.span⟩

/-- Takes the current token if it passes a test. -/
def expect (test : Token → Bool) (expected : Expectation) : Parse Token := do
  if test (← current) then advance else unexpected expected

/-- Takes a given symbol. -/
def expectSymbol (c : Char) : Parse Token := expect (·.isSymbol c) (.symbol c)

/-- Takes a given keyword. -/
def expectKeyword (k : Keyword) : Parse Token := expect (·.isKeyword k) (.keyword k)

/-- Takes an identifier. -/
def expectIdentifier : Parse Token := expect (·.kind = .identifier) .identifier

/-! ## Symbols -/

/-- What a name refers to at this point. -/
def resolve (name : String) : Parse (Option Storage) := fun p =>
  .ok (p.symbols.storageOf? name) p

/-- Declares a name from this point on. -/
def define (name : String) (type : ValueType) (storage : Storage) : Parse Unit := fun p =>
  .ok () { p with symbols := p.symbols.define name type storage }

/-- Starts a scope without declarations. -/
def newScope : Parse Unit := fun p => .ok () { p with symbols := .empty }

/-! ## Depth and height -/

/-- The tree grows by one level. -/
def grow : Parse Unit := fun p => .ok () { p with height := p.height + 1 }

/-- The tree is one level lower again. -/
def shrink : Parse Unit := fun p => .ok () { p with height := p.height - 1 }

/-- Goes one bracket or sign deeper, which also makes the tree grow; `span` is
to blame when it is too high. -/
def enter (span : Span) : Parse Unit := fun p =>
  let p := { p with nesting := p.nesting + 1 }
  if p.headroom = 0 then .error ⟨.expressionTooDeep, span⟩ p
  else grow p

/-- Comes back from one bracket or sign. -/
def leave : Parse Unit := fun p =>
  .ok () { p with nesting := p.nesting - 1, height := p.height - 1 }

/-- Runs a step one bracket or sign deeper. There is no step where no room is
left, and `span` is to blame for that. -/
def descend {α : Type} (span : Span) : Option (Parse α) → Parse α
  | none => throw ⟨.nestingTooDeep, span⟩
  | some inside => do
    enter span
    let a ← inside
    leave
    pure a

end Parse

end TensorLet
