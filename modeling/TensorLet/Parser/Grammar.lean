import TensorLet.Parser.Basic

/-!
# Grammar

The steps that read the language, one for each production.

```text
unit        := block END
block       := declaration*
declaration := 'let' type IDENTIFIER '=' expression ';'
type        := 'int' | 'float' | 'tensor'
expression  := term (('+' | '-') term)*
term        := factor (('*' | '/') factor)*
factor      := '(' expression ')' | primary
primary     := NUMBER | IDENTIFIER | tensor | ('-' | '~' | ''') factor
tensor      := '{' [element (',' element)*] '}'
element     := tensor | ['-'] NUMBER
```

Signs bind tighter than `*` and `/`, and these tighter than `+` and `-`; chains
of operators lean to the left. One token of look-ahead decides every choice.

Names are resolved where they are used. A declaration enters the scope after
its initializer, which therefore never sees it.

Nesting is bounded, and the bound is what the recursion goes by: `factor room`
may open `room` more brackets and signs, and `chain` may grow the tree by as
many operators as its own argument says.
-/

namespace TensorLet

/-- The number that a numeric token writes. Numbers too large to be finite are
an error. -/
def Token.scalar (t : Token) : Except Error Scalar :=
  match Decimal.ofChars? t.lexeme.toList with
  | none => .error ⟨.malformedNumber t.lexeme, t.span⟩
  | some d =>
    if d.toBinary64.isFinite then .ok ⟨d.toBinary64, if t.kind = .int then .int else .float⟩
    else .error ⟨.outOfRange t.lexeme, t.span⟩

/-- The type that a token names. -/
def Token.valueType? (t : Token) : Option ValueType :=
  match t.keyword? with
  | some .int => some .int
  | some .float => some .float
  | some .tensor => some .tensor
  | _ => none

/-- The operator that a token writes before an operand. -/
def Token.unaryOp? (t : Token) : Option UnaryOp := t.lexeme.toList.head?.bind UnaryOp.ofSymbol?

/-- Which of some operators a token writes. -/
def Token.binaryOp? (t : Token) (ops : List BinOp) : Option BinOp :=
  ops.find? fun op => t.isSymbol op.symbol

namespace Parse

/-! ## Tensor literals -/

/-- The token under the cursor as a number. It is taken before it is read. -/
def scalar : Parse Scalar := do
  let token ← advance
  match token.scalar with
  | .ok s => pure s
  | .error e => throw e

/-- A number with an optional minus sign inside a tensor literal; a zero of
either sign is not stored. -/
def signedNumber : Parse (Option Tensor) := do
  let negative := (← current).isSymbol '-'
  if negative then
    let _ ← advance
  if (← current).isNumber then
    let s ← scalar
    let value := if negative then s.value.negate else s.value
    pure (if value.isZero then none else some (.leaf { s with value := value }))
  else
    unexpected .element

/-- An element: a nested literal or a number. -/
def element (nested : Parse Tensor) : Parse (Option Tensor) := do
  if (← current).isSymbol '\x7b' then
    let t ← nested
    pure (some t)
  else
    signedNumber

/-- Elements with commas between them, the first one at position `index`: the
position behind the last one, and those that are stored. At most `bound` commas
are read. -/
def elements (nested : Parse Tensor) : Nat → Nat → Parse (Nat × List (Nat × Tensor))
  | 0, index => do
    let e ← element nested
    pure (index + 1, (e.map (index, ·)).toList)
  | bound + 1, index => do
    let e ← element nested
    if (← current).isSymbol ',' then
      let _ ← advance
      let (extent, entries) ← elements nested bound (index + 1)
      pure (extent, (e.map (index, ·)).toList ++ entries)
    else
      pure (index + 1, (e.map (index, ·)).toList)

/-- The elements up to the closing brace. A comma uses up a pending piece of
the source, which bounds their number. -/
def optionalElements (nested : Parse Tensor) : Parse (Nat × List (Nat × Tensor)) := do
  if (← current).isSymbol '\x7d' then pure (0, [])
  else
    let p ← get
    elements nested p.cursor.pending.length 0

/-- A pair of braces and what is between them. -/
def braces (nested : Parse Tensor) : Parse Tensor := do
  let brace ← expectSymbol '\x7b'
  let (extent, entries) ← optionalElements nested
  let found ← current
  if found.isSymbol '\x7d' then
    let _ ← advance
    pure (.node extent entries)
  else
    throw ⟨.unclosedTensor found, brace.span.merge found.span⟩

/-- A tensor literal, given how to read those nested in it. -/
def tensorWith (nested : Option (Parse Tensor)) : Parse Tensor :=
  tagged "tensor" do
    let brace ← current
    descend brace.span (nested.map braces)

/-- A tensor literal in which `room` braces may nest. -/
def tensor : Nat → Parse Tensor
  | 0 => tensorWith none
  | room + 1 => tensorWith (some (tensor room))

/-! ## Expressions -/

/-- Operators and operands that follow `left`, read from left to right, with
room for a number of operators. -/
def chain (ops : List BinOp) (operand : Parse Expr) : Nat → Expr → Parse Expr
  | room, left => do
    match (← current).binaryOp? ops with
    | none => pure left
    | some op =>
      let token ← advance
      match room with
      | 0 => throw ⟨.expressionTooDeep, token.span⟩
      | room + 1 =>
        grow
        let right ← operand
        let e ← chain ops operand room (.binary op left right token)
        shrink
        pure e

/-- One level of precedence: operands with its operators between them. -/
def level (tag : String) (ops : List BinOp) (operand : Parse Expr) : Parse Expr :=
  tagged tag do
    let first ← operand
    let p ← get
    chain ops operand p.headroom first

/-- Products and quotients of factors. -/
def term (factor : Parse Expr) : Parse Expr := level "term" [.mul, .div] factor

/-- Sums and differences of terms. -/
def expression (factor : Parse Expr) : Parse Expr :=
  level "expression" [.add, .sub] (term factor)

/-- An expression in parentheses, which leave no node behind. -/
def parenthesized (inner : Option (Parse Expr)) : Parse Expr := do
  let paren ← advance
  descend paren.span (inner.map fun factor => do
    let e ← expression factor
    let _ ← expectSymbol ')'
    pure e)

/-- A sign and its operand. -/
def signed (op : UnaryOp) (inner : Option (Parse Expr)) : Parse Expr := do
  let token ← advance
  let operand ← descend token.span inner
  pure (.unary op operand token)

/-- A number, a name, a tensor literal or a sign with its operand. -/
def primary (inner : Option (Parse Expr)) (literal : Parse Tensor) : Parse Expr :=
  tagged "primary" do
    let token ← current
    match token.kind with
    | .int | .float =>
      let s ← scalar
      pure (.scalar s token)
    | .identifier =>
      let resolved ← resolve token.lexeme
      let _ ← advance
      pure (.name token.lexeme resolved token)
    | .symbol =>
      if token.isSymbol '\x7b' then
        let t ← literal
        pure (.tensor t token)
      else
        match token.unaryOp? with
        | some op => signed op inner
        | none => unexpected .expression
    | _ => unexpected .expression

/-- A factor, given how to read those nested in it. -/
def factorWith (inner : Option (Parse Expr)) (literal : Parse Tensor) : Parse Expr :=
  tagged "factor" do
    if (← current).isSymbol '(' then parenthesized inner else primary inner literal

/-- A factor in which `room` brackets and signs may nest. -/
def factor : Nat → Parse Expr
  | 0 => factorWith none (tensor 0)
  | room + 1 => factorWith (some (factor room)) (tensor (room + 1))

/-! ## Declarations -/

/-- The name of a type. -/
def valueType : Parse ValueType := do
  match (← current).valueType? with
  | some type =>
    let _ ← advance
    pure type
  | none => unexpected .type

/-- An initializer: an expression in which as many brackets and signs may nest
as there is room for. -/
def initializer : Parse Expr := do
  let p ← get
  expression (factor p.nestingRoom)

/-- A declaration of a local variable. -/
def declaration : Parse Declaration :=
  tagged "var_dec" do
    let token ← expectKeyword .letWord
    let type ← valueType
    let name ← expectIdentifier
    let _ ← expectSymbol '='
    let rhs ← initializer
    define name.lexeme type .localVar
    let _ ← expectSymbol ';'
    pure ⟨token, name.lexeme, type, .localVar, rhs⟩

/-- Declarations for as long as there are any, at most `bound` of them. -/
def declarations : Nat → Parse (List Declaration)
  | 0 => pure []
  | bound + 1 => do
    if (← current).isKeyword .letWord then
      let d ← declaration
      let ds ← declarations bound
      pure (d :: ds)
    else
      pure []

/-- A list of declarations with a scope of its own. Each of them takes the
current token or a pending piece of the source, which bounds their number. -/
def block : Parse Block := do
  let token ← current
  tagged "statements" do
    newScope
    let p ← get
    let ds ← declarations (p.cursor.pending.length + 1)
    pure ⟨token, ds⟩

/-- A whole source: a block and nothing behind it. -/
def unit : Parse Program := do
  let token ← current
  tagged unitLabel do
    let b ← block
    if (← current).isEnd then pure ⟨unitLabel, token, [b]⟩
    else unexpected .declarationOrEnd

end Parse

end TensorLet
