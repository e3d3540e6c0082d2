import TensorLet.Parser.Grammar

/-!
# The language as a relation

`TensorLet.Parse` reads the language step by step. Here the same productions are
rules that relate a list of tokens to the tree it writes, without a cursor, a
look-ahead or a counter:

```text
unit        := block END
block       := declaration*
declaration := 'let' type IDENTIFIER '=' expression ';'
expression  := term (('+' | '-') term)*
term        := factor (('*' | '/') factor)*
factor      := '(' expression ')' | primary
primary     := NUMBER | IDENTIFIER | tensor | ('-' | '~' | ''') factor
tensor      := '{' [element (',' element)*] '}'
element     := tensor | ['-'] NUMBER
```

The limits are part of the rules. Every phrase stands at a nesting `n` and a
height `h`. An initializer is at `(0, 0)`. The operand behind the `k`-th operator
of a chain at `(n, h)` is at `(n, h + k)`, and what a parenthesis, brace or sign
at `(n, h)` holds is at `(n + 1, h + 1)`.

* `Literal`, `Elements`, `Element`: tensor literals.
* `Derives`: expressions, terms, factors and primaries.
* `Declares`, `Statements`, `CompilationUnit`: declarations and whole sources.
-/

namespace TensorLet

/-- The number that a numeric token writes. It is infinite when it is too
large. -/
def Token.number? (t : Token) : Option Scalar :=
  (Decimal.ofChars? t.lexeme.toList).map fun d =>
    ⟨d.toBinary64, if t.kind = .int then .int else .float⟩

/-- True of numeric tokens whose number is finite, and of all other tokens. -/
def Token.FiniteNumber (t : Token) : Prop :=
  t.isNumber = true → ∃ s, t.number? = some s ∧ s.value.isFinite = true

namespace Grammar

/-- A parenthesis, a brace or a sign may stand at nesting `n` and height `h`. -/
def Opens (n h : Nat) : Prop := n < maxNesting ∧ h < maxHeight

/-! ## Tensor literals -/

/-- What a number leaves in a tensor literal: nothing if it is zero. -/
def stored (s : Scalar) : Option Tensor := if s.value.isZero then none else some (.leaf s)

/-- The stored elements with their positions, the first element being at
`index`. -/
def entries : Nat → List (Option Tensor) → List (Nat × Tensor)
  | _, [] => []
  | index, e :: es => (e.map (index, ·)).toList ++ entries (index + 1) es

mutual
/-- `tensor := '{' [element (',' element)*] '}'` -/
inductive Literal : Nat → Nat → List Token → Tensor → Prop
  | empty {n h : Nat} {l r : Token} : Opens n h → l.isSymbol '\x7b' = true →
      r.isSymbol '\x7d' = true → Literal n h [l, r] (.node 0 [])
  | filled {n h : Nat} {l r : Token} {ts : List Token} {es : List (Option Tensor)} :
      Opens n h → l.isSymbol '\x7b' = true → Elements (n + 1) (h + 1) ts es →
      r.isSymbol '\x7d' = true → Literal n h (l :: (ts ++ [r])) (.node es.length (entries 0 es))
/-- `element (',' element)*` -/
inductive Elements : Nat → Nat → List Token → List (Option Tensor) → Prop
  | last {n h : Nat} {ts : List Token} {e : Option Tensor} :
      Element n h ts e → Elements n h ts [e]
  | more {n h : Nat} {ts us : List Token} {comma : Token} {e : Option Tensor}
      {es : List (Option Tensor)} : Element n h ts e → comma.isSymbol ',' = true →
      Elements n h us es → Elements n h (ts ++ comma :: us) (e :: es)
/-- `element := tensor | ['-'] NUMBER` -/
inductive Element : Nat → Nat → List Token → Option Tensor → Prop
  | literal {n h : Nat} {ts : List Token} {t : Tensor} :
      Literal n h ts t → Element n h ts (some t)
  | number {n h : Nat} {t : Token} {s : Scalar} : t.isNumber = true → t.number? = some s →
      Element n h [t] (stored s)
  | negative {n h : Nat} {minus t : Token} {s : Scalar} : minus.isSymbol '-' = true →
      t.isNumber = true → t.number? = some s →
      Element n h [minus, t] (stored { s with value := s.value.negate })
end

/-! ## Expressions -/

/-- The two levels of operators between operands. -/
inductive Level where
  | sum
  | product

/-- What an expression is made of. A chain has `operators` operators between its
operands. -/
inductive Phrase where
  | expression
  | term
  | factor
  | primary
  | chain (level : Level) (operators : Nat)

namespace Level

/-- The operators of a level. -/
def ops : Level → List BinOp
  | sum => [.add, .sub]
  | product => [.mul, .div]

/-- The operands of a level. -/
def operand : Level → Phrase
  | sum => .term
  | product => .factor

end Level

/-- The tokens of a phrase at a nesting and a height, and its tree. Names are
resolved by `scope`. -/
inductive Derives (scope : String → Option Storage) :
    Phrase → Nat → Nat → List Token → Expr → Prop
  | expression {n h k : Nat} {ts : List Token} {e : Expr} :
      Derives scope (.chain .sum k) n h ts e → Derives scope .expression n h ts e
  | term {n h k : Nat} {ts : List Token} {e : Expr} :
      Derives scope (.chain .product k) n h ts e → Derives scope .term n h ts e
  | first {level : Level} {n h : Nat} {ts : List Token} {e : Expr} :
      Derives scope level.operand n h ts e → Derives scope (.chain level 0) n h ts e
  | next {level : Level} {n h k : Nat} {ts us : List Token} {left right : Expr} {op : BinOp}
      {t : Token} : Derives scope (.chain level k) n h ts left → op ∈ level.ops →
      t.isSymbol op.symbol = true → h + (k + 1) ≤ maxHeight →
      Derives scope level.operand n (h + (k + 1)) us right →
      Derives scope (.chain level (k + 1)) n h (ts ++ t :: us) (.binary op left right t)
  | parentheses {n h : Nat} {l r : Token} {ts : List Token} {e : Expr} : Opens n h →
      l.isSymbol '(' = true → Derives scope .expression (n + 1) (h + 1) ts e →
      r.isSymbol ')' = true → Derives scope .factor n h (l :: (ts ++ [r])) e
  | primary {n h : Nat} {ts : List Token} {e : Expr} :
      Derives scope .primary n h ts e → Derives scope .factor n h ts e
  | number {n h : Nat} {t : Token} {s : Scalar} : t.isNumber = true → t.number? = some s →
      Derives scope .primary n h [t] (.scalar s t)
  | name {n h : Nat} {t : Token} : t.kind = .identifier →
      Derives scope .primary n h [t] (.name t.lexeme (scope t.lexeme) t)
  | tensor {n h : Nat} {brace : Token} {ts : List Token} {literal : Tensor} :
      Literal n h (brace :: ts) literal →
      Derives scope .primary n h (brace :: ts) (.tensor literal brace)
  | sign {n h : Nat} {op : UnaryOp} {t : Token} {ts : List Token} {e : Expr} : Opens n h →
      t.isSymbol op.symbol = true → Derives scope .factor (n + 1) (h + 1) ts e →
      Derives scope .primary n h (t :: ts) (.unary op e t)

/-! ## Declarations -/

/-- What a name resolves to where `names` are declared, all of them local. -/
def visible (names : List String) (name : String) : Option Storage :=
  if name ∈ names then some .localVar else none

/-- `declaration := 'let' type IDENTIFIER '=' expression ';'`, behind the
declarations of `names`. -/
inductive Declares (names : List String) : List Token → Declaration → Prop
  | intro {word type name equals semicolon : Token} {ts : List Token} {valueType : ValueType}
      {rhs : Expr} : word.isKeyword .letWord = true → type.valueType? = some valueType →
      name.kind = .identifier → equals.isSymbol '=' = true →
      Derives (visible names) .expression 0 0 ts rhs → semicolon.isSymbol ';' = true →
      Declares names (word :: type :: name :: equals :: (ts ++ [semicolon]))
        ⟨word, name.lexeme, valueType, .localVar, rhs⟩

/-- `block := declaration*`, behind the declarations of `names`. Each declaration
is visible in those that follow. -/
inductive Statements : List String → List Token → List Declaration → Prop
  | nil {names : List String} : Statements names [] []
  | cons {names : List String} {ts us : List Token} {d : Declaration} {ds : List Declaration} :
      Declares names ts d → Statements (d.name :: names) us ds →
      Statements names (ts ++ us) (d :: ds)

/-- `unit := block END`: the tokens before the end and the program they write.
Program and block carry the first token of the source. -/
def CompilationUnit (ts : List Token) (theEnd : Token) (program : Program) : Prop :=
  ∃ ds, Statements [] ts ds ∧
    program = ⟨unitLabel, ts.headD theEnd, [⟨ts.headD theEnd, ds⟩]⟩

end Grammar

end TensorLet
