import TensorLet.Symbol
import TensorLet.Tensor
import TensorLet.Token

/-!
# Expressions

The tree of an initializer. Every node carries the token it was read from, so
that what is wrong with it can be shown in the source.
-/

namespace TensorLet

/-- The operators between two operands. -/
inductive BinOp where
  | add
  | sub
  | mul
  | div
deriving DecidableEq

/-- The character of an operator. -/
def BinOp.symbol : BinOp → Char
  | .add => '+'
  | .sub => '-'
  | .mul => '*'
  | .div => '/'

/-- The operators before one operand. -/
inductive UnaryOp where
  | neg
  | tilde
  | prime
deriving DecidableEq

namespace UnaryOp

/-- The character of an operator. -/
def symbol : UnaryOp → Char
  | .neg => '-'
  | .tilde => '~'
  | .prime => '\''

/-- The operator that a character writes. -/
def ofSymbol? (c : Char) : Option UnaryOp :=
  if c = '-' then some .neg
  else if c = '~' then some .tilde
  else if c = '\'' then some .prime
  else none

theorem ofSymbol?_eq_some_iff {c : Char} {op : UnaryOp} :
    ofSymbol? c = some op ↔ c = op.symbol := by
  constructor
  · grind [ofSymbol?, UnaryOp.symbol]
  · intro h
    subst h
    cases op <;> decide

end UnaryOp

/-- An expression tree. A name carries the storage it was resolved to, or none
when no declaration was visible at its use. -/
inductive Expr where
  | binary (op : BinOp) (left right : Expr) (token : Token)
  | unary (op : UnaryOp) (operand : Expr) (token : Token)
  | scalar (value : Scalar) (token : Token)
  | name (name : String) (resolved : Option Storage) (token : Token)
  | tensor (literal : Tensor) (token : Token)
deriving DecidableEq

namespace Expr

/-- The token a node was read from. -/
def token : Expr → Token
  | binary _ _ _ token => token
  | unary _ _ token => token
  | scalar _ token => token
  | name _ _ token => token
  | tensor _ token => token

/-- Where the node's token stands. -/
def span (e : Expr) : Span := e.token.span

/-- The tensor literals of a tree, from left to right. -/
def tensors : Expr → List Tensor
  | binary _ left right _ => left.tensors ++ right.tensors
  | unary _ operand _ => operand.tensors
  | scalar _ _ => []
  | name _ _ _ => []
  | tensor literal _ => [literal]

end Expr

end TensorLet
