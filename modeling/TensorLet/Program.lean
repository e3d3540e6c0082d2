import TensorLet.Expr

/-!
# Programs

A program is a labelled list of blocks, and a block a list of declarations.
-/

namespace TensorLet

/-- `let <type> <name> = <rhs>;` with the storage of the variable. -/
structure Declaration where
  token : Token
  name : String
  type : ValueType
  storage : Storage
  rhs : Expr
deriving DecidableEq

/-- Declarations that share a scope. -/
structure Block where
  token : Token
  declarations : List Declaration
deriving DecidableEq

/-- A labelled list of blocks. -/
structure Program where
  label : String
  token : Token
  blocks : List Block
deriving DecidableEq

/-- The label of the program that a whole source makes. -/
def unitLabel : String := "compilation_unit"

namespace Program

/-- All declarations in order. -/
def declarations (p : Program) : List Declaration := p.blocks.flatMap (·.declarations)

/-- All tensor literals in order. -/
def tensors (p : Program) : List Tensor := p.declarations.flatMap (·.rhs.tensors)

end Program

end TensorLet
