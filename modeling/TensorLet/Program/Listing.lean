import TensorLet.Numeric.Shortest
import TensorLet.Program
import TensorLet.Text.Outline

/-!
# Listings

A program as an outline, from the root down. Inner nodes are tags; names,
numbers and operators are lines of their own, a binary operator between its
operands and a unary one before its operand. Of a tensor only the stored
elements are listed, each below its position.
-/

namespace TensorLet

mutual
/-- Lists a tensor literal. -/
def Tensor.list : Tensor → Outline → Outline
  | .leaf scalar, o => o.line scalar.value.text
  | .node _ entries, o => (Tensor.listEntries entries (o.openTag "tensor")).closeTag "tensor"
/-- Lists the stored elements of a node. -/
def Tensor.listEntries : List (Nat × Tensor) → Outline → Outline
  | [], o => o
  | (index, t) :: rest, o =>
    Tensor.listEntries rest (t.list (o.line ("[" ++ index.repr ++ "]")).indent).dedent
end

/-- Lists an expression tree. -/
def Expr.list : Expr → Outline → Outline
  | .binary op left right _, o =>
    let o := left.list (o.openTag "expr_node")
    (right.list (o.line op.symbol.toString)).closeTag "expr_node"
  | .unary op operand _, o =>
    (operand.list ((o.openTag "expr_node").line op.symbol.toString)).closeTag "expr_node"
  | .scalar s _, o => o.line s.value.text
  | .name n _ _, o => o.line n
  | .tensor t _, o => t.list o

/-- Lists a declaration: its name and type, then its initializer. -/
def Declaration.list (d : Declaration) (o : Outline) : Outline :=
  let o := (o.openTag "var_dec").line (d.name ++ "\x7b" ++ d.type.text ++ "\x7d:")
  (d.rhs.list o).closeTag "var_dec"

/-- Lists the declarations of a block. -/
def Block.list (b : Block) (o : Outline) : Outline :=
  (b.declarations.foldl (fun o d => d.list o) (o.openTag "statements")).closeTag "statements"

/-- Lists a program under its label. -/
def Program.list (p : Program) (o : Outline) : Outline :=
  (p.blocks.foldl (fun o b => b.list o) (o.openTag p.label)).closeTag p.label

/-- The text of a block's listing. -/
def Block.listing (b : Block) : String := (b.list .empty).text

/-- The text of a program's listing. -/
def Program.listing (p : Program) : String := (p.list .empty).text

end TensorLet
