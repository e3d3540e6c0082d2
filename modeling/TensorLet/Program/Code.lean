import TensorLet.Error
import TensorLet.Machine.Instr
import TensorLet.Program
import TensorLet.SymbolTable

/-!
# Code of programs

Machine code in post-order: operands before the operation on them, and an
initializer before the `pop` that stores it.

Slots come from the symbol table of the program's parse, which is replayed: a
use in the initializer of one declaration sees the declarations before it and
no others, and every declaration has to be the one that the table records at
its place.

| Tree | Code |
|---|---|
| `l + r` | code of `l`, code of `r`, `fadd` |
| `- x` | code of `x`, `fneg` |
| number | `push constant` |
| name | `push` from its slot |
| node of a tensor | its extent, how many elements are stored, and for each of them its position and its code |
| declaration | code of the initializer, `pop` to its slot |
-/

namespace TensorLet

open Machine (Instr Code Segment ArithOp)

/-! ## Expressions -/

mutual
/-- The constants that describe a tensor literal. -/
def Tensor.code : Tensor → Code
  | .leaf scalar => [.pushConstant scalar.value]
  | .node extent entries =>
    .pushConstant (.ofNat extent) :: .pushConstant (.ofNat entries.length) ::
      Tensor.entriesCode entries
/-- The position and the constants of each stored element. -/
def Tensor.entriesCode : List (Nat × Tensor) → Code
  | [] => []
  | (index, t) :: rest => .pushConstant (.ofNat index) :: (t.code ++ Tensor.entriesCode rest)
end

/-- The operation of a binary operator. -/
def BinOp.arith : BinOp → ArithOp
  | .add => .add
  | .sub => .sub
  | .mul => .mul
  | .div => .div

/-- The operation of a unary operator; only the minus sign has one. -/
def UnaryOp.arith? : UnaryOp → Option ArithOp
  | .neg => some .neg
  | .tilde => none
  | .prime => none

/-- The symbol that a use of `name` refers to after `declared` declarations. It
has to be stored where the parse resolved it to. -/
def SymbolTable.resolveUse (symbols : SymbolTable) (declared : Nat) (name : String)
    (resolved : Option Storage) : Except Fault Symbol :=
  match resolved with
  | none => .error (.undeclared name)
  | some storage =>
    match (symbols.lookupBefore? name declared).filter (·.storage = storage) with
    | none => .error (.unrecordedUse name storage)
    | some symbol => .ok symbol

/-- The code that leaves the value of an expression on the stack, after
`declared` declarations. -/
def Expr.code (symbols : SymbolTable) (declared : Nat) : Expr → Except Error Code
  | .binary op left right _ => do
    let l ← left.code symbols declared
    let r ← right.code symbols declared
    return l ++ r ++ [.arith op.arith]
  | .unary op operand token =>
    match op.arith? with
    | none => .error ⟨.noInstruction op.symbol, token.span⟩
    | some arith => do
      let code ← operand.code symbols declared
      return code ++ [.arith arith]
  | .scalar s _ => .ok [.pushConstant s.value]
  | .name n resolved token =>
    match symbols.resolveUse declared n resolved with
    | .error fault => .error ⟨fault, token.span⟩
    | .ok symbol => .ok [.push (.ofStorage symbol.storage) symbol.index]
  | .tensor t _ => .ok t.code

/-! ## Declarations -/

/-- True when a declaration is the one that a symbol was made by. -/
def Symbol.records (s : Symbol) (d : Declaration) : Bool :=
  s.name = d.name && s.storage = d.storage && s.type = d.type

/-- The symbol that the table records for a declaration after `declared`
others. -/
def SymbolTable.recorded (symbols : SymbolTable) (declared : Nat) (d : Declaration) :
    Except Fault Symbol :=
  match symbols.declaration? declared with
  | none => .error (.unrecordedDeclaration d.name)
  | some symbol =>
    if symbol.records d then .ok symbol else .error (.mismatchedDeclaration d.name symbol)

/-- The code of a declaration after `declared` others. -/
def Declaration.code (symbols : SymbolTable) (declared : Nat) (d : Declaration) :
    Except Error Code := do
  let code ← d.rhs.code symbols declared
  match symbols.recorded declared d with
  | .error fault => throw ⟨fault, d.token.span⟩
  | .ok symbol => return code ++ [.pop (.ofStorage symbol.storage) symbol.index]

/-- The code of declarations in order, the first of them after `declared`
others. -/
def declarationsCode (symbols : SymbolTable) : Nat → List Declaration → Except Error Code
  | _, [] => .ok []
  | declared, d :: ds => do
    let code ← d.code symbols declared
    let rest ← declarationsCode symbols (declared + 1) ds
    return code ++ rest

/-- The code of a program with the symbol table of its parse. The table records
the declarations of the program and no more. -/
def Program.code (p : Program) (symbols : SymbolTable) : Except Error Code := do
  let code ← declarationsCode symbols 0 p.declarations
  if symbols.size = p.declarations.length then return code
  else throw ⟨.declarationCount symbols.size p.declarations.length, p.token.span⟩

end TensorLet
