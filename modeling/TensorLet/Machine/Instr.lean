import TensorLet.Numeric.Shortest
import TensorLet.Symbol

/-!
# Machine instructions

The instructions of the stack machine and their text, one line each:

```text
push constant 2
push constant 3
fadd
pop local 0
```
-/

namespace TensorLet.Machine

/-- The memory segments that can be pushed from and popped to. -/
inductive Segment where
  | constant
  | locals
  | arguments
  | globals
  | pointer
  | heap
deriving DecidableEq

namespace Segment

/-- The name of a segment in an instruction. -/
def text : Segment → String
  | .constant => "constant"
  | .locals => "local"
  | .arguments => "argument"
  | .globals => "global"
  | .pointer => "pointer"
  | .heap => "this"

/-- The segment of a storage. -/
def ofStorage : Storage → Segment
  | .argument => .arguments
  | .localVar => .locals
  | .globalVar => .globals

theorem ofStorage_injective {s t : Storage} (h : ofStorage s = ofStorage t) : s = t := by
  cases s <;> cases t <;> first | rfl | cases h

end Segment

/-- The arithmetic on the top of the stack. -/
inductive ArithOp where
  | add
  | sub
  | mul
  | div
  | neg
deriving DecidableEq

/-- The mnemonic of an operation. -/
def ArithOp.text : ArithOp → String
  | .add => "fadd"
  | .sub => "fsub"
  | .mul => "fmult"
  | .div => "fdiv"
  | .neg => "fneg"

/-- An instruction. -/
inductive Instr where
  | pushConstant (value : Binary64)
  | push (segment : Segment) (index : Nat)
  | pop (segment : Segment) (index : Nat)
  | call (name : String) (arguments : Nat)
  | arith (op : ArithOp)
deriving DecidableEq

/-- The line of an instruction. -/
def Instr.text : Instr → String
  | .pushConstant value => "push constant " ++ value.text
  | .push segment index => "push " ++ segment.text ++ " " ++ index.repr
  | .pop segment index => "pop " ++ segment.text ++ " " ++ index.repr
  | .call name arguments => "call " ++ name ++ " " ++ arguments.repr
  | .arith op => op.text

/-- Machine code. -/
abbrev Code := List Instr

namespace Code

/-- Allocates `size` words: the size goes on the stack, and the allocator takes
it from there. -/
def alloc (size : Nat) : Code := [.pushConstant (.ofNat size), .call "Memory.alloc" 1]

/-- One line for each instruction, every line ended by a newline. -/
def text (code : Code) : String := String.join (code.map fun instr => instr.text ++ "\n")

end Code

end TensorLet.Machine
