import TensorLet.Machine.Instr

/-!
# Running code

The stack machine that the code is for, as far as code without tensors needs it.
Nothing is assumed about its values: they are any type, with any meaning of the
constants and any total operations (`Arithmetic`).

A state is a stack and the local variables that have been stored. A run is stuck
when an instruction finds too few values on the stack, reads a variable that has
not been stored, or has no meaning here.

* `Machine.step`, `Machine.run`: one instruction, and a list of them.
* `Machine.run_append`: code runs part by part.
-/

namespace TensorLet.Machine

/-- What constants and operations mean on the values of type `V`. -/
structure Arithmetic (V : Type) where
  constant : Binary64 → V
  add : V → V → V
  sub : V → V → V
  mul : V → V → V
  div : V → V → V
  neg : V → V

/-- The values on the stack, the top one first, and the stored variables. -/
structure State (V : Type) where
  stack : List V
  slots : Nat → Option V

/-- The variables after `v` has been stored in slot `i`. -/
def store {V : Type} (slots : Nat → Option V) (i : Nat) (v : V) : Nat → Option V :=
  fun k => if k = i then some v else slots k

section

variable {V : Type}

@[simp] theorem store_self (slots : Nat → Option V) (i : Nat) (v : V) :
    store slots i v i = some v := if_pos rfl

theorem store_of_ne (slots : Nat → Option V) {i k : Nat} (v : V) (h : k ≠ i) :
    store slots i v k = slots k := if_neg h

variable (A : Arithmetic V)

/-- One operation. Of two operands the right one is on top. -/
def Arithmetic.apply : ArithOp → List V → Option (List V)
  | .add, right :: left :: stack => some (A.add left right :: stack)
  | .sub, right :: left :: stack => some (A.sub left right :: stack)
  | .mul, right :: left :: stack => some (A.mul left right :: stack)
  | .div, right :: left :: stack => some (A.div left right :: stack)
  | .neg, value :: stack => some (A.neg value :: stack)
  | _, _ => none

/-- One instruction. -/
def step : Instr → State V → Option (State V)
  | .pushConstant value, s => some { s with stack := A.constant value :: s.stack }
  | .push .locals index, s => (s.slots index).map fun v => { s with stack := v :: s.stack }
  | .pop .locals index, ⟨value :: stack, slots⟩ => some ⟨stack, store slots index value⟩
  | .arith op, s => (A.apply op s.stack).map fun stack => { s with stack := stack }
  | _, _ => none

/-- The instructions of a list one after the other. -/
def run : Code → State V → Option (State V)
  | [], s => some s
  | instr :: code, s => (step A instr s).bind (run code)

theorem run_singleton (instr : Instr) (s : State V) : run A [instr] s = step A instr s := by
  show (step A instr s).bind some = _
  cases step A instr s <;> rfl

/-- Code runs part by part. -/
theorem run_append (code more : Code) (s : State V) :
    run A (code ++ more) s = (run A code s).bind (run A more) := by
  induction code generalizing s with
  | nil => rfl
  | cons instr code ih =>
    show (step A instr s).bind _ = ((step A instr s).bind _).bind _
    rw [Option.bind_assoc]
    congr 1
    funext s'
    exact ih s'

/-- Code that ends in one instruction. -/
theorem run_concat {code : Code} {s s' : State V} (h : run A code s = some s') (instr : Instr) :
    run A (code ++ [instr]) s = step A instr s' := by
  rw [run_append, h, Option.bind_some, run_singleton]

end

end TensorLet.Machine
