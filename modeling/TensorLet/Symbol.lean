/-!
# Symbols

What is known of a declared variable: its name, its type, where it is stored
and its slot there.
-/

namespace TensorLet

/-- The declared type of a variable. -/
inductive ValueType where
  | int
  | float
  | tensor
deriving DecidableEq

/-- The keyword that names a type. -/
def ValueType.text : ValueType → String
  | .int => "int"
  | .float => "float"
  | .tensor => "tensor"

/-- Where a variable is stored. Each storage numbers its slots from zero. -/
inductive Storage where
  | argument
  | localVar
  | globalVar
deriving DecidableEq

/-- The short name of a storage. -/
def Storage.text : Storage → String
  | .argument => "arg"
  | .localVar => "local"
  | .globalVar => "global"

/-- A declared variable with its slot. -/
structure Symbol where
  name : String
  type : ValueType
  storage : Storage
  index : Nat
deriving DecidableEq

end TensorLet
