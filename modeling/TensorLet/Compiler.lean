import TensorLet.Parser
import TensorLet.Program.Code

/-!
# Compiling

Source text to machine code.
-/

namespace TensorLet

/-- The machine code of a source. -/
def compile (source : String) : Except Error Machine.Code := do
  let (program, symbols) ← parse source
  program.code symbols

/-- The machine code of a source as text. -/
def compileToText (source : String) : Except Error String := do
  let code ← compile source
  return code.text

end TensorLet
