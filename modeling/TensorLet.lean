import TensorLet.Main
import TensorLet.Proofs.Parser.Acceptance
import TensorLet.Proofs.Scope
import TensorLet.Proofs.Evaluation
import TensorLet.Proofs.Parser.TokenHeight
import TensorLet.Proofs.TensorCode
import TensorLet.Proofs.Token.Layout
import TensorLet.Proofs.Parser.CorrectPrefix
import TensorLet.Proofs.Renaming
import TensorLet.Proofs.SymbolTable.Definitions
import TensorLet.Proofs.Token.Joining
import TensorLet.Proofs.Concatenation
import TensorLet.Proofs.Tensor.Literals
import TensorLet.Proofs.Trace
import TensorLet.Proofs.StackDiscipline
import TensorLet.Proofs.Parser.Silence
import TensorLet.Proofs.Diagnostics
import TensorLet.Proofs.Token.Lexemes
import TensorLet.Proofs.Replay
import TensorLet.Proofs.Command.Outcomes
import TensorLet.Proofs.Parser.RoundTrip
import TensorLet.Proofs.Parser.Work
import TensorLet.Proofs.NodeTokens
import TensorLet.Proofs.Listing
import TensorLet.Proofs.CodeText
import TensorLet.Proofs.Escape
import TensorLet.Proofs.Command.SourceKept
