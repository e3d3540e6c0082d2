import TensorLet.Symbol
import TensorLet.Token

/-!
# Errors

A failure is a fault, which says what is wrong and with what, and the span it
is about. The wording of every fault is `Fault.message`.

A diagnostic is what a user sees of a failure: its kind, its message and the
place to underline.
-/

namespace TensorLet

/-! ## Limits -/

/-- The deepest nesting of parentheses, braces and signs before an operand. -/
def maxNesting : Nat := 128

/-- The greatest height of an expression tree, the operators of a chain
counted. -/
def maxHeight : Nat := 1024

/-! ## Faults -/

/-- What the grammar asks for at a token. -/
inductive Expectation where
  | declarationOrEnd
  | keyword (k : Keyword)
  | type
  | identifier
  | symbol (c : Char)
  | expression
  | element
deriving DecidableEq

/-- An expectation in a sentence. -/
def Expectation.text : Expectation → String
  | .declarationOrEnd => "'let' or end of input"
  | .keyword k => "'" ++ k.text ++ "'"
  | .type => "a type ('int', 'float' or 'tensor')"
  | .identifier => "an identifier"
  | .symbol c => "'" ++ c.toString ++ "'"
  | .expression => "an expression"
  | .element => "a number or '\x7b' inside the tensor literal"

/-- The ways in which a source, or a program given with a symbol table, can be
wrong. -/
inductive Fault where
  /-- A character that starts no token. -/
  | unexpectedCharacter (c : Char)
  /-- A number with a letter directly behind it. -/
  | runsInto (number : String) (c : Char)
  /-- A numeric token that is not digits with a point. -/
  | malformedNumber (lexeme : String)
  /-- A number too large to be finite. -/
  | outOfRange (lexeme : String)
  /-- A token the grammar has no place for. -/
  | unexpected (expected : Expectation) (found : Token)
  /-- A tensor literal whose elements are followed by something else. -/
  | unclosedTensor (found : Token)
  | nestingTooDeep
  | expressionTooDeep
  /-- An operator the machine cannot compute. -/
  | noInstruction (operator : Char)
  /-- A use of a name with no declaration before it. -/
  | undeclared (name : String)
  /-- A use resolved to a variable that the table does not have. -/
  | unrecordedUse (name : String) (storage : Storage)
  /-- A declaration where the table records another one. -/
  | mismatchedDeclaration (name : String) (recorded : Symbol)
  /-- A declaration after all that the table records. -/
  | unrecordedDeclaration (name : String)
  /-- A table that records more declarations than the program makes. -/
  | declarationCount (recorded made : Nat)
deriving DecidableEq

/-- The kinds of diagnostics. A name without declaration is a kind of its own
inside the semantic errors; nothing raises a warning. -/
inductive ErrorKind where
  | lexical
  | grammatical
  | semantic
  | undeclaredName
  | logical
  | warning
deriving DecidableEq

namespace ErrorKind

/-- The words that open a diagnostic. -/
def category : ErrorKind → String
  | .lexical => "Lexical error"
  | .grammatical => "Syntax error"
  | .semantic => "Semantic error"
  | .undeclaredName => "Semantic error"
  | .logical => "Logical error"
  | .warning => "Warning"

/-- All kinds but warnings stop the work. -/
def isFatal (k : ErrorKind) : Bool := k ≠ .warning

end ErrorKind

namespace Fault

/-- The kind of diagnostic a fault is reported as. -/
def kind : Fault → ErrorKind
  | .unexpectedCharacter _ => .lexical
  | .runsInto _ _ => .lexical
  | .malformedNumber _ => .lexical
  | .outOfRange _ => .lexical
  | .unexpected _ _ => .grammatical
  | .unclosedTensor _ => .grammatical
  | .nestingTooDeep => .grammatical
  | .expressionTooDeep => .grammatical
  | .noInstruction _ => .semantic
  | .undeclared _ => .undeclaredName
  | .unrecordedUse _ _ => .logical
  | .mismatchedDeclaration _ _ => .logical
  | .unrecordedDeclaration _ => .logical
  | .declarationCount _ _ => .logical

/-- The sentence a fault is reported with. -/
def message : Fault → String
  | .unexpectedCharacter c => "unexpected character '" ++ c.toString ++ "'"
  | .runsInto number c => "numeric literal '" ++ number ++ "' runs into '" ++ c.toString ++ "'"
  | .malformedNumber lexeme => "invalid numeric literal '" ++ lexeme ++ "': invalid float literal"
  | .outOfRange lexeme => "numeric literal '" ++ lexeme ++ "' is out of range"
  | .unexpected expected found => "expected " ++ expected.text ++ ", found " ++ found.quoted
  | .unclosedTensor found =>
    "expected ',' or '\x7d' to close the tensor literal, found " ++ found.quoted
  | .nestingTooDeep => "nesting too deep (limit " ++ maxNesting.repr ++ ")"
  | .expressionTooDeep => "expression too deep (limit " ++ maxHeight.repr ++ ")"
  | .noInstruction operator => "operator '" ++ operator.toString ++ "' has no instruction"
  | .undeclared name => "'" ++ name ++ "' is not declared"
  | .unrecordedUse name storage =>
    "'" ++ name ++ "' resolved as " ++ storage.text ++ " but has no entry"
  | .mismatchedDeclaration name recorded =>
    "declaration of '" ++ name ++ "' does not match symbol table entry '" ++ recorded.name ++
      "' (" ++ recorded.storage.text ++ " " ++ recorded.type.text ++ ")"
  | .unrecordedDeclaration name =>
    "declaration of '" ++ name ++ "' is missing from the symbol table"
  | .declarationCount recorded made =>
    "symbol table holds " ++ recorded.repr ++ " declarations but the program makes " ++ made.repr

end Fault

/-! ## Errors and diagnostics -/

/-- A fault and the part of the source it is about. -/
structure Error where
  fault : Fault
  span : Span
deriving DecidableEq

/-- What is shown of a failure. -/
structure Diagnostic where
  kind : ErrorKind
  message : String
  span : Span
deriving DecidableEq

namespace Diagnostic

/-- The category and the message. -/
def text (d : Diagnostic) : String := d.kind.category ++ ": " ++ d.message

/-- The places to underline, each with what to write under it. -/
def labels (d : Diagnostic) : List (String × Span) := [(d.kind.category, d.span)]

end Diagnostic

/-- The diagnostic of an error. -/
def Error.diagnostic (e : Error) : Diagnostic := ⟨e.fault.kind, e.fault.message, e.span⟩

end TensorLet
