import TensorLet.Text.Span
import TensorLet.Text.Escape

/-!
# Tokens

A token is a lexeme, the class it was scanned as and where it stands in the
source. The classes are coarse: what a `-` or a `{` means is for the grammar to
say.
-/

namespace TensorLet

/-! ## Reserved words -/

/-- The words that cannot be names. -/
inductive Keyword where
  | letWord
  | int
  | float
  | tensor
deriving DecidableEq

namespace Keyword

/-- The spelling of a keyword. -/
def text : Keyword → String
  | .letWord => "let"
  | .int => "int"
  | .float => "float"
  | .tensor => "tensor"

/-- The keyword with a given spelling. -/
def ofText? (text : String) : Option Keyword :=
  if text = "let" then some .letWord
  else if text = "int" then some .int
  else if text = "float" then some .float
  else if text = "tensor" then some .tensor
  else none

/-- A text is read as a keyword exactly when it is its spelling. -/
theorem ofText?_eq_some_iff {text : String} {k : Keyword} :
    ofText? text = some k ↔ text = k.text := by
  constructor
  · grind [ofText?, Keyword.text]
  · intro h
    subst h
    cases k <;> decide

end Keyword

/-! ## Symbols -/

/-- The characters that form a token on their own. -/
def symbolChars : List Char :=
  ['\x7b', '\x7d', '(', ')', '[', ']', ',', ';', '+', '-', '*', '/', '^', '%', '=', '~', '\'',
   '@', '!']

/-- True of the characters that form a token on their own. -/
def isSymbolChar (c : Char) : Bool := symbolChars.contains c

/-! ## Tokens -/

/-- The class of a token. A `stray` lexeme fits no other class: a lone point.
`endOfInput` marks the end of the source and has an empty lexeme. -/
inductive TokenKind where
  | keyword
  | symbol
  | identifier
  | int
  | float
  | stray
  | endOfInput
deriving DecidableEq

namespace TokenKind

/-- The name of a class in a listing of tokens. -/
def name : TokenKind → String
  | .keyword => "keyword"
  | .symbol => "symbol"
  | .identifier => "identifier"
  | .int => "int"
  | .float => "float"
  | .stray => "none"
  | .endOfInput => "eof"

/-- The tag of a class in a parse trace; the classes without one are not
shown. -/
def tag? : TokenKind → Option String
  | .keyword => some "keyword"
  | .symbol => some "symbol"
  | .identifier => some "identifier"
  | .int => some "int_const"
  | .float => some "float_const"
  | .stray => none
  | .endOfInput => none

end TokenKind

/-- A lexeme with its class and its place in the source. -/
structure Token where
  lexeme : String
  kind : TokenKind
  span : Span
deriving DecidableEq

namespace Token

/-- The end of a source of `size` bytes. -/
def endOfInput (size : Nat) : Token := ⟨"", .endOfInput, ⟨size, size⟩⟩

/-- True of the token that marks the end of the source. -/
def isEnd (t : Token) : Bool := t.kind = .endOfInput

/-- True of a symbol whose lexeme starts with `c`. -/
def isSymbol (t : Token) (c : Char) : Bool := t.kind = .symbol && t.lexeme.toList.head? = some c

/-- True of a given keyword. -/
def isKeyword (t : Token) (k : Keyword) : Bool := t.kind = .keyword && t.lexeme = k.text

/-- Which keyword the token is. -/
def keyword? (t : Token) : Option Keyword :=
  if t.kind = .keyword then Keyword.ofText? t.lexeme else none

/-- True of numeric literals. -/
def isNumber (t : Token) : Bool := t.kind = .int || t.kind = .float

/-- The token in a sentence. -/
def display (t : Token) : String := if t.isEnd then "end of input" else t.lexeme

/-- The token in a sentence, quoted when it is text of the source. -/
def quoted (t : Token) : String := if t.isEnd then "end of input" else "'" ++ t.lexeme ++ "'"

/-- The token's line in a parse trace: its escaped lexeme between tags. -/
def traceText? (t : Token) : Option String :=
  t.kind.tag?.map fun tag => "<" ++ tag ++ "> " ++ escape t.lexeme ++ " </" ++ tag ++ ">"

@[simp] theorem isEnd_endOfInput (size : Nat) : (endOfInput size).isEnd = true := rfl

end Token

end TensorLet
