import TensorLet.Parser.Grammar

/-!
# Parsing

Sources as programs. Resolving names needs the declarations before them, so a
program comes with the symbol table that its parse has filled.

* `parse`: a program and its symbols, or the first error.
* `parseTraced`: the same with the trace of the parse, which is kept when the
  parse fails.
-/

namespace TensorLet

namespace Parser

/-- A parser on the first token of a source, unless the source starts with a
lexical error. -/
def ofText (source : String) : Except Error Parser := do
  let cursor ← Cursor.ofText source
  return ⟨cursor, .empty, .empty, 0, 0⟩

/-- The same parser without a trace. -/
def silent (p : Parser) : Parser := { p with trace := .silent }

/-- Reads a program from where the parser stands, and gives the parser
behind it. -/
def unit (p : Parser) : Except Error Program × Parser := p.run Parse.unit

end Parser

/-- The program of a source and the symbols it declares. -/
def parse (source : String) : Except Error (Program × SymbolTable) := do
  let p ← Parser.ofText source
  match p.silent.unit with
  | (.ok program, p) => return (program, p.symbols)
  | (.error e, _) => throw e

/-- The program of a source and the symbols it declares, with the trace of the
parse. -/
def parseTraced (source : String) : Except Error (Program × SymbolTable) × Outline :=
  match Parser.ofText source with
  | .error e => (.error e, .empty)
  | .ok p =>
    match p.unit with
    | (.ok program, p) => (.ok (program, p.symbols), p.trace)
    | (.error e, p) => (.error e, p.trace)

end TensorLet
