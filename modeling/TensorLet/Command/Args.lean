/-!
# Command lines

What the words of a command line ask for. Options may stand before and behind
the file, `--` ends them, and every option is given at most once. Everything
else is misuse.

```text
tacc lex FILE
tacc parse FILE
tacc trace [-o OUTPUT] FILE
tacc compile [-o OUTPUT] [--trace XML] FILE
```
-/

namespace TensorLet

/-- What to do with a source file. -/
inductive Command where
  /-- List the tokens. -/
  | lex (input : String)
  /-- List the tree. -/
  | parse (input : String)
  /-- Write the trace of the parse, to the standard output without a file. -/
  | trace (input : String) (output : Option String)
  /-- Compile, and write the trace of the parse where a file is given. -/
  | compile (input : String) (output trace : Option String)
deriving DecidableEq

/-- What a command line asks for. -/
inductive Request where
  | version
  | help
  | run (command : Command)
  | misuse
deriving DecidableEq

namespace Args

/-- The options that take a file. -/
inductive Switch where
  | output
  | trace
deriving DecidableEq

/-- What one word of a command line is. -/
inductive Word where
  | operand (text : String)
  | switch (s : Switch) (attached : Option String)
  | help
  | endOfOptions
  | unknown
deriving DecidableEq

/-- The text behind `lead` in `cs`, if `cs` starts with it. -/
def behind? (lead cs : List Char) : Option (List Char) :=
  if lead.isPrefixOf cs then some (cs.drop lead.length) else none

/-- The value attached to a short option: an equals sign in front is left out. -/
def attached (cs : List Char) : Option String :=
  match cs with
  | [] => none
  | '=' :: value => some (String.ofList value)
  | value => some (String.ofList value)

/-- A word that starts with two dashes. -/
def longWord (name : List Char) : Word :=
  if name = [] then .endOfOptions
  else if name = "help".toList then .help
  else if name = "output".toList then .switch .output none
  else if name = "trace".toList then .switch .trace none
  else
    match behind? "output=".toList name, behind? "trace=".toList name with
    | some value, _ => .switch .output (some (String.ofList value))
    | none, some value => .switch .trace (some (String.ofList value))
    | none, none => .unknown

/-- Sorts a word behind a command's name. A lone dash is an operand. -/
def Word.ofText (text : String) : Word :=
  match text.toList with
  | '-' :: '-' :: name => longWord name
  | '-' :: 'h' :: _ => .help
  | '-' :: 'o' :: value => .switch .output (attached value)
  | '-' :: _ :: _ => .unknown
  | _ => .operand text

/-- The names of commands. -/
inductive Verb where
  | lex
  | parse
  | trace
  | compile
deriving DecidableEq

/-- The command with a given name. -/
def Verb.ofText? (text : String) : Option Verb :=
  if text = "lex" then some .lex
  else if text = "parse" then some .parse
  else if text = "trace" then some .trace
  else if text = "compile" then some .compile
  else none

/-- Which options a command has. -/
def Verb.accepts : Verb → Switch → Bool
  | .lex, _ => false
  | .parse, _ => false
  | .trace, .output => true
  | .trace, .trace => false
  | .compile, _ => true

/-- The files named so far. -/
structure Files where
  input : Option String
  output : Option String
  trace : Option String

/-- No files yet. -/
def Files.none : Files := ⟨.none, .none, .none⟩

/-- Fills a place that is still empty with a name that is not. -/
def fill (place : Option String) (name : String) : Option (Option String) :=
  if place.isSome || name = "" then none else some (some name)

/-- Takes a name as the file to work on. -/
def Files.setInput (f : Files) (name : String) : Option Files :=
  (fill f.input name).map fun input => { f with input := input }

/-- Takes a name as the file of an option. -/
def Files.set (f : Files) (s : Switch) (name : String) : Option Files :=
  match s with
  | .output => (fill f.output name).map fun output => { f with output := output }
  | .trace => (fill f.trace name).map fun trace => { f with trace := trace }

/-- The command that a verb and its files make; the file to work on has to be
there. -/
def Files.request (f : Files) (verb : Verb) : Request :=
  match f.input, verb with
  | .none, _ => .misuse
  | some input, .lex => .run (.lex input)
  | some input, .parse => .run (.parse input)
  | some input, .trace => .run (.trace input f.output)
  | some input, .compile => .run (.compile input f.output f.trace)

/-- Reads the words behind `--`, which are all operands. -/
def readOperands (verb : Verb) : Files → List String → Request
  | files, [] => files.request verb
  | files, word :: rest =>
    match files.setInput word with
    | some files => readOperands verb files rest
    | none => .misuse

/-- Reads the words behind a command's name. An option takes the next word,
unless a value is attached to it. -/
def readWords (verb : Verb) : Files → List String → Request
  | files, [] => files.request verb
  | files, word :: rest =>
    match Word.ofText word with
    | .unknown => .misuse
    | .help => .help
    | .endOfOptions => readOperands verb files rest
    | .operand name =>
      match files.setInput name with
      | some files => readWords verb files rest
      | none => .misuse
    | .switch s (some name) =>
      match if verb.accepts s then files.set s name else none with
      | some files => readWords verb files rest
      | none => .misuse
    | .switch s none =>
      match rest with
      | [] => .misuse
      | next :: rest =>
        match Word.ofText next with
        | .operand name =>
          match if verb.accepts s then files.set s name else none with
          | some files => readWords verb files rest
          | none => .misuse
        | _ => .misuse

/-- Reads the words behind `help`: at most one, the name of a command. -/
def readHelp : List String → Request
  | [] => .help
  | [word] => if word = "help" || (Verb.ofText? word).isSome then .help else .misuse
  | _ => .misuse

/-- What a command line asks for. -/
def read : List String → Request
  | [] => .misuse
  | word :: rest =>
    match Verb.ofText? word with
    | some verb => readWords verb .none rest
    | none =>
      if word = "help" then readHelp rest
      else if word = "--version" then .version
      else if word = "--help" then .help
      else
        match word.toList with
        | '-' :: 'V' :: _ => .version
        | '-' :: 'h' :: _ => .help
        | _ => .misuse

end Args

end TensorLet
