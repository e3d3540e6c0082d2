import TensorLet.Command.Args
import TensorLet.Command.Directory
import TensorLet.Compiler
import TensorLet.Program.Listing

/-!
# Plans

What a command does is decided before anything is written. From the text of the
source a command makes a plan, the files to write in order and the report at
the end, and carrying it out stops at the first file that cannot be written.

* `Command.plan`: the plan of a command for a source.
* `Command.run`: a command carried out in a file system.
* `Request.answerOn`: the same for everything a command line can ask for.
* `Request.answer`: the same in a directory held in memory.
-/

namespace TensorLet

/-- What a command leaves behind besides files: its exit status and what it
prints. -/
structure Report where
  exit : Nat
  stdout : String
  stderr : String
deriving DecidableEq

namespace Report

/-- The work is done, with something to print. -/
def success (stdout : String) : Report := ⟨0, stdout, ""⟩

/-- The source is wrong. What was printed before that stays. -/
def compileError (stdout : String) (e : Error) : Report := ⟨65, stdout, e.diagnostic.text ++ "\n"⟩

/-- A file could not be read or written. -/
def fileError (path : String) (failure : FileFailure) : Report :=
  ⟨74, "", "Error: '" ++ path ++ "': " ++ failure.text ++ "\n"⟩

/-- How the program is used. -/
def usage : String :=
  "Usage:\n" ++
  "  tacc compile [-o OUTPUT] [--trace XML] FILE\n" ++
  "  tacc trace [-o OUTPUT] FILE\n" ++
  "  tacc parse FILE\n" ++
  "  tacc lex FILE\n"

/-- The command line asks for nothing that can be done. -/
def misuse : Report := ⟨64, "", usage⟩

end Report

/-- Files to write one after the other, and the report when all of them are
written. -/
inductive Plan where
  | done (report : Report)
  | write (path text : String) (next : Plan)
deriving DecidableEq

namespace Plan

/-- Carries out a plan in a state of a file system. -/
def run {σ : Type} (fs : FileSystem σ) : Plan → σ → Report × σ
  | done report, s => (report, s)
  | write path text next, s =>
    match fs.write s path text with
    | .ok s => next.run fs s
    | .error failure => (.fileError path failure, s)

end Plan

namespace Command

/-- The file that a command reads. -/
def input : Command → String
  | lex input => input
  | parse input => input
  | trace input _ => input
  | compile input _ _ => input

/-- The list of a source's tokens, each with its class. -/
def tokenListing (tokens : List Token) : String :=
  String.join ((tokens.filter (!·.isEnd)).map fun t => t.kind.name ++ " " ++ t.lexeme ++ "\n")

/-- Lists tokens. -/
def lexPlan (source : String) : Plan :=
  match tokenize source with
  | .ok tokens => .done (.success (tokenListing tokens))
  | .error e => .done (.compileError "" e)

/-- Lists the tree. -/
def parsePlan (source : String) : Plan :=
  match TensorLet.parse source with
  | .ok (program, _) => .done (.success program.listing)
  | .error e => .done (.compileError "" e)

/-- Writes the trace, also that of a parse that fails. -/
def tracePlan (output : Option String) (source : String) : Plan :=
  let (result, outline) := parseTraced source
  let report (stdout : String) : Report :=
    match result with
    | .ok _ => .success stdout
    | .error e => .compileError stdout e
  match output with
  | some path => .write path outline.text (.done (report ""))
  | none => .done (report outline.text)

/-- Writes the code of a parsed program. -/
def codePlan (output : String) : Except Error (Program × SymbolTable) → Plan
  | .error e => .done (.compileError "" e)
  | .ok (program, symbols) =>
    match program.code symbols with
    | .error e => .done (.compileError "" e)
    | .ok code => .write output code.text (.done (.success ("Compiled to " ++ output ++ "\n")))

/-- Writes the trace where a file is given for it, and then the code. The code
goes next to the source when no file is given. -/
def compilePlan (input : String) (output trace : Option String) (source : String) : Plan :=
  let (result, outline) := parseTraced source
  let code := codePlan (output.getD (Path.withExtension input "ir")) result
  match trace with
  | some path => .write path outline.text code
  | none => code

/-- The plan of a command for the text of its source. -/
def plan : Command → String → Plan
  | lex _, source => lexPlan source
  | parse _, source => parsePlan source
  | trace _ output, source => tracePlan output source
  | compile input output traceFile, source => compilePlan input output traceFile source

/-- Carries out a command in a state of a file system. -/
def run {σ : Type} (fs : FileSystem σ) (c : Command) (s : σ) : Report × σ :=
  match fs.readText s c.input with
  | .error failure => (.fileError c.input failure, s)
  | .ok source => (c.plan source).run fs s

end Command

/-- The version of the program. -/
def versionText : String := "tacc 0.1.0\n"

namespace Request

/-- The report of a request that needs no file, or the command to run. -/
def reportOrCommand : Request → Report ⊕ Command
  | version => .inl (.success versionText)
  | help => .inl (.success Report.usage)
  | misuse => .inl .misuse
  | run command => .inr command

/-- Answers a request in a state of a file system. -/
def answerOn {σ : Type} (fs : FileSystem σ) (r : Request) (s : σ) : Report × σ :=
  match r.reportOrCommand with
  | .inl report => (report, s)
  | .inr command => command.run fs s

/-- Answers a request in a directory held in memory. -/
def answer (r : Request) (d : Directory) : Report × Directory := r.answerOn Directory.fileSystem d

end Request

end TensorLet
