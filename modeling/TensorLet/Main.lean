import TensorLet.Command.Plan

/-!
# The program

Carries out plans on the file system of the machine. What to do is decided by
`Args.read` and `Command.plan`.
-/

namespace TensorLet

/-- The failure that a system error stands for. The code of a component that is
no directory is 20, and some calls give codes negated. -/
def FileFailure.ofSystem : IO.Error → FileFailure
  | .noFileOrDirectory _ _ _ => .notFound
  | .inappropriateType _ code _ =>
    if code = 20 || code = 0 - 20 then .notDirectory else .isDirectory
  | e => .system (toString e)

/-- Reads a file as text. -/
def readSource (path : String) : IO (Except FileFailure String) := do
  try
    let bytes ← IO.FS.readBinFile path
    match String.fromUTF8? bytes with
    | some text => return .ok text
    | none => return .error .notText
  catch e => return .error (.ofSystem e)

/-- Writes the files of a plan in order, up to the first that cannot be
written. -/
def Plan.perform : Plan → IO Report
  | .done report => return report
  | .write path text next => do
    try
      IO.FS.writeFile path text
    catch e => return .fileError path (.ofSystem e)
    next.perform

/-- Carries out a command. -/
def Command.perform (c : Command) : IO Report := do
  match ← readSource c.input with
  | .ok source => (c.plan source).perform
  | .error failure => return .fileError c.input failure

end TensorLet

/-- Answers a command line; the exit status is the result. -/
def main (args : List String) : IO UInt32 := do
  let report ←
    match (TensorLet.Args.read args).reportOrCommand with
    | .inl report => pure report
    | .inr command => command.perform
  IO.print report.stdout
  IO.eprint report.stderr
  return report.exit.toUInt32
