/-!
# File systems

What commands need of a file system: the bytes of a file can be read and a text
can be written to one, and either can fail. Nothing else is known of its states.
-/

namespace TensorLet

/-- Why a file could not be read or written. -/
inductive FileFailure where
  | notFound
  | notDirectory
  | isDirectory
  /-- The bytes of a file are no UTF-8. -/
  | notText
  /-- Any other failure, in the words of the system. -/
  | system (text : String)
deriving DecidableEq

/-- The words for a failure. -/
def FileFailure.text : FileFailure → String
  | .notFound => "No such file or directory (os error 2)"
  | .notDirectory => "Not a directory (os error 20)"
  | .isDirectory => "Is a directory (os error 21)"
  | .notText => "stream did not contain valid UTF-8"
  | .system text => text

/-- A file system with states in `σ`. Reading gives the bytes at a path, and
writing a text the state behind it. -/
structure FileSystem (σ : Type) where
  read (s : σ) (path : String) : Except FileFailure ByteArray
  write (s : σ) (path text : String) : Except FileFailure σ

/-- The text of the file at a path. -/
def FileSystem.readText {σ : Type} (fs : FileSystem σ) (s : σ) (path : String) :
    Except FileFailure String := do
  let bytes ← fs.read s path
  match String.fromUTF8? bytes with
  | some text => return text
  | none => throw .notText

end TensorLet
