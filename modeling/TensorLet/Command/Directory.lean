import TensorLet.Command.FileSystem
import TensorLet.Command.Path

/-!
# Directories

A directory tree held in memory: the folders and files below one folder, which
relative paths start from. Reading and writing fail with the causes a file
system gives.

* `Directory.read` gives the bytes of a file.
* `Directory.write` makes a file or replaces its content; its folder has to be
  there.
* `Directory.fileSystem`: both as a file system.
-/

namespace TensorLet

/-- The folders and files below one folder, each named by the components of its
path from there. -/
structure Directory where
  folders : List (List String)
  files : List (List String × ByteArray)

namespace Directory

/-- The folder without folders and files in it. -/
def empty : Directory := ⟨[], []⟩

/-- What stands at a path. -/
inductive Place where
  | folder (path : List String)
  | file (path : List String) (bytes : ByteArray)
  /-- Nothing, in a folder that is there. -/
  | free (path : List String)

/-- What a folder has under a name. -/
def child (d : Directory) (folder : List String) (name : String) : Place :=
  let path := folder ++ [name]
  match d.files.lookup path with
  | some bytes => .file path bytes
  | none => if d.folders.contains path then .folder path else .free path

/-- Goes on from a place by one component of a path. -/
def step (d : Directory) (place : Place) (component : String) : Except FileFailure Place :=
  match place with
  | .file _ _ => .error .notDirectory
  | .free _ => .error .notFound
  | .folder here =>
    if component = "" || component = "." then .ok (.folder here)
    else if component = ".." then .ok (.folder here.dropLast)
    else .ok (d.child here component)

/-- What stands at a relative path. Nothing is found at an absolute one. -/
def locate (d : Directory) (path : String) : Except FileFailure Place :=
  if path.toList.head? = some '/' then .error .notFound
  else (Path.components path).foldlM d.step (.folder [])

/-- The bytes of the file at a path. -/
def read (d : Directory) (path : String) : Except FileFailure ByteArray := do
  match ← d.locate path with
  | .file _ bytes => return bytes
  | .folder _ => throw .isDirectory
  | .free _ => throw .notFound

/-- Sets the content of the file with given components. -/
def put (d : Directory) (path : List String) (bytes : ByteArray) : Directory :=
  { d with files := (path, bytes) :: d.files.filter fun f => f.1 != path }

/-- Writes a text to the file at a path. A path that ends in a slash can only
be a folder. -/
def write (d : Directory) (path text : String) : Except FileFailure Directory := do
  let trimmed := (path.toList.reverse.dropWhile (· = '/')).reverse
  let place ← d.locate (String.ofList trimmed)
  if trimmed.length < path.length then throw .isDirectory
  else
    match place with
    | .folder _ => throw .isDirectory
    | .file there _ => return d.put there text.toUTF8
    | .free there => return d.put there text.toUTF8

/-- Directories held in memory as a file system. -/
def fileSystem : FileSystem Directory := ⟨read, write⟩

end Directory

end TensorLet
