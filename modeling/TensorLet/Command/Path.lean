/-!
# Paths

Paths are texts whose components stand between slashes. The extension of a path
is what follows the last point of its last component, unless that point comes
first there.
-/

namespace TensorLet.Path

/-- The components of a path, with an empty one before a leading slash and
behind a trailing one. -/
def splitSlashes : List Char → List (List Char)
  | [] => [[]]
  | c :: cs =>
    if c = '/' then [] :: splitSlashes cs
    else
      match splitSlashes cs with
      | [] => [[c]]
      | part :: parts => (c :: part) :: parts

/-- The components of a path as texts. -/
def components (path : String) : List String := (splitSlashes path.toList).map String.ofList

/-- The last component of a path. -/
def lastPart (cs : List Char) : List Char := (cs.reverse.takeWhile (· != '/')).reverse

/-- A path without its last component; a slash before that stays. -/
def parentPart (cs : List Char) : List Char := (cs.reverse.dropWhile (· != '/')).reverse

/-- A name without its extension. A point in front belongs to the name. -/
def stem (name : List Char) : List Char :=
  let before := ((name.reverse.dropWhile (· != '.')).drop 1).reverse
  if before = [] then name else before

/-- True of components that name no file. -/
def isNameless (name : List Char) : Bool := name = [] || name = ['.'] || name = ['.', '.']

/-- Reversed characters of a path without the slashes behind its last component, and
without single points that stand behind a slash there. -/
def trimReversed : List Char → List Char
  | '/' :: cs => trimReversed cs
  | '.' :: '/' :: cs => trimReversed cs
  | cs => cs

/-- A path up to its last component, so that `a/b/` and `a/b/.` are `a/b`. -/
def trimmed (cs : List Char) : List Char := (trimReversed cs.reverse).reverse

/-- The path with another extension, which is put behind a name that has none. What
stands behind the last component is left out. A path whose last component names no file
stays as it is. -/
def withExtension (path extension : String) : String :=
  let cs := trimmed path.toList
  let name := lastPart cs
  if isNameless name then path
  else String.ofList (parentPart cs ++ stem name ++ '.' :: extension.toList)

end TensorLet.Path
