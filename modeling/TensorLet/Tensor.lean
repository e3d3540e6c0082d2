import TensorLet.Numeric.Binary64

/-!
# Tensor literals

A tensor literal is kept sparse. A node stands for one pair of braces: its
extent counts the elements written between them, and its entries are those that
are not zero, each with its position. What is missing is zero.
-/

namespace TensorLet

/-- How a number was written: with or without a point. -/
inductive NumberForm where
  | int
  | float
deriving DecidableEq

/-- The name of a form. -/
def NumberForm.text : NumberForm → String
  | .int => "int"
  | .float => "float"

/-- A numeric literal. -/
structure Scalar where
  value : Binary64
  form : NumberForm
deriving DecidableEq

/-- A number, or the stored elements of a pair of braces with their
positions. -/
inductive Tensor where
  | leaf (scalar : Scalar)
  | node (extent : Nat) (entries : List (Nat × Tensor))

namespace Tensor

/-! ## Equality -/

mutual
/-- Decides whether two literals are equal. -/
def decEq : (s t : Tensor) → Decidable (s = t)
  | leaf a, leaf b =>
    if h : a = b then isTrue (congrArg leaf h) else isFalse fun e => h (leaf.inj e)
  | leaf _, node _ _ => isFalse fun e => nomatch e
  | node _ _, leaf _ => isFalse fun e => nomatch e
  | node m es, node n fs =>
    match decEqEntries es fs with
    | isFalse h => isFalse fun e => h (node.inj e).2
    | isTrue he =>
      if h : m = n then isTrue (h ▸ he ▸ rfl) else isFalse fun e => h (node.inj e).1
/-- Decides whether two lists of stored elements are equal. -/
def decEqEntries : (es fs : List (Nat × Tensor)) → Decidable (es = fs)
  | [], [] => isTrue rfl
  | [], _ :: _ => isFalse fun e => nomatch e
  | _ :: _, [] => isFalse fun e => nomatch e
  | (i, s) :: es, (j, t) :: fs =>
    match decEq s t, decEqEntries es fs with
    | isTrue hst, isTrue hes =>
      if h : i = j then isTrue (h ▸ hst ▸ hes ▸ rfl) else isFalse fun e => h (by cases e; rfl)
    | isFalse h, _ => isFalse fun e => h (by cases e; rfl)
    | _, isFalse h => isFalse fun e => h (by cases e; rfl)
end

instance : DecidableEq Tensor := decEq

/-! ## Queries -/

/-- The number of elements written; none for a number. -/
def extent : Tensor → Nat
  | leaf _ => 0
  | node extent _ => extent

/-- The stored elements with their positions. -/
def entries : Tensor → List (Nat × Tensor)
  | leaf _ => []
  | node _ entries => entries

/-- The first stored element with its position. -/
def firstEntry? (t : Tensor) : Option (Nat × Tensor) := t.entries.head?

mutual
/-- How deep the braces of the stored elements nest: 0 for a number, 1 for a
node without nodes in it. -/
def depth : Tensor → Nat
  | leaf _ => 0
  | node _ entries => 1 + maxDepth entries
/-- The greatest depth of the stored elements. -/
def maxDepth : List (Nat × Tensor) → Nat
  | [] => 0
  | (_, t) :: rest => max t.depth (maxDepth rest)
end

mutual
/-- The number of stored numbers. -/
def leafCount : Tensor → Nat
  | leaf _ => 1
  | node _ entries => leafTotal entries
/-- The number of numbers stored in all elements. -/
def leafTotal : List (Nat × Tensor) → Nat
  | [] => 0
  | (_, t) :: rest => t.leafCount + leafTotal rest
end

mutual
/-- The stored numbers with their coordinates, outermost position first, in the
order in which they were written. -/
def nonzeros : Tensor → List (List Nat × Binary64)
  | leaf scalar => [([], scalar.value)]
  | node _ entries => entryNonzeros entries
/-- The numbers stored in elements, each element's position put in front. -/
def entryNonzeros : List (Nat × Tensor) → List (List Nat × Binary64)
  | [] => []
  | (index, t) :: rest =>
    (t.nonzeros.map fun nz => (index :: nz.1, nz.2)) ++ entryNonzeros rest
end

/-! ## Counting agrees with listing -/

mutual
theorem length_nonzeros (t : Tensor) : t.nonzeros.length = t.leafCount := by
  match t with
  | leaf _ => rfl
  | node _ entries => simp only [nonzeros, leafCount, length_entryNonzeros entries]
theorem length_entryNonzeros (entries : List (Nat × Tensor)) :
    (entryNonzeros entries).length = leafTotal entries := by
  match entries with
  | [] => rfl
  | (index, t) :: rest =>
    simp [entryNonzeros, leafTotal, length_nonzeros t, length_entryNonzeros rest]
end

end Tensor

end TensorLet
