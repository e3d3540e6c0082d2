import TensorLet.Proofs.TensorCode

/-!
# What a sparse tree leaves out

A tensor literal is kept as a tree without its zeros. `Dense` is the nested list
of numbers with all of them. What is missing in a tree can be filled in again, and
what the tree is asked for can be read off the nested list.

* `Tensor.dense`: a tree with its zeros filled in.
* `Tensor.depth_dense`: filling in does not change the depth.
* `Tensor.mem_nonzeros_iff`, `Tensor.pairwise_nonzeros`: the stored numbers are
  those of the nested list that are not zero, in order.
* `Tensor.IsExact`: a tree keeps exactly what a nested list writes.
-/

namespace TensorLet

/-! ## Nested lists of numbers -/

/-- A number, or the elements between a pair of braces, zeros included. -/
inductive Dense where
  | number (value : Binary64)
  | row (elements : List Dense)

namespace Dense

/-- What stands for every zero, whatever its sign. -/
def zero : Dense := .number (.ofBits 0)

/-- A number as an element. -/
def ofNumber (x : Binary64) : Dense := if x.isZero then zero else .number x

mutual
/-- How deep the braces nest: 0 for a number, 1 for braces without braces in
them. -/
def depth : Dense → Nat
  | number _ => 0
  | row elements => 1 + maxDepth elements
/-- The greatest depth of some elements. -/
def maxDepth : List Dense → Nat
  | [] => 0
  | d :: rest => max d.depth (maxDepth rest)
end

/-- What stands at some coordinates, the outermost position first. -/
def at? : Dense → List Nat → Option Dense
  | d, [] => some d
  | number _, _ :: _ => none
  | row elements, i :: path => elements[i]?.bind (·.at? path)

theorem maxDepth_le_iff {k : Nat} (ds : List Dense) :
    maxDepth ds ≤ k ↔ ∀ d ∈ ds, d.depth ≤ k := by
  induction ds with
  | nil => simp [maxDepth]
  | cons d ds ih => rw [maxDepth, Nat.max_le, ih, List.forall_mem_cons]

end Dense

/-! ## Trees with their zeros filled in -/

namespace Tensor

mutual
/-- The nested list of a tree: every position below the extent that stores
nothing is a zero. -/
def dense : Tensor → Dense
  | leaf scalar => .number scalar.value
  | node extent entries =>
    .row ((List.range extent).map fun i => ((denseEntries entries).lookup i).getD .zero)
/-- The nested lists of stored elements, with their positions. -/
def denseEntries : List (Nat × Tensor) → List (Nat × Dense)
  | [] => []
  | (index, t) :: rest => (index, t.dense) :: denseEntries rest
end

/-- The stored element at some coordinates. -/
def at? : Tensor → List Nat → Option Tensor
  | t, [] => some t
  | leaf _, _ :: _ => none
  | node _ entries, i :: path => (entries.lookup i).bind (·.at? path)

theorem lookup_denseEntries (i : Nat) (entries : List (Nat × Tensor)) :
    (denseEntries entries).lookup i = (entries.lookup i).map dense := by
  induction entries with
  | nil => rfl
  | cons e entries ih =>
    obtain ⟨index, t⟩ := e
    rw [denseEntries, List.lookup_cons, List.lookup_cons]
    cases i == index with
    | true => rfl
    | false => exact ih

/-- The elements of a filled node. -/
theorem getElem?_dense_node (extent : Nat) (entries : List (Nat × Tensor)) (i : Nat) :
    ((List.range extent).map fun i => ((denseEntries entries).lookup i).getD .zero)[i]? =
      if i < extent then some (((entries.lookup i).map dense).getD .zero) else none := by
  rw [List.getElem?_map]
  by_cases hi : i < extent
  · rw [if_pos hi, List.getElem?_range hi, Option.map_some, lookup_denseEntries]
  · rw [if_neg hi, List.getElem?_eq_none (by simpa using hi), Option.map_none]

/-! ## Trees as they are read -/

mutual
/-- What holds of every number, and of braces when it holds of all that is stored
in them, holds of every tree. -/
@[elab_as_elim]
theorem induct {P : Tensor → Prop} (leaf : ∀ scalar, P (.leaf scalar))
    (node : ∀ extent entries, (∀ e ∈ entries, P e.2) → P (.node extent entries)) (t : Tensor) :
    P t :=
  match t with
  | .leaf scalar => leaf scalar
  | .node extent entries => node extent entries (inductEntries leaf node entries)
theorem inductEntries {P : Tensor → Prop} (leaf : ∀ scalar, P (.leaf scalar))
    (node : ∀ extent entries, (∀ e ∈ entries, P e.2) → P (.node extent entries))
    (entries : List (Nat × Tensor)) : ∀ e ∈ entries, P e.2 :=
  match entries with
  | [] => fun _ h => nomatch h
  | (index, t) :: rest => by
    intro e he
    rcases List.mem_cons.mp he with rfl | he
    · exact induct leaf node t
    · exact inductEntries leaf node rest e he
end

theorem areSparse_cons {extent low index : Nat} {t : Tensor} {rest : List (Nat × Tensor)} :
    areSparse extent low ((index, t) :: rest) = true ↔
      low ≤ index ∧ index < extent ∧ t.isSparse = true ∧
        areSparse extent (index + 1) rest = true := by
  simp only [areSparse, Bool.and_eq_true, decide_eq_true_eq, and_assoc]

/-- What is stored stands below the extent, and not before the first position. -/
theorem of_mem_areSparse {extent : Nat} : ∀ {entries : List (Nat × Tensor)} {low : Nat},
    areSparse extent low entries = true → ∀ e ∈ entries,
      low ≤ e.1 ∧ e.1 < extent ∧ e.2.isSparse = true := by
  intro entries
  induction entries with
  | nil => simp
  | cons e entries ih =>
    obtain ⟨index, t⟩ := e
    intro low h e' he'
    obtain ⟨hlow, hextent, ht, hrest⟩ := areSparse_cons.mp h
    rcases List.mem_cons.mp he' with rfl | he'
    · exact ⟨hlow, hextent, ht⟩
    · obtain ⟨hle, hlt⟩ := ih hrest e' he'
      exact ⟨by omega, hlt⟩

/-- No position is stored twice, so each is found. -/
theorem lookup_eq_some_iff_mem {extent : Nat} {i : Nat} {t : Tensor} :
    ∀ {entries : List (Nat × Tensor)} {low : Nat}, areSparse extent low entries = true →
      (entries.lookup i = some t ↔ (i, t) ∈ entries) := by
  intro entries
  induction entries with
  | nil => simp
  | cons e entries ih =>
    obtain ⟨index, u⟩ := e
    intro low h
    obtain ⟨-, -, -, hrest⟩ := areSparse_cons.mp h
    rw [List.lookup_cons, List.mem_cons, Prod.mk.injEq]
    by_cases hi : i = index
    · subst hi
      have hlater : (i, t) ∉ entries := by
        intro hmem
        have := (of_mem_areSparse hrest _ hmem).1
        exact absurd this (Nat.not_succ_le_self i)
      simp [hlater, eq_comm]
    · rw [beq_false_of_ne hi]
      simp [hi, ih hrest]

/-! ## Depth and stored numbers -/

theorem maxDepth_le_iff {k : Nat} (entries : List (Nat × Tensor)) :
    maxDepth entries ≤ k ↔ ∀ e ∈ entries, e.2.depth ≤ k := by
  induction entries with
  | nil => simp [maxDepth]
  | cons e entries ih =>
    obtain ⟨index, t⟩ := e
    rw [maxDepth, Nat.max_le, ih, List.forall_mem_cons]

/-- Zeros do not nest, so the depth of a tree is that of its nested list. -/
theorem depth_dense (t : Tensor) : t.isSparse = true → t.dense.depth = t.depth := by
  induction t using Tensor.induct with
  | leaf scalar => exact fun _ => rfl
  | node extent entries ih =>
    intro h
    have hsparse : areSparse extent 0 entries = true := h
    have hmem := of_mem_areSparse hsparse
    rw [dense, Dense.depth, depth]
    congr 1
    apply Nat.le_antisymm
    · -- An element is filled in or stored.
      refine (Dense.maxDepth_le_iff _).mpr fun d hd => ?_
      obtain ⟨i, -, rfl⟩ := List.mem_map.mp hd
      rw [lookup_denseEntries]
      cases hlookup : entries.lookup i with
      | none => exact Nat.zero_le _
      | some t =>
        have ht := (lookup_eq_some_iff_mem hsparse).mp hlookup
        show t.dense.depth ≤ _
        rw [ih _ ht (hmem _ ht).2.2]
        exact (maxDepth_le_iff entries).mp (Nat.le_refl _) _ ht
    · refine (maxDepth_le_iff entries).mpr fun e he => ?_
      rw [← ih e he (hmem e he).2.2]
      refine (Dense.maxDepth_le_iff _).mp (Nat.le_refl _) _ ?_
      refine List.mem_map.mpr ⟨e.1, List.mem_range.mpr (hmem e he).2.1, ?_⟩
      rw [lookup_denseEntries, (lookup_eq_some_iff_mem hsparse).mpr he]
      rfl

/-- What is stored at some coordinates stands there in the nested list. -/
theorem at?_dense (t : Tensor) : t.isSparse = true → ∀ path u, t.at? path = some u →
    t.dense.at? path = some u.dense := by
  induction t using Tensor.induct with
  | leaf scalar =>
    intro _ path u hu
    cases path with
    | nil => cases hu; rfl
    | cons i path => cases hu
  | node extent entries ih =>
    intro h path u hu
    have hsparse : areSparse extent 0 entries = true := h
    cases path with
    | nil => cases hu; rfl
    | cons i path =>
      obtain ⟨t, hlookup, hu⟩ := Option.bind_eq_some_iff.mp hu
      have ht := (lookup_eq_some_iff_mem hsparse).mp hlookup
      obtain ⟨-, hlt, hts⟩ := of_mem_areSparse hsparse _ ht
      rw [dense, Dense.at?, getElem?_dense_node, if_pos hlt, hlookup]
      exact ih _ ht hts path u hu

/-- A node has as many elements written as its extent says. -/
theorem exists_row_of_at? {t : Tensor} (h : t.isSparse = true) {path : List Nat} {extent : Nat}
    {entries : List (Nat × Tensor)} (hnode : t.at? path = some (.node extent entries)) :
    ∃ elements, t.dense.at? path = some (.row elements) ∧ elements.length = extent := by
  refine ⟨_, t.at?_dense h path _ hnode, ?_⟩
  rw [List.length_map, List.length_range]

theorem mem_entryNonzeros_iff {path : List Nat} {x : Binary64} (entries : List (Nat × Tensor)) :
    (path, x) ∈ entryNonzeros entries ↔
      ∃ e ∈ entries, ∃ rest, path = e.1 :: rest ∧ (rest, x) ∈ e.2.nonzeros := by
  induction entries with
  | nil => simp [entryNonzeros]
  | cons e entries ih =>
    obtain ⟨index, t⟩ := e
    rw [entryNonzeros, List.mem_append, ih, List.mem_map]
    constructor
    · rintro (⟨⟨rest, _⟩, hmem, heq⟩ | ⟨e, he, h⟩)
      · cases heq
        exact ⟨(index, t), List.mem_cons_self, rest, rfl, hmem⟩
      · exact ⟨e, List.mem_cons_of_mem _ he, h⟩
    · rintro ⟨e, he, rest, rfl, hmem⟩
      rcases List.mem_cons.mp he with rfl | he
      · exact .inl ⟨(rest, x), hmem, rfl⟩
      · exact .inr ⟨e, he, rest, rfl, hmem⟩

/-- The stored numbers are those of the nested list that are not zero. -/
theorem mem_nonzeros_iff (t : Tensor) : t.isSparse = true → ∀ path x,
    (path, x) ∈ t.nonzeros ↔ t.dense.at? path = some (.number x) ∧ x.isZero = false := by
  induction t using Tensor.induct with
  | leaf scalar =>
    intro h path x
    have hzero : scalar.value.isZero = false := by
      simp only [isSparse, Bool.and_eq_true, Bool.not_eq_true'] at h
      exact h.2
    rw [nonzeros, List.mem_singleton, Prod.mk.injEq]
    cases path with
    | nil =>
      simp only [true_and, dense, Dense.at?, Option.some.injEq, Dense.number.injEq]
      constructor
      · rintro rfl
        exact ⟨rfl, hzero⟩
      · exact fun hx => hx.1.symm
    | cons i path => simp [dense, Dense.at?]
  | node extent entries ih =>
    intro h path x
    have hsparse : areSparse extent 0 entries = true := h
    have hmem := of_mem_areSparse hsparse
    rw [nonzeros, mem_entryNonzeros_iff]
    cases path with
    | nil => simp [dense, Dense.at?]
    | cons i path =>
      rw [dense, Dense.at?, getElem?_dense_node]
      constructor
      · rintro ⟨e, he, rest, heq, hx⟩
        cases heq
        rw [if_pos (hmem e he).2.1, (lookup_eq_some_iff_mem hsparse).mpr he]
        exact (ih e he (hmem e he).2.2 path x).mp hx
      · rintro ⟨hat, hx⟩
        by_cases hlt : i < extent
        · rw [if_pos hlt] at hat
          cases hlookup : entries.lookup i with
          | none =>
            -- What is filled in is a zero.
            rw [hlookup] at hat
            cases path with
            | nil =>
              cases hat
              cases hx
            | cons j path => cases hat
          | some t =>
            rw [hlookup] at hat
            have ht := (lookup_eq_some_iff_mem hsparse).mp hlookup
            exact ⟨(i, t), ht, path, rfl, (ih _ ht (hmem _ ht).2.2 path x).mpr ⟨hat, hx⟩⟩
        · rw [if_neg hlt] at hat
          cases hat

/-- The coordinates in stored elements start with their positions. -/
theorem pairwise_entryNonzeros {extent : Nat} : ∀ {entries : List (Nat × Tensor)} {low : Nat},
    areSparse extent low entries = true →
    (∀ e ∈ entries, (e.2.nonzeros.map (·.1)).Pairwise (· < ·)) →
    ((entryNonzeros entries).map (·.1)).Pairwise (· < ·) := by
  intro entries
  induction entries with
  | nil => exact fun _ _ => .nil
  | cons e entries ih =>
    obtain ⟨index, t⟩ := e
    intro low h hsorted
    obtain ⟨-, -, -, hrest⟩ := areSparse_cons.mp h
    rw [entryNonzeros, List.map_append, List.map_map, List.pairwise_append]
    refine ⟨?_, ih hrest fun e he => hsorted e (List.mem_cons_of_mem _ he), ?_⟩
    · have ht := hsorted _ List.mem_cons_self
      rw [List.pairwise_map] at ht ⊢
      refine ht.imp fun {a b} hab => ?_
      exact List.cons_lt_cons_iff.mpr (.inr ⟨rfl, hab⟩)
    · intro path hpath path' hpath'
      obtain ⟨nz, -, rfl⟩ := List.mem_map.mp hpath
      obtain ⟨⟨_, x⟩, hmem, rfl⟩ := List.mem_map.mp hpath'
      obtain ⟨e, he, rest, rfl, -⟩ := (mem_entryNonzeros_iff entries).mp hmem
      exact List.cons_lt_cons_iff.mpr (.inl (of_mem_areSparse hrest e he).1)

/-- The stored numbers are listed in increasing order of their coordinates. -/
theorem pairwise_nonzeros (t : Tensor) : t.isSparse = true →
    (t.nonzeros.map (·.1)).Pairwise (· < ·) := by
  induction t using Tensor.induct with
  | leaf scalar => exact fun _ => List.pairwise_singleton _ _
  | node extent entries ih =>
    intro h
    have hsparse : areSparse extent 0 entries = true := h
    exact pairwise_entryNonzeros hsparse fun e he => ih e he (of_mem_areSparse hsparse e he).2.2

/-- The tree `t` keeps exactly what the nested list `d` writes. -/
structure IsExact (t : Tensor) (d : Dense) : Prop where
  /-- Positions increase and stay below the extent, and numbers are finite and not
  zero, in all of the tree. -/
  sparse : t.isSparse = true
  dense : t.dense = d
  extent : ∀ path extent entries, t.at? path = some (.node extent entries) →
    ∃ elements, d.at? path = some (.row elements) ∧ elements.length = extent
  depth : t.depth = d.depth
  depth_le : t.depth ≤ maxNesting
  leafCount : t.leafCount = t.nonzeros.length
  mem_nonzeros : ∀ path x,
    (path, x) ∈ t.nonzeros ↔ d.at? path = some (.number x) ∧ x.isZero = false
  sorted : (t.nonzeros.map (·.1)).Pairwise (· < ·)

/-- It is enough that the tree is as it is read, and that filling in its zeros
gives the list. -/
theorem IsExact.of_dense {t : Tensor} {d : Dense} (hsparse : t.isSparse = true)
    (hdense : t.dense = d) (hdepth : t.depth ≤ maxNesting) : t.IsExact d := by
  subst hdense
  exact ⟨hsparse, rfl, fun _ _ _ => exists_row_of_at? hsparse, (depth_dense t hsparse).symm, hdepth,
    t.length_nonzeros.symm, mem_nonzeros_iff t hsparse, pairwise_nonzeros t hsparse⟩

end Tensor

end TensorLet
