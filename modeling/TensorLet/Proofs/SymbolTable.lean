import Mathlib.Tactic.ByContra
import TensorLet.Program
import TensorLet.SymbolTable

/-!
# Declarations made and looked up

A symbol table answers in two ways: through the bindings, which know each
name's last declaration, and through the history, of which any first part can
be searched. This module says what one declaration changes in both, and what a
table is after the declarations of a block.

* `get?_define`: declaring a name rebinds it and no other name.
* `lookupBefore?_succ`: what one more visible declaration changes.
* `declaration?_ofDeclarations`: in a block of local variables the slot of a
  declaration is its position.
-/

namespace TensorLet.SymbolTable

/-! ## The bindings -/

/-- Every name is bound to a declaration that has been made. -/
def Bounded (t : SymbolTable) : Prop := ∀ (x : String) (i : Nat), t.bindings[x]? = some i → i < t.size

theorem bounded_empty : empty.Bounded := by
  intro x i h
  simp [empty] at h

theorem Bounded.define {t : SymbolTable} (h : t.Bounded) (name : String) (type : ValueType)
    (storage : Storage) : (t.define name type storage).Bounded := by
  intro x i hi
  rw [size_define]
  simp only [SymbolTable.define, Std.TreeMap.getElem?_insert] at hi
  split at hi
  · cases hi
    exact Nat.lt_succ_self t.size
  · exact Nat.lt_succ_of_lt (h x i hi)

/-- Declaring a name rebinds it and no other name. -/
theorem get?_define {t : SymbolTable} (h : t.Bounded) (name x : String) (type : ValueType)
    (storage : Storage) :
    (t.define name type storage).get? x =
      if name = x then some (t.fresh name type storage) else t.get? x := by
  by_cases hx : name = x
  · rw [if_pos hx, ← hx]
    exact get?_define_self t name type storage
  · rw [if_neg hx]
    have hb : (t.define name type storage).bindings[x]? = t.bindings[x]? := by
      simp [define, Std.TreeMap.getElem?_insert, hx]
    unfold get?
    rw [hb]
    cases hi : t.bindings[x]? with
    | none => rfl
    | some i =>
      have hlt : i < t.history.size := h x i hi
      simp only [Option.bind_some, define]
      rw [Array.getElem?_push_lt hlt, Array.getElem?_eq_getElem hlt]

/-! ## The history -/

/-- One more declaration is visible, and hides those of its name. -/
theorem lookupBefore?_succ (t : SymbolTable) (x : String) {n : Nat} {s : Symbol}
    (h : t.declaration? n = some s) :
    t.lookupBefore? x (n + 1) = if s.name = x then some s else t.lookupBefore? x n := by
  have hs : t.history.toList[n]? = some s := by
    rw [Array.getElem?_toList]
    exact h
  unfold lookupBefore?
  rw [List.take_add_one, hs, Option.toList_some, List.reverse_append, List.reverse_singleton,
    List.singleton_append, List.find?_cons]
  by_cases hx : s.name = x
  · simp [hx]
  · simp [hx]

/-- What is found among the first `n` declarations is one of them. -/
theorem exists_declaration?_of_lookupBefore? {t : SymbolTable} {x : String} {n : Nat} {s : Symbol}
    (h : t.lookupBefore? x n = some s) : ∃ i, i < n ∧ t.declaration? i = some s := by
  have hmem := List.mem_reverse.mp (List.mem_of_find?_eq_some h)
  obtain ⟨i, hi, hget⟩ := List.mem_iff_getElem.mp hmem
  rw [List.length_take] at hi
  refine ⟨i, by omega, ?_⟩
  rw [List.getElem_take] at hget
  rw [declaration?, ← Array.getElem?_toList, ← hget]
  exact List.getElem?_eq_getElem _

/-! ## The table of a block -/

/-- The scope after some declarations, each of them of a local variable. -/
def ofDeclarations (ds : List Declaration) : SymbolTable :=
  empty.defineAll (ds.map fun d => (d.name, d.type, .localVar))

/-- The symbol of the declaration made after `index` others. -/
def localSymbol (index : Nat) (d : Declaration) : Symbol := ⟨d.name, d.type, .localVar, index⟩

/-- As long as local variables alone are declared, their slots are counted by
the history. -/
theorem history_defineAll_local : ∀ (ds : List Declaration) (t : SymbolTable),
    t.nextIndex .localVar = t.size →
    (t.defineAll (ds.map fun d => (d.name, d.type, .localVar))).history.toList =
      t.history.toList ++ (ds.zipIdx t.size).map fun d => localSymbol d.2 d.1 := by
  intro ds
  induction ds with
  | nil => intro t _; simp [defineAll]
  | cons d ds ih =>
    intro t ht
    have hstep := ih (t.define d.name d.type .localVar) (by
      rw [nextIndex_define, size_define, ht]; rfl)
    have hfresh : t.fresh d.name d.type .localVar = localSymbol t.size d := by
      rw [localSymbol, ← ht]; rfl
    have hhistory : (t.define d.name d.type .localVar).history.toList =
        t.history.toList ++ [localSymbol t.size d] := by
      rw [← hfresh]; exact Array.toList_push
    rw [hhistory, size_define, List.append_assoc] at hstep
    exact hstep

theorem history_ofDeclarations (ds : List Declaration) :
    (ofDeclarations ds).history.toList = ds.zipIdx.map fun d => localSymbol d.2 d.1 :=
  history_defineAll_local ds empty rfl

@[simp] theorem size_ofDeclarations (ds : List Declaration) :
    (ofDeclarations ds).size = ds.length := by
  rw [size, ← Array.length_toList, history_ofDeclarations]
  simp

/-- In a block the slot of a declaration is its position. -/
theorem declaration?_ofDeclarations (ds : List Declaration) (i : Nat) :
    (ofDeclarations ds).declaration? i = ds[i]?.map (localSymbol i) := by
  rw [declaration?, ← Array.getElem?_toList, history_ofDeclarations, List.getElem?_map,
    List.getElem?_zipIdx, Option.map_map, Nat.zero_add]
  rfl

theorem names_history_ofDeclarations (ds : List Declaration) :
    (ofDeclarations ds).history.toList.map (·.name) = ds.map (·.name) := by
  rw [history_ofDeclarations, List.map_map]
  conv_rhs => rw [← List.zipIdx_map_fst 0 ds, List.map_map]
  rfl

/-- A name is found among the first `n` declarations of a block exactly when one
of them has it. -/
theorem lookupBefore?_ofDeclarations_eq_none_iff (ds : List Declaration) (x : String) (n : Nat) :
    (ofDeclarations ds).lookupBefore? x n = none ↔ x ∉ (ds.take n).map (·.name) := by
  rw [List.map_take, ← names_history_ofDeclarations, ← List.map_take, lookupBefore?,
    List.find?_eq_none]
  simp only [List.mem_reverse, decide_eq_true_eq, List.mem_map, not_exists, not_and]

end TensorLet.SymbolTable
