import Mathlib.Data.Set.Card
import TensorLet.Proofs.SymbolTable

/-!
# Tables of arbitrary definitions

A symbol table keeps three things in step: the history of all definitions, the
position of each name's last one, and how many slots of each storage are taken.
Here a table is compared with the list of definitions it was made by, of any
names, types and storages in any order.

Everything a table answers can be read off that list. The proofs go by the last
definition: what holds of a table and one more definition holds of all tables.

* `declaration?_defineAll`: the slot of a definition counts those before it in
  the same storage.
* `lookupBefore?_defineAll`: looking up among the first definitions is looking
  up in the table that only they have made.
* `get?_eq_some_iff_lastAt`: a name refers to its last definition.
* `answers_of_defineAll`: all of it together, with the number of names that each
  storage binds.
-/

namespace TensorLet.SymbolTable

/-- A name, its type and where it is stored. -/
abbrev Definition := String × ValueType × Storage

/-- How many of some definitions are in a storage. -/
def slotsOf (storage : Storage) (ds : List Definition) : Nat := ds.countP (·.2.2 = storage)

/-- The symbol of `d`, which is defined after the first `i` of `ds`. -/
def symbolAt (ds : List Definition) (i : Nat) (d : Definition) : Symbol :=
  ⟨d.1, d.2.1, d.2.2, slotsOf d.2.2 (ds.take i)⟩

/-- The last definition of `x` in `ds` is `d`, after `i` others. -/
structure LastAt (ds : List Definition) (x : String) (i : Nat) (d : Definition) : Prop where
  defined : ds[i]? = some d
  name : d.1 = x
  last : ∀ j e, i < j → ds[j]? = some e → e.1 ≠ x

variable {ds : List Definition}

/-! ## One more definition -/

theorem defineAll_concat (t : SymbolTable) (ds : List Definition) (d : Definition) :
    t.defineAll (ds ++ [d]) = (t.defineAll ds).define d.1 d.2.1 d.2.2 := by
  simp [defineAll]

theorem bounded_defineAll (ds : List Definition) : (empty.defineAll ds).Bounded := by
  induction ds using List.reverseRecOn with
  | nil => exact bounded_empty
  | append_singleton ds d ih =>
    rw [defineAll_concat]
    exact ih.define _ _ _

theorem size_defineAll (ds : List Definition) : (empty.defineAll ds).size = ds.length := by
  induction ds using List.reverseRecOn with
  | nil => rfl
  | append_singleton ds d ih =>
    rw [defineAll_concat, size_define, ih, List.length_append, List.length_singleton]

/-- The slots taken in a storage are as many as its definitions. -/
theorem nextIndex_defineAll (storage : Storage) (ds : List Definition) :
    (empty.defineAll ds).nextIndex storage = slotsOf storage ds := by
  induction ds using List.reverseRecOn with
  | nil => cases storage <;> rfl
  | append_singleton ds d ih =>
    rw [defineAll_concat, nextIndex_define, ih, slotsOf, slotsOf, List.countP_append]
    simp [List.countP_singleton]

/-- Every definition takes a slot of one of the three storages. -/
theorem size_eq_sum_nextIndex (ds : List Definition) :
    (empty.defineAll ds).nextIndex .argument + (empty.defineAll ds).nextIndex .localVar +
      (empty.defineAll ds).nextIndex .globalVar = (empty.defineAll ds).size := by
  induction ds using List.reverseRecOn with
  | nil => rfl
  | append_singleton ds d ih =>
    obtain ⟨name, type, storage⟩ := d
    simp only [defineAll_concat, nextIndex_define, size_define]
    cases storage <;> simp <;> omega

/-! ## The history -/

/-- A definition stands behind all that were made before. -/
theorem declaration?_define (t : SymbolTable) (name : String) (type : ValueType)
    (storage : Storage) (i : Nat) :
    (t.define name type storage).declaration? i =
      if i = t.size then some (t.fresh name type storage) else t.declaration? i := by
  rw [declaration?, define, Array.getElem?_push]
  rfl

/-- A symbol depends on the definitions before its own. -/
theorem symbolAt_congr {ds es : List Definition} {i : Nat} (h : ds.take i = es.take i) :
    symbolAt ds i = symbolAt es i := by
  funext d
  rw [symbolAt, symbolAt, h]

/-- The `i`-th symbol is made by the `i`-th definition. -/
theorem declaration?_defineAll (ds : List Definition) (i : Nat) :
    (empty.defineAll ds).declaration? i = ds[i]?.map (symbolAt ds i) := by
  induction ds using List.reverseRecOn with
  | nil => simp [defineAll, empty, declaration?]
  | append_singleton ds d ih =>
    rw [defineAll_concat, declaration?_define, size_defineAll]
    by_cases hi : i = ds.length
    · subst hi
      rw [if_pos rfl, List.getElem?_concat_length, Option.map_some, symbolAt, List.take_left,
        ← nextIndex_defineAll]
      rfl
    · rw [if_neg hi, ih]
      by_cases hlt : i < ds.length
      · rw [List.getElem?_append_left hlt,
          symbolAt_congr (List.take_append_of_le_length (Nat.le_of_lt hlt))]
      · rw [List.getElem?_eq_none (by omega), List.getElem?_eq_none (by simp; omega)]
        rfl

/-- More definitions take more slots. -/
theorem slotsOf_take_lt {i j : Nat} {d : Definition} (hd : ds[i]? = some d) (hij : i < j) :
    slotsOf d.2.2 (ds.take i) < slotsOf d.2.2 (ds.take j) := by
  have hnext : slotsOf d.2.2 (ds.take (i + 1)) = slotsOf d.2.2 (ds.take i) + 1 := by
    rw [List.take_add_one, hd, slotsOf, slotsOf, Option.toList_some, List.countP_append]
    simp
  have hmono : slotsOf d.2.2 (ds.take (i + 1)) ≤ slotsOf d.2.2 (ds.take j) :=
    (List.take_prefix_take_left hij).sublist.countP_le
  omega

/-- No two definitions share a slot. -/
theorem eq_of_index_eq {i j : Nat} {s s' : Symbol}
    (hs : (empty.defineAll ds).declaration? i = some s)
    (hs' : (empty.defineAll ds).declaration? j = some s') (hstorage : s.storage = s'.storage)
    (hindex : s.index = s'.index) : i = j := by
  rw [declaration?_defineAll] at hs hs'
  obtain ⟨d, hd, rfl⟩ := Option.map_eq_some_iff.mp hs
  obtain ⟨d', hd', rfl⟩ := Option.map_eq_some_iff.mp hs'
  simp only [symbolAt] at hstorage hindex
  rcases Nat.lt_trichotomy i j with hlt | heq | hlt
  · have := slotsOf_take_lt hd hlt
    rw [hstorage] at this hindex
    omega
  · exact heq
  · have := slotsOf_take_lt hd' hlt
    rw [hstorage] at hindex
    omega

/-! ## Looking up -/

/-- The bindings know what a search through the whole history finds. -/
theorem get?_eq_lookupBefore?_size (ds : List Definition) (x : String) :
    (empty.defineAll ds).get? x =
      (empty.defineAll ds).lookupBefore? x (empty.defineAll ds).size := by
  induction ds using List.reverseRecOn with
  | nil => simp [defineAll, empty, get?, lookupBefore?]
  | append_singleton ds d ih =>
    have hlast : (empty.defineAll (ds ++ [d])).declaration? (empty.defineAll ds).size =
        some ((empty.defineAll ds).fresh d.1 d.2.1 d.2.2) := by
      rw [defineAll_concat, declaration?_define, if_pos rfl]
    -- Before the new definition the history is what it was.
    have hbefore : (empty.defineAll (ds ++ [d])).lookupBefore? x (empty.defineAll ds).size =
        (empty.defineAll ds).lookupBefore? x (empty.defineAll ds).size := by
      unfold lookupBefore?
      rw [defineAll_concat, define, Array.toList_push, size, ← Array.length_toList,
        List.take_left, List.take_length]
    have hsize : (empty.defineAll (ds ++ [d])).size = (empty.defineAll ds).size + 1 := by
      rw [defineAll_concat, size_define]
    rw [hsize, lookupBefore?_succ _ x hlast, hbefore, ← ih, defineAll_concat,
      get?_define (bounded_defineAll ds)]
    rfl

/-- The first symbols are those of the first definitions. -/
theorem take_history_defineAll (ds : List Definition) (n : Nat) :
    (empty.defineAll ds).history.toList.take n =
      (empty.defineAll (ds.take n)).history.toList := by
  refine List.ext_getElem? fun i => ?_
  have hentry : ∀ es : List Definition,
      (empty.defineAll es).history.toList[i]? = es[i]?.map (symbolAt es i) := by
    intro es
    rw [Array.getElem?_toList]
    exact declaration?_defineAll es i
  rw [List.getElem?_take, hentry, hentry, List.getElem?_take]
  by_cases hi : i < n
  · have htake : (ds.take n).take i = ds.take i := by
      rw [List.take_take, Nat.min_eq_left (Nat.le_of_lt hi)]
    rw [if_pos hi, if_pos hi, symbolAt_congr htake]
  · rw [if_neg hi, if_neg hi]
    rfl

theorem lookupBefore?_defineAll (ds : List Definition) (x : String) (n : Nat) :
    (empty.defineAll ds).lookupBefore? x n = (empty.defineAll (ds.take n)).get? x := by
  rw [get?_eq_lookupBefore?_size]
  unfold lookupBefore?
  rw [take_history_defineAll, size, ← Array.length_toList, List.take_length]

/-- A definition at the end is the last one of its name. -/
theorem lastAt_concat_iff {d e : Definition} {x : String} {i : Nat} :
    LastAt (ds ++ [d]) x i e ↔
      d.1 = x ∧ i = ds.length ∧ e = d ∨ d.1 ≠ x ∧ LastAt ds x i e := by
  constructor
  · intro h
    have hlt := (List.getElem?_eq_some_iff.mp h.defined).1
    rw [List.length_append, List.length_singleton] at hlt
    have he := h.defined
    by_cases hi : i = ds.length
    · subst hi
      rw [List.getElem?_concat_length] at he
      cases he
      exact .inl ⟨h.name, rfl, rfl⟩
    · have hlast := h.last ds.length d (by omega) List.getElem?_concat_length
      rw [List.getElem?_append_left (by omega)] at he
      refine .inr ⟨hlast, he, h.name, fun j e' hj he' => h.last j e' hj ?_⟩
      rw [List.getElem?_append_left (List.getElem?_eq_some_iff.mp he').1]
      exact he'
  · rintro (⟨hx, rfl, rfl⟩ | ⟨hx, h⟩)
    · refine ⟨List.getElem?_concat_length, hx, fun j e' hj he' => ?_⟩
      rw [List.getElem?_eq_none (by simp; omega)] at he'
      cases he'
    · refine ⟨?_, h.name, fun j e' hj he' => ?_⟩
      · rw [List.getElem?_append_left (List.getElem?_eq_some_iff.mp h.defined).1]
        exact h.defined
      · rcases Nat.lt_trichotomy j ds.length with hlt | rfl | hlt
        · rw [List.getElem?_append_left hlt] at he'
          exact h.last j e' hj he'
        · rw [List.getElem?_concat_length] at he'
          cases he'
          exact hx
        · rw [List.getElem?_eq_none (by simp; omega)] at he'
          cases he'

/-- A name refers to its last definition. -/
theorem get?_eq_some_iff_lastAt (ds : List Definition) (x : String) (s : Symbol) :
    (empty.defineAll ds).get? x = some s ↔ ∃ i d, LastAt ds x i d ∧ s = symbolAt ds i d := by
  induction ds using List.reverseRecOn with
  | nil =>
    constructor
    · intro h
      simp [defineAll, empty, get?] at h
    · rintro ⟨i, d, h, -⟩
      exact absurd h.defined (by simp)
  | append_singleton ds d ih =>
    rw [defineAll_concat, get?_define (bounded_defineAll ds)]
    simp only [lastAt_concat_iff]
    by_cases hx : d.1 = x
    · have hsymbol : (empty.defineAll ds).fresh d.1 d.2.1 d.2.2 =
          symbolAt (ds ++ [d]) ds.length d := by
        rw [symbolAt, List.take_left, ← nextIndex_defineAll]
        rfl
      rw [if_pos hx, Option.some.injEq, hsymbol]
      constructor
      · rintro rfl
        exact ⟨ds.length, d, .inl ⟨hx, rfl, rfl⟩, rfl⟩
      · rintro ⟨i, e, ⟨-, rfl, rfl⟩ | ⟨hne, -⟩, rfl⟩
        · rfl
        · exact absurd hx hne
    · have hsymbol : ∀ {i e}, LastAt ds x i e → symbolAt (ds ++ [d]) i e = symbolAt ds i e := by
        intro i e h
        have hlt := (List.getElem?_eq_some_iff.mp h.defined).1
        rw [symbolAt_congr (List.take_append_of_le_length (Nat.le_of_lt hlt))]
      rw [if_neg hx, ih]
      constructor
      · rintro ⟨i, e, h, rfl⟩
        exact ⟨i, e, .inr ⟨hx, h⟩, (hsymbol h).symm⟩
      · rintro ⟨i, e, ⟨heq, -⟩ | ⟨-, h⟩, rfl⟩
        · exact absurd heq hx
        · exact ⟨i, e, h, hsymbol h⟩

/-! ## Names in a storage -/

/-- The names that a storage binds are counted once each. -/
theorem boundCount_eq_ncard (t : SymbolTable) (storage : Storage) :
    t.boundCount storage = Set.ncard { x | ∃ s, t.get? x = some s ∧ s.storage = storage } := by
  have hcount : t.boundCount storage =
      (t.names.filter fun x => (t.get? x).any (·.storage = storage)).length := by
    rw [boundCount, bound, List.countP_filterMap, List.countP_eq_length_filter]
    congr 2
    funext x
    cases t.get? x <;> rfl
  have hnodup : (t.names.filter fun x => (t.get? x).any (·.storage = storage)).Nodup :=
    Std.TreeMap.nodup_keys.filter _
  rw [hcount, ← List.toFinset_card_of_nodup hnodup, ← Set.ncard_coe_finset]
  congr 1
  ext x
  simp only [List.coe_toFinset, Set.mem_ofPred_eq, List.mem_filter, Option.any_eq_true,
    decide_eq_true_eq]
  constructor
  · exact fun h => h.2
  · rintro ⟨s, hs, hstorage⟩
    refine ⟨?_, s, hs, hstorage⟩
    -- What is found is found through the bindings.
    obtain ⟨i, hi, -⟩ := Option.bind_eq_some_iff.mp hs
    exact Std.TreeMap.mem_keys.mpr (Std.TreeMap.mem_iff_isSome_getElem?.mpr (by rw [hi]; rfl))

/-! ## All answers of a table -/

/-- The answers of a table are those of the definitions it was made by. Its
history has them in order, each in the slot that counts those before it in its
storage, so no slot is shared; the next slots count all of them. Looking up among
the first `n` is looking up in the table of the first `n` alone, a name refers to
its last definition, and a storage binds the names whose last definition is in
it. -/
theorem answers_of_defineAll (ds : List Definition) :
    (∀ i, (empty.defineAll ds).declaration? i = ds[i]?.map (symbolAt ds i)) ∧
    (∀ i j s s', (empty.defineAll ds).declaration? i = some s →
      (empty.defineAll ds).declaration? j = some s' → s.storage = s'.storage →
      s.index = s'.index → i = j) ∧
    (empty.defineAll ds).size = ds.length ∧
    (∀ storage, (empty.defineAll ds).nextIndex storage = ds.countP (·.2.2 = storage)) ∧
    (empty.defineAll ds).nextIndex .argument + (empty.defineAll ds).nextIndex .localVar +
      (empty.defineAll ds).nextIndex .globalVar = (empty.defineAll ds).size ∧
    (∀ x n, (empty.defineAll ds).lookupBefore? x n =
      (empty.defineAll (ds.take (min n (empty.defineAll ds).size))).get? x) ∧
    (∀ x n, (empty.defineAll ds).size ≤ n →
      (empty.defineAll ds).lookupBefore? x n = (empty.defineAll ds).get? x) ∧
    (∀ x s, (empty.defineAll ds).get? x = some s ↔
      ∃ i d, LastAt ds x i d ∧ s = symbolAt ds i d) ∧
    ∀ storage, (empty.defineAll ds).boundCount storage =
      Set.ncard { x | ∃ i d, LastAt ds x i d ∧ d.2.2 = storage } := by
  refine ⟨declaration?_defineAll ds, fun i j s s' => eq_of_index_eq, size_defineAll ds,
    fun storage => nextIndex_defineAll storage ds, size_eq_sum_nextIndex ds, ?_, ?_,
    get?_eq_some_iff_lastAt ds, ?_⟩
  · intro x n
    rw [lookupBefore?_defineAll, size_defineAll]
    congr 2
    rw [← List.take_take, List.take_length]
  · intro x n hn
    rw [size_defineAll] at hn
    rw [lookupBefore?_defineAll, List.take_of_length_le hn]
  · intro storage
    rw [boundCount_eq_ncard]
    congr 1
    ext x
    simp only [Set.mem_ofPred_eq, get?_eq_some_iff_lastAt]
    constructor
    · rintro ⟨_, ⟨i, d, h, rfl⟩, hstorage⟩
      exact ⟨i, d, h, hstorage⟩
    · rintro ⟨i, d, h, hstorage⟩
      exact ⟨_, ⟨i, d, h, rfl⟩, hstorage⟩

end TensorLet.SymbolTable
