import TensorLet.Proofs.Parser.Acceptance
import TensorLet.Compiler

/-!
# What the code of a tensor literal tells

A tensor literal is written as plain constants: the extent of a node, how many
elements it stores, and for each of them its position and its own constants. The
constant of a number looks like the extent of a node, so the constants alone do
not say where braces stand, and different literals can have the same code. They
say everything else.

* `Binary64.ofNat_inj`: counts below `exactLimit` are written without loss.
* `Tensor.code_append_inj`: behind the constants of two aligned literals the
  code goes on at the same place.
* `Tensor.formless_eq_iff_code_eq`: two literals are the same constant exactly
  when they have the same code and braces at the same places.
* `Tensor.code_eq_of_different_constants`: two sources with the same code whose
  literals are not the same constant.
-/

namespace TensorLet

open Machine (Code Instr)

/-! ## Counts as numbers -/

namespace Binary64

/-- Counts below this are numbers without rounding. -/
def exactLimit : Nat := Nat.pow 2 53

/-- A count of at most 53 bits is the value of a finite word. -/
theorem exists_units_eq {n : Nat} (h : n < exactLimit) :
    ∃ word, word < infinity ∧ units word = n * unitsPerOne := by
  simp only [exactLimit, Nat.pow_eq] at h
  by_cases h0 : n = 0
  · subst h0
    exact ⟨0, by decide, (Nat.zero_mul _).symm⟩
  have hlog : n.log2 ≤ 52 := Nat.le_of_lt_succ ((Nat.log2_lt h0).2 h)
  obtain ⟨k, hk⟩ : ∃ k, n.log2 + k = 52 := ⟨52 - n.log2, by omega⟩
  have hlow : 2 ^ 52 ≤ n * 2 ^ k := by
    rw [← hk, Nat.pow_add]
    exact Nat.mul_le_mul_right _ (Nat.log2_self_le h0)
  have hhigh : n * 2 ^ k < 2 ^ 53 := by
    rw [show 53 = n.log2 + 1 + k by omega, Nat.pow_add]
    exact Nat.mul_lt_mul_of_pos_right Nat.lt_log2_self (Nat.two_pow_pos k)
  -- The leading bit of the significand carries into the exponent.
  have hdiv : ((n.log2 + 1022) * 2 ^ 52 + n * 2 ^ k) / 2 ^ 52 = n.log2 + 1023 := by omega
  have hmod : 2 ^ 52 + ((n.log2 + 1022) * 2 ^ 52 + n * 2 ^ k) % 2 ^ 52 = n * 2 ^ k := by omega
  refine ⟨(n.log2 + 1022) * 2 ^ 52 + n * 2 ^ k, ?_, ?_⟩
  · simp only [infinity, Nat.pow_eq]
    omega
  · have hexponent : unitExponent = k + (n.log2 + 1023 - 1) := by
      rw [unitExponent]
      omega
    delta unitsPerOne
    rw [hexponent]
    simp only [units, Nat.pow_eq]
    rw [if_neg (by omega), hmod, hdiv, Nat.mul_assoc, ← Nat.pow_add]

/-- Different counts below the limit are different numbers. -/
theorem ofNat_inj {m n : Nat} (hm : m < exactLimit) (hn : n < exactLimit)
    (h : ofNat m = ofNat n) : m = n := by
  obtain ⟨v, hv, hunits⟩ := exists_units_eq hm
  obtain ⟨w, hw, hunits'⟩ := exists_units_eq hn
  have hnearest : nearest m 1 = nearest n 1 := congrArg magnitude h
  rw [nearest_eq_of_mul_eq Nat.one_pos hv (by rw [Nat.mul_one, hunits]),
    nearest_eq_of_mul_eq Nat.one_pos hw (by rw [Nat.mul_one, hunits'])] at hnearest
  have hmul : m * unitsPerOne = n * unitsPerOne := by rw [← hunits, ← hunits', hnearest]
  have hpos : 0 < unitsPerOne := by
    delta unitsPerOne
    generalize unitExponent = e
    exact Nat.two_pow_pos e
  exact Nat.eq_of_mul_eq_mul_right hpos hmul

end Binary64

namespace Tensor

/-! ## Literals compared -/

mutual
/-- True of literals as they are read: a number is finite and not zero, and the
stored elements of a node stand at increasing positions below its extent. -/
def isSparse : Tensor → Bool
  | leaf scalar => scalar.value.isFinite && !scalar.value.isZero
  | node extent entries => areSparse extent 0 entries
/-- The same for stored elements, none of them before position `low`. -/
def areSparse (extent : Nat) : Nat → List (Nat × Tensor) → Bool
  | _, [] => true
  | low, (index, t) :: rest =>
    decide (low ≤ index ∧ index < extent) && t.isSparse && areSparse extent (index + 1) rest
end

mutual
/-- True when all extents of a literal are below `limit`. -/
def extentsBelow (limit : Nat) : Tensor → Bool
  | leaf _ => true
  | node extent entries => decide (extent < limit) && entryExtentsBelow limit entries
/-- True when all extents in stored elements are below `limit`. -/
def entryExtentsBelow (limit : Nat) : List (Nat × Tensor) → Bool
  | [] => true
  | (_, t) :: rest => t.extentsBelow limit && entryExtentsBelow limit rest
end

mutual
/-- The constant that a literal stands for: how its numbers are written is left
out. -/
def formless : Tensor → Tensor
  | leaf scalar => leaf { scalar with form := .float }
  | node extent entries => node extent (formlessEntries entries)
/-- The constants that stored elements stand for. -/
def formlessEntries : List (Nat × Tensor) → List (Nat × Tensor)
  | [] => []
  | (index, t) :: rest => (index, t.formless) :: formlessEntries rest
end

mutual
/-- True of two literals with braces at the same places: compared in order, a
stored number meets a number, and stored braces meet braces. -/
def isAligned : Tensor → Tensor → Bool
  | leaf _, leaf _ => true
  | node _ es, node _ fs => areAligned es fs
  | _, _ => false
/-- The same for stored elements, as far as there are some on both sides. -/
def areAligned : List (Nat × Tensor) → List (Nat × Tensor) → Bool
  | (_, t) :: es, (_, u) :: fs => t.isAligned u && areAligned es fs
  | _, _ => true
end

/-- A node has room for the elements it stores. -/
theorem length_le_of_areSparse {extent : Nat} : ∀ {es : List (Nat × Tensor)} {low : Nat},
    low ≤ extent → areSparse extent low es = true → low + es.length ≤ extent := by
  intro es
  induction es with
  | nil => intro low hlow _; exact hlow
  | cons e es ih =>
    obtain ⟨index, t⟩ := e
    intro low _ h
    simp only [areSparse, Bool.and_eq_true, decide_eq_true_eq] at h
    obtain ⟨⟨⟨hle, hlt⟩, -⟩, hrest⟩ := h
    have := ih hlt hrest
    rw [List.length_cons]
    omega

/-! ## Aligned literals -/

mutual
/-- The constants of two aligned literals end at the same place. -/
theorem code_append_inj {t u : Tensor} {r r' : Code} (ht : t.isSparse = true)
    (hu : u.isSparse = true) (hlt : t.extentsBelow Binary64.exactLimit = true)
    (hlu : u.extentsBelow Binary64.exactLimit = true) (ha : t.isAligned u = true)
    (h : t.code ++ r = u.code ++ r') : t.formless = u.formless ∧ r = r' := by
  match t, u with
  | leaf s, leaf s' =>
    simp only [code, List.singleton_append, List.cons.injEq, Instr.pushConstant.injEq] at h
    rw [formless, formless, h.1]
    exact ⟨rfl, h.2⟩
  | node m es, node n fs =>
    simp only [extentsBelow, Bool.and_eq_true, decide_eq_true_eq] at hlt hlu
    have hes := length_le_of_areSparse (Nat.zero_le m) ht
    have hfs := length_le_of_areSparse (Nat.zero_le n) hu
    simp only [code, List.cons_append, List.cons.injEq, Instr.pushConstant.injEq] at h
    obtain ⟨hextent, hcount, h⟩ := h
    have hextent := Binary64.ofNat_inj hlt.1 hlu.1 hextent
    have hcount := Binary64.ofNat_inj (by omega) (by omega) hcount
    obtain ⟨hentries, hr⟩ := entriesCode_append_inj hcount ht hu hlt hlu ha h
    rw [formless, formless, hextent, hentries]
    exact ⟨rfl, hr⟩
  | leaf _, node _ _ => cases ha
  | node _ _, leaf _ => cases ha
/-- The same for equally many stored elements. -/
theorem entriesCode_append_inj {es fs : List (Nat × Tensor)} {m n low low' : Nat} {r r' : Code}
    (hlength : es.length = fs.length) (hes : areSparse m low es = true)
    (hfs : areSparse n low' fs = true)
    (hle : m < Binary64.exactLimit ∧ entryExtentsBelow Binary64.exactLimit es = true)
    (hlf : n < Binary64.exactLimit ∧ entryExtentsBelow Binary64.exactLimit fs = true)
    (ha : areAligned es fs = true) (h : entriesCode es ++ r = entriesCode fs ++ r') :
    formlessEntries es = formlessEntries fs ∧ r = r' := by
  match es, fs with
  | [], [] => exact ⟨rfl, h⟩
  | (i, t) :: es, (j, u) :: fs =>
    simp only [areSparse, Bool.and_eq_true, decide_eq_true_eq] at hes hfs
    simp only [entryExtentsBelow, Bool.and_eq_true] at hle hlf
    simp only [areAligned, Bool.and_eq_true] at ha
    simp only [entriesCode, List.cons_append, List.append_assoc, List.cons.injEq,
      Instr.pushConstant.injEq] at h
    obtain ⟨⟨⟨-, hi⟩, ht⟩, hes⟩ := hes
    obtain ⟨⟨⟨-, hj⟩, hu⟩, hfs⟩ := hfs
    have hindex := Binary64.ofNat_inj (Nat.lt_trans hi hle.1) (Nat.lt_trans hj hlf.1) h.1
    obtain ⟨hfirst, h⟩ := code_append_inj ht hu hle.2.1 hlf.2.1 ha.1 h.2
    obtain ⟨hrest, hr⟩ := entriesCode_append_inj (Nat.succ.inj hlength) hes hfs
      ⟨hle.1, hle.2.2⟩ ⟨hlf.1, hlf.2.2⟩ ha.2 h
    rw [formlessEntries, formlessEntries, hindex, hfirst, hrest]
    exact ⟨rfl, hr⟩
  | [], _ :: _ => cases hlength
  | _ :: _, [] => cases hlength
end

/-! ## Equal constants -/

mutual
/-- The form of a number does not enter the code. -/
theorem code_formless (t : Tensor) : t.formless.code = t.code := by
  match t with
  | leaf s => rfl
  | node extent entries =>
    rw [formless, code, code, entriesCode_formlessEntries entries, length_formlessEntries entries]
theorem entriesCode_formlessEntries (es : List (Nat × Tensor)) :
    entriesCode (formlessEntries es) = entriesCode es := by
  match es with
  | [] => rfl
  | (index, t) :: rest =>
    rw [formlessEntries, entriesCode, entriesCode, code_formless t,
      entriesCode_formlessEntries rest]
theorem length_formlessEntries (es : List (Nat × Tensor)) :
    (formlessEntries es).length = es.length := by
  match es with
  | [] => rfl
  | (index, t) :: rest =>
    rw [formlessEntries, List.length_cons, List.length_cons, length_formlessEntries rest]
end

mutual
/-- Literals that stand for the same constant are aligned. -/
theorem isAligned_of_formless_eq {t u : Tensor} (h : t.formless = u.formless) :
    t.isAligned u = true := by
  match t, u with
  | leaf _, leaf _ => rfl
  | node _ es, node _ fs =>
    simp only [formless, node.injEq] at h
    exact areAligned_of_formless_eq h.2
  | leaf _, node _ _ => cases h
  | node _ _, leaf _ => cases h
theorem areAligned_of_formless_eq {es fs : List (Nat × Tensor)}
    (h : formlessEntries es = formlessEntries fs) : areAligned es fs = true := by
  match es, fs with
  | [], [] => rfl
  | (_, t) :: es, (_, u) :: fs =>
    simp only [formlessEntries, List.cons.injEq, Prod.mk.injEq] at h
    rw [areAligned, isAligned_of_formless_eq h.1.2, areAligned_of_formless_eq h.2]
    rfl
  | [], _ :: _ => cases h
  | _ :: _, [] => cases h
end

/-- The constants of a literal lose nothing but where its braces stand: two
literals are the same constant exactly when they have the same code and are
aligned. -/
theorem formless_eq_iff_code_eq {t u : Tensor} (ht : t.isSparse = true) (hu : u.isSparse = true)
    (hlt : t.extentsBelow Binary64.exactLimit = true)
    (hlu : u.extentsBelow Binary64.exactLimit = true) :
    t.formless = u.formless ↔ t.code = u.code ∧ t.isAligned u = true := by
  constructor
  · intro h
    refine ⟨?_, isAligned_of_formless_eq h⟩
    rw [← code_formless t, h, code_formless u]
  · rintro ⟨hcode, haligned⟩
    have happend : t.code ++ [] = u.code ++ [] := by rw [hcode]
    exact (code_append_inj ht hu hlt hlu haligned happend).1

/-- The literal `{3, {0, 5}}`. -/
def numberFirst (form : NumberForm) : Tensor :=
  node 2 [(0, leaf ⟨.ofNat 3, form⟩), (1, node 2 [(1, leaf ⟨.ofNat 5, form⟩)])]

/-- The literal `{{0, 0, 1}, 5}`. -/
def bracesFirst (form : NumberForm) : Tensor :=
  node 2 [(0, node 3 [(2, leaf ⟨.ofNat 1, form⟩)]), (1, leaf ⟨.ofNat 5, form⟩)]

/-- The same constant with and without points. -/
theorem formless_eq_iff_code_eq_of_points :
    (numberFirst .int).isSparse = true ∧ (numberFirst .float).isSparse = true ∧
    (numberFirst .int).extentsBelow Binary64.exactLimit = true ∧
    (numberFirst .float).extentsBelow Binary64.exactLimit = true ∧
    numberFirst .int ≠ numberFirst .float ∧
    (numberFirst .int).formless = (numberFirst .float).formless := by
  refine ⟨by decide +kernel, by decide +kernel, by decide +kernel, by decide +kernel,
    by decide +kernel, ?_⟩
  exact (formless_eq_iff_code_eq (by decide +kernel) (by decide +kernel) (by decide +kernel)
    (by decide +kernel)).mpr ⟨rfl, rfl⟩

/-- Two sources with different constants have the same code: the number in front
of the one is the extent in front of the other, and so on. -/
theorem code_eq_of_different_constants : ∃ code,
    (∃ p symbols, parse "let tensor t = \x7b3, \x7b0, 5\x7d\x7d;" = .ok (p, symbols) ∧
      p.tensors = [numberFirst .int] ∧ p.code symbols = .ok code) ∧
    (∃ p symbols, parse "let tensor t = \x7b\x7b0, 0, 1\x7d, 5\x7d;" = .ok (p, symbols) ∧
      p.tensors = [bracesFirst .int] ∧ p.code symbols = .ok code) ∧
    ((numberFirst .int).isSparse = true ∧ (bracesFirst .int).isSparse = true) ∧
    ((numberFirst .int).extentsBelow Binary64.exactLimit = true ∧
      (bracesFirst .int).extentsBelow Binary64.exactLimit = true) ∧
    (numberFirst .int).code = (bracesFirst .int).code ∧
    (numberFirst .int).formless ≠ (bracesFirst .int).formless := by
  refine ⟨(numberFirst .int).code ++ [.pop .locals 0], ?_, ?_, by decide +kernel, by decide +kernel,
    by decide +kernel, by decide +kernel⟩
  · obtain ⟨p, symbols, hparse, htest⟩ := exists_of_parse_any
      (s := "let tensor t = \x7b3, \x7b0, 5\x7d\x7d;")
      (p := fun r => r.1.tensors = [numberFirst .int] ∧
        (r.1.code r.2).toOption = some ((numberFirst .int).code ++ [.pop .locals 0]))
      (by decide +kernel)
    obtain ⟨htensors, hcode⟩ := of_decide_eq_true htest
    exact ⟨p, symbols, hparse, htensors, eq_ok_of_toOption hcode⟩
  · obtain ⟨p, symbols, hparse, htest⟩ := exists_of_parse_any
      (s := "let tensor t = \x7b\x7b0, 0, 1\x7d, 5\x7d;")
      (p := fun r => r.1.tensors = [bracesFirst .int] ∧
        (r.1.code r.2).toOption = some ((numberFirst .int).code ++ [.pop .locals 0]))
      (by decide +kernel)
    obtain ⟨htensors, hcode⟩ := of_decide_eq_true htest
    exact ⟨p, symbols, hparse, htensors, eq_ok_of_toOption hcode⟩

end Tensor

end TensorLet
