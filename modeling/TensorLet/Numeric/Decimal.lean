import TensorLet.Numeric.Binary64

/-!
# Decimals

A non-negative decimal is a coefficient and a number of places after the
point. Its text has no exponent: digits, and a point with the places after it
when there are any.

* `Decimal.ofChars?` reads `digits`, `digits.`, `.digits` and `digits.digits`.
* `Decimal.toChars` writes with at least one digit before the point.
* `Decimal.magnitude` is the binary magnitude closest to the value.
* `Decimal.ofChars?_toChars`: reading the text of a decimal gives it back.
-/

namespace TensorLet

/-- The number `coefficient / 10 ^ places`. -/
structure Decimal where
  coefficient : Nat
  places : Nat
deriving DecidableEq

namespace Decimal

/-- Reads digits with at most one point among them and at least one digit.
Every digit after the point is a place. -/
def ofChars? (cs : List Char) : Option Decimal :=
  let whole := cs.takeWhile (· != '.')
  let fraction := (cs.dropWhile (· != '.')).drop 1
  let digits := whole ++ fraction
  if digits ≠ [] ∧ digits.all Char.isDigit then
    some ⟨Nat.ofDigitChars 10 digits 0, fraction.length⟩
  else
    none

/-- The digits of a decimal, with zeros in front so that one of them stands
before the point. -/
def digits (d : Decimal) : List Char :=
  let significant := Nat.toDigits 10 d.coefficient
  List.replicate (d.places + 1 - significant.length) '0' ++ significant

/-- Writes all places, and a zero before the point when the value is below
one. A decimal without places has no point. -/
def toChars (d : Decimal) : List Char :=
  let whole := d.digits.take (d.digits.length - d.places)
  let fraction := d.digits.drop (d.digits.length - d.places)
  if d.places = 0 then whole else whole ++ '.' :: fraction

/-- The magnitude word closest to the value of `d`. -/
def magnitude (d : Decimal) : Nat := Binary64.nearest d.coefficient (Nat.pow 10 d.places)

/-- The non-negative binary number closest to `d`; infinite when `d` is too
large. -/
def toBinary64 (d : Decimal) : Binary64 := Binary64.round false d.coefficient (Nat.pow 10 d.places)

/-! ## Reading what was written -/

theorem isDigit_of_mem_digits {d : Decimal} {c : Char} (h : c ∈ d.digits) : c.isDigit = true := by
  rcases List.mem_append.1 h with h | h
  · rw [List.eq_of_mem_replicate h]; rfl
  · exact Nat.isDigit_of_mem_toDigits (by decide) (by decide) h

theorem places_lt_length_digits (d : Decimal) : d.places < d.digits.length := by
  simp only [digits, List.length_append, List.length_replicate]
  omega

/-- The digits are those of the coefficient. -/
theorem ofDigitChars_digits (d : Decimal) : Nat.ofDigitChars 10 d.digits 0 = d.coefficient := by
  simp [digits, Nat.ofDigitChars_append, Nat.ofDigitChars_replicate_zero,
    Nat.ofDigitChars_toDigits]

theorem ne_point_of_isDigit {c : Char} (h : c.isDigit = true) : (c != '.') = true := by
  rw [bne_iff_ne]
  intro hc
  subst hc
  exact absurd h (by decide)

/-- Reading takes digits for the coefficient, and those behind a point for
places. -/
theorem ofChars?_append {whole fraction : List Char} (hne : whole ≠ [])
    (hw : ∀ c ∈ whole, c.isDigit = true) (hf : ∀ c ∈ fraction, c.isDigit = true) :
    ofChars? (whole ++ '.' :: fraction) =
      some ⟨Nat.ofDigitChars 10 (whole ++ fraction) 0, fraction.length⟩ := by
  have hpoint : ∀ c ∈ whole, (c != '.') = true := fun c hc => ne_point_of_isDigit (hw c hc)
  have htake : (whole ++ '.' :: fraction).takeWhile (· != '.') = whole := by
    rw [List.takeWhile_append_of_pos hpoint]; simp
  have hdrop : (whole ++ '.' :: fraction).dropWhile (· != '.') = '.' :: fraction := by
    rw [List.dropWhile_append_of_pos hpoint]; simp
  have hall : (whole ++ fraction).all Char.isDigit = true := by
    rw [List.all_eq_true]
    intro c hc
    exact (List.mem_append.1 hc).elim (hw c) (hf c)
  simp only [ofChars?, htake, hdrop, List.drop_succ_cons, List.drop_zero, hall]
  simp [hne]

theorem ofChars?_of_isDigit {whole : List Char} (hne : whole ≠ [])
    (hw : ∀ c ∈ whole, c.isDigit = true) :
    ofChars? whole = some ⟨Nat.ofDigitChars 10 whole 0, 0⟩ := by
  have hpoint : ∀ c ∈ whole, (c != '.') = true := fun c hc => ne_point_of_isDigit (hw c hc)
  have htake : whole.takeWhile (· != '.') = whole := by
    have h : (whole ++ []).takeWhile (· != '.') = whole ++ [].takeWhile (· != '.') :=
      List.takeWhile_append_of_pos hpoint
    simpa using h
  have hdrop : whole.dropWhile (· != '.') = [] := by
    have h : (whole ++ []).dropWhile (· != '.') = [].dropWhile (· != '.') :=
      List.dropWhile_append_of_pos hpoint
    simpa using h
  have hall : whole.all Char.isDigit = true := List.all_eq_true.2 hw
  simp only [ofChars?, htake, hdrop, List.drop_nil, List.append_nil, hall]
  simp [hne]

/-- A decimal is read back from its text, places included. -/
theorem ofChars?_toChars (d : Decimal) : ofChars? d.toChars = some d := by
  have hlen := places_lt_length_digits d
  have hne : d.digits.take (d.digits.length - d.places) ≠ [] := by
    intro h
    have := congrArg List.length h
    simp only [List.length_take, List.length_nil] at this
    omega
  have hw : ∀ c ∈ d.digits.take (d.digits.length - d.places), c.isDigit = true :=
    fun c hc => isDigit_of_mem_digits (List.mem_of_mem_take hc)
  have hf : ∀ c ∈ d.digits.drop (d.digits.length - d.places), c.isDigit = true :=
    fun c hc => isDigit_of_mem_digits (List.mem_of_mem_drop hc)
  unfold toChars
  extract_lets whole fraction
  split
  next hp =>
    have hwhole : whole = d.digits := by
      simp only [whole, hp, Nat.sub_zero, List.take_length]
    rw [hwhole, ofChars?_of_isDigit (by rw [← hwhole]; exact hne)
      (fun c hc => isDigit_of_mem_digits hc), ofDigitChars_digits, ← hp]
  next =>
    have hfraction : fraction.length = d.places := by
      simp only [fraction, List.length_drop]
      omega
    rw [ofChars?_append hne hw hf, List.take_append_drop, ofDigitChars_digits]
    exact congrArg (fun places => some (Decimal.mk d.coefficient places)) hfraction

end Decimal

end TensorLet
