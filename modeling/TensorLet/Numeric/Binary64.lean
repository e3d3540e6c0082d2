/-!
# Binary64 numbers

The 64-bit binary floating-point numbers as a sign and a magnitude word, with
rounding in exact `Nat` arithmetic.

A magnitude word holds eleven exponent bits above 52 fraction bits, so the
words below `infinity` are the finite magnitudes in increasing order: `units`
gives each of them as a multiple of the smallest positive one, `2 ^ (-1074)`.
Powers in definitions are written `Nat.pow`, so that they are the same under
every instance of `^` a later module imports.

* `Binary64.nearest num den`: the magnitude closest to `num / den`, a tie going
  to the even word, and everything past the largest finite one to `infinity`.
* `Binary64.ofNat`: a count as a number, rounded the same way.
* `Binary64.floorWord_units`: a word is found again from its number of units.
* `Binary64.nearest_eq_of_mul_eq`: a value that is a magnitude is rounded to
  itself.
-/

namespace TensorLet

/-- A binary floating-point number of 64 bits. Every pair of a sign and a
63-bit word is one, the infinities and the not-a-numbers included. -/
structure Binary64 where
  negative : Bool
  magnitude : Nat
  magnitude_lt : magnitude < Nat.pow 2 63
deriving DecidableEq

namespace Binary64

/-- The smallest positive number is two to minus this. -/
def unitExponent : Nat := 1074

/-- How many of the smallest positive number make up one. -/
def unitsPerOne : Nat := Nat.pow 2 unitExponent

/-- The magnitude word of infinity. Smaller words are finite, larger ones are
not numbers. -/
def infinity : Nat := 2047 * Nat.pow 2 52

/-! ## Words and units -/

/-- The value of a magnitude word, counted in units of `2 ^ (-1074)`. -/
def units (word : Nat) : Nat :=
  if word < Nat.pow 2 52 then word
  else (Nat.pow 2 52 + word % Nat.pow 2 52) * Nat.pow 2 (word / Nat.pow 2 52 - 1)

/-- The largest word whose value is at most `u` units. -/
def floorWord (u : Nat) : Nat :=
  let shift := u.log2 - 52
  shift * Nat.pow 2 52 + u / Nat.pow 2 shift

/-- A word's own number of units leads back to it. -/
theorem floorWord_units (word : Nat) : floorWord (units word) = word := by
  simp only [units, Nat.pow_eq]
  split
  next h =>
    have hshift : word.log2 - 52 = 0 := by
      by_cases h0 : word = 0
      · subst h0; decide
      · have := (Nat.log2_lt h0).2 h; omega
    simp [floorWord, hshift]
  next h =>
    have hpos : 1 ≤ word / 2 ^ 52 := (Nat.le_div_iff_mul_le (by decide)).2 (by omega)
    have hlow : word % 2 ^ 52 < 2 ^ 52 := Nat.mod_lt _ (by decide)
    have hlog : ((2 ^ 52 + word % 2 ^ 52) * 2 ^ (word / 2 ^ 52 - 1)).log2 =
        52 + (word / 2 ^ 52 - 1) := by
      have hne : (2 ^ 52 + word % 2 ^ 52) * 2 ^ (word / 2 ^ 52 - 1) ≠ 0 :=
        Nat.mul_ne_zero (by omega) (Nat.pos_iff_ne_zero.1 (Nat.two_pow_pos _))
      refine (Nat.log2_eq_iff hne).2 ⟨?_, ?_⟩
      · rw [Nat.pow_add]; exact Nat.mul_le_mul_right _ (by omega)
      · rw [show 52 + (word / 2 ^ 52 - 1) + 1 = 53 + (word / 2 ^ 52 - 1) by omega, Nat.pow_add]
        exact Nat.mul_lt_mul_of_pos_right (by omega) (Nat.two_pow_pos _)
    have hdiv := Nat.div_add_mod word (2 ^ 52)
    simp only [floorWord, Nat.pow_eq, hlog, Nat.add_sub_cancel_left,
      Nat.mul_div_cancel _ (Nat.two_pow_pos _)]
    omega

/-- Words are in the order of their values. -/
theorem units_lt_units_succ (word : Nat) : units word < units (word + 1) := by
  simp only [units, Nat.pow_eq]
  by_cases h : word + 1 < 2 ^ 52
  · rw [if_pos (by omega), if_pos h]
    omega
  · rw [if_neg h]
    have hdiv := Nat.div_add_mod word (2 ^ 52)
    have hmod : word % 2 ^ 52 < 2 ^ 52 := Nat.mod_lt _ (by decide)
    by_cases hlast : word % 2 ^ 52 + 1 = 2 ^ 52
    · have hq : (word + 1) / 2 ^ 52 = word / 2 ^ 52 + 1 := by omega
      have hr : (word + 1) % 2 ^ 52 = 0 := by omega
      rw [hq, hr, Nat.add_sub_cancel, Nat.add_zero]
      split
      · have : 2 ^ 52 * 1 ≤ 2 ^ 52 * 2 ^ (word / 2 ^ 52) :=
          Nat.mul_le_mul_left _ (Nat.two_pow_pos _)
        omega
      · obtain ⟨e, he⟩ : ∃ e, word / 2 ^ 52 = e + 1 := ⟨word / 2 ^ 52 - 1, by omega⟩
        have hpow : 2 ^ (e + 1) = 2 * 2 ^ e := by rw [Nat.pow_succ, Nat.mul_comm]
        rw [he, Nat.add_sub_cancel, hpow, ← Nat.mul_assoc]
        exact Nat.mul_lt_mul_of_pos_right (by omega) (Nat.two_pow_pos _)
    · have hq : (word + 1) / 2 ^ 52 = word / 2 ^ 52 := by omega
      have hr : (word + 1) % 2 ^ 52 = word % 2 ^ 52 + 1 := by omega
      rw [hq, hr, if_neg (by omega)]
      exact Nat.mul_lt_mul_of_pos_right (by omega) (Nat.two_pow_pos _)

/-! ## Rounding -/

/-- The magnitude word closest to `num / den`, a tie going to the even word.
Values from half a step past the largest finite number on are `infinity`. -/
def nearest (num den : Nat) : Nat :=
  let scaled := num * unitsPerOne
  let below := floorWord (scaled / den)
  if infinity ≤ below then infinity
  else
    match compare (2 * scaled) ((units below + units (below + 1)) * den) with
    | .lt => below
    | .eq => below + below % 2
    | .gt => below + 1

theorem nearest_le_infinity (num den : Nat) : nearest num den ≤ infinity := by
  unfold nearest
  extract_lets scaled below
  split
  · exact Nat.le_refl _
  · split <;> omega

/-- A value that is a finite magnitude is rounded to itself. -/
theorem nearest_eq_of_mul_eq {num den word : Nat} (hden : 0 < den) (hword : word < infinity)
    (h : num * unitsPerOne = units word * den) : nearest num den = word := by
  have hfloor : floorWord (num * unitsPerOne / den) = word := by
    rw [h, Nat.mul_div_cancel _ hden, floorWord_units]
  have hlt : 2 * (num * unitsPerOne) < (units word + units (word + 1)) * den := by
    rw [h, Nat.add_mul, Nat.two_mul]
    exact Nat.add_lt_add_left (Nat.mul_lt_mul_of_pos_right (units_lt_units_succ word) hden) _
  simp only [nearest, hfloor, if_neg (Nat.not_le.2 hword), Nat.compare_eq_lt.2 hlt]

/-- The number of the given sign closest to `num / den` in size. -/
def round (negative : Bool) (num den : Nat) : Binary64 where
  negative := negative
  magnitude := nearest num den
  magnitude_lt := Nat.lt_of_le_of_lt (nearest_le_infinity num den) (by decide)

/-- A count as a number, rounded to the nearest and a tie to the even word. -/
def ofNat (n : Nat) : Binary64 := round false n 1

/-- The number whose 64 bits, read as an unsigned number, are `bits`. -/
def ofBits (bits : Nat) : Binary64 where
  negative := bits.testBit 63
  magnitude := bits % Nat.pow 2 63
  magnitude_lt := Nat.mod_lt _ (by decide)

/-! ## Sign and class -/

/-- The same magnitude with the other sign. -/
def negate (x : Binary64) : Binary64 := { x with negative := !x.negative }

/-- True of both zeros. -/
def isZero (x : Binary64) : Bool := x.magnitude == 0

/-- True of all numbers but the infinities and the not-a-numbers. -/
def isFinite (x : Binary64) : Bool := x.magnitude < infinity

@[simp] theorem negate_negate (x : Binary64) : x.negate.negate = x := by
  simp [negate]

@[simp] theorem isZero_negate (x : Binary64) : x.negate.isZero = x.isZero := rfl

@[simp] theorem isFinite_negate (x : Binary64) : x.negate.isFinite = x.isFinite := rfl

end Binary64

end TensorLet
