import TensorLet.Numeric.Decimal

/-!
# Shortest decimal text

The text of a binary number is the decimal with the fewest digits that reads
back as the same number. Of two such decimals the nearer one is written, and of
two equally near ones the larger.

The search goes from the power of ten above the value to finer grids. On each
only the two neighbours of the value have to be tried: if any point of the grid
reads back, so does a neighbour, because what reads back is an interval around
the value.

* `Binary64.shortest`: the decimal of a finite magnitude.
* `Binary64.text`: the text, with `-` for negative numbers and negative zero,
  and `inf` and `NaN` for what is not finite.
* `Binary64.magnitude_shortest`: the shortest decimal reads back.
-/

namespace TensorLet.Binary64

/-! ## Grids of decimals -/

/-- The multiple `q` of `10 ^ grid`. -/
def onGrid (grid : Int) (q : Nat) : Decimal :=
  if 0 ≤ grid then ⟨q * Nat.pow 10 grid.toNat, 0⟩ else ⟨q, (-grid).toNat⟩

/-- The value of `word` over `10 ^ grid` as a fraction. -/
def ratio (word : Nat) (grid : Int) : Nat × Nat :=
  if 0 ≤ grid then (units word, unitsPerOne * Nat.pow 10 grid.toNat)
  else (units word * Nat.pow 10 (-grid).toNat, unitsPerOne)

/-- The finest grid whose first point is above a value that is not zero: its
leading digit is on the next one. -/
def gridAbove (word : Nat) : Int :=
  let whole := units word / unitsPerOne
  if whole = 0 then 1 - (Nat.toDigits 10 (unitsPerOne / units word)).length
  else (Nat.toDigits 10 whole).length

/-- The neighbour of `word`'s value on a grid that reads back as `word`, if one
does. Of two the nearer is taken, and the upper one at the same distance. -/
def neighbour? (word : Nat) (grid : Int) : Option Decimal :=
  let (num, den) := ratio word grid
  let low := onGrid grid (num / den)
  let high := onGrid grid (num / den + 1)
  if low.magnitude = word then
    if high.magnitude = word ∧ den ≤ 2 * (num % den) then some high else some low
  else
    if high.magnitude = word then some high else none

/-! ## The shortest decimal -/

/-- The value of `word` to its last place: `2 ^ (-n)` is `5 ^ n / 10 ^ n`. -/
def exact (word : Nat) : Decimal := ⟨units word * Nat.pow 5 unitExponent, unitExponent⟩

/-- The decimal with the fewest digits that reads back as `word`: the power of
ten above the value, or else one, two and up to seventeen digits of it, which
are enough for every finite number. -/
def shortest (word : Nat) : Decimal :=
  if word = 0 then ⟨0, 0⟩
  else
    ((List.range 18).findSome? fun i : Nat => neighbour? word (gridAbove word - i)).getD
      (exact word)

/-- The characters of a number's text. -/
def textChars (x : Binary64) : List Char :=
  if infinity < x.magnitude then ['N', 'a', 'N']
  else
    let size := if x.magnitude = infinity then ['i', 'n', 'f'] else (shortest x.magnitude).toChars
    if x.negative then '-' :: size else size

/-- A number as text: never with an exponent, and without a point when it is
whole. -/
def text (x : Binary64) : String := String.ofList x.textChars

/-! ## The text reads back -/

theorem magnitude_of_neighbour?_eq_some {word : Nat} {grid : Int} {d : Decimal}
    (h : neighbour? word grid = some d) : d.magnitude = word := by
  unfold neighbour? at h
  split at h
  simp only at h
  split at h
  next hlow =>
    split at h
    next hhigh => cases h; exact hhigh.1
    next => cases h; exact hlow
  next =>
    split at h
    next hhigh => cases h; exact hhigh
    next => cases h

theorem five_pow_mul_two_pow (n : Nat) : Nat.pow 5 n * Nat.pow 2 n = Nat.pow 10 n := by
  simp only [Nat.pow_eq, ← Nat.mul_pow, Nat.reduceMul]

theorem magnitude_exact {word : Nat} (hword : word < infinity) :
    (exact word).magnitude = word := by
  have hpos : 0 < Nat.pow 10 (exact word).places := Nat.pow_pos (by decide)
  refine nearest_eq_of_mul_eq hpos hword ?_
  unfold exact unitsPerOne
  rw [Nat.mul_assoc, five_pow_mul_two_pow]

/-- The shortest decimal of a finite magnitude reads back as it. -/
theorem magnitude_shortest {word : Nat} (hword : word < infinity) :
    (shortest word).magnitude = word := by
  unfold shortest
  split
  next h => rw [h]; decide +kernel
  next =>
    cases hfind : (List.range 18).findSome? fun i : Nat => neighbour? word (gridAbove word - i) with
    | none => exact magnitude_exact hword
    | some d =>
      obtain ⟨i, -, hi⟩ := List.exists_of_findSome?_eq_some hfind
      exact magnitude_of_neighbour?_eq_some hi

end TensorLet.Binary64
