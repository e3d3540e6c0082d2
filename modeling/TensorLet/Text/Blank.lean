/-!
# Blank characters

The characters with the Unicode property `White_Space`: 25 code points in ten
ranges. They separate tokens.
-/

namespace TensorLet

/-- Closed ranges of code points, ascending and apart. -/
def blankRanges : List (Nat × Nat) :=
  [(0x09, 0x0D), (0x20, 0x20), (0x85, 0x85), (0xA0, 0xA0), (0x1680, 0x1680), (0x2000, 0x200A),
   (0x2028, 0x2029), (0x202F, 0x202F), (0x205F, 0x205F), (0x3000, 0x3000)]

/-- True of the characters that only separate. -/
def isBlank (c : Char) : Bool :=
  blankRanges.any fun r => r.1 ≤ c.toNat && c.toNat ≤ r.2

/-- There are 25 blank characters. -/
example : blankRanges.foldl (fun n r => n + (r.2 + 1 - r.1)) 0 = 25 := by decide

/-- The table adds to the ASCII whitespace characters and takes none away. -/
theorem isBlank_of_isWhitespace (c : Char) (h : c.isWhitespace = true) : isBlank c = true := by
  simp only [Char.isWhitespace, Bool.or_eq_true, decide_eq_true_eq] at h
  rcases h with ((h | h) | h) | h <;> subst h <;> decide

end TensorLet
