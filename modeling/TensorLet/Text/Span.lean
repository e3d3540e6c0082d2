/-!
# Spans

A span is a range of byte offsets in a source text, the end not included.
Characters are counted by their UTF-8 size, so a span never depends on how the
text is stored.
-/

namespace TensorLet

/-- The bytes from offset `start` up to, not including, `stop`. -/
structure Span where
  start : Nat
  stop : Nat
deriving DecidableEq

namespace Span

/-- The number of bytes covered. -/
def length (s : Span) : Nat := s.stop - s.start

/-- The smallest span that covers both. -/
def merge (s t : Span) : Span := ⟨min s.start t.start, max s.stop t.stop⟩

theorem merge_comm (s t : Span) : s.merge t = t.merge s := by
  simp [merge, Nat.min_comm, Nat.max_comm]

@[simp] theorem merge_self (s : Span) : s.merge s = s := by
  simp [merge]

end Span

/-- The number of bytes that characters take in UTF-8. -/
def byteLength (cs : List Char) : Nat := cs.foldr (fun c n => c.utf8Size + n) 0

@[simp] theorem byteLength_nil : byteLength [] = 0 := rfl

@[simp] theorem byteLength_cons (c : Char) (cs : List Char) :
    byteLength (c :: cs) = c.utf8Size + byteLength cs := rfl

@[simp] theorem byteLength_append (cs ds : List Char) :
    byteLength (cs ++ ds) = byteLength cs + byteLength ds := by
  induction cs with
  | nil => simp
  | cons c cs ih => simp [ih, Nat.add_assoc]

end TensorLet
