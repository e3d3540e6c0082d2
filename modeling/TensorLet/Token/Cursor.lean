import TensorLet.Token.Scan

/-!
# Cursors

A cursor stands on one token of a source. Advancing gives that token and moves
to the next one. At a lexical error the cursor stays on its token, and the next
advance goes on behind the error. Past the last token it stands on the end of
input, however often it advances.
-/

namespace TensorLet

/-- The token under the cursor, the pieces behind it and the size of the
source. -/
structure Cursor where
  current : Token
  pending : List (Except Error Token)
  size : Nat

namespace Cursor

/-- Gives the current token and moves to the next piece of the source. An error
there is the result instead, and the current token stays. -/
def advance (c : Cursor) : Except Error Token × Cursor :=
  match c.pending with
  | [] => (.ok c.current, { c with current := .endOfInput c.size })
  | .ok next :: rest => (.ok c.current, { c with current := next, pending := rest })
  | .error e :: rest => (.error e, { c with pending := rest })

/-- The cursor on the first token of a source, unless the source starts with a
lexical error. -/
def ofScan (scan : Scan) : Except Error Cursor :=
  match (Cursor.mk (.endOfInput 0) scan.items scan.size).advance with
  | (.ok _, c) => .ok c
  | (.error e, _) => .error e

/-- The cursor on the first token of a text. -/
def ofText (source : String) : Except Error Cursor := ofScan (.ofText source)

/-- True until the end of input is reached. -/
def hasMore (c : Cursor) : Bool := !c.current.isEnd

theorem size_advance (c : Cursor) : c.advance.2.size = c.size := by
  unfold advance; split <;> rfl

/-- Each advance uses up one pending piece. -/
theorem length_pending_advance (c : Cursor) :
    c.advance.2.pending.length = c.pending.length - 1 := by
  unfold advance; split <;> simp_all

end Cursor

end TensorLet
