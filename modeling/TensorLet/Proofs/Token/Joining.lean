import TensorLet.Proofs.Token.Layout

/-!
# Scanning two texts on lines of their own

A line break ends whatever stands before it, a comment included, and belongs to
no token. So a text that is written on the lines behind another one is cut as it
would be on its own, only further back in the source.

* `scanFrom_shift`: where a text stands changes nothing but the spans.
* `scanFrom_newline`: two texts with a line break between them are cut one after
  the other.
* `items_ofText_newline`: the same for whole sources.
-/

namespace TensorLet

/-! ## Moved spans -/

/-- The span `k` bytes further back. -/
def Span.shift (k : Nat) (s : Span) : Span := ⟨s.start + k, s.stop + k⟩

/-- The token `k` bytes further back. -/
def Token.shift (k : Nat) (t : Token) : Token := { t with span := t.span.shift k }

/-- The piece of a source `k` bytes further back. -/
def shiftItem (k : Nat) : Except Error Token → Except Error Token
  | .ok t => .ok (t.shift k)
  | .error e => .error { e with span := e.span.shift k }

theorem Piece.item_shift (p : Piece) (start k : Nat) :
    p.item (start + k) = shiftItem k (p.item start) := by
  have hstop : start + k + byteLength p.text = start + byteLength p.text + k := by omega
  unfold Piece.item
  rw [hstop]
  cases p.outcome <;> rfl

/-- The pieces of a text further back are the same, further back. -/
theorem scanFrom_shift (k offset : Nat) (cs : List Char) :
    scanFrom (offset + k) cs = (scanFrom offset cs).map (shiftItem k) := by
  fun_induction scanFrom offset cs with
  | case1 offset cs skipped hskip => rw [scanFrom.eq_def, hskip]; rfl
  | case2 offset cs skipped c more hskip start piece ih =>
    have hstart : offset + k + byteLength skipped = start + k := by
      show _ = offset + byteLength skipped + k
      omega
    have hstop : start + k + byteLength piece.text = start + byteLength piece.text + k := by omega
    rw [scanFrom.eq_def, hskip]
    simp only [hstart, List.map_cons]
    rw [Piece.item_shift, hstop, ih]

/-! ## Blanks and comments before a line break -/

/-- Behind the first character of a piece nothing is skipped. -/
theorem skipTrivia_append_of_cons {inComment : Bool} {cs skipped more : List Char} {c : Char}
    (h : skipTrivia inComment cs = (skipped, c :: more)) (ds : List Char) :
    skipTrivia inComment (cs ++ ds) = (skipped, c :: (more ++ ds)) := by
  fun_induction skipTrivia inComment cs generalizing skipped with
  | case1 => cases h
  | case2 inComment b bs hb skipped' rest heq ih =>
    cases h
    rw [List.cons_append, skipTrivia, if_pos hb, ih heq]
  | case3 inComment bs skipped' rest heq hb ih =>
    cases h
    rw [List.cons_append, skipTrivia, if_neg hb, if_pos rfl, ih heq]
  | case4 inComment b bs hb hcomment =>
    cases h
    rw [List.cons_append, skipTrivia, if_neg hb, if_neg hcomment]

/-- A line break ends a comment, so skipping goes on behind it as at the start of
a text. -/
theorem skipTrivia_append_of_nil {inComment : Bool} {cs skipped : List Char}
    (h : skipTrivia inComment cs = (skipped, [])) (ds : List Char) :
    skipTrivia inComment (cs ++ '\n' :: ds) =
      (cs ++ '\n' :: (skipTrivia false ds).1, (skipTrivia false ds).2) := by
  have hbreak : ∀ b : Bool, skipTrivia b ('\n' :: ds) =
      ('\n' :: (skipTrivia false ds).1, (skipTrivia false ds).2) := by
    intro b
    have hblank : isBlank '\n' = true := by decide
    have hend : isLineEnd '\n' = true := by decide
    rw [skipTrivia, hblank, hend, Bool.or_true, if_pos rfl, Bool.not_true, Bool.and_false]
  fun_induction skipTrivia inComment cs generalizing skipped with
  | case1 inComment => exact hbreak inComment
  | case2 inComment b bs hb skipped' rest heq ih =>
    cases h
    rw [List.cons_append, skipTrivia, if_pos hb, ih heq]
    rfl
  | case3 inComment bs skipped' rest heq hb ih =>
    cases h
    rw [List.cons_append, skipTrivia, if_neg hb, if_pos rfl, ih heq]
    rfl
  | case4 => cases h

/-! ## Pieces before a line break -/

/-- A run ends at the latest before a character that does not belong to it. -/
theorem takeWhile_append_stop {p : Char → Bool} {b : Char} (hb : p b = false)
    (cs ds : List Char) : (cs ++ b :: ds).takeWhile p = cs.takeWhile p := by
  induction cs with
  | nil => exact List.takeWhile_cons_of_neg (by simp [hb])
  | cons c cs ih => rw [List.cons_append, List.takeWhile_cons, List.takeWhile_cons, ih]

theorem numberRun_newline (cs ds : List Char) : numberRun (cs ++ '\n' :: ds) = numberRun cs := by
  refine (numberRun_longest _).unique ⟨?_, numberRun_isNumeric cs, ?_⟩
  · exact (Piece.numberRun_isPrefix cs).trans (List.prefix_append _ _)
  · intro run hinitial hnumeric
    refine (numberRun_longest cs).longest run ?_ hnumeric
    refine List.prefix_of_prefix_length_le hinitial (List.prefix_append _ _) ?_
    by_contra hlonger
    -- A longer run would have the line break in it.
    have hbreak : cs ++ ['\n'] <+: run := by
      refine List.prefix_of_prefix_length_le ⟨ds, ?_⟩ hinitial ?_
      · rw [List.append_assoc, List.singleton_append]
      · simp only [List.length_append, List.length_singleton]
        omega
    rcases hnumeric.1 '\n' (hbreak.subset (by simp)) with hdigit | hpoint
    · exact absurd hdigit (by decide)
    · exact absurd hpoint (by decide)

namespace Piece

theorem number_newline (cs ds : List Char) : number (cs ++ '\n' :: ds) = number cs := by
  have hhead : ((cs ++ '\n' :: ds).drop (numberRun cs).length).head?.filter isWordStart =
      (cs.drop (numberRun cs).length).head?.filter isWordStart := by
    rw [List.drop_append_of_le_length (numberRun_isPrefix cs).length_le]
    cases cs.drop (numberRun cs).length with
    | nil => rfl
    | cons c rest => rfl
  unfold number
  simp only [numberRun_newline, hhead]

/-- The piece before a line break is what it is at the end of a text. -/
theorem first_newline (c : Char) (cs ds : List Char) :
    first c (cs ++ '\n' :: ds) = first c cs := by
  have hnumber := number_newline (c :: cs) ds
  have hword : word (c :: cs ++ '\n' :: ds) = word (c :: cs) := by
    unfold word wordRun
    rw [takeWhile_append_stop (by decide)]
  rw [List.cons_append] at hnumber hword
  unfold first
  rw [hnumber, hword]

theorem rest_newline (c : Char) (cs ds : List Char) :
    rest c (cs ++ '\n' :: ds) = rest c cs ++ '\n' :: ds := by
  rw [rest, first_newline, ← List.cons_append,
    List.drop_append_of_le_length (first_isPrefix c cs).length_le]
  rfl

end Piece

/-! ## Texts with a line break between them -/

theorem scanFrom_of_skipTrivia {offset : Nat} {cs skipped more : List Char} {c : Char}
    (h : skipTrivia false cs = (skipped, c :: more)) :
    scanFrom offset cs = (Piece.first c more).item (offset + byteLength skipped) ::
      scanFrom (offset + byteLength skipped + byteLength (Piece.first c more).text)
        (Piece.rest c more) := by
  rw [scanFrom.eq_def, h]

/-- Two texts with a line break between them are cut one after the other. -/
theorem scanFrom_newline (offset : Nat) (cs ds : List Char) :
    scanFrom offset (cs ++ '\n' :: ds) =
      scanFrom offset cs ++ scanFrom (offset + byteLength cs + 1) ds := by
  fun_induction scanFrom offset cs with
  | case1 offset cs skipped hskip =>
    have hjoined := skipTrivia_append_of_nil hskip ds
    rcases hrest : skipTrivia false ds with ⟨skipped', rest⟩
    rw [hrest] at hjoined
    have hbytes : byteLength (cs ++ '\n' :: skipped') = byteLength cs + 1 + byteLength skipped' := by
      rw [byteLength_append, byteLength_cons, Nat.add_assoc]
      rfl
    rw [List.nil_append]
    cases rest with
    | nil => rw [scanFrom.eq_def, hjoined, scanFrom.eq_def, hrest]
    | cons c more =>
      rw [scanFrom_of_skipTrivia hjoined, scanFrom_of_skipTrivia hrest, hbytes, ← Nat.add_assoc,
        ← Nat.add_assoc]
  | case2 offset cs skipped c more hskip start piece ih =>
    -- The bytes of `cs` are those skipped, those of the piece and those behind it.
    have hbytes : byteLength cs =
        byteLength skipped + (byteLength piece.text + byteLength (Piece.rest c more)) := by
      have htext := skipTrivia_append false cs
      rw [hskip, ← Piece.text_append_rest c more] at htext
      rw [← htext, byteLength_append, byteLength_append]
    rw [scanFrom_of_skipTrivia (skipTrivia_append_of_cons hskip _), Piece.first_newline,
      Piece.rest_newline, List.cons_append, ih, hbytes]
    congr 3
    show offset + byteLength skipped + byteLength piece.text + _ + 1 = _
    omega

/-- The pieces of two sources with a line break between them: those of the first,
and those of the second further back. -/
theorem items_ofText_newline (source source' : String) :
    (Scan.ofText (source ++ "\n" ++ source')).items = (Scan.ofText source).items ++
      (Scan.ofText source').items.map (shiftItem (byteLength source.toList + 1)) := by
  have htext : (source ++ "\n" ++ source').toList = source.toList ++ '\n' :: source'.toList := by
    rw [String.toList_append, String.toList_append, List.append_assoc]
    rfl
  simp only [Scan.ofText, htext]
  rw [scanFrom_newline, ← scanFrom_shift, Nat.add_assoc]

end TensorLet
