import TensorLet.Proofs.Token.Layout

/-!
# Tokens written with blanks between them

What is cut off as a token in some text is cut off as the same token before a
blank. So the tokens of a source can be written again with one blank behind each,
and tokens of other sources can be put between them.

* `Piece.scans_of_outcome`: a piece that is a token is the same token before a
  blank.
* `word_scans_of_mem_scanFrom`: this holds of every token of a text.
-/

namespace TensorLet

/-! ## Runs before a blank -/

/-- No numeric run goes on behind a blank. -/
theorem IsNumeric.longest_before_blank {run : List Char} (h : IsNumeric run) (rest : List Char) :
    LongestNumeric run (run ++ ' ' :: rest) := by
  refine ⟨List.prefix_append _ _, h, ?_⟩
  intro run' hinitial hnumeric
  by_contra hlonger
  have hblank : run ++ [' '] <+: run' := by
    refine List.prefix_of_prefix_length_le ⟨rest, ?_⟩ hinitial ?_
    · rw [List.append_assoc, List.singleton_append]
    · simp only [List.length_append, List.length_singleton]
      omega
  have hmem : ' ' ∈ run' := hblank.subset (by simp)
  rcases hnumeric.1 ' ' hmem with hdigit | hpoint
  · exact absurd hdigit (by decide)
  · exact absurd hpoint (by decide)

theorem numberRun_before_blank (cs rest : List Char) :
    numberRun (numberRun cs ++ ' ' :: rest) = numberRun cs :=
  (numberRun_longest _).unique ((numberRun_isNumeric cs).longest_before_blank rest)

theorem wordRun_before_blank (cs rest : List Char) :
    wordRun (wordRun cs ++ ' ' :: rest) = wordRun cs := by
  have hword : ∀ c ∈ wordRun cs, isWordChar c = true := fun c hc => List.mem_takeWhile_imp hc
  have hblank : isWordChar ' ' = false := by decide
  rw [wordRun, List.takeWhile_append_of_pos hword, List.takeWhile_cons_of_neg (by simp [hblank]),
    List.append_nil]

/-! ## Pieces before a blank -/

namespace Piece

/-- A number that no letter follows is its run, and the same number before a
blank. -/
theorem number_before_blank {cs : List Char} {kind : TokenKind} (h : (number cs).outcome = .ok kind)
    (rest : List Char) :
    (number cs).text = numberRun cs ∧ number (numberRun cs ++ ' ' :: rest) = number cs := by
  have hhead : ((numberRun cs ++ ' ' :: rest).drop (numberRun cs).length).head?.filter isWordStart =
      none := by
    rw [List.drop_left]
    rfl
  simp only [number, numberRun_before_blank, hhead] at h ⊢
  by_cases hdigit : (numberRun cs).any Char.isDigit = true
  · rw [if_pos hdigit] at h ⊢
    cases hletter : (cs.drop (numberRun cs).length).head?.filter isWordStart with
    | some c =>
      rw [hletter] at h
      cases h
    | none => exact ⟨rfl, if_pos hdigit⟩
  · rw [if_neg hdigit]
    exact ⟨rfl, if_neg hdigit⟩

theorem word_before_blank (cs rest : List Char) :
    word ((word cs).text ++ ' ' :: rest) = word cs := by
  unfold word
  simp only [wordRun_before_blank]

/-- A piece that is a token is the same token before a blank. -/
theorem first_before_blank {c : Char} {cs ds : List Char} {kind : TokenKind}
    (h : (first c cs).outcome = .ok kind) (htext : (first c cs).text = c :: ds) (rest : List Char) :
    first c (ds ++ ' ' :: rest) = first c cs := by
  by_cases hnumber : (c.isDigit || c = '.') = true
  · have hfirst : ∀ es, first c es = number (c :: es) := fun es => if_pos hnumber
    rw [hfirst] at h htext
    obtain ⟨hrun, hblank⟩ := number_before_blank h rest
    rw [← hrun, htext] at hblank
    rw [hfirst, hfirst]
    exact hblank
  · by_cases hsymbol : isSymbolChar c = true
    · have hfirst : ∀ es, first c es = ⟨[c], .ok .symbol⟩ :=
        fun es => (if_neg hnumber).trans (if_pos hsymbol)
      rw [hfirst, hfirst]
    · by_cases hword : isWordStart c = true
      · have hfirst : ∀ es, first c es = word (c :: es) :=
          fun es => (if_neg hnumber).trans ((if_neg hsymbol).trans (if_pos hword))
        rw [hfirst] at htext
        have hblank := word_before_blank (c :: cs) rest
        rw [htext] at hblank
        rw [hfirst, hfirst]
        exact hblank
      · have hfirst : first c cs = ⟨[c], .error (.unexpectedCharacter c)⟩ :=
          (if_neg hnumber).trans ((if_neg hsymbol).trans (if_neg hword))
        rw [hfirst] at h
        cases h

/-- The word of a piece that is a token scans before a blank. -/
theorem scans_of_outcome {c : Char} {cs : List Char} {kind : TokenKind} (hblank : isBlank c = false)
    (hcomment : c ≠ '#') (h : (first c cs).outcome = .ok kind) :
    Word.Scans ⟨(first c cs).text, kind⟩ := by
  cases htext : (first c cs).text with
  | nil => exact absurd htext (first_ne_nil c cs)
  | cons d ds =>
    have happend := text_append_rest c cs
    rw [htext, List.cons_append, List.cons.injEq] at happend
    obtain ⟨rfl, -⟩ := happend
    refine ⟨d, ds, rfl, hblank, hcomment, fun rest => ?_⟩
    rw [first_before_blank h htext rest, ← htext, ← h]

end Piece

/-- Every token of a text is a word that scans before a blank. -/
theorem word_scans_of_mem_scanFrom {offset : Nat} {cs : List Char} {t : Token}
    (h : .ok t ∈ scanFrom offset cs) : t.word.Scans := by
  obtain ⟨c, more, start, hblank, hcomment, hitem⟩ := exists_piece_of_mem_scanFrom h
  obtain ⟨houtcome, hlexeme⟩ := Piece.item_eq_ok hitem
  have hscans := Piece.scans_of_outcome hblank hcomment houtcome
  rwa [Token.word, hlexeme, String.toList_ofList]

end TensorLet
