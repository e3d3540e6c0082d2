import TensorLet.Proofs.Token.Joining
import TensorLet.Proofs.Token.Places

/-!
# Lexemes and the gaps between them

Every class of tokens has its lexemes, and every gap between tokens starts with a
character that no lexeme goes on with. So lexemes that are written with gaps
between them are cut where they were joined, whatever the gaps are.

* `Lexeme`: the lexemes of each class, said without the functions that scan them.
* `Lexeme.first_append`: before a gap, a lexeme is cut off as a token of its
  class.
* `Lexeme.of_first`: nothing else is cut off as a token.
* `Word.joined`, `Word.scanFrom_joined`: lexemes with gaps in front of each scan
  to their tokens.
* `tokenize_joined`: both directions for whole sources.
-/

namespace TensorLet

/-! ## Lexemes -/

/-- The words that are no identifiers. -/
def keywordTexts : List String := ["let", "int", "float", "tensor"]

/-- The lexemes of each class. The end of the source has none. -/
inductive Lexeme : TokenKind → List Char → Prop
  | keyword {cs : List Char} : String.ofList cs ∈ keywordTexts → Lexeme .keyword cs
  | identifier {c : Char} {cs : List Char} : isWordStart c = true →
      (∀ d ∈ cs, isWordChar d = true) → String.ofList (c :: cs) ∉ keywordTexts →
      Lexeme .identifier (c :: cs)
  | int {cs : List Char} : cs ≠ [] → (∀ c ∈ cs, c.isDigit = true) → Lexeme .int cs
  | float {whole fraction : List Char} : whole ++ fraction ≠ [] →
      (∀ c ∈ whole, c.isDigit = true) → (∀ c ∈ fraction, c.isDigit = true) →
      Lexeme .float (whole ++ '.' :: fraction)
  | symbol {c : Char} : c ∈ symbolChars → Lexeme .symbol [c]
  | stray : Lexeme .stray ['.']

/-- A text that is empty or starts with a gap. -/
def StartsWithGap (rest : List Char) : Prop := ∀ c, rest.head? = some c → startsGap c = true

theorem startsWithGap_nil : StartsWithGap [] := by
  intro c hc
  cases hc

theorem startsWithGap_cons {c : Char} (hc : startsGap c = true) (cs : List Char) :
    StartsWithGap (c :: cs) := by
  intro d hd
  cases hd
  exact hc

/-! ## Characters -/

/-- Blanks are apart from every range of code points between two ranges of them. -/
theorem not_inRange_of_isBlank {c : Char} (hc : isBlank c = true) (low high : UInt32)
    (hapart : ∀ r ∈ blankRanges, r.2 < low.toNat ∨ high.toNat < r.1) :
    ¬ (low ≤ c.val ∧ c.val ≤ high) := by
  obtain ⟨r, hmem, hr⟩ := List.any_eq_true.mp hc
  have := hapart r hmem
  simp only [Bool.and_eq_true, decide_eq_true_eq, Char.toNat] at hr
  simp only [UInt32.le_iff_toNat_le]
  omega

/-- Letters are in two ranges of code points. -/
theorem isAlpha_eq (c : Char) : c.isAlpha =
    (decide (65 ≤ c.val ∧ c.val ≤ 90) || (decide (97 ≤ c.val) && decide (c.val ≤ 122))) := rfl

/-- No gap starts with a character of a word. -/
theorem isWordChar_of_startsGap {c : Char} (hc : startsGap c = true) : isWordChar c = false := by
  simp only [startsGap, Bool.or_eq_true, decide_eq_true_eq] at hc
  rcases hc with hc | rfl
  · have hupper := not_inRange_of_isBlank hc 65 90 (by decide)
    have hlower := not_inRange_of_isBlank hc 97 122 (by decide)
    have hdigit := not_inRange_of_isBlank hc 48 57 (by decide)
    have hline : c ≠ '_' := by
      rintro rfl
      exact absurd hc (by decide)
    simp only [isWordChar, Char.isAlphanum, isAlpha_eq, Char.isDigit, Bool.or_eq_false_iff,
      Bool.and_eq_false_iff, decide_eq_false_iff_not, ← not_and_or]
    exact ⟨⟨⟨hupper, hlower⟩, hdigit⟩, hline⟩
  · decide

theorem isWordStart_of_startsGap {c : Char} (hc : startsGap c = true) : isWordStart c = false := by
  have hword := isWordChar_of_startsGap hc
  simp only [isWordChar, Char.isAlphanum, Bool.or_eq_false_iff] at hword
  simp only [isWordStart, Bool.or_eq_false_iff]
  exact ⟨hword.1.1, hword.2⟩

/-- No gap starts with a character of a number. -/
theorem not_numeric_of_startsGap {c : Char} (hc : startsGap c = true) :
    ¬ (c.isDigit = true ∨ c = '.') := by
  have hword := isWordChar_of_startsGap hc
  simp only [isWordChar, Char.isAlphanum, Bool.or_eq_false_iff] at hword
  rintro (hdigit | rfl)
  · rw [hword.1.2] at hdigit
    cases hdigit
  · exact absurd hc (by decide)

theorem isWordChar_of_isWordStart {c : Char} (hc : isWordStart c = true) : isWordChar c = true := by
  simp only [isWordStart, isWordChar, Char.isAlphanum, Bool.or_eq_true] at hc ⊢
  rcases hc with hc | hc
  · exact .inl (.inl hc)
  · exact .inr hc

/-- No number starts with a character that a word starts with. -/
theorem not_numeric_of_isWordStart {c : Char} (hc : isWordStart c = true) :
    ¬ (c.isDigit = true ∨ c = '.') := by
  rintro (hdigit | rfl)
  · simp only [isWordStart, isAlpha_eq, Bool.or_eq_true, Bool.and_eq_true, decide_eq_true_eq,
      UInt32.le_iff_toNat_le] at hc
    simp only [Char.isDigit, Bool.and_eq_true, decide_eq_true_eq, UInt32.le_iff_toNat_le,
      ge_iff_le] at hdigit
    change 48 ≤ c.val.toNat ∧ c.val.toNat ≤ 57 at hdigit
    change ((65 ≤ c.val.toNat ∧ c.val.toNat ≤ 90) ∨ (97 ≤ c.val.toNat ∧ c.val.toNat ≤ 122)) ∨
      c = '_' at hc
    rcases hc with hc | rfl
    · omega
    · exact absurd hdigit.2 (by decide)
  · exact absurd hc (by decide)

/-! ## Runs before a gap -/

/-- A numeric run before a gap is as long as it can be. -/
theorem IsNumeric.longest_append {run rest : List Char} (h : IsNumeric run)
    (hrest : StartsWithGap rest) : LongestNumeric run (run ++ rest) := by
  refine ⟨List.prefix_append _ _, h, ?_⟩
  intro run' hinitial hnumeric
  by_contra hlonger
  obtain ⟨tail, rfl⟩ : run <+: run' :=
    List.prefix_of_prefix_length_le (List.prefix_append _ _) hinitial (by omega)
  cases tail with
  | nil => simp at hlonger
  | cons c tail =>
    have hhead : rest.head? = some c := by
      obtain ⟨more, hmore⟩ := (List.prefix_append_right_inj run).mp hinitial
      rw [← hmore]
      rfl
    exact not_numeric_of_startsGap (hrest c hhead) (hnumeric.1 c (by simp))

namespace Piece

/-- The class of a numeric run. -/
def numberKind (run : List Char) : TokenKind :=
  if run.any Char.isDigit then if run.contains '.' then .float else .int else .stray

/-- A numeric run before a gap is cut off as a number, or as a stray point. -/
theorem number_append {run rest : List Char} (h : IsNumeric run) (hrest : StartsWithGap rest) :
    number (run ++ rest) = ⟨run, .ok (numberKind run)⟩ := by
  have hrun : numberRun (run ++ rest) = run :=
    (numberRun_longest _).unique (h.longest_append hrest)
  have hletter : rest.head?.filter isWordStart = none := by
    rw [Option.filter_eq_none_iff]
    intro c hc
    simp [isWordStart_of_startsGap (hrest c hc)]
  unfold number numberKind
  simp only [hrun, List.drop_left, hletter]
  split <;> rfl

/-- Characters of words before a gap are cut off as a word. -/
theorem word_append {run rest : List Char} (h : ∀ c ∈ run, isWordChar c = true)
    (hrest : StartsWithGap rest) : word (run ++ rest) =
      ⟨run, .ok (if (Keyword.ofText? (String.ofList run)).isSome then .keyword else .identifier)⟩ := by
  have hrun : wordRun (run ++ rest) = run := by
    rw [wordRun, List.takeWhile_append_of_pos h]
    cases rest with
    | nil => simp
    | cons c rest =>
      rw [List.takeWhile_cons_of_neg (by simp [isWordChar_of_startsGap (hrest c rfl)]),
        List.append_nil]
  unfold word
  simp only [hrun]

/-- A number or a point starts with a digit or a point. -/
theorem first_eq_number {c : Char} (hc : c.isDigit = true ∨ c = '.') (cs : List Char) :
    first c cs = number (c :: cs) := if_pos (by simpa using hc)

theorem first_eq_symbol {c : Char} (hc : c ∈ symbolChars) (cs : List Char) :
    first c cs = ⟨[c], .ok .symbol⟩ := by
  have hnumber : ∀ d ∈ symbolChars, (!(d.isDigit || d = '.')) = true :=
    List.all_eq_true.mp (by decide)
  have hsymbol : isSymbolChar c = true := by simpa [isSymbolChar] using hc
  exact (if_neg (by simpa using hnumber c hc)).trans (if_pos hsymbol)

theorem first_eq_word {c : Char} (hc : isWordStart c = true) (cs : List Char) :
    first c cs = word (c :: cs) := by
  have hsymbol : ∀ d ∈ symbolChars, (!isWordStart d) = true := List.all_eq_true.mp (by decide)
  refine (if_neg ?_).trans ((if_neg ?_).trans (if_pos hc))
  · simpa using not_numeric_of_isWordStart hc
  · intro h
    have hnot := hsymbol c (by simpa [isSymbolChar] using h)
    rw [hc] at hnot
    cases hnot

end Piece

/-! ## Lexemes before a gap -/

theorem Keyword.isSome_ofText?_iff (text : String) :
    (Keyword.ofText? text).isSome = true ↔ text ∈ keywordTexts := by
  rw [Option.isSome_iff_exists]
  simp only [Keyword.ofText?_eq_some_iff]
  constructor
  · rintro ⟨k, rfl⟩
    cases k <;> decide
  · intro h
    simp only [keywordTexts, List.mem_cons, List.not_mem_nil, or_false] at h
    rcases h with rfl | rfl | rfl | rfl
    · exact ⟨.letWord, rfl⟩
    · exact ⟨.int, rfl⟩
    · exact ⟨.float, rfl⟩
    · exact ⟨.tensor, rfl⟩

/-- Digits have no point among them. -/
theorem count_point_of_isDigit {cs : List Char} (h : ∀ c ∈ cs, c.isDigit = true) :
    cs.count '.' = 0 := by
  refine List.count_eq_zero.mpr fun hpoint => ?_
  exact absurd (h '.' hpoint) (by decide)

theorem isNumeric_of_isDigit {cs : List Char} (h : ∀ c ∈ cs, c.isDigit = true) : IsNumeric cs := by
  refine ⟨fun c hc => .inl (h c hc), ?_⟩
  rw [count_point_of_isDigit h]
  exact Nat.zero_le 1

theorem isNumeric_of_point {whole fraction : List Char} (hwhole : ∀ c ∈ whole, c.isDigit = true)
    (hfraction : ∀ c ∈ fraction, c.isDigit = true) : IsNumeric (whole ++ '.' :: fraction) := by
  refine ⟨fun c hc => ?_, ?_⟩
  · rcases List.mem_append.mp hc with hc | hc
    · exact .inl (hwhole c hc)
    · rcases List.mem_cons.mp hc with rfl | hc
      · exact .inr rfl
      · exact .inl (hfraction c hc)
  · rw [List.count_append, List.count_cons_self, count_point_of_isDigit hwhole,
      count_point_of_isDigit hfraction]

theorem Piece.numberKind_of_isDigit {cs : List Char} (hne : cs ≠ [])
    (h : ∀ c ∈ cs, c.isDigit = true) : numberKind cs = .int := by
  obtain ⟨c, cs, rfl⟩ := List.exists_cons_of_ne_nil hne
  have hpoint : '.' ∉ c :: cs := List.count_eq_zero.mp (count_point_of_isDigit h)
  rw [numberKind, if_pos (by simp [h c List.mem_cons_self]), if_neg (by simpa using hpoint)]

theorem Piece.numberKind_of_point {whole fraction : List Char} (hne : whole ++ fraction ≠ [])
    (hwhole : ∀ c ∈ whole, c.isDigit = true) (hfraction : ∀ c ∈ fraction, c.isDigit = true) :
    numberKind (whole ++ '.' :: fraction) = .float := by
  have hdigit : (whole ++ '.' :: fraction).any Char.isDigit = true := by
    obtain ⟨c, hc⟩ := List.exists_mem_of_ne_nil _ hne
    refine List.any_eq_true.mpr ⟨c, ?_, (List.mem_append.mp hc).elim (hwhole c) (hfraction c)⟩
    rcases List.mem_append.mp hc with hc | hc <;> simp [hc]
  rw [numberKind, if_pos hdigit, if_pos (by simp)]

/-- The characters of a keyword are those of a word. -/
theorem isWordChar_of_keyword {cs : List Char} (h : String.ofList cs ∈ keywordTexts) :
    ∃ c ds, cs = c :: ds ∧ isWordStart c = true ∧ ∀ d ∈ ds, isWordChar d = true := by
  simp only [keywordTexts, List.mem_cons, List.not_mem_nil, or_false, ← String.toList_inj,
    String.toList_ofList] at h
  rcases h with rfl | rfl | rfl | rfl
  · exact ⟨'l', ['e', 't'], by decide, by decide, List.all_eq_true.mp (by decide)⟩
  · exact ⟨'i', ['n', 't'], by decide, by decide, List.all_eq_true.mp (by decide)⟩
  · exact ⟨'f', ['l', 'o', 'a', 't'], by decide, by decide, List.all_eq_true.mp (by decide)⟩
  · exact ⟨'t', ['e', 'n', 's', 'o', 'r'], by decide, by decide, List.all_eq_true.mp (by decide)⟩

/-- Characters of a numeric run before a gap are cut off as one token. -/
theorem IsNumeric.first_append {run : List Char} (h : IsNumeric run) (hne : run ≠ []) :
    ∃ c cs, run = c :: cs ∧ startsGap c = false ∧ ∀ rest, StartsWithGap rest →
      Piece.first c (cs ++ rest) = ⟨run, .ok (Piece.numberKind run)⟩ := by
  obtain ⟨c, cs, rfl⟩ := List.exists_cons_of_ne_nil hne
  have hc := h.1 c List.mem_cons_self
  refine ⟨c, cs, rfl, ?_, fun rest hrest => ?_⟩
  · rw [Bool.eq_false_iff]
    exact fun hgap => not_numeric_of_startsGap hgap hc
  · rw [Piece.first_eq_number hc, ← List.cons_append, Piece.number_append h hrest]

/-- Characters of a word before a gap are cut off as one token. -/
theorem word_first_append {c : Char} {cs : List Char} (hc : isWordStart c = true)
    (hcs : ∀ d ∈ cs, isWordChar d = true) : startsGap c = false ∧
      ∀ rest, StartsWithGap rest → Piece.first c (cs ++ rest) = ⟨c :: cs, .ok
        (if (Keyword.ofText? (String.ofList (c :: cs))).isSome then .keyword else .identifier)⟩ := by
  refine ⟨?_, fun rest hrest => ?_⟩
  · rw [Bool.eq_false_iff]
    intro hgap
    rw [isWordStart_of_startsGap hgap] at hc
    cases hc
  · rw [Piece.first_eq_word hc, ← List.cons_append]
    exact Piece.word_append (List.forall_mem_cons.mpr ⟨isWordChar_of_isWordStart hc, hcs⟩) hrest

/-- Before a gap, a lexeme is cut off as a token of its class. -/
theorem Lexeme.first_append {kind : TokenKind} {chars : List Char} (h : Lexeme kind chars) :
    ∃ c cs, chars = c :: cs ∧ startsGap c = false ∧ ∀ rest, StartsWithGap rest →
      Piece.first c (cs ++ rest) = ⟨chars, .ok kind⟩ := by
  cases h with
  | keyword hword =>
    obtain ⟨c, cs, rfl, hc, hcs⟩ := isWordChar_of_keyword hword
    have hfirst := word_first_append hc hcs
    rw [if_pos ((Keyword.isSome_ofText?_iff _).mpr hword)] at hfirst
    exact ⟨c, cs, rfl, hfirst⟩
  | @identifier c cs hc hcs hword =>
    have hfirst := word_first_append hc hcs
    rw [if_neg fun h => hword ((Keyword.isSome_ofText?_iff _).mp h)] at hfirst
    exact ⟨c, cs, rfl, hfirst⟩
  | int hne hdigits =>
    rw [← Piece.numberKind_of_isDigit hne hdigits]
    exact (isNumeric_of_isDigit hdigits).first_append hne
  | float hne hwhole hfraction =>
    rw [← Piece.numberKind_of_point hne hwhole hfraction]
    exact (isNumeric_of_point hwhole hfraction).first_append (by simp)
  | @symbol c hc =>
    have hgap : ∀ d ∈ symbolChars, (!startsGap d) = true := List.all_eq_true.mp (by decide)
    exact ⟨c, [], rfl, by simpa using hgap c hc, fun rest _ => Piece.first_eq_symbol hc rest⟩
  | stray =>
    have hpoint : IsNumeric ['.'] := ⟨by simp, by decide⟩
    exact hpoint.first_append (by decide)

/-! ## What is cut off as a token -/

/-- A numeric run is a lexeme of its class. -/
theorem IsNumeric.lexeme {run : List Char} (h : IsNumeric run) (hne : run ≠ []) :
    Lexeme (Piece.numberKind run) run := by
  rcases h.isDigit_or_point with hdigits | ⟨whole, fraction, rfl, hwhole, hfraction⟩
  · rw [Piece.numberKind_of_isDigit hne hdigits]
    exact .int hne hdigits
  · by_cases hempty : whole ++ fraction = []
    · -- Without a digit on either side there is the point alone.
      obtain ⟨rfl, rfl⟩ := List.append_eq_nil_iff.mp hempty
      exact .stray
    · rw [Piece.numberKind_of_point hempty hwhole hfraction]
      exact .float hempty hwhole hfraction

/-- A number that is cut off as a token is a lexeme of its class. -/
theorem Lexeme.of_number {c : Char} {cs : List Char} {kind : TokenKind}
    (hc : c.isDigit = true ∨ c = '.') (h : (Piece.number (c :: cs)).outcome = .ok kind) :
    Lexeme kind (Piece.number (c :: cs)).text := by
  have hlexeme := (numberRun_isNumeric (c :: cs)).lexeme
    (Piece.numberRun_ne_nil c cs (by simpa using hc))
  unfold Piece.numberKind at hlexeme
  unfold Piece.number at h ⊢
  extract_lets at h ⊢
  split
  next hdigit =>
    rw [if_pos hdigit] at h hlexeme
    split
    next d hd =>
      rw [hd] at h
      cases h
    next hd =>
      rw [hd] at h
      cases h
      exact hlexeme
  next hdigit =>
    rw [if_neg hdigit] at h hlexeme
    cases h
    exact hlexeme

theorem Lexeme.of_word {c : Char} {cs : List Char} {kind : TokenKind} (hc : isWordStart c = true)
    (h : (Piece.word (c :: cs)).outcome = .ok kind) : Lexeme kind (Piece.word (c :: cs)).text := by
  have hrun : wordRun (c :: cs) = c :: cs.takeWhile isWordChar :=
    List.takeWhile_cons_of_pos (isWordChar_of_isWordStart hc)
  simp only [Piece.word, hrun, Except.ok.injEq] at h ⊢
  subst h
  split
  next hword => exact .keyword ((Keyword.isSome_ofText?_iff _).mp hword)
  next hword =>
    refine .identifier hc (fun d hd => List.mem_takeWhile_imp hd) fun hmem => hword ?_
    exact (Keyword.isSome_ofText?_iff _).mpr hmem

/-- Nothing but a lexeme of its class is cut off as a token. -/
theorem Lexeme.of_first {c : Char} {cs : List Char} {kind : TokenKind}
    (h : (Piece.first c cs).outcome = .ok kind) : Lexeme kind (Piece.first c cs).text := by
  by_cases hnumber : c.isDigit = true ∨ c = '.'
  · rw [Piece.first_eq_number hnumber] at h ⊢
    exact .of_number hnumber h
  by_cases hsymbol : c ∈ symbolChars
  · rw [Piece.first_eq_symbol hsymbol] at h ⊢
    cases h
    exact .symbol hsymbol
  by_cases hword : isWordStart c = true
  · rw [Piece.first_eq_word hword] at h ⊢
    exact .of_word hword h
  · have hfirst : Piece.first c cs = ⟨[c], .error (.unexpectedCharacter c)⟩ :=
      (if_neg (by simpa using hnumber)).trans
        ((if_neg (by simpa [isSymbolChar] using hsymbol)).trans (if_neg hword))
    rw [hfirst] at h
    cases h

/-! ## Gaps -/

/-- What follows a gap matters by its first character. -/
theorem Trivia.congr {rest rest' gap : List Char} (h : Trivia rest gap)
    (hhead : rest.head? = rest'.head?) : Trivia rest' gap := by
  induction h with
  | nil => exact .nil
  | blank hc _ ih => exact .blank hc ih
  | @comment text cs htext hend _ ih =>
    refine .comment htext (fun c hc => hend c ?_) ih
    rw [← hc, List.head?_append, List.head?_append, hhead]

/-- The text of a comment is skipped. -/
theorem skipTrivia_comment {text : List Char} (htext : ∀ c ∈ text, isLineEnd c = false)
    (cs : List Char) : skipTrivia true (text ++ cs) =
      (text ++ (skipTrivia true cs).1, (skipTrivia true cs).2) := by
  induction text with
  | nil => rfl
  | cons c text ih =>
    obtain ⟨hc, htext⟩ := List.forall_mem_cons.mp htext
    rw [List.cons_append, skipTrivia, Bool.true_or, if_pos rfl, hc, Bool.not_false, Bool.true_and,
      ih htext]
    rfl

/-- A comment ends before the end of its line. -/
theorem skipTrivia_true_eq {cs : List Char} (h : ∀ c, cs.head? = some c → isLineEnd c = true) :
    skipTrivia true cs = skipTrivia false cs := by
  cases cs with
  | nil => rfl
  | cons c cs =>
    have hc := h c rfl
    rw [skipTrivia, skipTrivia, isBlank_of_isLineEnd hc, hc]
    rfl

/-- A gap is skipped up to the piece behind it, or to the end. -/
theorem skipTrivia_append_of_trivia {rest gap : List Char} (h : Trivia rest gap)
    (hrest : ∀ c, rest.head? = some c → startsGap c = false) :
    skipTrivia false (gap ++ rest) = (gap, rest) := by
  induction h with
  | nil =>
    cases rest with
    | nil => rfl
    | cons c rest =>
      have hc := hrest c rfl
      simp only [startsGap, Bool.or_eq_false_iff, decide_eq_false_iff_not] at hc
      rw [List.nil_append, skipTrivia, Bool.false_or, hc.1, if_neg (by simp), if_neg hc.2]
  | blank hc _ ih =>
    rw [List.cons_append, skipTrivia, hc, Bool.or_true, if_pos rfl, Bool.false_and, ih]
  | comment htext hend _ ih =>
    have hblank : isBlank '#' = false := by decide
    rw [List.cons_append, skipTrivia, hblank, if_neg (by simp), if_pos rfl, List.append_assoc,
      skipTrivia_comment htext, skipTrivia_true_eq hend, ih]

/-- A gap that is not empty starts as gaps do. -/
theorem Trivia.startsWithGap {rest gap : List Char} (h : Trivia rest gap) : StartsWithGap gap := by
  cases h with
  | nil => exact startsWithGap_nil
  | blank hc _ => exact startsWithGap_cons (by simp [startsGap, hc]) _
  | comment _ _ _ => exact startsWithGap_cons (by decide) _

/-! ## Words with gaps between them -/

namespace Word

/-- Words with the gap in front of each, and the gap behind the last one. -/
def joined : List (List Char × Word) → List Char → List Char
  | [], last => last
  | (gap, w) :: ws, last => gap ++ (w.chars ++ joined ws last)

/-- The tokens of joined words, the first gap being at a byte offset. -/
def joinedTokens : Nat → List (List Char × Word) → List Token
  | _, [] => []
  | offset, (gap, w) :: ws =>
    w.token (offset + byteLength gap) ::
      joinedTokens (offset + byteLength gap + byteLength w.chars) ws

/-- Behind a word stands a gap. -/
theorem startsWithGap_joined {ws : List (List Char × Word)} {last : List Char}
    (hgaps : ∀ p ∈ ws, Trivia p.2.chars p.1) (hne : ∀ p ∈ ws, p.1 ≠ []) (hlast : Trivia [] last) :
    StartsWithGap (joined ws last) := by
  cases ws with
  | nil => exact hlast.startsWithGap
  | cons p ws =>
    obtain ⟨gap, w⟩ := p
    have hgap := (hgaps _ List.mem_cons_self).startsWithGap
    obtain ⟨c, cs, hcons⟩ := List.exists_cons_of_ne_nil (hne _ List.mem_cons_self)
    simp only at hgap hcons
    rw [joined, hcons]
    exact startsWithGap_cons (hgap c (by rw [hcons]; rfl)) _

/-- Lexemes with gaps between them scan to their tokens. -/
theorem scanFrom_joined {last : List Char} (hlast : Trivia [] last) :
    ∀ (ws : List (List Char × Word)), (∀ p ∈ ws, Lexeme p.2.kind p.2.chars) →
      (∀ p ∈ ws, Trivia p.2.chars p.1) → (∀ p ∈ ws.tail, p.1 ≠ []) →
      ∀ offset, scanFrom offset (joined ws last) = (joinedTokens offset ws).map .ok := by
  intro ws
  induction ws with
  | nil =>
    intro _ _ _ offset
    have hskip := skipTrivia_append_of_trivia hlast (by simp)
    rw [List.append_nil] at hskip
    rw [joined, scanFrom.eq_def, hskip]
    rfl
  | cons p ws ih =>
    obtain ⟨gap, w⟩ := p
    intro hwords hgaps hne offset
    obtain ⟨hw, hwords⟩ := List.forall_mem_cons.mp hwords
    obtain ⟨hgap, hgaps⟩ := List.forall_mem_cons.mp hgaps
    obtain ⟨c, cs, hchars, hc, hfirst⟩ := hw.first_append
    have hpiece := hfirst (joined ws last) (startsWithGap_joined hgaps hne hlast)
    have hskip : skipTrivia false (joined ((gap, w) :: ws) last) =
        (gap, c :: (cs ++ joined ws last)) := by
      rw [joined, hchars, List.cons_append]
      refine skipTrivia_append_of_trivia (hgap.congr (by rw [hchars]; rfl)) ?_
      intro d hd
      cases hd
      exact hc
    have hrest : Piece.rest c (cs ++ joined ws last) = joined ws last := by
      rw [Piece.rest, hpiece, hchars, ← List.cons_append, List.drop_left]
    rw [scanFrom_of_skipTrivia hskip, hrest, hpiece,
      ih hwords hgaps fun p hp => hne p (List.mem_of_mem_tail hp)]
    rfl

end Word

/-! ## Whole sources -/

/-- Every token of a source is a lexeme of its class. -/
theorem lexeme_of_mem_tokenize {source : String} {ts : List Token} (h : tokenize source = .ok ts)
    {t : Token} (ht : t ∈ ts) (hend : t.isEnd = false) : Lexeme t.kind t.lexeme.toList := by
  have hmem : .ok t ∈ pieces source := by
    rw [pieces_eq_of_tokenize h]
    exact List.mem_map_of_mem ht
  rcases List.mem_append.mp hmem with hmem | hmem
  · obtain ⟨c, more, start, -, -, hitem⟩ := exists_piece_of_mem_scanFrom hmem
    obtain ⟨houtcome, hlexeme⟩ := Piece.item_eq_ok hitem
    rw [hlexeme, String.toList_ofList]
    exact .of_first houtcome
  · cases List.mem_singleton.mp hmem
    cases hend

/-- Scanning undoes joining. Lexemes of any classes, with blanks and comments in
front of each and behind the last one, have exactly these lexemes for tokens, each
of its class and at its bytes; between two lexemes the gap is not empty, and a
comment in it ends with its line. Nothing but lexemes of their classes are
tokens. -/
theorem tokenize_joined :
    (∀ (ws : List (List Char × Word)) (last : List Char),
      (∀ p ∈ ws, Lexeme p.2.kind p.2.chars) → (∀ p ∈ ws, Trivia p.2.chars p.1) →
      (∀ p ∈ ws.tail, p.1 ≠ []) → Trivia [] last →
      tokenize (String.ofList (Word.joined ws last)) =
        .ok (Word.joinedTokens 0 ws ++ [.endOfInput (byteLength (Word.joined ws last))])) ∧
    ∀ source ts, tokenize source = .ok ts → ∀ t ∈ ts, t.isEnd = false →
      Lexeme t.kind t.lexeme.toList := by
  refine ⟨fun ws last hwords hgaps hne hlast => ?_, ?_⟩
  · have hscan := Word.scanFrom_joined hlast ws hwords hgaps hne 0
    have htokens := tokenize_eq_ok_iff (String.ofList (Word.joined ws last)) (Word.joinedTokens 0 ws)
    rw [Scan.ofText, String.toList_ofList] at htokens
    exact htokens.mpr hscan
  · intro source ts h t ht hend
    exact lexeme_of_mem_tokenize h ht hend

/-- Words of all classes, with comments, a tab and a no-break space in front of
them. -/
def commentedWords : List (List Char × Word) :=
  [(['#', 'é', '\r', '\u00a0'], ⟨['l', 'e', 't'], .keyword⟩),
   (['\t'], ⟨['x', '2'], .identifier⟩), (['#', '\n'], ⟨['.', '5'], .float⟩),
   ([' '], ⟨['.'], .stray⟩), (['\n'], ⟨['-'], .symbol⟩), ([' ', ' '], ⟨['0', '7'], .int⟩)]

/-- The words with a comment behind the last one that the source ends in. -/
theorem tokenize_joined_commented :
    tokenize "#é\r\u00a0let\tx2#\n.5 .\n-  07#" =
      .ok [⟨"let", .keyword, ⟨6, 9⟩⟩, ⟨"x2", .identifier, ⟨10, 12⟩⟩, ⟨".5", .float, ⟨14, 16⟩⟩,
        ⟨".", .stray, ⟨17, 18⟩⟩, ⟨"-", .symbol, ⟨19, 20⟩⟩, ⟨"07", .int, ⟨22, 24⟩⟩,
        .endOfInput 25] := by
  have hwords : ∀ p ∈ commentedWords, Lexeme p.2.kind p.2.chars := by
    simp only [commentedWords, List.forall_mem_cons, List.not_mem_nil, false_implies,
      implies_true, and_true]
    refine ⟨.keyword (by decide), .identifier (by decide) (List.all_eq_true.mp (by decide))
      (by decide), ?_, .stray, .symbol (by decide),
      .int (by decide) (List.all_eq_true.mp (by decide))⟩
    show Lexeme .float ([] ++ '.' :: ['5'])
    exact .float (by decide) (by simp) (List.all_eq_true.mp (by decide))
  have hgaps : ∀ p ∈ commentedWords, Trivia p.2.chars p.1 := by
    simp only [commentedWords, List.forall_mem_cons, List.not_mem_nil, false_implies,
      implies_true, and_true]
    refine ⟨?_, .blank (by decide) .nil, ?_, .blank (by decide) .nil, .blank (by decide) .nil,
      .blank (by decide) (.blank (by decide) .nil)⟩
    · show Trivia _ ('#' :: (['é'] ++ ['\r', '\u00a0']))
      exact .comment (by simp [isLineEnd]) (by rintro _ ⟨⟩; decide)
        (.blank (by decide) (.blank (by decide) .nil))
    · show Trivia _ ('#' :: ([] ++ ['\n']))
      exact .comment (by simp) (by rintro _ ⟨⟩; decide) (.blank (by decide) .nil)
  have hlast : Trivia [] ['#'] := by
    show Trivia [] ('#' :: ([] ++ []))
    exact .comment (by simp) (by rintro _ ⟨⟩) .nil
  exact tokenize_joined.1 commentedWords ['#'] hwords hgaps (by decide) hlast

end TensorLet
