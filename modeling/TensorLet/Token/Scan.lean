import TensorLet.Error
import TensorLet.Text.Blank

/-!
# Scanning

A source is cut into pieces: between blanks and comments, each piece is either
a token or a lexical error, and after an error scanning goes on behind it.

* Blank characters separate; `#` starts a comment that runs up to the end of
  its line.
* Numbers are digits with at most one point among them, so `3.14.5` is `3.14`
  and `.5`. A number directly before a letter is an error.
* Every symbol is one character, and words are ASCII letters, digits and
  underscores.

The cut loses nothing: `skipTrivia_append` and `Piece.text_append_rest` say
that what is taken and what is left are the text.
-/

namespace TensorLet

/-! ## Blanks and comments -/

/-- True of the characters that end a comment. -/
def isLineEnd (c : Char) : Bool := c = '\n' || c = '\r'

/-- Splits off the blanks and comments at the front. The flag says whether the
text starts inside a comment. -/
def skipTrivia : Bool → List Char → List Char × List Char
  | _, [] => ([], [])
  | inComment, c :: cs =>
    if inComment || isBlank c then
      let (skipped, rest) := skipTrivia (inComment && !isLineEnd c) cs
      (c :: skipped, rest)
    else if c = '#' then
      let (skipped, rest) := skipTrivia true cs
      (c :: skipped, rest)
    else
      ([], c :: cs)

theorem skipTrivia_append (inComment : Bool) (cs : List Char) :
    (skipTrivia inComment cs).1 ++ (skipTrivia inComment cs).2 = cs := by
  fun_induction skipTrivia inComment cs <;> simp_all

theorem length_skipTrivia_le (inComment : Bool) (cs : List Char) :
    (skipTrivia inComment cs).2.length ≤ cs.length := by
  have h := congrArg List.length (skipTrivia_append inComment cs)
  rw [List.length_append] at h
  omega

/-! ## Runs of characters -/

/-- True of the characters a word starts with. -/
def isWordStart (c : Char) : Bool := c.isAlpha || c = '_'

/-- True of the characters a word goes on with. -/
def isWordChar (c : Char) : Bool := c.isAlphanum || c = '_'

/-- The longest run of digits with at most one point at the front of `cs`. -/
def numberRun (cs : List Char) : List Char :=
  let whole := cs.takeWhile Char.isDigit
  match cs.dropWhile Char.isDigit with
  | '.' :: more => whole ++ '.' :: more.takeWhile Char.isDigit
  | _ => whole

/-- The longest run of word characters at the front of `cs`. -/
def wordRun (cs : List Char) : List Char := cs.takeWhile isWordChar

/-! ## Pieces -/

/-- The characters of one piece and what they are: a token of some class, or a
fault. -/
structure Piece where
  text : List Char
  outcome : Except Fault TokenKind

namespace Piece

/-- The piece at the front of a text that starts with a digit or a point. With
a letter directly behind its digits the run is no number, and the letter
belongs to the fault. -/
def number (cs : List Char) : Piece :=
  let run := numberRun cs
  if run.any Char.isDigit then
    match (cs.drop run.length).head?.filter isWordStart with
    | some c => ⟨run ++ [c], .error (.runsInto (String.ofList run) c)⟩
    | none => ⟨run, .ok (if run.contains '.' then .float else .int)⟩
  else
    ⟨run, .ok .stray⟩

/-- The piece at the front of a text that starts with a letter. -/
def word (cs : List Char) : Piece :=
  let run := wordRun cs
  ⟨run, .ok (if (Keyword.ofText? (String.ofList run)).isSome then .keyword else .identifier)⟩

/-- The piece at the front of `c :: cs`, which starts with neither a blank nor
a comment. -/
def first (c : Char) (cs : List Char) : Piece :=
  if c.isDigit || c = '.' then number (c :: cs)
  else if isSymbolChar c then ⟨[c], .ok .symbol⟩
  else if isWordStart c then word (c :: cs)
  else ⟨[c], .error (.unexpectedCharacter c)⟩

/-- The piece as a token or an error at a byte offset. -/
def item (p : Piece) (start : Nat) : Except Error Token :=
  let span : Span := ⟨start, start + byteLength p.text⟩
  match p.outcome with
  | .ok kind => .ok ⟨String.ofList p.text, kind, span⟩
  | .error fault => .error ⟨fault, span⟩

/-! ## A piece is a part of the text -/

theorem numberRun_isPrefix (cs : List Char) : numberRun cs <+: cs := by
  have h : cs.takeWhile Char.isDigit ++ cs.dropWhile Char.isDigit = cs :=
    List.takeWhile_append_dropWhile
  unfold numberRun
  split
  next more heq =>
    refine ⟨more.dropWhile Char.isDigit, ?_⟩
    rw [List.append_assoc, List.cons_append, List.takeWhile_append_dropWhile, ← heq, h]
  next => exact List.takeWhile_prefix _

theorem numberRun_ne_nil (c : Char) (cs : List Char) (h : (c.isDigit || c = '.') = true) :
    numberRun (c :: cs) ≠ [] := by
  unfold numberRun
  by_cases hd : c.isDigit = true
  · split <;> simp [hd]
  · have hc : c = '.' := by simpa [hd] using h
    simp [hc]

theorem number_isPrefix (cs : List Char) : (number cs).text <+: cs := by
  obtain ⟨rest, h⟩ := numberRun_isPrefix cs
  unfold number
  extract_lets run
  have hdrop : cs.drop run.length = rest := by
    rw [← h]; simp [run]
  split
  · split
    next c hc =>
      rw [hdrop] at hc
      cases rest with
      | nil => simp at hc
      | cons d ds =>
        have hd : d = c := by
          simp only [List.head?_cons, Option.filter_eq_some_iff, Option.some.injEq] at hc
          exact hc.1
        exact ⟨ds, by rw [← h, ← hd]; simp [run]⟩
    next => exact ⟨rest, h⟩
  · exact ⟨rest, h⟩

theorem number_ne_nil (c : Char) (cs : List Char) (h : (c.isDigit || c = '.') = true) :
    (number (c :: cs)).text ≠ [] := by
  have hrun := numberRun_ne_nil c cs h
  unfold number
  extract_lets run
  split
  · split
    · simp
    · exact hrun
  · exact hrun

theorem first_isPrefix (c : Char) (cs : List Char) : (first c cs).text <+: c :: cs := by
  unfold first
  split
  · exact number_isPrefix (c :: cs)
  · split
    · exact ⟨cs, rfl⟩
    · split
      · exact List.takeWhile_prefix _
      · exact ⟨cs, rfl⟩

theorem first_ne_nil (c : Char) (cs : List Char) : (first c cs).text ≠ [] := by
  unfold first
  split
  next h => exact number_ne_nil c cs h
  next =>
    split
    · simp
    · split
      next h =>
        have hc : isWordChar c = true := by
          simp only [isWordStart, isWordChar, Char.isAlphanum, Bool.or_eq_true] at h ⊢
          rcases h with h | h
          · exact .inl (.inl h)
          · exact .inr h
        simp [word, wordRun, hc]
      · simp

/-- What is left of `c :: cs` behind its first piece. -/
def rest (c : Char) (cs : List Char) : List Char := (c :: cs).drop (first c cs).text.length

theorem text_append_rest (c : Char) (cs : List Char) :
    (first c cs).text ++ rest c cs = c :: cs := by
  obtain ⟨ds, h⟩ := first_isPrefix c cs
  rw [rest, ← h, List.drop_left]

theorem length_rest_lt (c : Char) (cs : List Char) : (rest c cs).length < (c :: cs).length := by
  have h := congrArg List.length (text_append_rest c cs)
  have hpos := List.length_pos_iff.2 (first_ne_nil c cs)
  rw [List.length_append] at h
  omega

end Piece

/-! ## Whole sources -/

/-- Behind the piece that follows the trivia, less is left. -/
theorem length_rest_lt_of_skipTrivia {inComment : Bool} {cs skipped more : List Char} {c : Char}
    (h : skipTrivia inComment cs = (skipped, c :: more)) :
    (Piece.rest c more).length < cs.length := by
  have hle := length_skipTrivia_le inComment cs
  rw [h] at hle
  exact Nat.lt_of_lt_of_le (Piece.length_rest_lt c more) hle

/-- The tokens and errors of `cs` in order, `offset` being the byte at which it
stands in the source. -/
def scanFrom (offset : Nat) (cs : List Char) : List (Except Error Token) :=
  match _h : skipTrivia false cs with
  | (_, []) => []
  | (skipped, c :: more) =>
    let start := offset + byteLength skipped
    let piece := Piece.first c more
    piece.item start :: scanFrom (start + byteLength piece.text) (Piece.rest c more)
termination_by cs.length
decreasing_by exact length_rest_lt_of_skipTrivia _h

/-- All pieces of a source and its size in bytes, where its end stands. -/
structure Scan where
  items : List (Except Error Token)
  size : Nat

/-- Cuts a whole source. -/
def Scan.ofText (source : String) : Scan :=
  ⟨scanFrom 0 source.toList, byteLength source.toList⟩

/-- The tokens of a source and the end of input behind them, or its first
lexical error. -/
def tokenize (source : String) : Except Error (List Token) := do
  let scan := Scan.ofText source
  let tokens ← scan.items.mapM id
  return tokens ++ [Token.endOfInput scan.size]

end TensorLet
