import Mathlib.Data.List.TakeWhile
import Mathlib.Tactic.ByContra
import TensorLet.Proofs.Token.Scan
import TensorLet.Token.Cursor

/-!
# Where the pieces of a source stand

A source is a sequence of pieces with gaps before, between and behind them. The
gaps are blanks and comments, and a piece is a token or a lexical error. Scanning
loses nothing of the source and takes nothing twice: behind an error it goes on
where the error ends.

* `Span.slice?`: the characters between two byte offsets, if both stand between
  characters.
* `Trivia`, `inAlphabet`, `Misspelling`: what a gap is, and which texts are errors, said
  without the functions that scan them.
* `Piece.misspelling_iff`: a piece is an error exactly when it is misspelled.
* `Layout`, `scanFrom_layout`: gaps and pieces of a text in order.
* `scans_cover_source`: what the scans of a cursor find, one after the other.
-/

namespace TensorLet

/-! ## Slices -/

/-- What is left of a text behind its first `n` bytes, if these end between two
characters. -/
def dropBytes : Nat → List Char → Option (List Char)
  | 0, cs => some cs
  | _ + 1, [] => none
  | n + 1, c :: cs => if c.utf8Size ≤ n + 1 then dropBytes (n + 1 - c.utf8Size) cs else none

/-- The first `n` bytes of a text, if these end between two characters. -/
def takeBytes : Nat → List Char → Option (List Char)
  | 0, _ => some []
  | _ + 1, [] => none
  | n + 1, c :: cs =>
    if c.utf8Size ≤ n + 1 then (takeBytes (n + 1 - c.utf8Size) cs).map (c :: ·) else none

/-- The characters of a text inside a span, if it starts and stops between
characters. -/
def Span.slice? (s : Span) (cs : List Char) : Option (List Char) :=
  (dropBytes s.start cs).bind (takeBytes s.length)

/-- A character takes at least one byte. -/
theorem byteLength_pos {cs : List Char} (h : cs ≠ []) : 0 < byteLength cs := by
  cases cs with
  | nil => exact absurd rfl h
  | cons c cs =>
    have := c.utf8Size_pos
    rw [byteLength_cons]
    omega

theorem dropBytes_byteLength (cs ds : List Char) :
    dropBytes (byteLength cs) (cs ++ ds) = some ds := by
  induction cs with
  | nil => rw [byteLength_nil, List.nil_append, dropBytes]
  | cons c cs ih =>
    obtain ⟨k, hk⟩ : ∃ k, c.utf8Size + byteLength cs = k + 1 :=
      ⟨c.utf8Size + byteLength cs - 1, by have := c.utf8Size_pos; omega⟩
    rw [byteLength_cons, List.cons_append, hk, dropBytes, if_pos (by omega),
      show k + 1 - c.utf8Size = byteLength cs by omega, ih]

theorem takeBytes_byteLength (cs ds : List Char) :
    takeBytes (byteLength cs) (cs ++ ds) = some cs := by
  induction cs with
  | nil => rw [byteLength_nil, takeBytes]
  | cons c cs ih =>
    obtain ⟨k, hk⟩ : ∃ k, c.utf8Size + byteLength cs = k + 1 :=
      ⟨c.utf8Size + byteLength cs - 1, by have := c.utf8Size_pos; omega⟩
    rw [byteLength_cons, List.cons_append, hk, takeBytes, if_pos (by omega),
      show k + 1 - c.utf8Size = byteLength cs by omega, ih, Option.map_some]

theorem slice?_append (before text after : List Char) :
    Span.slice? ⟨byteLength before, byteLength before + byteLength text⟩
      (before ++ (text ++ after)) = some text := by
  rw [Span.slice?, dropBytes_byteLength, Option.bind_some, Span.length, Nat.add_sub_cancel_left,
    takeBytes_byteLength]

/-! ## Gaps -/

/-- Blanks and comments in front of `rest`. A comment runs up to the end of its
line, which is not part of it, or up to the end of the text. -/
inductive Trivia (rest : List Char) : List Char → Prop
  | nil : Trivia rest []
  | blank {c : Char} {cs : List Char} : isBlank c = true → Trivia rest cs → Trivia rest (c :: cs)
  | comment {text cs : List Char} : (∀ c ∈ text, isLineEnd c = false) →
      (∀ c, (cs ++ rest).head? = some c → isLineEnd c = true) → Trivia rest cs →
      Trivia rest ('#' :: (text ++ cs))

/-- True of the characters that a gap can start with. -/
def startsGap (c : Char) : Bool := isBlank c || c = '#'

theorem startsGap_eq_false_iff {c : Char} : startsGap c = false ↔ isBlank c = false ∧ c ≠ '#' := by
  rw [startsGap, Bool.or_eq_false_iff, decide_eq_false_iff_not]

theorem isBlank_of_isLineEnd {c : Char} (h : isLineEnd c = true) : isBlank c = true := by
  simp only [isLineEnd, Bool.or_eq_true, decide_eq_true_eq] at h
  rcases h with rfl | rfl <;> decide

/-- What is skipped is blanks and comments. When the text starts inside a comment,
this comment comes first. -/
theorem skipTrivia_trivia (inComment : Bool) (cs : List Char) :
    ∃ text gap, (skipTrivia inComment cs).1 = text ++ gap ∧ (∀ c ∈ text, isLineEnd c = false) ∧
      (inComment = false → text = []) ∧
      (inComment = true → ∀ c, (gap ++ (skipTrivia inComment cs).2).head? = some c →
        isLineEnd c = true) ∧
      Trivia (skipTrivia inComment cs).2 gap := by
  fun_induction skipTrivia inComment cs with
  | case1 inComment => exact ⟨[], [], rfl, by simp, fun _ => rfl, by simp, .nil⟩
  | case2 inComment c cs hc skipped rest heq ih =>
    rw [heq] at ih
    obtain ⟨text, gap, rfl, htext, hnil, hhead, hgap⟩ := ih
    cases inComment with
    | false =>
      rw [hnil rfl] at heq ⊢
      exact ⟨[], c :: gap, rfl, by simp, fun _ => rfl, by simp, .blank (by simpa using hc) hgap⟩
    | true =>
      -- The comment goes on with this character, or ends before it.
      cases hend : isLineEnd c with
      | false =>
        rw [hend] at hhead
        refine ⟨c :: text, gap, rfl, ?_, by simp, fun _ => hhead rfl, hgap⟩
        intro d hd
        rcases List.mem_cons.mp hd with rfl | hd
        · exact hend
        · exact htext d hd
      | true =>
        rw [hend] at hnil
        rw [hnil rfl]
        refine ⟨[], c :: gap, rfl, by simp, by simp, ?_, .blank (isBlank_of_isLineEnd hend) hgap⟩
        intro _ d hd
        cases hd
        exact hend
  | case3 inComment cs skipped rest heq hc ih =>
    rw [heq] at ih
    obtain ⟨text, gap, rfl, htext, -, hhead, hgap⟩ := ih
    have hout : inComment = false := by
      cases inComment
      · rfl
      · simp at hc
    refine ⟨[], '#' :: (text ++ gap), rfl, by simp, fun _ => rfl, by simp [hout], ?_⟩
    exact .comment htext (hhead rfl) hgap
  | case4 inComment c cs hc hne =>
    have hout : inComment = false := by
      cases inComment
      · rfl
      · simp at hc
    exact ⟨[], [], rfl, by simp, fun _ => rfl, by simp [hout], .nil⟩

/-! ## Misspelled pieces -/

/-- True of the characters that a token can start with. -/
def startsToken (c : Char) : Bool := c.isDigit || c = '.' || isSymbolChar c || isWordStart c

/-- The alphabet: the characters that a token or a gap can start with. All others stand in
comments only. -/
def inAlphabet (c : Char) : Bool := startsToken c || startsGap c

/-- Digits with at most one point among them. -/
def IsNumeric (run : List Char) : Prop :=
  (∀ c ∈ run, c.isDigit = true ∨ c = '.') ∧ run.count '.' ≤ 1

/-- The longest numeric run at the front of a text. -/
structure LongestNumeric (run text : List Char) : Prop where
  isPrefix : run <+: text
  isNumeric : IsNumeric run
  longest : ∀ run', run' <+: text → IsNumeric run' → run'.length ≤ run.length

/-- The lexical errors at the front of a text: a character outside the alphabet, or a
longest numeric run with a digit in it and a letter directly behind it. -/
inductive Misspelling : List Char → List Char → Prop
  | character {c : Char} {rest : List Char} : inAlphabet c = false → Misspelling (c :: rest) [c]
  | runsInto {run rest : List Char} {c : Char} : LongestNumeric run (run ++ c :: rest) →
      (∃ d ∈ run, d.isDigit = true) → isWordStart c = true →
      Misspelling (run ++ c :: rest) (run ++ [c])

theorem LongestNumeric.unique {run run' text : List Char} (h : LongestNumeric run text)
    (h' : LongestNumeric run' text) : run = run' := by
  have hle := h'.longest run h.isPrefix h.isNumeric
  have hge := h.longest run' h'.isPrefix h'.isNumeric
  exact (List.prefix_of_prefix_length_le h.isPrefix h'.isPrefix hle).eq_of_length (by omega)

theorem count_point_takeWhile_isDigit (cs : List Char) :
    (cs.takeWhile Char.isDigit).count '.' = 0 := by
  refine List.count_eq_zero.mpr fun h => ?_
  exact absurd (List.mem_takeWhile_imp h) (by decide)

/-- Behind the longest run of digits stands none. -/
theorem isDigit_eq_false_of_dropWhile {cs more : List Char} {c : Char}
    (h : cs.dropWhile Char.isDigit = c :: more) : c.isDigit = false := by
  have hne : cs.dropWhile Char.isDigit ≠ [] := by simp [h]
  have := List.head_dropWhile_not Char.isDigit hne
  simpa [h] using this

theorem IsNumeric.of_isPrefix {run run' : List Char} (h : IsNumeric run) (hinitial : run' <+: run) :
    IsNumeric run' := by
  refine ⟨fun c hc => h.1 c (hinitial.subset hc), ?_⟩
  exact Nat.le_trans (hinitial.sublist.count_le '.') h.2

theorem numberRun_isNumeric (cs : List Char) : IsNumeric (numberRun cs) := by
  have hdigit : ∀ ds : List Char, ∀ c ∈ ds.takeWhile Char.isDigit, c.isDigit = true ∨ c = '.' :=
    fun ds c hc => .inl (List.mem_takeWhile_imp hc)
  unfold numberRun
  split
  next more _ =>
    refine ⟨fun c hc => ?_, ?_⟩
    · rcases List.mem_append.mp hc with hc | hc
      · exact hdigit cs c hc
      · rcases List.mem_cons.mp hc with rfl | hc
        · exact .inr rfl
        · exact hdigit more c hc
    · rw [List.count_append, List.count_cons_self, count_point_takeWhile_isDigit,
        count_point_takeWhile_isDigit]
  next =>
    refine ⟨hdigit cs, ?_⟩
    rw [count_point_takeWhile_isDigit]
    exact Nat.zero_le 1

/-- One more character makes the number run of a text no number. -/
theorem not_isNumeric_of_numberRun {cs more : List Char} {c : Char}
    (h : numberRun cs ++ c :: more = cs) : ¬ IsNumeric (numberRun cs ++ [c]) := by
  rintro ⟨hmem, hcount⟩
  have hc : c.isDigit = true ∨ c = '.' := hmem c (by simp)
  have hsplit : cs.takeWhile Char.isDigit ++ cs.dropWhile Char.isDigit = cs :=
    List.takeWhile_append_dropWhile
  unfold numberRun at h hcount
  split at h
  next frac heq =>
    -- The run has its point, so a second one is too many.
    simp only [heq] at hcount
    have hrest : frac.dropWhile Char.isDigit = c :: more := by
      have hfrac : frac.takeWhile Char.isDigit ++ frac.dropWhile Char.isDigit = frac :=
        List.takeWhile_append_dropWhile
      have hcut := h.trans hsplit.symm
      rw [heq, List.append_assoc, List.cons_append] at hcut
      have htail := (List.cons.inj (List.append_cancel_left hcut)).2
      exact List.append_cancel_left (hfrac.trans htail.symm)
    have hnot := isDigit_eq_false_of_dropWhile hrest
    have hpoint : c = '.' := by simpa [hnot] using hc
    subst hpoint
    simp [List.count_append, count_point_takeWhile_isDigit] at hcount
  next hne =>
    have hrest : cs.dropWhile Char.isDigit = c :: more :=
      List.append_cancel_left (hsplit.trans h.symm)
    have hnot := isDigit_eq_false_of_dropWhile hrest
    have hpoint : c = '.' := by simpa [hnot] using hc
    subst hpoint
    exact hne more hrest

/-- The number run of a text is its longest numeric run. -/
theorem numberRun_longest (cs : List Char) : LongestNumeric (numberRun cs) cs := by
  obtain ⟨rest, hrest⟩ := Piece.numberRun_isPrefix cs
  refine ⟨⟨rest, hrest⟩, numberRun_isNumeric cs, ?_⟩
  intro run' hinitial hnumeric
  by_contra hlonger
  have hrun : numberRun cs <+: run' :=
    List.prefix_of_prefix_length_le ⟨rest, hrest⟩ hinitial (by omega)
  obtain ⟨tail, rfl⟩ := hrun
  cases tail with
  | nil => simp at hlonger
  | cons c tail =>
    obtain ⟨more, hmore⟩ := hinitial
    rw [List.append_assoc] at hmore
    refine not_isNumeric_of_numberRun hmore (hnumeric.of_isPrefix ⟨tail, ?_⟩)
    rw [List.append_assoc, List.singleton_append]

/-- What is misspelled at the front of a text, by its first character. -/
theorem misspelling_cons_iff {c : Char} {cs bad : List Char} : Misspelling (c :: cs) bad ↔
    inAlphabet c = false ∧ bad = [c] ∨
      (c.isDigit || c = '.') = true ∧ (numberRun (c :: cs)).any Char.isDigit = true ∧
        ∃ d, ((c :: cs).drop (numberRun (c :: cs)).length).head? = some d ∧
          isWordStart d = true ∧ bad = numberRun (c :: cs) ++ [d] := by
  constructor
  · intro h
    generalize htext : c :: cs = text at h
    cases h with
    | character hc =>
      cases htext
      exact .inl ⟨hc, rfl⟩
    | @runsInto run rest d hlongest hdigit hd =>
      have hrun := hlongest.unique (numberRun_longest _)
      refine .inr ⟨?_, ?_, d, ?_, hd, ?_⟩
      · -- The run has a digit, so the text starts with its first character.
        cases run with
        | nil => simp at hdigit
        | cons x run =>
          cases htext
          have := hlongest.isNumeric.1 c List.mem_cons_self
          simpa using this
      · rw [← hrun]
        simpa using hdigit
      · rw [← hrun, List.drop_left]
        rfl
      · rw [← hrun]
  · rintro (⟨hc, rfl⟩ | ⟨-, hdigit, d, hhead, hd, rfl⟩)
    · exact .character hc
    · obtain ⟨rest, hrest⟩ := List.head?_eq_some_iff.mp hhead
      have htext : numberRun (c :: cs) ++ d :: rest = c :: cs := by
        rw [← hrest]
        exact List.prefix_iff_eq_append.mp (numberRun_longest (c :: cs)).isPrefix
      have hlongest : LongestNumeric (numberRun (c :: cs)) (numberRun (c :: cs) ++ d :: rest) := by
        rw [htext]
        exact numberRun_longest (c :: cs)
      have := Misspelling.runsInto hlongest (List.any_eq_true.mp hdigit) hd
      rwa [htext] at this

/-- A piece that no gap starts is an error exactly when it is misspelled. -/
theorem Piece.misspelling_iff {c : Char} (hgap : startsGap c = false) (cs bad : List Char) :
    Misspelling (c :: cs) bad ↔
      (first c cs).text = bad ∧ ∃ fault, (first c cs).outcome = .error fault := by
  rw [misspelling_cons_iff, inAlphabet, hgap, Bool.or_false]
  unfold first
  split
  next hnumber =>
    have hstarts : startsToken c = true := by simp only [startsToken, hnumber, Bool.true_or]
    simp only [hstarts, hnumber, true_and, Bool.true_eq_false, false_and, false_or]
    unfold number
    extract_lets run
    split
    next hdigit =>
      split
      next d hd =>
        obtain ⟨hhead, hword⟩ := Option.filter_eq_some_iff.mp hd
        constructor
        · rintro ⟨-, d', hhead', -, rfl⟩
          rw [hhead] at hhead'
          cases hhead'
          exact ⟨rfl, _, rfl⟩
        · rintro ⟨rfl, -⟩
          exact ⟨hdigit, d, hhead, hword, rfl⟩
      next hd =>
        simp only [reduceCtorEq, exists_false, and_false, iff_false, not_and, not_exists]
        intro _ d hhead hword
        rw [Option.filter_eq_none_iff] at hd
        exact absurd hword (hd d hhead)
    next hdigit =>
      simp only [run] at hdigit
      simp [hdigit]
  next hnumber =>
    have hright : ∀ P : Prop, ¬ ((c.isDigit || decide (c = '.')) = true ∧ P) :=
      fun P h => hnumber h.1
    simp only [hright, or_false]
    split
    next hsymbol => simp [startsToken, hsymbol]
    next hsymbol =>
      split
      next hword => simp [startsToken, hword, word]
      next hword =>
        have hstarts : startsToken c = false := by
          simp only [startsToken, hnumber, hsymbol, hword, Bool.or_false]
        constructor
        · rintro ⟨-, rfl⟩
          exact ⟨rfl, _, rfl⟩
        · rintro ⟨rfl, -⟩
          exact ⟨hstarts, rfl⟩

/-! ## Pieces in order -/

/-- Where a token or an error stands. -/
def itemSpan : Except Error Token → Span
  | .ok t => t.span
  | .error e => e.span

/-- The item for the piece `text` at a byte offset, with `rest` behind it. The piece does
not start as a gap does, and the item is an error exactly when the piece is misspelled. -/
structure Reports (start : Nat) (text rest : List Char) (item : Except Error Token) : Prop where
  front : ∃ c, text.head? = some c ∧ startsGap c = false
  span : itemSpan item = ⟨start, start + byteLength text⟩
  token : ∀ t, item = .ok t → t.lexeme = String.ofList text ∧ t.isEnd = false
  error : ∀ bad, Misspelling (text ++ rest) bad ↔ text = bad ∧ ∃ e, item = .error e

/-- The items of a text that stands at a byte offset: each of them reports a piece
with a gap in front, and behind the last one is a gap only. -/
inductive Layout : Nat → List Char → List (Except Error Token) → Prop
  | done {offset : Nat} {gap : List Char} : Trivia [] gap → Layout offset gap []
  | piece {offset : Nat} {gap text rest : List Char} {item : Except Error Token}
      {items : List (Except Error Token)} : Trivia (text ++ rest) gap → text ≠ [] →
      Reports (offset + byteLength gap) text rest item →
      Layout (offset + byteLength gap + byteLength text) rest items →
      Layout offset (gap ++ (text ++ rest)) (item :: items)

/-- What follows the gap does not start as a gap does. -/
theorem startsGap_of_skipTrivia {cs skipped more : List Char} {c : Char}
    (h : skipTrivia false cs = (skipped, c :: more)) : startsGap c = false :=
  startsGap_eq_false_iff.mpr (head_skipTrivia h)

theorem skipTrivia_gap {cs skipped rest : List Char} (h : skipTrivia false cs = (skipped, rest)) :
    skipped ++ rest = cs ∧ Trivia rest skipped := by
  have happend := skipTrivia_append false cs
  obtain ⟨text, gap, hgap, -, hnil, -, htrivia⟩ := skipTrivia_trivia false cs
  simp only [h, hnil rfl, List.nil_append] at happend hgap htrivia
  exact ⟨happend, hgap ▸ htrivia⟩

/-- The item of a piece reports it. -/
theorem Piece.reports {c : Char} (hgap : startsGap c = false) (cs : List Char) (start : Nat) :
    Reports start (first c cs).text (rest c cs) ((first c cs).item start) := by
  have hfront : ∃ d, (first c cs).text.head? = some d ∧ startsGap d = false := by
    obtain ⟨d, text, htext⟩ := List.exists_cons_of_ne_nil (first_ne_nil c cs)
    have happend := text_append_rest c cs
    rw [htext] at happend ⊢
    obtain ⟨rfl, -⟩ := List.cons.inj happend
    exact ⟨d, rfl, hgap⟩
  have hne := Piece.first_outcome_ne c cs
  have herror := Piece.misspelling_iff hgap cs
  rw [← text_append_rest c cs] at herror
  generalize first c cs = piece at hfront hne herror ⊢
  unfold item
  extract_lets span
  split
  next kind hkind =>
    refine ⟨hfront, rfl, ?_, ?_⟩
    · intro t ht
      cases ht
      rw [hkind] at hne
      exact ⟨rfl, by simpa [Token.isEnd] using hne⟩
    · intro bad
      rw [herror bad]
      simp [hkind]
  next fault hfault =>
    refine ⟨hfront, rfl, ?_, ?_⟩
    · intro t ht
      cases ht
    · intro bad
      rw [herror bad]
      simp [hfault]

/-- Scanning lays a text out. -/
theorem scanFrom_layout (offset : Nat) (cs : List Char) :
    Layout offset cs (scanFrom offset cs) := by
  fun_induction scanFrom offset cs with
  | case1 offset cs skipped h =>
    obtain ⟨happend, hgap⟩ := skipTrivia_gap h
    rw [← happend, List.append_nil]
    exact .done hgap
  | case2 offset cs skipped c more h start piece ih =>
    obtain ⟨happend, hgap⟩ := skipTrivia_gap h
    have hreports := Piece.reports (startsGap_of_skipTrivia h) more start
    rw [← Piece.text_append_rest c more] at happend hgap
    rw [← happend]
    exact .piece hgap (Piece.first_ne_nil c more) hreports ih

namespace Layout

/-- Where the item before the `n`-th stops: at the offset of the text for the first
item. -/
def stopBefore : Nat → List (Except Error Token) → Nat → Nat
  | offset, _, 0 => offset
  | offset, [], _ + 1 => offset
  | _, item :: items, n + 1 => stopBefore (itemSpan item).stop items n

theorem stopBefore_succ {item : Except Error Token} : ∀ {items : List (Except Error Token)}
    {offset n : Nat}, items[n]? = some item →
    stopBefore offset items (n + 1) = (itemSpan item).stop := by
  intro items
  induction items with
  | nil => intro offset n h; simp at h
  | cons first items ih =>
    intro offset n h
    cases n with
    | zero =>
      cases h
      rw [stopBefore, stopBefore]
    | succ n =>
      rw [stopBefore]
      exact ih h

variable {offset : Nat} {cs : List Char} {items : List (Except Error Token)}

/-- Every piece has a character. -/
theorem length_le (H : Layout offset cs items) : items.length ≤ cs.length := by
  induction H with
  | done _ => exact Nat.zero_le _
  | piece _ hne _ _ ih =>
    have := List.length_pos_iff.mpr hne
    simp only [List.length_cons, List.length_append]
    omega

/-- The `n`-th item reports a piece that stands behind the items before it and a
gap. -/
theorem exists_piece (H : Layout offset cs items) : ∀ n item, items[n]? = some item →
    ∃ before gap text rest, before ++ (gap ++ (text ++ rest)) = cs ∧
      stopBefore offset items n = offset + byteLength before ∧ Trivia (text ++ rest) gap ∧
      text ≠ [] ∧ Reports (offset + byteLength before + byteLength gap) text rest item := by
  induction H with
  | done _ => intro n item h; simp at h
  | @piece offset gap text rest first items hgap hne hfirst _ ih =>
    intro n item h
    cases n with
    | zero =>
      cases h
      exact ⟨[], gap, text, rest, rfl, rfl, hgap, hne, hfirst⟩
    | succ n =>
      obtain ⟨before, gap', text', rest', rfl, hstop, hgap', hne', hreports⟩ := ih n item h
      have hoffset : offset + byteLength gap + byteLength text + byteLength before =
          offset + byteLength (gap ++ (text ++ before)) := by
        simp only [byteLength_append]
        omega
      refine ⟨gap ++ (text ++ before), gap', text', rest', ?_, ?_, hgap', hne', ?_⟩
      · simp only [List.append_assoc]
      · rw [stopBefore, hfirst.span, hstop, hoffset]
      · rwa [← hoffset]

/-- Behind the last item stands a gap. -/
theorem exists_end (H : Layout offset cs items) : ∃ before gap, before ++ gap = cs ∧
    stopBefore offset items items.length = offset + byteLength before ∧ Trivia [] gap := by
  induction H with
  | done hgap => exact ⟨[], _, rfl, rfl, hgap⟩
  | @piece offset gap text rest first items hgap hne hfirst _ ih =>
    obtain ⟨before, gap', rfl, hstop, hgap'⟩ := ih
    refine ⟨gap ++ (text ++ before), gap', ?_, ?_, hgap'⟩
    · simp only [List.append_assoc]
    · rw [List.length_cons, stopBefore, hfirst.span, hstop]
      simp only [byteLength_append]
      omega

end Layout

/-! ## Scans of a cursor -/

namespace Cursor

/-- The cursor on a source after a number of scans, failed ones included. -/
def afterScans (source : String) : Nat → Cursor
  | 0 => ⟨.endOfInput 0, (Scan.ofText source).items, (Scan.ofText source).size⟩
  | n + 1 => (afterScans source n).advance.2

/-- What the next scan finds: the token that the cursor moves to, or an error. -/
def scanned (c : Cursor) : Except Error Token :=
  match c.advance with
  | (.ok _, c') => .ok c'.current
  | (.error e, _) => .error e

/-- What is found after `n` scans of a source. -/
def scanAt (source : String) (n : Nat) : Except Error Token := (afterScans source n).scanned

theorem afterScans_eq (source : String) (n : Nat) :
    (afterScans source n).pending = (Scan.ofText source).items.drop n ∧
      (afterScans source n).size = byteLength source.toList := by
  induction n with
  | zero => exact ⟨rfl, rfl⟩
  | succ n ih =>
    rw [afterScans, size_advance, ih.2]
    refine ⟨?_, rfl⟩
    have htail : ∀ c : Cursor, c.advance.2.pending = c.pending.tail := by
      intro c
      unfold advance
      split <;> simp_all
    rw [htail, ih.1, List.tail_drop]

theorem scanned_eq (c : Cursor) : c.scanned = c.pending.head?.getD (.ok (.endOfInput c.size)) := by
  obtain ⟨current, pending, size⟩ := c
  match pending with
  | [] => rfl
  | .ok _ :: _ => rfl
  | .error _ :: _ => rfl

/-- The scans find the items of the source and then its end, again and again. -/
theorem scanAt_eq (source : String) (n : Nat) : scanAt source n =
    (Scan.ofText source).items[n]?.getD (.ok (.endOfInput (byteLength source.toList))) := by
  obtain ⟨hpending, hsize⟩ := afterScans_eq source n
  rw [scanAt, scanned_eq, hpending, hsize, List.head?_drop]

end Cursor

/-- The span of what is found after `n` scans of a source. -/
def spanAt (source : String) (n : Nat) : Span := itemSpan (Cursor.scanAt source n)

/-- Where the gap before the `n`-th piece of a source starts. -/
def gapStart (source : String) : Nat → Nat
  | 0 => 0
  | n + 1 => (spanAt source n).stop

/-- The first `count` scans of a source find its pieces, and all later ones its
end. -/
structure Covers (source : String) (count : Nat) : Prop where
  /-- No piece is the end of the source. -/
  isEnd_eq_false : ∀ n t, n < count → Cursor.scanAt source n = .ok t → t.isEnd = false
  /-- The end stands behind the last byte. -/
  scanAt_end : ∀ n, count ≤ n →
    Cursor.scanAt source n = .ok (.endOfInput (byteLength source.toList))
  /-- No piece is empty. -/
  start_lt_stop : ∀ n, n < count → (spanAt source n).start < (spanAt source n).stop
  /-- The pieces stand one after the other, and the end behind them. -/
  stop_le_start : ∀ m n, m < n → n ≤ count → (spanAt source m).stop ≤ (spanAt source n).start
  /-- A piece is the text inside its span, and starts with neither a blank nor a comment.
  If it is a token, the text is its lexeme; it is an error exactly when the text is
  misspelled at the front of what is left. -/
  piece : ∀ n, n < count → ∃ text rest, (spanAt source n).slice? source.toList = some text ∧
    dropBytes (spanAt source n).start source.toList = some (text ++ rest) ∧
    (∃ c, text.head? = some c ∧ isBlank c = false ∧ c ≠ '#') ∧
    (∀ t, Cursor.scanAt source n = .ok t → t.lexeme = String.ofList text) ∧
    ∀ bad, Misspelling (text ++ rest) bad ↔ text = bad ∧ ∃ e, Cursor.scanAt source n = .error e
  /-- Between two pieces, before the first and behind the last one are blanks and
  comments. -/
  gap : ∀ n, n ≤ count → ∃ gap rest,
    Span.slice? ⟨gapStart source n, (spanAt source n).start⟩ source.toList = some gap ∧
    dropBytes (spanAt source n).start source.toList = some rest ∧ Trivia rest gap

theorem gapStart_eq (source : String) : ∀ n, n ≤ (Scan.ofText source).items.length →
    gapStart source n = Layout.stopBefore 0 (Scan.ofText source).items n := by
  intro n hn
  cases n with
  | zero => rw [gapStart, Layout.stopBefore]
  | succ n =>
    have hget : (Scan.ofText source).items[n]? = some (Scan.ofText source).items[n] :=
      List.getElem?_eq_getElem hn
    rw [Layout.stopBefore_succ hget, gapStart, spanAt, Cursor.scanAt_eq, hget, Option.getD_some]

/-- A piece of a source with the gap in front of it. -/
theorem exists_piece_of_scanAt {source : String} {n : Nat}
    (hn : n < (Scan.ofText source).items.length) : ∃ before gap text rest,
    before ++ (gap ++ (text ++ rest)) = source.toList ∧ gapStart source n = byteLength before ∧
      Trivia (text ++ rest) gap ∧ text ≠ [] ∧
      Reports (byteLength before + byteLength gap) text rest (Cursor.scanAt source n) := by
  have hget := List.getElem?_eq_getElem hn
  obtain ⟨before, gap, text, rest, hcs, hstop, hgap, hne, hreports⟩ :=
    (scanFrom_layout 0 source.toList).exists_piece n _ hget
  rw [Nat.zero_add] at hstop hreports
  refine ⟨before, gap, text, rest, hcs, ?_, hgap, hne, ?_⟩
  · rw [gapStart_eq source n (Nat.le_of_lt hn)]
    exact hstop
  · rw [Cursor.scanAt_eq, hget, Option.getD_some]
    exact hreports

theorem scanAt_of_length_le {source : String} {n : Nat}
    (hn : (Scan.ofText source).items.length ≤ n) :
    Cursor.scanAt source n = .ok (.endOfInput (byteLength source.toList)) := by
  rw [Cursor.scanAt_eq, List.getElem?_eq_none hn, Option.getD_none]

/-- The gap in front of a piece, or of the end. -/
theorem exists_gap_of_scanAt {source : String} {n : Nat}
    (hn : n ≤ (Scan.ofText source).items.length) : ∃ before gap rest,
    before ++ (gap ++ rest) = source.toList ∧ gapStart source n = byteLength before ∧
      (spanAt source n).start = byteLength before + byteLength gap ∧ Trivia rest gap := by
  rcases Nat.lt_or_eq_of_le hn with hlt | heq
  · obtain ⟨before, gap, text, rest, hcs, hstart, hgap, -, hreports⟩ := exists_piece_of_scanAt hlt
    refine ⟨before, gap, text ++ rest, hcs, hstart, ?_, hgap⟩
    rw [spanAt, hreports.span]
  · obtain ⟨before, gap, hcs, hstop, hgap⟩ := (scanFrom_layout 0 source.toList).exists_end
    refine ⟨before, gap, [], by rw [List.append_nil, hcs], ?_, ?_, hgap⟩
    · rw [gapStart_eq source n hn, heq, ← Nat.zero_add (byteLength before)]
      exact hstop
    · rw [spanAt, scanAt_of_length_le (Nat.le_of_eq heq.symm), ← byteLength_append, hcs]
      rfl

/-- Scanning loses nothing of a source and takes nothing twice: at most as many
scans as it has characters find its pieces, in order and apart from each other,
and each gap around them is blanks and comments. -/
theorem scans_cover_source (source : String) : ∃ count, count ≤ source.length ∧
    Covers source count := by
  refine ⟨(Scan.ofText source).items.length, ?_, ?_⟩
  · rw [← String.length_toList]
    exact (scanFrom_layout 0 source.toList).length_le
  have hnonempty : ∀ n, n < (Scan.ofText source).items.length →
      (spanAt source n).start < (spanAt source n).stop := by
    intro n hn
    obtain ⟨before, gap, text, rest, -, -, -, hne, hreports⟩ := exists_piece_of_scanAt hn
    have := byteLength_pos hne
    rw [spanAt, hreports.span]
    exact Nat.lt_add_of_pos_right this
  refine ⟨?_, fun n hn => scanAt_of_length_le hn, hnonempty, ?_, ?_, ?_⟩
  · intro n t hn ht
    obtain ⟨before, gap, text, rest, -, -, -, -, hreports⟩ := exists_piece_of_scanAt hn
    exact (hreports.token t ht).2
  · -- A gap starts where the piece before it stops.
    intro m n hmn
    induction hmn with
    | refl =>
      intro hn
      obtain ⟨before, gap, rest, -, hgap, hstart, -⟩ := exists_gap_of_scanAt hn
      have hstop : (spanAt source m).stop = byteLength before := hgap
      omega
    | @step n _ ih =>
      intro hn
      obtain ⟨before, gap, rest, -, hgap, hstart, -⟩ := exists_gap_of_scanAt hn
      have hstop : (spanAt source n).stop = byteLength before := hgap
      have hle := ih (Nat.le_of_lt hn)
      have hlt := hnonempty n hn
      rw [Nat.succ_eq_add_one] at hstart ⊢
      omega
  · intro n hn
    obtain ⟨before, gap, text, rest, hcs, -, -, -, hreports⟩ := exists_piece_of_scanAt hn
    rw [← List.append_assoc] at hcs
    obtain ⟨c, hhead, hc⟩ := hreports.front
    rw [spanAt, hreports.span, ← hcs, ← byteLength_append]
    exact ⟨text, rest, slice?_append _ _ _, dropBytes_byteLength _ _,
      ⟨c, hhead, startsGap_eq_false_iff.mp hc⟩, fun t ht => (hreports.token t ht).1,
      hreports.error⟩
  · intro n hn
    obtain ⟨before, gap, rest, hcs, hgap, hstart, htrivia⟩ := exists_gap_of_scanAt hn
    refine ⟨gap, rest, ?_, ?_, htrivia⟩
    · rw [hgap, hstart, ← hcs]
      exact slice?_append _ _ _
    · rw [hstart, ← hcs, ← byteLength_append, ← List.append_assoc]
      exact dropBytes_byteLength _ _

end TensorLet
