import TensorLet.Numeric.Decimal
import TensorLet.Proofs.Token.Layout

/-!
# Pieces and their places

Every piece of a source stands somewhere in its text, and the pieces stand one
after the other. What a piece is made of depends on its class: a symbol is one
character, and a number is digits that can be read.

* `pieces`: the tokens and errors of a source with its end behind them.
* `tokenize_eq_error_iff`: the error of a source is the first of its pieces.
* `pieces_pairwise`: no piece is empty, and none starts before another one stops.
* `Token.StandsIn`: where in a source the text of a token is.
-/

namespace TensorLet

/-! ## The first error -/

/-- A sequence of results fails where one of its parts does. -/
theorem except_bind_eq_error {ε α β : Type} {x : Except ε α} {f : α → Except ε β} {e : ε} :
    (x >>= f) = .error e ↔ x = .error e ∨ ∃ a, x = .ok a ∧ f a = .error e := by
  cases x with
  | error e' => simp [bind, Except.bind]
  | ok a => simp [bind, Except.bind]

/-- Results that cannot be collected fail with the first error among them. -/
theorem mapM_id_eq_error_iff {ε α : Type} (e : ε) : ∀ items : List (Except ε α),
    items.mapM id = .error e ↔ ∃ (as : List α) (rest : List (Except ε α)),
      items = as.map .ok ++ .error e :: rest := by
  intro items
  induction items with
  | nil => simp [pure, Except.pure]
  | cons item items ih =>
    rw [List.mapM_cons]
    constructor
    · intro h
      rcases except_bind_eq_error.mp h with rfl | ⟨a, rfl, hrest⟩
      · exact ⟨[], items, rfl⟩
      · rcases except_bind_eq_error.mp hrest with hrest | ⟨as, -, hpure⟩
        · obtain ⟨as, rest, rfl⟩ := ih.mp hrest
          exact ⟨a :: as, rest, rfl⟩
        · cases hpure
    · rintro ⟨as, rest, h⟩
      cases as with
      | nil =>
        cases h
        rfl
      | cons a as =>
        cases h
        refine except_bind_eq_error.mpr (.inr ⟨a, rfl, ?_⟩)
        exact except_bind_eq_error.mpr (.inl (ih.mpr ⟨as, rest, rfl⟩))

/-- The tokens and errors of a source in order, and its end behind them. -/
def pieces (source : String) : List (Except Error Token) :=
  (Scan.ofText source).items ++ [.ok (.endOfInput (byteLength source.toList))]

/-- A source has its pieces for tokens when all of them are. -/
theorem pieces_eq_of_tokenize {source : String} {ts : List Token} (h : tokenize source = .ok ts) :
    pieces source = ts.map .ok := by
  unfold tokenize at h
  obtain ⟨us, hus, hts⟩ := except_bind_eq_ok.mp h
  cases hts
  rw [pieces, (mapM_id_eq_ok_iff _ us).mp hus, List.map_append]
  rfl

/-- A source has no tokens when one of its pieces is an error, and the first of
them is reported. -/
theorem tokenize_eq_error_iff (source : String) (e : Error) :
    tokenize source = .error e ↔ ∃ ts : List Token, ts.map .ok ++ [.error e] <+: pieces source := by
  have hmapM : tokenize source = .error e ↔ (Scan.ofText source).items.mapM id = .error e := by
    unfold tokenize
    simp only [except_bind_eq_error, pure, Except.pure, reduceCtorEq, and_false, exists_false,
      or_false]
  rw [hmapM, mapM_id_eq_error_iff]
  constructor
  · rintro ⟨ts, rest, h⟩
    refine ⟨ts, rest ++ [.ok (.endOfInput (byteLength source.toList))], ?_⟩
    rw [pieces, h]
    simp
  · rintro ⟨ts, rest, h⟩
    -- The last piece is no error, so it is behind this one.
    rcases List.eq_nil_or_concat rest with rfl | ⟨rest, last, rfl⟩
    · rw [List.append_nil] at h
      cases (List.append_inj' h rfl).2
    · rw [pieces, List.concat_eq_append, ← List.append_assoc] at h
      refine ⟨ts, rest, ?_⟩
      rw [← (List.append_inj' h rfl).1]
      simp

/-- The tokens in front of the first error of a source are those in front of any
piece that stands before it. -/
theorem isPrefix_of_isPrefix_pieces {source : String} {ts us : List Token} {e : Error}
    (hus : us.map .ok <+: pieces source) (hts : ts.map .ok ++ [.error e] <+: pieces source) :
    us.map (.ok : Token → Except Error Token) <+: ts.map .ok := by
  rcases List.prefix_or_prefix_of_prefix hus hts with h | h
  · rcases List.prefix_concat_iff.mp h with h | h
    · have hmem : Except.error e ∈ us.map (.ok : Token → Except Error Token) := by
        rw [h]
        exact List.mem_append_right _ List.mem_cons_self
      simp at hmem
    · exact h
  · have hmem := h.subset (List.mem_append_right _ List.mem_cons_self)
    simp at hmem

/-- There is one first error. -/
theorem first_error_unique {source : String} {ts us : List Token} {e e' : Error}
    (h : ts.map .ok ++ [.error e] <+: pieces source)
    (h' : us.map .ok ++ [.error e'] <+: pieces source) : e = e' := by
  have htokenize := (tokenize_eq_error_iff source e).mpr ⟨ts, h⟩
  rw [(tokenize_eq_error_iff source e').mpr ⟨us, h'⟩] at htokenize
  cases htokenize
  rfl

/-! ## Order -/

/-- The span is not empty, and `t` starts behind it. -/
def Span.Precedes (s t : Span) : Prop := s.start < s.stop ∧ s.stop ≤ t.start

theorem Layout.pairwise {offset : Nat} {cs : List Char} {items : List (Except Error Token)}
    (H : Layout offset cs items) :
    (items ++ [Except.ok (Token.endOfInput (offset + byteLength cs))]).Pairwise
        (fun a b => (itemSpan a).Precedes (itemSpan b)) ∧
      ∀ item ∈ items ++ [.ok (.endOfInput (offset + byteLength cs))],
        offset ≤ (itemSpan item).start := by
  induction H with
  | done _ =>
    refine ⟨List.pairwise_singleton _ _, fun item hitem => ?_⟩
    rw [List.mem_singleton.mp hitem]
    exact Nat.le_add_right _ _
  | @piece offset gap text rest item items _ hne hreports _ ih =>
    have hsize : offset + byteLength (gap ++ (text ++ rest)) =
        offset + byteLength gap + byteLength text + byteLength rest := by
      simp only [byteLength_append]
      omega
    have hpos := byteLength_pos hne
    rw [hsize, List.cons_append]
    refine ⟨List.pairwise_cons.mpr ⟨fun later hlater => ?_, ih.1⟩, fun later hlater => ?_⟩
    · have hle := ih.2 later hlater
      rw [hreports.span]
      exact ⟨Nat.lt_add_of_pos_right hpos, hle⟩
    · rcases List.mem_cons.mp hlater with rfl | hlater
      · rw [hreports.span]
        exact Nat.le_add_right _ _
      · have hle := ih.2 later hlater
        omega

/-- The pieces of a source stand one after the other, and none but the end is
empty. -/
theorem pieces_pairwise (source : String) :
    (pieces source).Pairwise fun a b => (itemSpan a).Precedes (itemSpan b) := by
  have h := (scanFrom_layout 0 source.toList).pairwise.1
  rwa [Nat.zero_add] at h

/-! ## Spelling -/

/-- What the piece at the front of a text can be. -/
inductive Piece.Spelling (cs : List Char) : Piece → Prop
  | character {c : Char} : startsToken c = false →
      Spelling cs ⟨[c], .error (.unexpectedCharacter c)⟩
  | runsInto {run : List Char} {c : Char} : LongestNumeric run cs → (∃ d ∈ run, d.isDigit = true) →
      isWordStart c = true → Spelling cs ⟨run ++ [c], .error (.runsInto (String.ofList run) c)⟩
  | number {run : List Char} {kind : TokenKind} : LongestNumeric run cs →
      (∃ d ∈ run, d.isDigit = true) → kind = .int ∨ kind = .float → Spelling cs ⟨run, .ok kind⟩
  | symbol {c : Char} : Spelling cs ⟨[c], .ok .symbol⟩
  | other {run : List Char} {kind : TokenKind} : kind ∈ [.stray, .keyword, .identifier] →
      Spelling cs ⟨run, .ok kind⟩

theorem Piece.first_spelling (c : Char) (cs : List Char) : Spelling (c :: cs) (first c cs) := by
  unfold first
  split
  next =>
    unfold number
    extract_lets run
    have hlongest : LongestNumeric run (c :: cs) := numberRun_longest (c :: cs)
    split
    next hdigit =>
      split
      next d hd =>
        exact .runsInto hlongest (List.any_eq_true.mp hdigit) (Option.filter_eq_some_iff.mp hd).2
      next =>
        refine .number hlongest (List.any_eq_true.mp hdigit) ?_
        split
        · exact .inr rfl
        · exact .inl rfl
    next => exact .other (by simp)
  next hnumber =>
    split
    next => exact .symbol
    next hsymbol =>
      split
      next =>
        refine .other ?_
        split <;> simp
      next hword =>
        refine .character ?_
        simp only [startsToken, hnumber, hsymbol, hword, Bool.or_false]

/-- A numeric run is digits, or digits on both sides of a point. -/
theorem IsNumeric.isDigit_or_point {run : List Char} (h : IsNumeric run) :
    (∀ c ∈ run, c.isDigit = true) ∨ ∃ whole fraction, run = whole ++ '.' :: fraction ∧
      (∀ c ∈ whole, c.isDigit = true) ∧ ∀ c ∈ fraction, c.isDigit = true := by
  obtain ⟨hmem, hcount⟩ := h
  by_cases hpoint : '.' ∈ run
  · obtain ⟨whole, fraction, rfl⟩ := List.append_of_mem hpoint
    rw [List.count_append, List.count_cons_self] at hcount
    have hwhole : '.' ∉ whole := List.count_eq_zero.mp (by omega)
    have hfraction : '.' ∉ fraction := List.count_eq_zero.mp (by omega)
    refine .inr ⟨whole, fraction, rfl, fun c hc => ?_, fun c hc => ?_⟩
    · exact (hmem c (by simp [hc])).resolve_right (ne_of_mem_of_not_mem hc hwhole)
    · exact (hmem c (by simp [hc])).resolve_right (ne_of_mem_of_not_mem hc hfraction)
  · exact .inl fun c hc => (hmem c hc).resolve_right (ne_of_mem_of_not_mem hc hpoint)

/-- A numeric run with a digit in it can be read. -/
theorem exists_decimal_of_isNumeric {run : List Char} (h : IsNumeric run)
    (hdigit : ∃ d ∈ run, d.isDigit = true) : ∃ d, Decimal.ofChars? run = some d := by
  obtain ⟨d, hd, hdigit⟩ := hdigit
  rcases h.isDigit_or_point with hall | ⟨whole, fraction, rfl, hwhole, hfraction⟩
  · exact ⟨_, Decimal.ofChars?_of_isDigit (List.ne_nil_of_mem hd) hall⟩
  · cases whole with
    | cons c whole => exact ⟨_, Decimal.ofChars?_append (List.cons_ne_nil c whole) hwhole hfraction⟩
    | nil =>
      -- With nothing before the point, the digit is behind it.
      have hne : fraction ≠ [] := by
        rintro rfl
        rw [List.mem_singleton.mp hd] at hdigit
        cases hdigit
      refine ⟨_, if_pos ⟨?_, ?_⟩⟩
      · simpa using hne
      · simpa using hfraction

/-! ## What stands in the text -/

/-- Every item of a text is that of the piece at its place. -/
theorem exists_place_of_mem_scanFrom {offset : Nat} {cs : List Char} {item : Except Error Token}
    (h : item ∈ scanFrom offset cs) : ∃ before c more, before ++ c :: more = cs ∧
      startsGap c = false ∧ (Piece.first c more).item (offset + byteLength before) = item := by
  fun_induction scanFrom offset cs with
  | case1 offset cs skipped hskip => cases h
  | case2 offset cs skipped c more hskip start piece ih =>
    have hcs := skipTrivia_append false cs
    rw [hskip] at hcs
    rcases List.mem_cons.mp h with rfl | h
    · exact ⟨skipped, c, more, hcs, startsGap_of_skipTrivia hskip, rfl⟩
    · obtain ⟨before, d, rest, hrest, hd, hitem⟩ := ih h
      refine ⟨skipped ++ (piece.text ++ before), d, rest, ?_, hd, ?_⟩
      · rw [← hcs, ← Piece.text_append_rest c more, ← hrest]
        simp only [List.append_assoc, piece]
      · rw [← hitem]
        simp only [byteLength_append, start, Nat.add_assoc]

/-- The text of the token is in the source, at its span. The end of the source has
no text and nothing behind it. -/
structure Token.StandsIn (source : String) (t : Token) (before after : List Char) : Prop where
  text : source.toList = before ++ (t.lexeme.toList ++ after)
  span : t.span = ⟨byteLength before, byteLength before + byteLength t.lexeme.toList⟩
  isEnd : t.isEnd = true → t.lexeme.toList = [] ∧ after = []

/-- Every token among the pieces stands in the source. -/
theorem exists_standsIn {source : String} {t : Token} (h : .ok t ∈ pieces source) :
    ∃ before after, t.StandsIn source before after := by
  rcases List.mem_append.mp h with h | h
  · obtain ⟨before, c, more, hcs, hc, hitem⟩ := exists_place_of_mem_scanFrom h
    have hreports := Piece.reports hc more (0 + byteLength before)
    rw [hitem, Nat.zero_add] at hreports
    obtain ⟨hlexeme, hend⟩ := hreports.token t rfl
    refine ⟨before, Piece.rest c more, ?_, ?_, ?_⟩
    · rw [hlexeme, String.toList_ofList, Piece.text_append_rest, hcs]
    · rw [hlexeme, String.toList_ofList]
      exact hreports.span
    · rw [hend]
      intro hend
      cases hend
  · cases List.mem_singleton.mp h
    refine ⟨source.toList, [], ?_, rfl, fun _ => ⟨rfl, rfl⟩⟩
    exact (List.append_nil _).symm

/-- Every error among the pieces is about the text at its span. -/
theorem exists_place_of_error {source : String} {e : Error} (h : .error e ∈ pieces source) :
    ∃ before text after, source.toList = before ++ (text ++ after) ∧
      e.span = ⟨byteLength before, byteLength before + byteLength text⟩ ∧
      Piece.Spelling (text ++ after) ⟨text, .error e.fault⟩ := by
  rcases List.mem_append.mp h with h | h
  · obtain ⟨before, c, more, hcs, hc, hitem⟩ := exists_place_of_mem_scanFrom h
    have hspan := (Piece.reports hc more (0 + byteLength before)).span
    rw [hitem, Nat.zero_add] at hspan
    have hspelling := Piece.first_spelling c more
    refine ⟨before, (Piece.first c more).text, Piece.rest c more, ?_, hspan, ?_⟩
    · rw [Piece.text_append_rest, hcs]
    · rw [Piece.text_append_rest, ← Piece.item_eq_error hitem]
      exact hspelling
  · cases List.mem_singleton.mp h

/-- The spelling of a token among the pieces. -/
theorem exists_spelling_of_token {source : String} {t : Token} (h : .ok t ∈ pieces source)
    (hend : t.isEnd = false) : ∃ cs, Piece.Spelling cs ⟨t.lexeme.toList, .ok t.kind⟩ := by
  rcases List.mem_append.mp h with h | h
  · obtain ⟨before, c, more, -, -, hitem⟩ := exists_place_of_mem_scanFrom h
    obtain ⟨hkind, hlexeme⟩ := Piece.item_eq_ok hitem
    refine ⟨c :: more, ?_⟩
    rw [hlexeme, String.toList_ofList, ← hkind]
    exact Piece.first_spelling c more
  · cases List.mem_singleton.mp h
    cases hend

/-- A symbol is one character. -/
theorem toList_lexeme_of_isSymbol {source : String} {t : Token} {c : Char}
    (h : .ok t ∈ pieces source) (ht : t.isSymbol c = true) : t.lexeme.toList = [c] := by
  simp only [Token.isSymbol, Bool.and_eq_true, decide_eq_true_eq] at ht
  obtain ⟨hkind, hhead⟩ := ht
  obtain ⟨cs, hspelling⟩ := exists_spelling_of_token h (by simp [Token.isEnd, hkind])
  rw [hkind] at hspelling
  generalize t.lexeme.toList = text at hspelling hhead
  cases hspelling with
  | number _ _ hk => simp at hk
  | symbol =>
    cases hhead
    rfl
  | other hk => simp at hk

/-- A number can be read. -/
theorem exists_decimal_of_isNumber {source : String} {t : Token} (h : .ok t ∈ pieces source)
    (ht : t.isNumber = true) : ∃ d, Decimal.ofChars? t.lexeme.toList = some d := by
  simp only [Token.isNumber, Bool.or_eq_true, decide_eq_true_eq] at ht
  have hend : t.isEnd = false := by
    rcases ht with hk | hk <;> simp [Token.isEnd, hk]
  obtain ⟨cs, hspelling⟩ := exists_spelling_of_token h hend
  generalize t.kind = kind at hspelling ht
  generalize t.lexeme.toList = text at hspelling ⊢
  cases hspelling with
  | number hlongest hdigit _ => exact exists_decimal_of_isNumeric hlongest.isNumeric hdigit
  | symbol => simp at ht
  | other hk => rcases ht with rfl | rfl <;> simp at hk

end TensorLet
