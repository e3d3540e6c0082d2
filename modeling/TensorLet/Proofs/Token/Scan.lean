import TensorLet.Token.Scan

/-!
# Scanning step by step

What one step of scanning does at the front of a text, and what follows for
whole texts.

* `scanFrom_blank`, `scanFrom_cons`: a blank is skipped, and a piece is cut off.
* `isEnd_of_mem_scanFrom`: no token of a text is its end.
* `tokenize_eq_ok_iff`: a source has tokens exactly when all its pieces are.
* `scanFrom_spaced`: words that are tokens on their own scan to these tokens
  when each has a blank behind it.
-/

namespace TensorLet

/-! ## Results -/

/-- A sequence of results is there when its parts are. -/
theorem except_bind_eq_ok {ε α β : Type} {x : Except ε α} {f : α → Except ε β} {b : β} :
    (x >>= f) = .ok b ↔ ∃ a, x = .ok a ∧ f a = .ok b := by
  cases x with
  | error e => simp [bind, Except.bind]
  | ok a => simp [bind, Except.bind]

/-- Results that are all there can be collected, and no others. -/
theorem mapM_id_eq_ok_iff {ε α : Type} : ∀ (items : List (Except ε α)) (as : List α),
    items.mapM id = .ok as ↔ items = as.map .ok := by
  intro items
  induction items with
  | nil =>
    intro as
    cases as <;> simp [pure, Except.pure]
  | cons item items ih =>
    intro as
    rw [List.mapM_cons]
    simp only [except_bind_eq_ok, id_eq, ih, pure, Except.pure, Except.ok.injEq]
    constructor
    · rintro ⟨b, rfl, bs, rfl, rfl⟩
      rfl
    · intro h
      cases as with
      | nil => cases h
      | cons a as =>
        rw [List.map_cons, List.cons.injEq] at h
        exact ⟨a, h.1, as, h.2, rfl⟩

/-- A result that is there is no error. -/
theorem eq_ok_of_toOption {ε α : Type} {x : Except ε α} {a : α} (h : x.toOption = some a) :
    x = .ok a := by
  cases x with
  | error e => cases h
  | ok b =>
    cases h
    rfl

/-- A result that passes a test is there. -/
theorem exists_ok_of_any {ε α : Type} {x : Except ε α} {p : α → Bool}
    (h : x.toOption.any p = true) : ∃ a, x = .ok a ∧ p a = true := by
  cases x with
  | error e => cases h
  | ok a => exact ⟨a, rfl, h⟩

/-- A result whose error passes a test is that error. -/
theorem exists_error_of_test {ε α : Type} {x : Except ε α} {p : ε → Bool}
    (h : (match x with
      | .error e => p e
      | .ok _ => false) = true) : ∃ e, x = .error e ∧ p e = true := by
  cases x with
  | error e => exact ⟨e, rfl, h⟩
  | ok a => cases h

/-! ## Pieces and tokens -/

/-- No piece of a text is scanned as the end of the source. -/
theorem Piece.first_outcome_ne (c : Char) (cs : List Char) :
    (Piece.first c cs).outcome ≠ .ok .endOfInput := by
  unfold Piece.first
  split
  · unfold Piece.number
    extract_lets run
    split
    · split
      · simp
      · split <;> simp
    · simp
  · split
    · simp
    · split
      · unfold Piece.word
        extract_lets run
        split <;> simp
      · simp

theorem Piece.item_eq_ok {p : Piece} {start : Nat} {t : Token} (h : p.item start = .ok t) :
    p.outcome = .ok t.kind ∧ t.lexeme = String.ofList p.text := by
  unfold Piece.item at h
  extract_lets span at h
  split at h
  next kind hkind =>
    cases h
    exact ⟨hkind, rfl⟩
  next => cases h

theorem Piece.item_eq_error {p : Piece} {start : Nat} {e : Error} (h : p.item start = .error e) :
    p.outcome = .error e.fault := by
  unfold Piece.item at h
  extract_lets span at h
  split at h
  next => cases h
  next fault hfault =>
    cases h
    exact hfault

/-- A piece starts with neither a blank nor a comment. -/
theorem head_skipTrivia {inComment : Bool} {cs skipped more : List Char} {c : Char}
    (h : skipTrivia inComment cs = (skipped, c :: more)) : isBlank c = false ∧ c ≠ '#' := by
  fun_induction skipTrivia inComment cs generalizing skipped with
  | case1 => cases h
  | case2 inComment d ds hd skipped' rest heq ih =>
    cases h
    exact ih heq
  | case3 inComment ds skipped' rest heq hd ih =>
    cases h
    exact ih heq
  | case4 inComment d ds hd hne =>
    cases h
    simp only [Bool.or_eq_true, not_or, Bool.not_eq_true] at hd
    exact ⟨hd.2, hne⟩

/-- Every item of a text is that of some piece. -/
theorem exists_piece_of_mem_scanFrom {offset : Nat} {cs : List Char} {item : Except Error Token}
    (h : item ∈ scanFrom offset cs) : ∃ c more start, isBlank c = false ∧ c ≠ '#' ∧
      (Piece.first c more).item start = item := by
  fun_induction scanFrom offset cs with
  | case1 offset cs skipped hskip => cases h
  | case2 offset cs skipped c more hskip start piece ih =>
    rcases List.mem_cons.mp h with rfl | h
    · obtain ⟨hblank, hcomment⟩ := head_skipTrivia hskip
      exact ⟨c, more, start, hblank, hcomment, rfl⟩
    · exact ih h

theorem isEnd_of_mem_scanFrom (offset : Nat) (cs : List Char) :
    ∀ t, .ok t ∈ scanFrom offset cs → t.isEnd = false := by
  intro t ht
  obtain ⟨c, more, start, -, -, hitem⟩ := exists_piece_of_mem_scanFrom ht
  have hne := Piece.first_outcome_ne c more
  rw [(Piece.item_eq_ok hitem).1] at hne
  simpa [Token.isEnd] using hne

theorem tokenize_eq_ok_iff (source : String) (ts : List Token) :
    tokenize source = .ok (ts ++ [.endOfInput (byteLength source.toList)]) ↔
      (Scan.ofText source).items = ts.map .ok := by
  rw [← mapM_id_eq_ok_iff]
  unfold tokenize
  simp only [except_bind_eq_ok, pure, Except.pure, Except.ok.injEq]
  constructor
  · rintro ⟨us, hus, heq⟩
    rwa [← (List.append_inj' heq rfl).1]
  · intro h
    exact ⟨ts, h, rfl⟩

/-! ## Words with blanks behind them -/

/-- Blanks are skipped. -/
theorem scanFrom_blank {b : Char} (hb : isBlank b = true) (offset : Nat) (cs : List Char) :
    scanFrom offset (b :: cs) = scanFrom (offset + b.utf8Size) cs := by
  have hskip : skipTrivia false (b :: cs) =
      (b :: (skipTrivia false cs).1, (skipTrivia false cs).2) := by
    simp [skipTrivia, hb]
  rcases hrest : skipTrivia false cs with ⟨skipped, rest⟩
  rw [hrest] at hskip
  rw [scanFrom.eq_def offset, scanFrom.eq_def (offset + b.utf8Size)]
  cases rest with
  | nil => rw [hskip, hrest]
  | cons c more =>
    rw [hskip, hrest]
    simp only [byteLength_cons, Nat.add_assoc]

/-- The piece at the front of a text is cut off. -/
theorem scanFrom_cons {c : Char} (hblank : isBlank c = false) (hcomment : c ≠ '#')
    (offset : Nat) (cs : List Char) :
    scanFrom offset (c :: cs) = (Piece.first c cs).item offset ::
      scanFrom (offset + byteLength (Piece.first c cs).text) (Piece.rest c cs) := by
  have hskip : skipTrivia false (c :: cs) = ([], c :: cs) := by
    simp [skipTrivia, hblank, hcomment]
  rw [scanFrom.eq_def offset, hskip]
  simp only [byteLength_nil, Nat.add_zero]

/-- Characters that are one token of class `kind` when a blank follows them. -/
structure Word where
  chars : List Char
  kind : TokenKind
deriving DecidableEq

/-- The lexeme of a token and its class, wherever it stands. -/
def Token.word (t : Token) : Word := ⟨t.lexeme.toList, t.kind⟩

namespace Word

/-- Before a blank, the characters of the word are cut off as one token of its
class. -/
def Scans (w : Word) : Prop :=
  ∃ c cs, w.chars = c :: cs ∧ isBlank c = false ∧ c ≠ '#' ∧
    ∀ rest, Piece.first c (cs ++ ' ' :: rest) = ⟨w.chars, .ok w.kind⟩

/-- The token of a word at a byte offset. -/
def token (w : Word) (offset : Nat) : Token :=
  ⟨String.ofList w.chars, w.kind, ⟨offset, offset + byteLength w.chars⟩⟩

theorem word_token (w : Word) (offset : Nat) : (w.token offset).word = w := by
  simp [Token.word, token]

/-- Words with a blank behind each. -/
def spaced (ws : List Word) : List Char := ws.flatMap fun w => w.chars ++ [' ']

/-- The tokens of spaced words, the first at a byte offset. -/
def tokens : Nat → List Word → List Token
  | _, [] => []
  | offset, w :: ws => w.token offset :: tokens (offset + byteLength w.chars + 1) ws

theorem map_word_tokens (ws : List Word) : ∀ offset, (tokens offset ws).map Token.word = ws := by
  induction ws with
  | nil => exact fun _ => rfl
  | cons w ws ih =>
    intro offset
    rw [tokens, List.map_cons, word_token, ih]

theorem tokens_append (ws vs : List Word) : ∀ offset,
    ∃ offset', tokens offset (ws ++ vs) = tokens offset ws ++ tokens offset' vs := by
  induction ws with
  | nil => intro offset; exact ⟨offset, rfl⟩
  | cons w ws ih =>
    intro offset
    obtain ⟨offset', h⟩ := ih (offset + byteLength w.chars + 1)
    exact ⟨offset', congrArg (w.token offset :: ·) h⟩

/-- What holds of a word's token at every offset holds of all tokens. -/
theorem forall_mem_tokens {P : Token → Prop} {ws : List Word}
    (h : ∀ w ∈ ws, ∀ offset, P (w.token offset)) : ∀ offset, ∀ t ∈ tokens offset ws, P t := by
  induction ws with
  | nil => intro offset t ht; cases ht
  | cons w ws ih =>
    intro offset t ht
    rcases List.mem_cons.mp ht with rfl | ht
    · exact h w List.mem_cons_self offset
    · exact ih (fun w' hw' => h w' (List.mem_cons_of_mem _ hw')) _ t ht

/-- Spaced words scan to their tokens. -/
theorem scanFrom_spaced (ws : List Word) (h : ∀ w ∈ ws, w.Scans) : ∀ offset,
    scanFrom offset (spaced ws) = (tokens offset ws).map .ok := by
  induction ws with
  | nil => intro offset; simp [spaced, scanFrom, skipTrivia, tokens]
  | cons w ws ih =>
    intro offset
    obtain ⟨c, cs, hw, hblank, hcomment, hfirst⟩ := h w List.mem_cons_self
    have hpiece := hfirst (spaced ws)
    have htext : spaced (w :: ws) = c :: (cs ++ ' ' :: spaced ws) := by
      simp [spaced, hw]
    have hrest : Piece.rest c (cs ++ ' ' :: spaced ws) = ' ' :: spaced ws := by
      have := Piece.text_append_rest c (cs ++ ' ' :: spaced ws)
      rw [hpiece, hw, List.cons_append, List.cons.injEq] at this
      exact List.append_cancel_left this.2
    rw [htext, scanFrom_cons hblank hcomment, hrest, hpiece,
      scanFrom_blank (show isBlank ' ' = true by decide),
      ih fun w' hw' => h w' (List.mem_cons_of_mem _ hw')]
    rfl

end Word

end TensorLet
