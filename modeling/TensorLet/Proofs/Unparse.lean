import TensorLet.Numeric.Shortest
import TensorLet.Proofs.TensorCode
import TensorLet.Proofs.Token.Lexemes

/-!
# Declarations written as source

Declarations have a source text of their own: their words with single blanks
between them. An expression is written with no more parentheses than precedence
needs, and a tensor literal with a zero at every position that stores nothing.

* `Expr.words`: the words of an expression where operators from some rank on may
  stand.
* `Tensor.words`: the words of a tensor literal, zeros included.
* `unparse`: the source text of declarations.
* `tokenize_unparse`: it is scanned as these words.
-/

namespace TensorLet

/-! ## Words -/

namespace Word

/-- A symbol. -/
def symbol (c : Char) : Word := ⟨[c], .symbol⟩

/-- A keyword. -/
def keyword (k : Keyword) : Word := ⟨k.text.toList, .keyword⟩

/-- A name. -/
def identifier (name : String) : Word := ⟨name.toList, .identifier⟩

/-- The shortest text of a number that is not negative. -/
def number (x : Binary64) : Word := ⟨x.textChars, if '.' ∈ x.textChars then .float else .int⟩

end Word

/-- The words of a number inside a tensor literal, which may be negative. -/
def Binary64.words (x : Binary64) : List Word :=
  if x.negative then [.symbol '-', .number x.negate] else [.number x]

mutual
/-- The words of a tensor literal. -/
def Tensor.words : Tensor → List Word
  | .leaf scalar => scalar.value.words
  | .node extent entries =>
    .symbol '\x7b' ::
      ([.symbol ','].intercalate (Tensor.elementWords extent 0 entries) ++ [.symbol '\x7d'])
/-- The words of each element from position `index` on: those that are stored,
with zeros between them and up to the extent. -/
def Tensor.elementWords (extent : Nat) : Nat → List (Nat × Tensor) → List (List Word)
  | index, [] => List.replicate (extent - index) [.number (.ofBits 0)]
  | index, (position, t) :: rest =>
    List.replicate (position - index) [.number (.ofBits 0)] ++
      t.words :: Tensor.elementWords extent (position + 1) rest
end

/-- How tightly an operator binds. -/
def BinOp.rank : BinOp → Nat
  | .add => 0
  | .sub => 0
  | .mul => 1
  | .div => 1

/-- The words of an expression where operators of rank `k` and above may stand
without parentheses. Operators lean to the left, so their right operand has to
bind tighter; the operand of a sign has to bind tighter than every operator. -/
def Expr.words : Expr → Nat → List Word
  | .binary op left right _, k =>
    let inside := left.words op.rank ++ .symbol op.symbol :: right.words (op.rank + 1)
    if op.rank < k then .symbol '(' :: (inside ++ [.symbol ')']) else inside
  | .unary op operand _, _ => .symbol op.symbol :: operand.words 2
  | .scalar s _, _ => [.number s.value]
  | .name x _ _, _ => [.identifier x]
  | .tensor literal _, _ => literal.words

/-- The keyword of a type. -/
def ValueType.keyword : ValueType → Keyword
  | .int => .int
  | .float => .float
  | .tensor => .tensor

/-- The words of a declaration. -/
def Declaration.words (d : Declaration) : List Word :=
  .keyword .letWord :: .keyword d.type.keyword :: .identifier d.name :: .symbol '=' ::
    (d.rhs.words 0 ++ [.symbol ';'])

/-- Declarations as source text: their words with single blanks between them. -/
def unparse (ds : List Declaration) : String :=
  String.ofList ([' '].intercalate ((ds.flatMap Declaration.words).map Word.chars))

/-! ## Declarations that can be written -/

/-- Expressions that have a source text: numbers are finite and not negative,
names are identifiers, and tensor literals are kept as they are read. -/
def Expr.Writable : Expr → Prop
  | .binary _ left right _ => left.Writable ∧ right.Writable
  | .unary _ operand _ => operand.Writable
  | .scalar s _ => s.value.isFinite = true ∧ s.value.negative = false
  | .name x _ _ => Lexeme .identifier x.toList
  | .tensor (.leaf _) _ => False
  | .tensor (.node extent entries) _ => Tensor.areSparse extent 0 entries = true

/-- Declarations that have a source text. -/
structure Declaration.Writable (d : Declaration) : Prop where
  storage : d.storage = .localVar
  name : Lexeme .identifier d.name.toList
  rhs : d.rhs.Writable

/-! ## Numbers -/

namespace Decimal

/-- The text of a decimal is digits, or digits around a point. -/
theorem toChars_cases (d : Decimal) :
    (d.toChars ≠ [] ∧ ∀ c ∈ d.toChars, c.isDigit = true) ∨
      ∃ whole fraction, d.toChars = whole ++ '.' :: fraction ∧ whole ≠ [] ∧
        (∀ c ∈ whole, c.isDigit = true) ∧ ∀ c ∈ fraction, c.isDigit = true := by
  have hlen := places_lt_length_digits d
  have hwhole : ∀ c ∈ d.digits.take (d.digits.length - d.places), c.isDigit = true :=
    fun c hc => isDigit_of_mem_digits (List.mem_of_mem_take hc)
  have hfraction : ∀ c ∈ d.digits.drop (d.digits.length - d.places), c.isDigit = true :=
    fun c hc => isDigit_of_mem_digits (List.mem_of_mem_drop hc)
  have hne : d.digits.take (d.digits.length - d.places) ≠ [] := by
    rw [← List.length_pos_iff, List.length_take]
    omega
  unfold toChars
  extract_lets whole fraction
  split
  · exact .inl ⟨hne, hwhole⟩
  · exact .inr ⟨whole, fraction, rfl, hne, hwhole, hfraction⟩

end Decimal

namespace Binary64

variable {x : Binary64}

theorem textChars_eq (hfinite : x.isFinite = true) (hsign : x.negative = false) :
    x.textChars = (shortest x.magnitude).toChars := by
  simp only [isFinite, decide_eq_true_eq] at hfinite
  unfold textChars
  rw [if_neg (by omega), hsign]
  simp [Nat.ne_of_lt hfinite]

/-- A finite number that is not negative is read back from its text. -/
theorem toBinary64_shortest (hfinite : x.isFinite = true) (hsign : x.negative = false) :
    (shortest x.magnitude).toBinary64 = x := by
  obtain ⟨negative, magnitude, hlt⟩ := x
  simp only [isFinite, decide_eq_true_eq] at hfinite hsign
  subst hsign
  have hmagnitude := magnitude_shortest hfinite
  simp only [Decimal.toBinary64, Binary64.round, Binary64.mk.injEq, true_and]
  exact hmagnitude

/-- The text of a number is a lexeme of its class. -/
theorem lexeme_number (hfinite : x.isFinite = true) (hsign : x.negative = false) :
    Lexeme (Word.number x).kind (Word.number x).chars := by
  simp only [Word.number, textChars_eq hfinite hsign]
  rcases (shortest x.magnitude).toChars_cases with ⟨hne, hdigits⟩ | ⟨whole, fraction, heq, hne,
    hwhole, hfraction⟩
  · rw [if_neg fun hpoint => absurd (hdigits '.' hpoint) (by decide)]
    exact .int hne hdigits
  · rw [heq, if_pos (by simp)]
    exact .float (by simp [hne]) hwhole hfraction

end Binary64

namespace Token

variable {t : Token}

theorem isSymbol_of_word {c : Char} (h : t.word = .symbol c) : t.isSymbol c = true := by
  rw [word, Word.symbol, Word.mk.injEq] at h
  simp [isSymbol, h.1, h.2]

theorem isKeyword_of_word {k : Keyword} (h : t.word = .keyword k) : t.isKeyword k = true := by
  rw [word, Word.keyword, Word.mk.injEq, String.toList_inj] at h
  simp [isKeyword, h.1, h.2]

theorem kind_of_word {x : String} (h : t.word = .identifier x) :
    t.kind = .identifier ∧ t.lexeme = x := by
  rw [word, Word.identifier, Word.mk.injEq, String.toList_inj] at h
  exact ⟨h.2, h.1⟩

theorem valueType?_of_word {type : ValueType} (h : t.word = .keyword type.keyword) :
    t.valueType? = some type := by
  rw [word, Word.keyword, Word.mk.injEq, String.toList_inj] at h
  have hkeyword := Keyword.ofText?_eq_some_iff.mpr h.1
  rw [valueType?, keyword?, if_pos h.2, hkeyword]
  cases type <;> rfl

theorem isNumber_of_word {x : Binary64} (h : t.word = .number x) : t.isNumber = true := by
  rw [word, Word.number, Word.mk.injEq] at h
  rw [isNumber, h.2]
  split <;> rfl

/-- The token of a number is read as this number. -/
theorem number?_of_word {x : Binary64} (h : t.word = .number x) (hfinite : x.isFinite = true)
    (hsign : x.negative = false) : ∃ form, t.number? = some ⟨x, form⟩ := by
  rw [word, Word.number, Word.mk.injEq] at h
  refine ⟨if t.kind = .int then .int else .float, ?_⟩
  rw [number?, h.1, Binary64.textChars_eq hfinite hsign, Decimal.ofChars?_toChars, Option.map_some,
    Binary64.toBinary64_shortest hfinite hsign]

end Token

/-! ## The words of a source -/

/-- The words that sources are written with. -/
inductive Word.Written : Word → Prop
  | symbol {c : Char} (h : c ∈ symbolChars) : Written (.symbol c)
  | keyword (k : Keyword) : Written (.keyword k)
  | identifier {x : String} (h : Lexeme .identifier x.toList) : Written (.identifier x)
  | number {x : Binary64} (hfinite : x.isFinite = true) (hsign : x.negative = false) :
      Written (.number x)

namespace Word.Written

theorem lexeme {w : Word} (h : w.Written) : Lexeme w.kind w.chars := by
  cases h with
  | symbol h => exact .symbol h
  | keyword k =>
    refine .keyword ?_
    rw [Word.keyword, String.ofList_toList]
    cases k <;> decide
  | identifier h => exact h
  | number hfinite hsign => exact Binary64.lexeme_number hfinite hsign

theorem finiteNumber {w : Word} (h : w.Written) {t : Token} (ht : t.word = w) :
    t.FiniteNumber := by
  intro hnumber
  cases h with
  | symbol h =>
    have hkind := Token.kind_of_isSymbol (Token.isSymbol_of_word ht)
    simp [Token.isNumber, hkind] at hnumber
  | keyword k =>
    have hkind := Token.kind_of_isKeyword (Token.isKeyword_of_word ht)
    simp [Token.isNumber, hkind] at hnumber
  | identifier h =>
    simp [Token.isNumber, (Token.kind_of_word ht).1] at hnumber
  | @number x hfinite hsign =>
    obtain ⟨form, hform⟩ := Token.number?_of_word ht hfinite hsign
    exact ⟨⟨x, form⟩, hform, hfinite⟩

end Word.Written

theorem Binary64.written_words {x : Binary64} (hfinite : x.isFinite = true) :
    ∀ w ∈ x.words, w.Written := by
  unfold Binary64.words
  cases hsign : x.negative with
  | true =>
    rw [if_pos rfl]
    intro w hw
    simp only [List.mem_cons, List.not_mem_nil, or_false] at hw
    rcases hw with rfl | rfl
    · exact .symbol (by decide)
    · exact .number hfinite (by simp [Binary64.negate, hsign])
  | false =>
    rw [if_neg (by simp)]
    intro w hw
    rw [List.mem_singleton.mp hw]
    exact .number hfinite hsign

/-- A separated list is its first part, and the others with a separator before
each. -/
theorem intercalate_cons {α : Type} (sep : List α) (ls : List (List α)) : ∀ l,
    sep.intercalate (l :: ls) = l ++ ls.flatMap (sep ++ ·) := by
  induction ls with
  | nil => simp
  | cons m ls ih =>
    intro l
    rw [List.intercalate_cons_cons, ih m, List.flatMap_cons, List.append_assoc, List.append_assoc]

/-- What stands in a separated list is in one of its parts, or in a separator. -/
theorem mem_intercalate {α : Type} {sep : List α} {x : α} {ls : List (List α)}
    (h : x ∈ sep.intercalate ls) : x ∈ sep ∨ ∃ l ∈ ls, x ∈ l := by
  cases ls with
  | nil => simp at h
  | cons l ls =>
    rw [intercalate_cons, List.mem_append, List.mem_flatMap] at h
    rcases h with hx | ⟨m, hm, hx⟩
    · exact .inr ⟨l, List.mem_cons_self, hx⟩
    · rcases List.mem_append.mp hx with hx | hx
      · exact .inl hx
      · exact .inr ⟨m, List.mem_cons_of_mem _ hm, hx⟩

mutual
theorem Tensor.written_words (t : Tensor) (h : t.isSparse = true) : ∀ w ∈ t.words, w.Written := by
  match t with
  | .leaf scalar =>
    rw [isSparse, Bool.and_eq_true] at h
    exact Binary64.written_words h.1
  | .node extent entries =>
    have hwords := Tensor.written_elementWords entries extent 0 h
    intro w hw
    rw [words, List.mem_cons, List.mem_append, List.mem_singleton] at hw
    rcases hw with rfl | hw | rfl
    · exact .symbol (by decide)
    · rcases mem_intercalate hw with hw | ⟨ws, hws, hw⟩
      · rw [List.mem_singleton.mp hw]
        exact .symbol (by decide)
      · exact hwords ws hws w hw
    · exact .symbol (by decide)
theorem Tensor.written_elementWords (entries : List (Nat × Tensor)) (extent index : Nat)
    (h : areSparse extent index entries = true) :
    ∀ ws ∈ elementWords extent index entries, ∀ w ∈ ws, w.Written := by
  have hzero : ∀ w ∈ [Word.number (.ofBits 0)], w.Written := by
    intro w hw
    rw [List.mem_singleton.mp hw]
    exact .number (by decide) (by decide)
  match entries with
  | [] =>
    intro ws hws
    rw [elementWords] at hws
    rw [List.eq_of_mem_replicate hws]
    exact hzero
  | (position, t) :: rest =>
    rw [areSparse, Bool.and_eq_true, Bool.and_eq_true] at h
    intro ws hws
    rw [elementWords, List.mem_append, List.mem_cons] at hws
    rcases hws with hws | rfl | hws
    · rw [List.eq_of_mem_replicate hws]
      exact hzero
    · exact Tensor.written_words t h.1.2
    · exact Tensor.written_elementWords rest extent (position + 1) h.2 ws hws
end

theorem BinOp.symbol_mem (op : BinOp) : op.symbol ∈ symbolChars := by
  cases op <;> decide

theorem UnaryOp.symbol_mem (op : UnaryOp) : op.symbol ∈ symbolChars := by
  cases op <;> decide

theorem Expr.written_words (e : Expr) (h : e.Writable) : ∀ k, ∀ w ∈ e.words k, w.Written := by
  induction e with
  | binary op left right token ihleft ihright =>
    intro k w hw
    have hinside : ∀ w ∈ left.words op.rank ++ .symbol op.symbol :: right.words (op.rank + 1),
        w.Written := by
      intro w hw
      rw [List.mem_append, List.mem_cons] at hw
      rcases hw with hw | rfl | hw
      · exact ihleft h.1 _ w hw
      · exact .symbol op.symbol_mem
      · exact ihright h.2 _ w hw
    rw [words] at hw
    split at hw
    · rw [List.mem_cons, List.mem_append, List.mem_singleton] at hw
      rcases hw with rfl | hw | rfl
      · exact .symbol (by decide)
      · exact hinside w hw
      · exact .symbol (by decide)
    · exact hinside w hw
  | unary op operand token ih =>
    intro k w hw
    rw [words, List.mem_cons] at hw
    rcases hw with rfl | hw
    · exact .symbol op.symbol_mem
    · exact ih h 2 w hw
  | scalar s token =>
    intro k w hw
    rw [words, List.mem_singleton] at hw
    rw [hw]
    exact .number h.1 h.2
  | name x resolved token =>
    intro k w hw
    rw [words, List.mem_singleton] at hw
    rw [hw]
    exact .identifier h
  | tensor literal token =>
    intro k w hw
    cases literal with
    | leaf scalar => exact h.elim
    | node extent entries => exact Tensor.written_words (.node extent entries) h w hw

theorem Declaration.Writable.written_words {d : Declaration} (h : d.Writable) :
    ∀ w ∈ d.words, w.Written := by
  intro w hw
  simp only [words, List.mem_cons, List.mem_append, List.not_mem_nil, or_false] at hw
  rcases hw with rfl | rfl | rfl | rfl | hw | rfl
  · exact .keyword _
  · exact .keyword _
  · exact .identifier h.name
  · exact .symbol (by decide)
  · exact d.rhs.written_words h.rhs 0 w hw
  · exact .symbol (by decide)

/-! ## The tokens of a source -/

namespace Word

theorem map_word_joinedTokens (ps : List (List Char × Word)) : ∀ offset,
    (joinedTokens offset ps).map Token.word = ps.map (·.2) := by
  induction ps with
  | nil => exact fun _ => rfl
  | cons p ps ih =>
    intro offset
    rw [joinedTokens, List.map_cons, word_token, ih, List.map_cons]

/-- Words with single blanks between them have these blanks for gaps. -/
theorem intercalate_eq_joined (ws : List Word) : ∀ w : Word,
    [' '].intercalate ((w :: ws).map chars) =
      joined (([], w) :: ws.map fun w => ([' '], w)) [] := by
  induction ws with
  | nil =>
    intro w
    simp [joined]
  | cons v ws ih =>
    intro w
    have hrest := ih v
    simp only [List.map_cons, joined, List.nil_append] at hrest ⊢
    rw [List.intercalate_cons_cons, hrest, List.append_assoc]

/-- Written words with single blanks between them scan to their tokens. -/
theorem scanFrom_intercalate {ws : List Word} (h : ∀ w ∈ ws, w.Written) :
    ∃ ts : List Token, scanFrom 0 ([' '].intercalate (ws.map chars)) = ts.map .ok ∧
      ts.map Token.word = ws := by
  cases ws with
  | nil => exact ⟨[], scanFrom_joined .nil [] (by simp) (by simp) (by simp) 0, rfl⟩
  | cons w ws =>
    let gapped : List (List Char × Word) := ([], w) :: ws.map fun w => ([' '], w)
    have hlexemes : ∀ p ∈ gapped, Lexeme p.2.kind p.2.chars := by
      simp only [gapped, List.forall_mem_cons, List.forall_mem_map]
      exact ⟨(h w List.mem_cons_self).lexeme, fun v hv => (h v (List.mem_cons_of_mem _ hv)).lexeme⟩
    have hgaps : ∀ p ∈ gapped, Trivia p.2.chars p.1 := by
      simp only [gapped, List.forall_mem_cons, List.forall_mem_map]
      exact ⟨.nil, fun v hv => .blank (by decide) .nil⟩
    have hne : ∀ p ∈ gapped.tail, p.1 ≠ [] := by
      simp only [gapped, List.tail_cons, List.forall_mem_map]
      exact fun v hv => List.cons_ne_nil _ _
    refine ⟨joinedTokens 0 gapped, ?_, ?_⟩
    · rw [intercalate_eq_joined]
      exact scanFrom_joined .nil gapped hlexemes hgaps hne 0
    · rw [map_word_joinedTokens]
      simp [gapped, Function.comp_def]

end Word

/-- The source text of declarations is scanned as their words. -/
theorem tokenize_unparse {ds : List Declaration} (h : ∀ d ∈ ds, d.Writable) :
    ∃ ts, tokenize (unparse ds) = .ok (ts ++ [.endOfInput (byteLength (unparse ds).toList)]) ∧
      (∀ t ∈ ts, t.FiniteNumber) ∧ ts.map Token.word = ds.flatMap Declaration.words := by
  have hwritten : ∀ w ∈ ds.flatMap Declaration.words, w.Written := by
    intro w hw
    obtain ⟨d, hd, hw⟩ := List.mem_flatMap.mp hw
    exact (h d hd).written_words w hw
  obtain ⟨ts, hscan, hwords⟩ := Word.scanFrom_intercalate hwritten
  refine ⟨ts, (tokenize_eq_ok_iff _ _).mpr ?_, ?_, hwords⟩
  · rw [Scan.ofText, unparse, String.toList_ofList]
    exact hscan
  · intro t ht
    refine (hwritten t.word ?_).finiteNumber rfl
    rw [← hwords]
    exact List.mem_map_of_mem ht

end TensorLet
