import TensorLet.Proofs.Parser.Acceptance

/-!
# Heights of accepted trees

The height that the parser counts is given back when a chain, a bracket or a sign
ends, while the tree it has made stays below the operators that follow. So the
count bounds how many operators one chain may have where it stands, and not how
tall a tree may grow: a product may be as long as a sum, the product may be the
first operand of the sum, and its own first operand may be an expression in
parentheses that does the same.

* `Derives.height_le`: how tall the tree of a phrase can be, by the room that is
  left for nesting and for height.
* `Tower.derives`: a phrase that is as tall as that.
* `height_le_of_parse`, `exists_parse_height_eq`: the greatest height of an
  initializer that is accepted.
-/

namespace TensorLet

/-- The greatest number of operators on a path from the root of a tree to a
leaf. -/
def Expr.height : Expr → Nat
  | .binary _ left right _ => max left.height right.height + 1
  | .unary _ operand _ => operand.height + 1
  | .scalar _ _ => 0
  | .name _ _ _ => 0
  | .tensor _ _ => 0

namespace Grammar

/-! ## No taller -/

/-- How tall a factor at height `h` can be, in which `room` brackets and signs
may nest. -/
def factorHeight : Nat → Nat → Nat
  | 0, _ => 0
  | room + 1, h => factorHeight room (h + 1) + max 1 (2 * (maxHeight - (h + 1)))

/-- The higher a factor stands, the less it can grow. -/
theorem factorHeight_le {h h' : Nat} (hle : h ≤ h') : ∀ room : Nat,
    factorHeight room h' ≤ factorHeight room h := by
  intro room
  induction room generalizing h h' with
  | zero => exact Nat.le_refl 0
  | succ room ih =>
    have hinner := ih (Nat.add_le_add_right hle 1)
    simp only [factorHeight]
    omega

/-- How tall a phrase at nesting `n` and height `h` can be. -/
def Phrase.tallest (n h : Nat) : Phrase → Nat
  | .primary => factorHeight (maxNesting - n) h
  | .factor => factorHeight (maxNesting - n) h
  | .chain .product operators => factorHeight (maxNesting - n) h + operators
  | .term => factorHeight (maxNesting - n) h + (maxHeight - h)
  | .chain .sum operators => factorHeight (maxNesting - n) h + (maxHeight - h) + operators
  | .expression => factorHeight (maxNesting - n) h + 2 * (maxHeight - h)

/-- A chain has no more operators than there is room for height. -/
theorem Derives.operators_le {scope : String → Option Storage} {level : Level} {k n h : Nat}
    {ts : List Token} {e : Expr} (H : Derives scope (.chain level k) n h ts e) :
    k ≤ maxHeight - h := by
  cases H with
  | first _ => exact Nat.zero_le _
  | next _ _ _ hheight _ => omega

/-- The tree of a phrase is no taller than the phrase can be. -/
theorem Derives.height_le {scope : String → Option Storage} {phrase : Phrase} {n h : Nat}
    {ts : List Token} {e : Expr} (H : Derives scope phrase n h ts e) :
    e.height ≤ phrase.tallest n h := by
  induction H with
  | expression hchain ih =>
    have hle := hchain.operators_le
    simp only [Phrase.tallest] at ih ⊢
    omega
  | term hchain ih =>
    have hle := hchain.operators_le
    simp only [Phrase.tallest] at ih ⊢
    omega
  | @first level n h ts e _ ih =>
    cases level with
    | sum => exact ih
    | product => exact ih
  | @next level n h k ts us left right op t _ _ _ hheight _ ihleft ihright =>
    have hle := factorHeight_le (Nat.le_add_right h (k + 1)) (maxNesting - n)
    cases level with
    | sum =>
      simp only [Phrase.tallest, Level.operand] at ihleft ihright ⊢
      simp only [Expr.height]
      omega
    | product =>
      simp only [Phrase.tallest, Level.operand] at ihleft ihright ⊢
      simp only [Expr.height]
      omega
  | parentheses hopens _ _ _ ih =>
    simp only [Phrase.tallest] at ih ⊢
    rw [hopens.room, factorHeight]
    omega
  | primary _ ih => exact ih
  | number _ _ => exact Nat.zero_le _
  | name _ => exact Nat.zero_le _
  | tensor _ => exact Nat.zero_le _
  | sign hopens _ _ ih =>
    simp only [Phrase.tallest] at ih ⊢
    rw [hopens.room, factorHeight]
    simp only [Expr.height]
    omega

/-! ## As tall -/

namespace Tower

/-- The number in every operand. -/
def one : Word := ⟨['1'], .int⟩

/-- A character on its own. -/
def sign (c : Char) : Word := ⟨[c], .symbol⟩

/-- As many operators, each with a number behind it. -/
def steps (op : BinOp) : Nat → List Word
  | 0 => []
  | k + 1 => steps op k ++ [sign op.symbol, one]

/-- The room for height where `room` more parentheses may be opened. -/
def rise (room : Nat) : Nat := maxHeight - (maxNesting - room)

/-- A factor with some products and then some sums behind it. -/
def story (products sums : Nat) (factor : List Word) : List Word :=
  (factor ++ steps .mul products) ++ steps .add sums

/-- Stories as high as there is room for, each in the parentheses of the next. -/
def words : Nat → List Word
  | 0 => story (rise 0) (rise 0) [one]
  | room + 1 =>
    story (rise (room + 1)) (rise (room + 1)) ([sign '('] ++ (words room ++ [sign ')']))

/-- The number in the operands is finite. -/
theorem number?_one (offset : Nat) :
    ∃ s, (one.token offset).number? = some s ∧ s.value.isFinite = true := by
  have h : ((Decimal.ofChars? (String.ofList ['1']).toList).any
      fun d => d.toBinary64.isFinite) = true := by decide +kernel
  have hlexeme : (one.token offset).lexeme = String.ofList ['1'] := rfl
  unfold Token.number?
  rw [hlexeme]
  cases hd : Decimal.ofChars? (String.ofList ['1']).toList with
  | none =>
    rw [hd] at h
    cases h
  | some d =>
    -- Rewritten, not unfolded: `isFinite` compares with a very large number.
    rw [hd, Option.any_some] at h
    exact ⟨_, Option.map_some _ _, h⟩

variable {scope : String → Option Storage} {n h : Nat}

/-- A number is an operand wherever it stands. -/
theorem one_derives (level : Level) (offset : Nat) :
    ∃ e, Derives scope level.operand n h [one.token offset] e ∧ e.height = 0 := by
  obtain ⟨s, hs, -⟩ := number?_one offset
  have hfactor : Derives scope .factor n h [one.token offset] (.scalar s (one.token offset)) :=
    .primary (.number rfl hs)
  cases level with
  | sum => exact ⟨_, .term (.first hfactor), rfl⟩
  | product => exact ⟨_, hfactor, rfl⟩

theorem one_derives_factor (offset : Nat) :
    ∃ e, Derives scope .factor n h (Word.tokens offset [one]) e ∧ e.height = 0 :=
  one_derives .product offset

theorem sign_isSymbol (c : Char) (offset : Nat) : ((sign c).token offset).isSymbol c = true := by
  simp [Token.isSymbol, Word.token, sign]

/-- Each operator behind an operand makes the tree one level taller. -/
theorem steps_derives (level : Level) (op : BinOp) (hop : op ∈ level.ops) {ts : List Token}
    {e : Expr} (H : Derives scope level.operand n h ts e) (offset : Nat) :
    ∀ k, k ≤ maxHeight - h → ∃ e',
      Derives scope (.chain level k) n h (ts ++ Word.tokens offset (steps op k)) e' ∧
        e'.height = e.height + k := by
  intro k
  induction k with
  | zero =>
    intro _
    refine ⟨e, ?_, rfl⟩
    rw [steps, Word.tokens, List.append_nil]
    exact .first H
  | succ k ih =>
    intro hk
    obtain ⟨left, hleft, hheight⟩ := ih (by omega)
    obtain ⟨offset', htokens⟩ := Word.tokens_append (steps op k) [sign op.symbol, one] offset
    obtain ⟨right, hright, hzero⟩ := one_derives (n := n) (h := h + (k + 1)) level _
    refine ⟨.binary op left right ((sign op.symbol).token offset'), ?_, ?_⟩
    · rw [steps, htokens, ← List.append_assoc]
      exact .next hleft hop (sign_isSymbol _ _) (by omega) hright
    · simp only [Expr.height, hheight, hzero]
      omega

/-- A story is taller than its factor by all its operators. -/
theorem story_derives {products sums : Nat} (hproducts : products ≤ maxHeight - h)
    (hsums : sums ≤ maxHeight - h) {factor : List Word} {offset : Nat} {e : Expr}
    (he : Derives scope .factor n h (Word.tokens offset factor) e) :
    ∃ e', Derives scope .expression n h (Word.tokens offset (story products sums factor)) e' ∧
      e'.height = e.height + products + sums := by
  obtain ⟨offset₁, htokens₁⟩ := Word.tokens_append factor (steps .mul products) offset
  obtain ⟨offset₂, htokens₂⟩ := Word.tokens_append (factor ++ steps .mul products)
    (steps .add sums) offset
  obtain ⟨e₁, he₁, hheight₁⟩ := steps_derives .product .mul (by decide) he offset₁ products
    hproducts
  obtain ⟨e₂, he₂, hheight₂⟩ := steps_derives .sum .add (by decide) (.term he₁) offset₂ sums hsums
  refine ⟨e₂, ?_, ?_⟩
  · rw [story, htokens₂, htokens₁]
    exact .expression he₂
  · rw [hheight₂, hheight₁]

/-- The tower of the parentheses that may still be opened is as tall as an
expression can be. -/
theorem derives : ∀ (room n : Nat), room + n = maxNesting → ∀ offset, ∃ e,
    Derives scope .expression n n (Word.tokens offset (words room)) e ∧
      e.height = Phrase.expression.tallest n n := by
  intro room
  induction room with
  | zero =>
    intro n hn offset
    have hrise : rise 0 = maxHeight - n := by rw [rise]; omega
    obtain ⟨e, he, hzero⟩ := one_derives_factor offset
    obtain ⟨e', he', hheight⟩ := story_derives (Nat.le_of_eq hrise) (Nat.le_of_eq hrise) he
    refine ⟨e', he', ?_⟩
    rw [hheight, hzero, hrise, Phrase.tallest, show maxNesting - n = 0 by omega, factorHeight]
    omega
  | succ room ih =>
    intro n hn offset
    have hnest : n < maxNesting := by omega
    have hlimits : maxNesting < maxHeight := by decide
    have hopens : Opens n n := ⟨hnest, by omega⟩
    have hrise : rise (room + 1) = maxHeight - n := by rw [rise]; omega
    obtain ⟨inner, hinner⟩ := Word.tokens_append [sign '('] (words room ++ [sign ')']) offset
    obtain ⟨close, hclose⟩ := Word.tokens_append (words room) [sign ')'] inner
    obtain ⟨e, he, hheight⟩ := ih (n + 1) (by omega) inner
    have hfactor : Derives scope .factor n n
        (Word.tokens offset ([sign '('] ++ (words room ++ [sign ')']))) e := by
      rw [hinner, hclose]
      exact .parentheses hopens (sign_isSymbol _ _) he (sign_isSymbol _ _)
    obtain ⟨e', he', hheight'⟩ :=
      story_derives (Nat.le_of_eq hrise) (Nat.le_of_eq hrise) hfactor
    refine ⟨e', he', ?_⟩
    -- The story in the parentheses is taller than a sign could make the factor.
    simp only [Phrase.tallest] at hheight ⊢
    rw [hheight', hheight, hrise, hopens.room, factorHeight]
    omega

/-! ## Sources of words -/

/-- A word that scans to a token which is no number or a finite one. -/
def Plain (w : Word) : Prop := w.Scans ∧ ∀ offset, (w.token offset).FiniteNumber

theorem plain_one : Plain one := by
  refine ⟨⟨'1', [], rfl, by decide, by decide, fun rest => rfl⟩, fun offset _ => ?_⟩
  exact number?_one offset

/-- Words that are no numbers need only scan. -/
theorem plain_of_scans {w : Word} (h : w.Scans) (hint : w.kind ≠ .int) (hfloat : w.kind ≠ .float) :
    Plain w := by
  refine ⟨h, fun offset hnumber => ?_⟩
  simp [Token.isNumber, Word.token, hint, hfloat] at hnumber

theorem plain_sign {c : Char} (hc : isSymbolChar c = true) : Plain (sign c) := by
  have hclass : symbolChars.all (fun c => isBlank c = false ∧ c ≠ '#' ∧
      (c.isDigit || c = '.') = false) = true := by decide
  obtain ⟨hblank, hcomment, hdigit⟩ :=
    of_decide_eq_true (List.all_eq_true.mp hclass c (List.contains_iff_mem.mp hc))
  refine plain_of_scans ⟨c, [], rfl, hblank, hcomment, fun rest => ?_⟩ (by simp [sign])
    (by simp [sign])
  rw [Piece.first, hdigit, if_neg (by simp), if_pos hc]
  rfl

theorem plain_steps {op : BinOp} (hop : op = .mul ∨ op = .add) (k : Nat) :
    ∀ w ∈ steps op k, Plain w := by
  induction k with
  | zero => simp [steps]
  | succ k ih =>
    intro w hw
    simp only [steps, List.mem_append, List.mem_cons, List.not_mem_nil, or_false] at hw
    rcases hw with hw | rfl | rfl
    · exact ih w hw
    · rcases hop with rfl | rfl <;> exact plain_sign (by decide)
    · exact plain_one

theorem plain_story {products sums : Nat} {factor : List Word} (h : ∀ w ∈ factor, Plain w) :
    ∀ w ∈ story products sums factor, Plain w := by
  intro w hw
  simp only [story, List.mem_append] at hw
  rcases hw with (hw | hw) | hw
  · exact h w hw
  · exact plain_steps (.inl rfl) _ w hw
  · exact plain_steps (.inr rfl) _ w hw

theorem plain_words (room : Nat) : ∀ w ∈ words room, Plain w := by
  induction room with
  | zero =>
    refine plain_story fun w hw => ?_
    rw [List.mem_singleton.mp hw]
    exact plain_one
  | succ room ih =>
    refine plain_story fun w hw => ?_
    simp only [List.mem_append, List.mem_singleton] at hw
    rcases hw with rfl | hw | rfl
    · exact plain_sign (by decide)
    · exact ih w hw
    · exact plain_sign (by decide)

/-- `let int x =`, as words. -/
def opening : List Word :=
  [⟨"let".toList, .keyword⟩, ⟨"int".toList, .keyword⟩, ⟨['x'], .identifier⟩, sign '=']

theorem plain_opening : ∀ w ∈ opening, Plain w := by
  intro w hw
  simp only [opening, List.mem_cons, List.not_mem_nil, or_false] at hw
  rcases hw with rfl | rfl | rfl | rfl
  · refine plain_of_scans ?_ TokenKind.noConfusion TokenKind.noConfusion
    exact ⟨'l', ['e', 't'], rfl, by decide, by decide, fun rest => rfl⟩
  · refine plain_of_scans ?_ TokenKind.noConfusion TokenKind.noConfusion
    exact ⟨'i', ['n', 't'], rfl, by decide, by decide, fun rest => rfl⟩
  · refine plain_of_scans ?_ TokenKind.noConfusion TokenKind.noConfusion
    exact ⟨'x', [], rfl, by decide, by decide, fun rest => rfl⟩
  · exact plain_sign (by decide)

/-- A declaration with its initializer in words. -/
def declaration (initializer : List Word) : List Word := opening ++ (initializer ++ [sign ';'])

theorem plain_declaration {initializer : List Word} (h : ∀ w ∈ initializer, Plain w) :
    ∀ w ∈ declaration initializer, Plain w := by
  intro w hw
  simp only [declaration, List.mem_append, List.mem_singleton] at hw
  rcases hw with hw | hw | rfl
  · exact plain_opening w hw
  · exact h w hw
  · exact plain_sign (by decide)

/-- A declaration is derived from words that its initializer is derived from. -/
theorem declares {initializer : List Word} {k : Nat}
    (h : ∀ offset, ∃ e, Derives (visible []) .expression 0 0 (Word.tokens offset initializer) e ∧
      e.height = k) :
    ∃ d, Declares [] (Word.tokens 0 (declaration initializer)) d ∧ d.rhs.height = k := by
  obtain ⟨start, hstart⟩ := Word.tokens_append opening (initializer ++ [sign ';']) 0
  obtain ⟨stop, hstop⟩ := Word.tokens_append initializer [sign ';'] start
  obtain ⟨e, he, hheight⟩ := h start
  let word : Word := ⟨"let".toList, .keyword⟩
  refine ⟨⟨word.token 0, String.ofList ['x'], .int, .localVar, e⟩, ?_, hheight⟩
  rw [declaration, hstart, hstop]
  exact .intro rfl rfl rfl (sign_isSymbol _ _) he (sign_isSymbol _ _)

/-- Plain words that derive an initializer are accepted as its source. -/
theorem accepted {initializer : List Word} {k : Nat} (hplain : ∀ w ∈ initializer, Plain w)
    (hderives : ∀ offset, ∃ e,
      Derives (visible []) .expression 0 0 (Word.tokens offset initializer) e ∧ e.height = k) :
    ∃ program table,
      TensorLet.parse (String.ofList (Word.spaced (declaration initializer))) =
        .ok (program, table) ∧ ∃ d ∈ program.declarations, d.rhs.height = k := by
  obtain ⟨d, hdeclares, hheight⟩ := declares hderives
  have hwords := plain_declaration hplain
  have hscan : (Scan.ofText (String.ofList (Word.spaced (declaration initializer)))).items =
      (Word.tokens 0 (declaration initializer)).map .ok := by
    simp only [Scan.ofText, String.toList_ofList]
    exact Word.scanFrom_spaced _ (fun w hw => (hwords w hw).1) 0
  have hfinite : ∀ t ∈ Word.tokens 0 (declaration initializer), t.FiniteNumber :=
    Word.forall_mem_tokens (fun w hw => (hwords w hw).2) 0
  have hstatements : Statements [] (Word.tokens 0 (declaration initializer) ++ []) [d] :=
    .cons hdeclares .nil
  rw [List.append_nil] at hstatements
  refine ⟨_, _, CompilationUnit.parse ((tokenize_eq_ok_iff _ _).mpr hscan) hfinite
    ⟨[d], hstatements, rfl⟩, d, ?_, hheight⟩
  simp [Program.declarations]

end Tower

/-! ## Accepted sources -/

/-- Two for each level of height that is left, at every nesting from 0 to
`maxNesting`. -/
theorem tallest_initializer : Phrase.expression.tallest 0 0 = 247680 := by decide +kernel

/-- No initializer that is accepted is taller than 247680. -/
theorem height_le_of_parse {source : String} {program : Program} {table : SymbolTable}
    (h : TensorLet.parse source = .ok (program, table)) :
    ∀ d ∈ program.declarations, d.rhs.height ≤ 247680 := by
  intro d hd
  obtain ⟨ts, -, -, hunit, -⟩ := CompilationUnit.of_parse h
  obtain ⟨names, us, -, hrhs⟩ := hunit.statements.exists_derives d hd
  rw [← tallest_initializer]
  exact hrhs.height_le

/-- The bound is tight. -/
theorem exists_parse_height_eq : ∃ source program table,
    TensorLet.parse source = .ok (program, table) ∧
      ∃ d ∈ program.declarations, d.rhs.height = 247680 := by
  rw [← tallest_initializer]
  exact ⟨_, Tower.accepted (Tower.plain_words maxNesting) (Tower.derives maxNesting 0 rfl)⟩

end Grammar

end TensorLet
