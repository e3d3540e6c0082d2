import TensorLet.Proofs.Parser.Steps

/-!
# Every derivation is read

Where the tokens of a derivation stand at the cursor, the production of the
parser succeeds, takes exactly these tokens and returns the tree of the
derivation. One token of look-ahead decides: a chain goes on as long as an
operator of its level follows, so the token behind a phrase must not be one that
would extend it (`Follows`).

* `Literal.gives`: tensor literals.
* `Derives.isRead`: expressions, terms, factors and primaries.
* `Declares.isRead`, `Statements.unit_isRead`: declarations and whole sources.
-/

namespace TensorLet

namespace Token

/-- Numbers and names are no symbols. -/
theorem isSymbol_eq_false_of_kind {t : Token} {k : TokenKind} (h : t.kind = k) (hne : k ≠ .symbol)
    (c : Char) : t.isSymbol c = false := by
  simp [isSymbol, h, hne]

theorem isSymbol_eq_false_of_isNumber {t : Token} (h : t.isNumber = true) (c : Char) :
    t.isSymbol c = false := by
  simp only [isNumber, Bool.or_eq_true, decide_eq_true_eq] at h
  rcases h with h | h
  · exact isSymbol_eq_false_of_kind h (by decide) c
  · exact isSymbol_eq_false_of_kind h (by decide) c

end Token

/-- Each token read is the current one or uses up a pending piece. -/
theorem Cursor.Reads.length_le {c c' : Cursor} {ts : List Token} (h : c.Reads ts c') :
    ts.length ≤ c.pending.length + 1 := by
  induction ts generalizing c with
  | nil => exact Nat.zero_le _
  | cons t ts ih =>
    obtain ⟨-, -, c₁, hadvance, h₁⟩ := h
    cases ts with
    | nil => exact Nat.succ_le_succ (Nat.zero_le _)
    | cons u us =>
      have hlen := ih h₁
      have hpending := Cursor.length_pending_advance c
      rw [hadvance] at hpending
      -- With nothing pending the cursor would stand on the end, which is not read.
      have hne : c.pending ≠ [] := by
        intro hnil
        obtain ⟨hu, hread, -⟩ := h₁
        unfold Cursor.advance at hadvance
        rw [hnil] at hadvance
        cases hadvance
        have := hread.1
        rw [← hu] at this
        cases this
      have hpos := List.length_pos_iff.mpr hne
      simp only [List.length_cons] at hlen hpending ⊢
      omega

namespace Grammar

open Parse

/-! ## Tensor literals -/

/-- A literal starts with its brace. -/
theorem Literal.current {n h : Nat} {ts : List Token} {t : Tensor} {c c' : Cursor}
    (H : Literal n h ts t) (hts : c.Reads ts c') : c.current.isSymbol '\x7b' = true := by
  cases H with
  | empty _ hl _ => rw [hts.1]; exact hl
  | filled _ hl _ _ => rw [hts.1]; exact hl

/-- No element starts with the brace that closes a literal. -/
theorem Element.current {n h : Nat} {ts : List Token} {e : Option Tensor} {c c' : Cursor}
    (H : Element n h ts e) (hts : c.Reads ts c') : c.current.isSymbol '\x7d' = false := by
  cases H with
  | literal hliteral => exact Token.isSymbol_eq_false (hliteral.current hts) (by decide)
  | number ht _ => rw [hts.1]; exact Token.isSymbol_eq_false_of_isNumber ht _
  | negative hminus _ _ => rw [hts.1]; exact Token.isSymbol_eq_false hminus (by decide)

theorem Elements.current {n h : Nat} {ts : List Token} {es : List (Option Tensor)} {c c' : Cursor}
    (H : Elements n h ts es) (hts : c.Reads ts c') : c.current.isSymbol '\x7d' = false := by
  cases H with
  | last he => exact he.current hts
  | more he _ _ =>
    obtain ⟨c₁, h₁, -⟩ := Cursor.reads_append.mp hts
    exact he.current h₁

theorem Element.length_pos {n h : Nat} {ts : List Token} {e : Option Tensor}
    (H : Element n h ts e) : 0 < ts.length := by
  cases H with
  | literal hliteral => cases hliteral <;> simp
  | number _ _ => simp
  | negative _ _ _ => simp

theorem Elements.length_pos {n h : Nat} {ts : List Token} {es : List (Option Tensor)}
    (H : Elements n h ts es) : 0 < es.length := by
  cases H <;> simp

/-- Every element has a token. -/
theorem Elements.length_le {n h : Nat} {ts : List Token} {es : List (Option Tensor)} :
    Elements n h ts es → es.length ≤ ts.length
  | .last he => he.length_pos
  | .more he _ hes => by
    have := hes.length_le
    simp only [List.length_cons, List.length_append]
    omega

theorem scalar_gives {p : Parser} {c : Cursor} {t : Token} {s : Scalar} (h : p.cursor.Reads [t] c)
    (hnumber : t.isNumber = true) (hs : t.number? = some s) : scalar.Gives p c s := by
  obtain ⟨-, ⟨-, hfinite⟩, -⟩ := Cursor.reads_singleton.mp h
  obtain ⟨s', hs', hfin⟩ := hfinite hnumber
  rw [hs] at hs'
  cases hs'
  refine Gives.bind (Gives.advance h) fun o => ?_
  rw [(t.scalar_eq_ok_iff s).mpr ⟨hs, hfin⟩]
  exact Gives.pure

theorem signedNumber_gives {p : Parser} {c : Cursor} {t : Token} {s : Scalar}
    (h : p.cursor.Reads [t] c) (hnumber : t.isNumber = true) (hs : t.number? = some s) :
    signedNumber.Gives p c (stored s) := by
  have hcurrent := (Cursor.reads_singleton.mp h).1
  unfold signedNumber
  apply Gives.current
  extract_lets negative after
  have hneg : negative = false := by
    simp only [negative, hcurrent]
    exact Token.isSymbol_eq_false_of_isNumber hnumber _
  rw [hneg, if_neg (by simp)]
  apply Gives.current
  rw [hcurrent, if_pos hnumber]
  refine Gives.bind (scalar_gives h hnumber hs) fun o => ?_
  rw [hneg]
  exact Gives.pure

theorem signedNumber_gives_negative {p : Parser} {c : Cursor} {minus t : Token} {s : Scalar}
    (h : p.cursor.Reads [minus, t] c) (hminus : minus.isSymbol '-' = true)
    (hnumber : t.isNumber = true) (hs : t.number? = some s) :
    signedNumber.Gives p c (stored { s with value := s.value.negate }) := by
  obtain ⟨c₁, h₁, h₂⟩ := Cursor.reads_append.mp (show p.cursor.Reads ([minus] ++ [t]) c from h)
  have hcurrent := (Cursor.reads_singleton.mp h₁).1
  have hcurrent' := (Cursor.reads_singleton.mp h₂).1
  unfold signedNumber
  apply Gives.current
  extract_lets negative after
  have hneg : negative = true := by
    simp only [negative, hcurrent, hminus]
  rw [hneg, if_pos rfl]
  refine Gives.bind (Gives.advance h₁) fun o => ?_
  apply Gives.current
  rw [Parser.cursor_moved, hcurrent', if_pos hnumber]
  refine Gives.bind (scalar_gives h₂ hnumber hs) fun o₁ => ?_
  rw [hneg]
  exact Gives.pure

/-- What follows the opening brace, given how it is read between the braces. -/
theorem braces_gives {nested : Parse Tensor} {p : Parser} {c : Cursor} {l r : Token}
    (ts : List Token) {extent : Nat} {stored : List (Nat × Tensor)}
    (h : p.cursor.Reads (l :: (ts ++ [r])) c) (hl : l.isSymbol '\x7b' = true)
    (hr : r.isSymbol '\x7d' = true)
    (hinside : ∀ c₁ c₂ o, c₁.Reads ts c₂ → c₂.current = r →
      (optionalElements nested).Gives (p.moved c₁ o) c₂ (extent, stored)) :
    (braces nested).Gives p c (.node extent stored) := by
  obtain ⟨c₁, h₁, h⟩ := Cursor.reads_append.mp
    (show p.cursor.Reads ([l] ++ (ts ++ [r])) c from h)
  obtain ⟨c₂, h₂, h₃⟩ := Cursor.reads_append.mp h
  have hcurrent := (Cursor.reads_singleton.mp h₃).1
  unfold braces
  refine Gives.bind (Gives.expectSymbol h₁ hl) fun o => ?_
  refine Gives.bind (hinside c₁ c₂ o h₂ hcurrent) fun o₁ => ?_
  apply Gives.current
  rw [Parser.moved_moved, Parser.cursor_moved, hcurrent, if_pos hr]
  exact Gives.bind (Gives.advance h₃) fun o₂ => Gives.pure

/-- Where there is room for one more brace, a literal is read inside it. -/
theorem tensor_gives {n h : Nat} {p : Parser} {c : Cursor} {t : Tensor} (hopens : Opens n h)
    (hh : p.height = h)
    (hbraces : ∀ o, (braces (tensor (maxNesting - (n + 1)))).Gives
      (p.moved p.cursor o).deeper c t) : (tensor (maxNesting - n)).Gives p c t := by
  have hroom : maxNesting - n = maxNesting - (n + 1) + 1 := by
    have := hopens.1
    omega
  rw [hroom]
  refine Gives.tagged fun o => ?_
  apply Gives.current
  refine Gives.descend ?_ (hbraces o)
  rw [Parser.height_moved, hh]
  exact hopens.2

mutual
/-- The parser reads every tensor literal. -/
theorem Literal.gives {n h : Nat} {ts : List Token} {t : Tensor} {p : Parser} {c : Cursor} :
    Literal n h ts t → p.nesting = n → p.height = h → p.cursor.Reads ts c →
      (tensor (maxNesting - n)).Gives p c t
  | .empty hopens hl hr, hn, hh, hts => by
    refine tensor_gives hopens hh fun o => ?_
    refine braces_gives [] hts hl hr ?_
    intro c₁ c₂ o₁ hnil hcurrent
    cases hnil
    unfold optionalElements
    apply Gives.current
    rw [Parser.cursor_moved, hcurrent, if_pos hr]
    exact Gives.pure
  | .filled hopens hl hes hr, hn, hh, hts => by
    refine tensor_gives hopens hh fun o => ?_
    refine braces_gives _ hts hl hr ?_
    intro c₁ c₂ o₁ hreads hcurrent
    unfold optionalElements
    apply Gives.current
    rw [Parser.cursor_moved, hes.current hreads, if_neg (by simp)]
    apply Gives.get
    have hlen := hes.length_le
    have hpending := hreads.length_le
    have hcomma : c₂.current.isSymbol ',' = false := by
      rw [hcurrent]
      exact Token.isSymbol_eq_false hr (by decide)
    have := Elements.gives (p := (p.moved p.cursor o).deeper.moved c₁ o₁) c₁.pending.length 0 hes
      (by rw [← hn]; rfl) (by rw [← hh]; rfl) (by omega) hreads hcomma
    rwa [Nat.zero_add] at this
/-- The parser reads all elements between two braces. -/
theorem Elements.gives {n h : Nat} {ts : List Token} {es : List (Option Tensor)} {p : Parser}
    {c : Cursor} (bound index : Nat) :
    Elements n h ts es → p.nesting = n → p.height = h → es.length ≤ bound + 1 →
      p.cursor.Reads ts c → c.current.isSymbol ',' = false →
      (elements (tensor (maxNesting - n)) bound index).Gives p c
        (index + es.length, entries index es)
  | .last he, hn, hh, _, hts, hcomma => by
    cases bound with
    | zero =>
      refine Gives.bind (Element.gives he hn hh hts) fun o => ?_
      simp only [entries, List.append_nil]
      exact Gives.pure
    | succ bound =>
      refine Gives.bind (Element.gives he hn hh hts) fun o => ?_
      apply Gives.current
      rw [Parser.cursor_moved, hcomma, if_neg (by simp)]
      simp only [entries, List.append_nil]
      exact Gives.pure
  | @Elements.more _ _ _ _ _ _ es he hc hes, hn, hh, hlen, hts, hcomma => by
    obtain ⟨c₁, h₁, h⟩ := Cursor.reads_append.mp hts
    obtain ⟨c₂, h₂, h₃⟩ := Cursor.reads_append.mp
      (show c₁.Reads ([_] ++ _) c from h)
    have hcurrent := (Cursor.reads_singleton.mp h₂).1
    cases bound with
    | zero =>
      have := hes.length_pos
      simp only [List.length_cons] at hlen
      omega
    | succ bound =>
      refine Gives.bind (Element.gives he hn hh h₁) fun o => ?_
      apply Gives.current
      rw [Parser.cursor_moved, hcurrent, if_pos hc]
      refine Gives.bind (Gives.advance h₂) fun o₁ => ?_
      have hrest := Elements.gives (p := p.moved c₂ o₁) bound (index + 1) hes hn hh
        (by simp only [List.length_cons] at hlen; omega) h₃ hcomma
      refine Gives.bind hrest fun o₂ => ?_
      rw [List.length_cons, show index + (es.length + 1) = index + 1 + es.length by omega]
      exact Gives.pure
/-- The parser reads every element. -/
theorem Element.gives {n h : Nat} {ts : List Token} {e : Option Tensor} {p : Parser} {c : Cursor} :
    Element n h ts e → p.nesting = n → p.height = h → p.cursor.Reads ts c →
      (element (tensor (maxNesting - n))).Gives p c e
  | .literal hliteral, hn, hh, hts => by
    unfold element
    apply Gives.current
    rw [if_pos (hliteral.current hts)]
    exact Gives.bind (Literal.gives hliteral hn hh hts) fun o => Gives.pure
  | .number hnumber hs, _, _, hts => by
    have hcurrent := (Cursor.reads_singleton.mp hts).1
    unfold element
    apply Gives.current
    rw [hcurrent, Token.isSymbol_eq_false_of_isNumber hnumber, if_neg (by simp)]
    exact signedNumber_gives hts hnumber hs
  | .negative hminus hnumber hs, _, _, hts => by
    have hcurrent : p.cursor.current = _ := hts.1
    unfold element
    apply Gives.current
    rw [hcurrent, Token.isSymbol_eq_false hminus (by decide), if_neg (by simp)]
    exact signedNumber_gives_negative hts hminus hnumber hs
end

/-! ## Expressions -/

/-- A token that does not extend a phrase that stands before it. -/
def Phrase.Follows : Phrase → Token → Prop
  | .expression, t => t.binaryOp? Level.sum.ops = none ∧ t.binaryOp? Level.product.ops = none
  | .term, t => t.binaryOp? Level.product.ops = none
  | .chain .sum _, t => t.binaryOp? Level.product.ops = none
  | _, _ => True

/-- What a bracket or sign holds is read by a factor with less room. -/
def inner : Nat → Option (Parse Expr)
  | 0 => none
  | room + 1 => some (factor room)

theorem factor_eq (room : Nat) : factor room = factorWith (inner room) (Parse.tensor room) := by
  cases room <;> rfl

/-- The operands of a level, with room for brackets and signs. -/
def operandStep (room : Nat) : Level → Parse Expr
  | .sum => term (factor room)
  | .product => factor room

/-- An operand and the chain behind it. -/
def chainStep (level : Level) (operand : Parse Expr) : Parse Expr := do
  let first ← operand
  let p ← get
  chain level.ops operand p.headroom first

section

variable {ops : List BinOp} {operand : Parse Expr} {p : Parser}

/-- A chain ends where no operator follows. -/
theorem chain_gives_done {room : Nat} {left : Expr} (h : p.cursor.current.binaryOp? ops = none) :
    (chain ops operand room left).Gives p p.cursor left := by
  unfold chain
  apply Gives.current
  rw [h]
  exact Gives.pure

/-- A chain goes on with an operator, an operand and a chain one level higher. -/
theorem chain_gives_next {room : Nat} {left right e : Expr} {c₁ c₂ c : Cursor} {t : Token}
    {op : BinOp} (ht : p.cursor.Reads [t] c₁) (hop : t.binaryOp? ops = some op)
    (hright : ∀ o, operand.Gives (p.taller.moved c₁ o) c₂ right)
    (hrest : ∀ o, (chain ops operand room (.binary op left right t)).Gives
      (p.taller.moved c₂ o) c e) :
    (chain ops operand (room + 1) left).Gives p c e := by
  unfold chain
  apply Gives.current
  rw [(Cursor.reads_singleton.mp ht).1, hop]
  refine Gives.bind (Gives.advance ht) fun o => ?_
  obtain ⟨o₁, h₁⟩ := hright o
  obtain ⟨o₂, h₂⟩ := hrest o₁
  refine ⟨o₂, bind_eq_ok.mpr ⟨(), _, rfl, bind_eq_ok.mpr ⟨right, _, h₁, ?_⟩⟩⟩
  refine bind_eq_ok.mpr ⟨e, _, h₂, bind_eq_ok.mpr ⟨(), _, rfl, rfl⟩⟩

end

/-- The step of a phrase reads it as `e` and moves `p` to the cursor `c`. A chain
may go on behind `c`: its step reads all of what the rest of it reads. -/
def Phrase.IsRead (n h : Nat) (p : Parser) (c : Cursor) (e : Expr) : Phrase → Prop
  | .expression => (Parse.expression (Parse.factor (maxNesting - n))).Gives p c e
  | .term => (Parse.term (Parse.factor (maxNesting - n))).Gives p c e
  | .factor => (Parse.factor (maxNesting - n)).Gives p c e
  | .primary => (Parse.primary (inner (maxNesting - n)) (Parse.tensor (maxNesting - n))).Gives p c e
  | .chain level k => ∀ c' e', (∀ o, (Parse.chain level.ops (operandStep (maxNesting - n) level)
        (maxHeight - (h + k)) e).Gives ((p.raised k).moved c o) c' e') →
      (chainStep level (operandStep (maxNesting - n) level)).Gives p c' e'

/-- An operand is read by the step of its level. -/
theorem IsRead.operand {level : Level} {n h : Nat} {p : Parser} {c : Cursor} {e : Expr}
    (hread : level.operand.IsRead n h p c e) : (operandStep (maxNesting - n) level).Gives p c e := by
  cases level with
  | sum => exact hread
  | product => exact hread

/-- What does not extend a chain does not extend its operands either. -/
theorem Follows.operand {level : Level} {k : Nat} {t : Token}
    (hfollows : (Phrase.chain level k).Follows t) : level.operand.Follows t := by
  cases level with
  | sum => exact hfollows
  | product => trivial

/-- An operator of a level ends the operand before it. -/
theorem follows_of_op {level : Level} {k : Nat} {op : BinOp} {t : Token} (hop : op ∈ level.ops)
    (ht : t.isSymbol op.symbol = true) : (Phrase.chain level k).Follows t := by
  cases level with
  | sum =>
    refine Token.binaryOp?_eq_none ht fun op' hop' => ?_
    simp only [Level.ops, List.mem_cons, List.not_mem_nil, or_false] at hop hop'
    rcases hop with rfl | rfl <;> rcases hop' with rfl | rfl <;> decide
  | product => trivial

/-- An expression before a closing parenthesis or a semicolon is complete. -/
theorem follows_expression {t : Token} {c : Char} (ht : t.isSymbol c = true)
    (hc : ∀ op : BinOp, op.symbol ≠ c) : Phrase.expression.Follows t :=
  ⟨Token.binaryOp?_eq_none ht fun op _ => hc op, Token.binaryOp?_eq_none ht fun op _ => hc op⟩

section

variable {symbols : SymbolTable} {n h : Nat} {p : Parser} {c : Cursor}

/-- Where a bracket or sign may open, there is room for one more. -/
theorem Opens.room (hopens : Opens n h) : maxNesting - n = maxNesting - (n + 1) + 1 := by
  have := hopens.1
  omega

theorem factor_gives_parentheses {l r : Token} {ts : List Token} {e : Expr}
    (hp : p.StandsAt symbols n h) (hts : p.cursor.Reads (l :: (ts ++ [r])) c) (hopens : Opens n h)
    (hl : l.isSymbol '(' = true) (hr : r.isSymbol ')' = true)
    (hinner : ∀ (q : Parser) (c' : Cursor), q.StandsAt symbols (n + 1) (h + 1) →
      q.cursor.Reads ts c' → Phrase.expression.Follows c'.current →
      (Parse.expression (Parse.factor (maxNesting - (n + 1)))).Gives q c' e) :
    (Parse.factor (maxNesting - n)).Gives p c e := by
  obtain ⟨c₁, h₁, htail⟩ := Cursor.reads_append.mp
    (show p.cursor.Reads ([l] ++ (ts ++ [r])) c from hts)
  obtain ⟨c₂, h₂, h₃⟩ := Cursor.reads_append.mp htail
  have hcurrent := (Cursor.reads_singleton.mp h₁).1
  rw [hopens.room]
  refine Gives.tagged fun o => ?_
  apply Gives.current
  rw [Parser.cursor_moved, hcurrent, if_pos hl]
  refine Gives.bind (Gives.advance h₁) fun o₁ => ?_
  have hp₁ := hp.moved c₁ o₁
  refine Gives.descend (by rw [Parser.moved_moved, hp₁.height]; exact hopens.2) ?_
  have hfollows : Phrase.expression.Follows c₂.current := by
    rw [(Cursor.reads_singleton.mp h₃).1]
    exact follows_expression hr fun op => by cases op <;> decide
  refine Gives.bind (hinner _ c₂ hp₁.deeper h₂ hfollows) fun o₂ => ?_
  exact Gives.bind (Gives.expectSymbol h₃ hr) fun o₃ => Gives.pure

theorem primary_gives_number {inner : Option (Parse Expr)} {literal : Parse Tensor} {t : Token}
    {s : Scalar} (hts : p.cursor.Reads [t] c) (hnumber : t.isNumber = true)
    (hs : t.number? = some s) : (Parse.primary inner literal).Gives p c (.scalar s t) := by
  refine Gives.tagged fun o => ?_
  apply Gives.current
  rw [Parser.cursor_moved, (Cursor.reads_singleton.mp hts).1]
  have hgives : (scalar >>= fun s => pure (Expr.scalar s t)).Gives (p.moved p.cursor o) c
      (.scalar s t) := Gives.bind (scalar_gives hts hnumber hs) fun o => Gives.pure
  simp only [Token.isNumber, Bool.or_eq_true, decide_eq_true_eq] at hnumber
  rcases hnumber with hkind | hkind
  · rw [hkind]
    exact hgives
  · rw [hkind]
    exact hgives

theorem primary_gives_name {inner : Option (Parse Expr)} {literal : Parse Tensor} {t : Token}
    (hts : p.cursor.Reads [t] c) (hkind : t.kind = .identifier) :
    (Parse.primary inner literal).Gives p c
      (.name t.lexeme (p.symbols.storageOf? t.lexeme) t) := by
  refine Gives.tagged fun o => ?_
  apply Gives.current
  rw [Parser.cursor_moved, (Cursor.reads_singleton.mp hts).1, hkind]
  obtain ⟨o₁, h₁⟩ := Gives.advance (p := p.moved p.cursor o) hts
  exact ⟨o₁, bind_eq_ok.mpr ⟨_, _, rfl, bind_eq_ok.mpr ⟨t, _, h₁, rfl⟩⟩⟩

theorem primary_gives_tensor {inner : Option (Parse Expr)} {brace : Token} {ts : List Token}
    {literal : Tensor} (hp : p.StandsAt symbols n h) (hts : p.cursor.Reads (brace :: ts) c)
    (hliteral : Literal n h (brace :: ts) literal) :
    (Parse.primary inner (Parse.tensor (maxNesting - n))).Gives p c (.tensor literal brace) := by
  have hcurrent : p.cursor.current = brace := hts.1
  have hbrace := hliteral.current hts
  rw [hcurrent] at hbrace
  refine Gives.tagged fun o => ?_
  apply Gives.current
  rw [Parser.cursor_moved, hcurrent, Token.kind_of_isSymbol hbrace]
  simp only [hbrace, if_true]
  have hp₁ := hp.moved p.cursor o
  exact Gives.bind (hliteral.gives hp₁.nesting hp₁.height hts) fun o₁ => Gives.pure

theorem primary_gives_sign {literal : Parse Tensor} {op : UnaryOp} {t : Token} {ts : List Token}
    {e : Expr} (hp : p.StandsAt symbols n h) (hts : p.cursor.Reads (t :: ts) c)
    (hopens : Opens n h) (ht : t.isSymbol op.symbol = true)
    (hinner : ∀ q : Parser, q.StandsAt symbols (n + 1) (h + 1) → q.cursor.Reads ts c →
      (Parse.factor (maxNesting - (n + 1))).Gives q c e) :
    (Parse.primary (inner (maxNesting - n)) literal).Gives p c (.unary op e t) := by
  obtain ⟨c₁, h₁, h₂⟩ := Cursor.reads_append.mp (show p.cursor.Reads ([t] ++ ts) c from hts)
  have hkind := Token.kind_of_isSymbol ht
  have hbrace : t.isSymbol '\x7b' = false := Token.isSymbol_eq_false ht (by cases op <;> decide)
  refine Gives.tagged fun o => ?_
  apply Gives.current
  rw [Parser.cursor_moved, (Cursor.reads_singleton.mp h₁).1, hkind]
  simp only [hbrace, Bool.false_eq_true, if_false, (Token.unaryOp?_eq_some hkind).mpr ht]
  refine Gives.bind (Gives.advance h₁) fun o₁ => ?_
  have hp₁ := hp.moved c₁ o₁
  rw [hopens.room]
  refine Gives.bind (Gives.descend (by rw [Parser.moved_moved, hp₁.height]; exact hopens.2) ?_)
    fun o₂ => Gives.pure
  exact hinner _ hp₁.deeper h₂

end

/-- No primary starts with a parenthesis. -/
theorem Derives.current_of_primary {scope : String → Option Storage} {n h : Nat}
    {ts : List Token} {e : Expr} {c c' : Cursor} (H : Derives scope .primary n h ts e)
    (hts : c.Reads ts c') : c.current.isSymbol '(' = false := by
  cases H with
  | number hnumber _ => rw [hts.1]; exact Token.isSymbol_eq_false_of_isNumber hnumber _
  | name hkind => rw [hts.1]; exact Token.isSymbol_eq_false_of_kind hkind (by decide) _
  | tensor hliteral => exact Token.isSymbol_eq_false (hliteral.current hts) (by decide)
  | @sign _ _ op _ _ _ _ ht _ =>
    rw [hts.1]
    exact Token.isSymbol_eq_false ht (by cases op <;> decide)

/-- The parser reads every phrase that the grammar derives, unless what stands
behind it would extend it. -/
theorem Derives.isRead {symbols : SymbolTable} {phrase : Phrase} {n h : Nat} {ts : List Token}
    {e : Expr} (H : Derives symbols.storageOf? phrase n h ts e) :
    ∀ (p : Parser) (c : Cursor), p.StandsAt symbols n h → p.cursor.Reads ts c →
      phrase.Follows c.current → phrase.IsRead n h p c e := by
  induction H with
  | expression hchain ih =>
    intro p c hp hts hfollows
    refine Gives.tagged fun o => ?_
    refine ih (p.moved p.cursor o) c (hp.moved _ _) hts hfollows.2 c _ fun o₁ => ?_
    exact chain_gives_done hfollows.1
  | term hchain ih =>
    intro p c hp hts hfollows
    refine Gives.tagged fun o => ?_
    refine ih (p.moved p.cursor o) c (hp.moved _ _) hts trivial c _ fun o₁ => ?_
    exact chain_gives_done hfollows
  | first hoperand ih =>
    intro p c hp hts hfollows c' e' hrest
    refine Gives.bind (IsRead.operand (ih p c hp hts (Follows.operand hfollows))) fun o => ?_
    apply Gives.get
    rw [Parser.headroom_moved, Parser.headroom, hp.height]
    exact hrest o
  | @next level n h k ts us left right op t hchain hop ht hheight hoperand ihchain ihoperand =>
    intro p c hp hts hfollows c' e' hrest
    obtain ⟨c₁, h₁, htail⟩ := Cursor.reads_append.mp hts
    obtain ⟨c₂, h₂, h₃⟩ := Cursor.reads_append.mp (show c₁.Reads ([t] ++ us) c from htail)
    have hcurrent := (Cursor.reads_singleton.mp h₂).1
    refine ihchain p c₁ hp h₁ (by rw [hcurrent]; exact follows_of_op hop ht) c' e' fun o => ?_
    rw [show maxHeight - (h + k) = maxHeight - (h + (k + 1)) + 1 by omega]
    refine chain_gives_next h₂ (Token.binaryOp?_eq_some ht hop) (fun o₁ => ?_) (fun o₁ => hrest o₁)
    have hp₁ := (hp.raised (k + 1)).moved c₂ o₁
    exact IsRead.operand (ihoperand _ c hp₁ h₃ (Follows.operand hfollows))
  | parentheses hopens hl hexpression hr ih =>
    intro p c hp hts _
    exact factor_gives_parentheses hp hts hopens hl hr ih
  | @primary n h ts e hprimary ih =>
    intro p c hp hts _
    show (Parse.factor (maxNesting - n)).Gives p c e
    rw [factor_eq]
    refine Gives.tagged fun o => ?_
    apply Gives.current
    rw [Parser.cursor_moved, hprimary.current_of_primary hts, if_neg (by simp)]
    exact ih (p.moved p.cursor o) c (hp.moved _ _) hts trivial
  | number hnumber hs =>
    intro p c hp hts _
    exact primary_gives_number hts hnumber hs
  | name hkind =>
    intro p c hp hts _
    rw [← hp.symbols]
    exact primary_gives_name hts hkind
  | tensor hliteral =>
    intro p c hp hts _
    exact primary_gives_tensor hp hts hliteral
  | sign hopens ht hfactor ih =>
    intro p c hp hts _
    exact primary_gives_sign hp hts hopens ht fun q hq hreads => ih q c hq hreads trivial

/-! ## Declarations -/

theorem valueType_gives {p : Parser} {c : Cursor} {t : Token} {type : ValueType}
    (h : p.cursor.Reads [t] c) (ht : t.valueType? = some type) : valueType.Gives p c type := by
  unfold valueType
  apply Gives.current
  rw [(Cursor.reads_singleton.mp h).1, ht]
  exact Gives.bind (Gives.advance h) fun o => Gives.pure

/-- A declaration is read, and its name is declared behind it. -/
theorem Declares.isRead {names : List String} {ts : List Token} {d : Declaration} {p : Parser}
    {c : Cursor} (H : Declares names ts d) (hn : p.nesting = 0) (hh : p.height = 0)
    (hscope : p.symbols.storageOf? = visible names) (hts : p.cursor.Reads ts c) :
    ∃ o, declaration p =
      .ok d ((p.inScope (p.symbols.define d.name d.type .localVar)).moved c o) := by
  cases H with
  | @intro word type name equals semicolon ts valueType rhs hword htype hname hequals hrhs
      hsemicolon =>
    obtain ⟨c₁, h₁, c₂, h₂, c₃, h₃, c₄, h₄, c₅, h₅, h₆⟩ : ∃ c₁, p.cursor.Reads [word] c₁ ∧
        ∃ c₂, c₁.Reads [type] c₂ ∧ ∃ c₃, c₂.Reads [name] c₃ ∧ ∃ c₄, c₃.Reads [equals] c₄ ∧
        ∃ c₅, c₄.Reads ts c₅ ∧ c₅.Reads [semicolon] c := by
      simp only [← Cursor.reads_append]
      exact hts
    have hfollows : Phrase.expression.Follows c₅.current := by
      rw [(Cursor.reads_singleton.mp h₆).1]
      exact follows_expression hsemicolon fun op => by cases op <;> decide
    have hinitializer : ∀ o, initializer.Gives (p.moved c₄ o) c₅ rhs := by
      intro o
      apply Gives.get
      rw [← hscope] at hrhs
      rw [Parser.nestingRoom, Parser.nesting_moved, hn]
      exact hrhs.isRead (p.moved c₄ o) c₅ ⟨rfl, hn, hh⟩ h₅ hfollows
    obtain ⟨o₁, e₁⟩ := Gives.expectKeyword (p := p.moved p.cursor (p.trace.openTag "var_dec"))
      h₁ hword
    obtain ⟨o₂, e₂⟩ := valueType_gives (p := p.moved c₁ o₁) h₂ htype
    obtain ⟨o₃, e₃⟩ := Gives.expectIdentifier (p := p.moved c₂ o₂) h₃ hname
    obtain ⟨o₄, e₄⟩ := Gives.expectSymbol (p := p.moved c₃ o₃) h₄ hequals
    obtain ⟨o₅, e₅⟩ := hinitializer o₄
    obtain ⟨o₆, e₆⟩ := Gives.expectSymbol
      (p := (p.inScope (p.symbols.define name.lexeme valueType .localVar)).moved c₅ o₅) h₆ hsemicolon
    refine ⟨o₆.closeTag "var_dec", tagged_eq_ok.mpr ⟨(p.inScope _).moved c o₆, ?_, rfl⟩⟩
    refine bind_eq_ok.mpr ⟨_, _, e₁, bind_eq_ok.mpr ⟨_, _, e₂, bind_eq_ok.mpr ⟨_, _, e₃, ?_⟩⟩⟩
    refine bind_eq_ok.mpr ⟨_, _, e₄, bind_eq_ok.mpr ⟨_, _, e₅, bind_eq_ok.mpr ⟨_, _, rfl, ?_⟩⟩⟩
    exact bind_eq_ok.mpr ⟨_, _, e₆, rfl⟩

theorem Declares.current {names : List String} {ts : List Token} {d : Declaration} {c c' : Cursor}
    (H : Declares names ts d) (hts : c.Reads ts c') : c.current.isKeyword .letWord = true := by
  cases H with
  | intro hword _ _ _ _ _ => rw [hts.1]; exact hword

/-- A block is read up to the first token that starts no declaration, given a
bound that is not below the number of its declarations. -/
theorem Statements.isRead {names : List String} {ts : List Token} {ds : List Declaration}
    (H : Statements names ts ds) : ∀ (bound : Nat) (p : Parser) (c : Cursor), ds.length ≤ bound →
      p.nesting = 0 → p.height = 0 → p.symbols.Bounded →
      p.symbols.storageOf? = visible names → p.cursor.Reads ts c →
      c.current.isKeyword .letWord = false →
      ∃ o, declarations bound p = .ok ds ((p.inScope
        (p.symbols.defineAll (ds.map fun d => (d.name, d.type, .localVar)))).moved c o) := by
  induction H with
  | nil =>
    intro bound p c _ _ _ _ _ hts hend
    cases hts
    cases bound with
    | zero => exact ⟨p.trace, rfl⟩
    | succ bound =>
      refine ⟨p.trace, bind_eq_ok.mpr ⟨p.cursor.current, p, rfl, ?_⟩⟩
      rw [if_neg (by simp [hend])]
      rfl
  | @cons names ts us d ds hd hds ih =>
    intro bound p c hbound hn hh hbounded hscope hts hend
    obtain ⟨c₁, h₁, h₂⟩ := Cursor.reads_append.mp hts
    cases bound with
    | zero => exact absurd hbound (by simp)
    | succ bound =>
      obtain ⟨o, e₁⟩ := hd.isRead hn hh hscope h₁
      obtain ⟨o₁, e₂⟩ := ih bound
        ((p.inScope (p.symbols.define d.name d.type .localVar)).moved c₁ o) c
        (Nat.le_of_succ_le_succ hbound) hn hh (hbounded.define d.name d.type .localVar)
        (SymbolTable.storageOf?_define hbounded hscope d.name d.type) h₂ hend
      refine ⟨o₁, bind_eq_ok.mpr ⟨p.cursor.current, p, rfl, ?_⟩⟩
      rw [if_pos (hd.current h₁)]
      exact bind_eq_ok.mpr ⟨d, _, e₁, bind_eq_ok.mpr ⟨ds, _, e₂, rfl⟩⟩

/-- Every declaration has a token. -/
theorem Statements.length_le {names : List String} {ts : List Token} {ds : List Declaration}
    (H : Statements names ts ds) : ds.length ≤ ts.length := by
  induction H with
  | nil => exact Nat.le_refl 0
  | cons hd hds ih =>
    cases hd with
    | intro _ _ _ _ _ _ =>
      simp only [List.length_cons, List.length_append]
      omega

/-- The parser reads every source that the grammar derives. -/
theorem Statements.unit_isRead {ts : List Token} {ds : List Declaration} {p : Parser} {c : Cursor}
    (H : Statements [] ts ds) (hn : p.nesting = 0) (hh : p.height = 0)
    (hts : p.cursor.Reads ts c) (hend : c.current.isEnd = true) :
    ∃ p', Parse.unit p = .ok ⟨unitLabel, p.cursor.current, [⟨p.cursor.current, ds⟩]⟩ p' ∧
      p'.symbols = .ofDeclarations ds := by
  have hbound : ds.length ≤ p.cursor.pending.length + 1 :=
    Nat.le_trans H.length_le hts.length_le
  have hword : c.current.isKeyword .letWord = false := by
    simp only [Token.isEnd, decide_eq_true_eq] at hend
    simp [Token.isKeyword, hend]
  -- The parser inside the tags of the unit and of its block, in the scope of the block.
  let q : Parser := (p.inScope .empty).moved p.cursor
    ((p.trace.openTag unitLabel).openTag "statements")
  obtain ⟨o, e⟩ := H.isRead _ q c hbound hn hh SymbolTable.bounded_empty
    SymbolTable.storageOf?_empty hts hword
  have hblock : ∃ p', Parse.block (p.moved p.cursor (p.trace.openTag unitLabel)) =
      .ok ⟨p.cursor.current, ds⟩ p' ∧ p'.cursor = c ∧ p'.symbols = .ofDeclarations ds := by
    refine ⟨(q.inScope (.ofDeclarations ds)).moved c (o.closeTag "statements"), ?_, rfl, rfl⟩
    refine bind_eq_ok.mpr ⟨_, _, rfl, tagged_eq_ok.mpr ⟨(q.inScope _).moved c o, ?_, rfl⟩⟩
    exact bind_eq_ok.mpr ⟨(), q, rfl, bind_eq_ok.mpr ⟨q, q, rfl, bind_eq_ok.mpr ⟨ds, _, e, rfl⟩⟩⟩
  obtain ⟨p', hp', hcursor, hsymbols⟩ := hblock
  refine ⟨_, bind_eq_ok.mpr ⟨_, _, rfl, tagged_eq_ok.mpr ⟨p', ?_, rfl⟩⟩, hsymbols⟩
  refine bind_eq_ok.mpr ⟨_, p', hp', bind_eq_ok.mpr ⟨_, p', rfl, ?_⟩⟩
  rw [hcursor, if_pos hend]
  rfl

end Grammar

end TensorLet
