import TensorLet.Proofs.Parser.Steps

/-!
# Every success is a derivation

What a production of the parser returns is the tree of a derivation of the
tokens it has read, at the nesting and the height that its counters showed when
it started. The recursion of the parser goes by the room for nesting, so each
result about it is an induction on that room; the chains of operators are an
induction on the room for height.

* `tensor_yields`: tensor literals.
* `factor_yields`, `expression_yields`: expressions.
* `declaration_sound`, `unit_sound`: declarations and whole sources, with the
  symbols they leave.
-/

namespace TensorLet.Parse

open Grammar

/-! ## Tensor literals -/

/-- A number that is read is the finite number of the token under the cursor. -/
theorem scalar_yields {p : Parser} (h : p.cursor.current.isNumber = true) :
    scalar.Yields p fun ts s => ts = [p.cursor.current] ∧ p.cursor.current.number? = some s := by
  intro s p' hs
  obtain ⟨t, q, hq, hs⟩ := bind_eq_ok.mp hs
  obtain ⟨c, hc, rfl⟩ := advance_eq_ok.mp hq
  have ht := Cursor.current_of_advance hc
  cases hts : t.scalar with
  | error e =>
    rw [hts] at hs
    cases hs
  | ok s' =>
    rw [hts] at hs
    cases hs
    obtain ⟨hnumber, hfinite⟩ := (Token.scalar_eq_ok_iff t s).mp hts
    have hend : t.isEnd = false := by
      rw [ht] at h
      simp only [Token.isNumber, Bool.or_eq_true, decide_eq_true_eq] at h
      rcases h with h | h <;> simp [Token.isEnd, h]
    rw [ht]
    refine ⟨[t], c, _, ?_, rfl, rfl, hnumber⟩
    exact Cursor.reads_singleton.mpr ⟨ht, ⟨hend, fun _ => ⟨s, hnumber, hfinite⟩⟩, hc⟩

theorem signedNumber_yields (p : Parser) (n h : Nat) : signedNumber.Yields p (Element n h) := by
  unfold signedNumber
  apply Yields.current
  extract_lets negative after
  -- What follows an optional minus sign, at whichever parser that leaves.
  have hafter : ∀ q : Parser, (after ()).Yields q fun us e => ∃ t s, us = [t] ∧
      t.isNumber = true ∧ t.number? = some s ∧
      e = stored { s with value := if negative then s.value.negate else s.value } := by
    intro q
    apply Yields.current
    split
    next hnumber =>
      refine Yields.bind (scalar_yields hnumber) ?_
      rintro ts s c o - ⟨rfl, hs⟩
      exact Yields.pure ⟨_, s, rfl, hnumber, hs, rfl⟩
    next => exact Yields.unexpected
  split
  next hneg =>
    refine Yields.bind (Yields.advance (Token.readable_of_isSymbol hneg)) ?_
    rintro _ minus c o - ⟨rfl, rfl⟩
    refine (hafter _).mono ?_
    rintro us e ⟨t, s, rfl, hnumber, hs, rfl⟩
    rw [if_pos hneg]
    exact Element.negative hneg hnumber hs
  next hneg =>
    refine (hafter _).mono ?_
    rintro us e ⟨t, s, rfl, hnumber, hs, rfl⟩
    rw [if_neg hneg]
    exact Element.number hnumber hs

section

variable {nested : Parse Tensor} {n h : Nat}

theorem element_yields {p : Parser} (hnested : nested.Yields p (Literal n h)) :
    (element nested).Yields p (Element n h) := by
  unfold element
  apply Yields.current
  split
  · refine Yields.bind hnested ?_
    intro ts t c o _ ht
    refine Yields.pure ?_
    rw [List.append_nil]
    exact Element.literal ht
  · exact signedNumber_yields p n h

/-- The elements read from position `index` on, with the position behind them. -/
theorem elements_yields (hnested : ∀ q : Parser, q.nesting = n → q.height = h →
      nested.Yields q (Literal n h)) :
    ∀ (bound index : Nat) (p : Parser), p.nesting = n → p.height = h →
      (elements nested bound index).Yields p fun ts r => ∃ es, Elements n h ts es ∧
        r = (index + es.length, entries index es) := by
  intro bound
  induction bound with
  | zero =>
    intro index p hn hh
    refine Yields.bind (element_yields (hnested p hn hh)) ?_
    intro ts e c o _ he
    refine Yields.pure ⟨[e], ?_, ?_⟩
    · rw [List.append_nil]
      exact Elements.last he
    · simp [entries]
  | succ bound ih =>
    intro index p hn hh
    refine Yields.bind (element_yields (hnested p hn hh)) ?_
    intro ts e c o _ he
    apply Yields.current
    split
    next hcomma =>
      refine Yields.bind (Yields.advance (Token.readable_of_isSymbol hcomma)) ?_
      rintro _ comma c₁ o₁ - ⟨rfl, rfl⟩
      refine Yields.bind (ih (index + 1) _ hn hh) ?_
      rintro us _ c₂ o₂ - ⟨es, hes, rfl⟩
      refine Yields.pure ⟨e :: es, ?_, ?_⟩
      · rw [List.append_nil]
        exact Elements.more he hcomma hes
      · simp only [List.length_cons, entries]
        rw [show index + 1 + es.length = index + (es.length + 1) by omega]
    next =>
      refine Yields.pure ⟨[e], ?_, ?_⟩
      · rw [List.append_nil]
        exact Elements.last he
      · simp [entries]

/-- Nothing at all, or elements: the brace that closes them is checked by the
same test. -/
theorem optionalElements_yields (hnested : ∀ q : Parser, q.nesting = n → q.height = h →
      nested.Yields q (Literal n h)) {p : Parser} (hn : p.nesting = n) (hh : p.height = h) :
    (optionalElements nested).Yields p fun ts r => (ts = [] ∧ r = (0, [])) ∨
      ∃ es, Elements n h ts es ∧ r = (es.length, entries 0 es) := by
  unfold optionalElements
  apply Yields.current
  split
  · exact Yields.pure (.inl ⟨rfl, rfl⟩)
  · apply Yields.get
    refine (elements_yields hnested _ 0 p hn hh).mono ?_
    rintro ts r ⟨es, hes, rfl⟩
    exact .inr ⟨es, hes, by rw [Nat.zero_add]⟩

theorem braces_yields (hopens : Opens n h) (hnested : ∀ q : Parser, q.nesting = n + 1 →
      q.height = h + 1 → nested.Yields q (Literal (n + 1) (h + 1)))
    {p : Parser} (hn : p.nesting = n + 1) (hh : p.height = h + 1) :
    (braces nested).Yields p (Literal n h) := by
  unfold braces
  refine Yields.bind Yields.expectSymbol ?_
  rintro _ l c o - ⟨rfl, hl⟩
  refine Yields.bind (optionalElements_yields hnested hn hh) ?_
  rintro ts ⟨extent, stored⟩ c₁ o₁ - hts
  apply Yields.current
  split
  next hr =>
    refine Yields.bind (Yields.advance (Token.readable_of_isSymbol hr)) ?_
    rintro _ r c₂ o₂ - ⟨rfl, rfl⟩
    refine Yields.pure ?_
    rcases hts with ⟨rfl, heq⟩ | ⟨es, hes, heq⟩
    · cases heq
      exact Literal.empty hopens hl hr
    · cases heq
      exact Literal.filled hopens hl hes hr
  next => exact Yields.throw

end

/-- A tensor literal is read in as many braces as there is room for. -/
theorem tensor_yields : ∀ (room : Nat) (p : Parser), room = maxNesting - p.nesting →
    (tensor room).Yields p (Literal p.nesting p.height) := by
  intro room
  induction room with
  | zero =>
    intro p _
    refine Yields.tagged fun o => ?_
    apply Yields.current
    refine Yields.descend ?_
    intro step hstep
    cases hstep
  | succ room ih =>
    intro p hroom
    refine Yields.tagged fun o => ?_
    apply Yields.current
    refine Yields.descend ?_
    intro step hstep hheight
    cases hstep
    refine braces_yields ⟨by omega, hheight⟩ ?_ rfl rfl
    intro q hn hh
    have := ih q (by omega)
    rwa [hn, hh] at this

/-! ## Expressions -/

/-- The step reads phrases of one kind wherever the parser has the given symbols
and nesting. -/
def PhraseStep (phrase : Phrase) (symbols : SymbolTable) (n : Nat) (step : Parse Expr) : Prop :=
  ∀ p : Parser, p.symbols = symbols → p.nesting = n →
    step.Yields p (Derives symbols.storageOf? phrase n p.height)

section

variable {symbols : SymbolTable} {n : Nat}

/-- What is left of a chain extends the derivation of its first operators. The
height is the one at the start of the chain plus the operators read so far. -/
theorem chain_yields {level : Level} {operand : Parse Expr}
    (hoperand : PhraseStep level.operand symbols n operand) (h : Nat) :
    ∀ (room k : Nat) (ts : List Token) (left : Expr) (p : Parser), p.symbols = symbols →
      p.nesting = n → p.height = h + k → room = maxHeight - p.height →
      Derives symbols.storageOf? (.chain level k) n h ts left →
      (chain level.ops operand room left).Yields p fun us e =>
        ∃ k', Derives symbols.storageOf? (.chain level k') n h (ts ++ us) e := by
  intro room
  induction room with
  | zero =>
    intro k ts left p _ _ _ _ hleft
    unfold chain
    apply Yields.current
    split
    next =>
      refine Yields.pure ⟨k, ?_⟩
      rwa [List.append_nil]
    next op hop =>
      have ht := List.find?_some hop
      refine Yields.bind (Yields.advance (Token.readable_of_isSymbol ht)) ?_
      intro _ t c o _ _
      exact Yields.throw
  | succ room ih =>
    intro k ts left p hs hn hh hroom hleft
    unfold chain
    apply Yields.current
    split
    next =>
      refine Yields.pure ⟨k, ?_⟩
      rwa [List.append_nil]
    next op hop =>
      have ht := List.find?_some hop
      refine Yields.bind (Yields.advance (Token.readable_of_isSymbol ht)) ?_
      rintro _ t c o - ⟨rfl, rfl⟩
      intro e p' he
      -- The operator raises the height for its operand and the rest of the chain.
      obtain ⟨_, q₁, hgrow, he⟩ := bind_eq_ok.mp he
      obtain ⟨right, q₂, hright, he⟩ := bind_eq_ok.mp he
      obtain ⟨e', q₃, hrest, he⟩ := bind_eq_ok.mp he
      obtain ⟨_, q₄, hshrink, he⟩ := bind_eq_ok.mp he
      cases hgrow
      cases hshrink
      cases he
      obtain ⟨us, c₁, o₁, hus, rfl, hderives⟩ := hoperand (p.moved c o).taller hs hn right q₂ hright
      have hnext : Derives symbols.storageOf? (.chain level (k + 1)) n h
          (ts ++ p.cursor.current :: us) (.binary op left right p.cursor.current) := by
        refine Derives.next hleft (List.mem_of_find?_eq_some hop) ht (by omega) ?_
        rwa [Parser.height_taller, Parser.height_moved, hh] at hderives
      obtain ⟨vs, c₂, o₂, hvs, rfl, k', hk'⟩ := ih (k + 1) _ _ ((p.moved c o).taller.moved c₁ o₁)
        hs hn (by simp only [Parser.height_moved, Parser.height_taller]; omega)
        (by simp only [Parser.height_moved, Parser.height_taller]; omega) hnext e q₃ hrest
      refine ⟨us ++ vs, c₂, o₂, Cursor.reads_append.mpr ⟨c₁, hus, hvs⟩, rfl, k', ?_⟩
      rwa [List.append_assoc, List.cons_append] at hk'

theorem level_yields (level : Level) {operand : Parse Expr} {tag : String}
    (hoperand : PhraseStep level.operand symbols n operand) {p : Parser}
    (hs : p.symbols = symbols) (hn : p.nesting = n) :
    (Parse.level tag level.ops operand).Yields p fun ts e =>
      ∃ k, Derives symbols.storageOf? (.chain level k) n p.height ts e := by
  refine Yields.tagged fun o => ?_
  refine Yields.bind (hoperand _ hs hn) ?_
  intro ts first c o _ hfirst
  apply Yields.get
  exact chain_yields hoperand p.height _ 0 ts first _ hs hn rfl rfl (Derives.first hfirst)

theorem term_yields {factor : Parse Expr} (hfactor : PhraseStep .factor symbols n factor) :
    PhraseStep .term symbols n (term factor) := by
  intro p hs hn
  refine (level_yields .product hfactor hs hn).mono ?_
  rintro ts e ⟨k, he⟩
  exact Derives.term he

theorem expression_yields {factor : Parse Expr} (hfactor : PhraseStep .factor symbols n factor) :
    PhraseStep .expression symbols n (expression factor) := by
  intro p hs hn
  refine (level_yields .sum (term_yields hfactor) hs hn).mono ?_
  rintro ts e ⟨k, he⟩
  exact Derives.expression he

/-- The steps that read what a bracket or sign holds, where there is room for
one. -/
def InnerStep (symbols : SymbolTable) (n : Nat) (inner : Option (Parse Expr)) : Prop :=
  ∀ factor, inner = some factor → n < maxNesting ∧ PhraseStep .factor symbols (n + 1) factor

theorem parenthesized_yields {inner : Option (Parse Expr)} (hinner : InnerStep symbols n inner)
    {p : Parser} (hs : p.symbols = symbols) (hn : p.nesting = n)
    (hl : p.cursor.current.isSymbol '(' = true) :
    (parenthesized inner).Yields p (Derives symbols.storageOf? .factor n p.height) := by
  unfold parenthesized
  refine Yields.bind (Yields.advance (Token.readable_of_isSymbol hl)) ?_
  rintro _ l c o - ⟨rfl, rfl⟩
  refine Yields.descend ?_
  intro step hstep hheight
  obtain ⟨factor, hfactor, rfl⟩ := Option.map_eq_some_iff.mp hstep
  obtain ⟨hnesting, hfactor⟩ := hinner factor hfactor
  refine Yields.bind (expression_yields hfactor _ hs (by rw [← hn]; rfl)) ?_
  intro ts e c₁ o₁ _ he
  refine Yields.bind Yields.expectSymbol ?_
  rintro _ r c₂ o₂ - ⟨rfl, hr⟩
  refine Yields.pure ?_
  rw [List.append_nil]
  exact Derives.parentheses ⟨hnesting, hheight⟩ hl he hr

theorem signed_yields {inner : Option (Parse Expr)} (hinner : InnerStep symbols n inner)
    {p : Parser} {op : UnaryOp} (hs : p.symbols = symbols) (hn : p.nesting = n)
    (hop : p.cursor.current.isSymbol op.symbol = true) :
    (signed op inner).Yields p (Derives symbols.storageOf? .primary n p.height) := by
  unfold signed
  refine Yields.bind (Yields.advance (Token.readable_of_isSymbol hop)) ?_
  rintro _ t c o - ⟨rfl, rfl⟩
  have hoperand : (descend p.cursor.current.span inner).Yields (p.moved c o) fun ts e =>
      Opens n p.height ∧ Derives symbols.storageOf? .factor (n + 1) (p.height + 1) ts e := by
    refine Yields.descend ?_
    intro factor hfactor hheight
    obtain ⟨hnesting, hfactor⟩ := hinner factor hfactor
    refine (hfactor (p.moved c o).deeper hs (by rw [← hn]; rfl)).mono ?_
    intro ts e he
    exact ⟨⟨hnesting, hheight⟩, he⟩
  refine Yields.bind hoperand ?_
  rintro ts e c₁ o₁ - ⟨hopens, he⟩
  refine Yields.pure ?_
  rw [List.append_nil]
  exact Derives.sign hopens hop he

theorem primary_yields {inner : Option (Parse Expr)} (hinner : InnerStep symbols n inner)
    {literal : Parse Tensor}
    (hliteral : ∀ q : Parser, q.nesting = n → literal.Yields q (Literal n q.height)) :
    PhraseStep .primary symbols n (primary inner literal) := by
  intro p hs hn
  refine Yields.tagged fun o => ?_
  apply Yields.current
  -- A number of either form is read in the same way.
  have hnumber : p.cursor.current.isNumber = true →
      (scalar >>= fun s => pure (Expr.scalar s p.cursor.current)).Yields (p.moved p.cursor o)
        (Derives symbols.storageOf? .primary n p.height) := by
    intro hnumber
    refine Yields.bind (scalar_yields hnumber) ?_
    rintro _ s c o - ⟨rfl, hs⟩
    exact Yields.pure (Derives.number hnumber hs)
  split
  next hkind =>
    exact hnumber (by simp only [Parser.cursor_moved] at hkind; simp [Token.isNumber, hkind])
  next hkind =>
    exact hnumber (by simp only [Parser.cursor_moved] at hkind; simp [Token.isNumber, hkind])
  next hkind =>
    intro e p' he
    obtain ⟨resolved, q, hq, he⟩ := bind_eq_ok.mp he
    cases hq
    rw [← hs]
    refine (Yields.bind (Yields.advance ?_) ?_ : Yields _ (p.moved p.cursor o) _) e p' he
    · exact Token.readable_of_kind hkind (by decide) (by decide) (by decide)
    · rintro _ t c o₁ - ⟨rfl, rfl⟩
      exact Yields.pure (Derives.name hkind)
  next hkind =>
    split
    next hbrace =>
      refine Yields.bind (hliteral (p.moved p.cursor o) hn) ?_
      intro ts t c o₁ hts ht
      refine Yields.pure ?_
      rw [List.append_nil]
      -- The literal starts with the token under the cursor.
      cases ts with
      | nil => cases ht
      | cons brace ts =>
        obtain ⟨rfl, -⟩ := hts
        exact Derives.tensor ht
    next =>
      split
      next op hop =>
        exact signed_yields hinner hs hn ((Token.unaryOp?_eq_some hkind).mp hop)
      next => exact Yields.unexpected
  next => exact Yields.unexpected

theorem factorWith_yields {inner : Option (Parse Expr)} (hinner : InnerStep symbols n inner)
    {literal : Parse Tensor}
    (hliteral : ∀ q : Parser, q.nesting = n → literal.Yields q (Literal n q.height)) :
    PhraseStep .factor symbols n (factorWith inner literal) := by
  intro p hs hn
  refine Yields.tagged fun o => ?_
  apply Yields.current
  split
  next hl => exact parenthesized_yields hinner hs hn hl
  next =>
    refine (primary_yields hinner hliteral (p.moved p.cursor o) hs hn).mono ?_
    intro ts e he
    exact Derives.primary he

/-- A factor is read in as many brackets and signs as there is room for. -/
theorem factor_yields : ∀ (room n : Nat), room = maxNesting - n →
    PhraseStep .factor symbols n (factor room) := by
  intro room
  induction room with
  | zero =>
    intro n hroom
    refine factorWith_yields ?_ ?_
    · intro factor hfactor
      cases hfactor
    · intro q hq
      have := tensor_yields 0 q (by omega)
      rwa [hq] at this
  | succ room ih =>
    intro n hroom
    refine factorWith_yields ?_ ?_
    · intro factor hfactor
      cases hfactor
      exact ⟨by omega, ih (n + 1) (by omega)⟩
    · intro q hq
      have := tensor_yields (room + 1) q (by omega)
      rwa [hq] at this

end

/-! ## Declarations -/

theorem valueType_yields {p : Parser} :
    valueType.Yields p fun ts type => ∃ t, ts = [t] ∧ t.valueType? = some type := by
  unfold valueType
  apply Yields.current
  split
  next type htype =>
    refine Yields.bind (Yields.advance (Token.readable_of_valueType? htype)) ?_
    rintro _ t c o - ⟨rfl, rfl⟩
    exact Yields.pure ⟨_, rfl, htype⟩
  next => exact Yields.unexpected

theorem initializer_yields {p : Parser} {names : List String} (hn : p.nesting = 0)
    (hh : p.height = 0) (hscope : p.symbols.storageOf? = visible names) :
    initializer.Yields p (Derives (visible names) .expression 0 0) := by
  unfold initializer
  apply Yields.get
  have hfactor : PhraseStep .factor p.symbols 0 (factor p.nestingRoom) :=
    factor_yields _ 0 (by rw [Parser.nestingRoom, hn])
  have := expression_yields hfactor p rfl hn
  rwa [hh, hscope] at this

theorem declaration_sound {p p' : Parser} {d : Declaration} {names : List String}
    (hn : p.nesting = 0) (hh : p.height = 0) (hscope : p.symbols.storageOf? = visible names)
    (h : declaration p = .ok d p') :
    ∃ ts c o, p.cursor.Reads ts c ∧
      p' = (p.inScope (p.symbols.define d.name d.type .localVar)).moved c o ∧
      Declares names ts d := by
  obtain ⟨q, hq, rfl⟩ := tagged_eq_ok.mp h
  obtain ⟨_, word, c₁, o₁, h₁, ⟨rfl, hword⟩, hq⟩ := Yields.expectKeyword.uncons hq
  obtain ⟨_, type, c₂, o₂, h₂, ⟨typeName, rfl, htype⟩, hq⟩ := valueType_yields.uncons hq
  obtain ⟨_, name, c₃, o₃, h₃, ⟨rfl, hname⟩, hq⟩ := Yields.expectIdentifier.uncons hq
  obtain ⟨_, equals, c₄, o₄, h₄, ⟨rfl, hequals⟩, hq⟩ := Yields.expectSymbol.uncons hq
  obtain ⟨ts, rhs, c₅, o₅, h₅, hrhs, hq⟩ :=
    (initializer_yields (p := p.moved c₄ o₄) hn hh hscope).uncons hq
  -- The name is declared here, between its initializer and the semicolon.
  obtain ⟨_, q₆, hdefine, hq⟩ := bind_eq_ok.mp hq
  cases hdefine
  obtain ⟨_, semicolon, c₇, o₇, h₇, ⟨rfl, hsemicolon⟩, hq⟩ := Yields.expectSymbol.uncons hq
  cases hq
  refine ⟨[word] ++ ([typeName] ++ ([name] ++ ([equals] ++ (ts ++ [semicolon])))), c₇, _, ?_, rfl, ?_⟩
  · simp only [Cursor.reads_append]
    exact ⟨c₁, h₁, c₂, h₂, c₃, h₃, c₄, h₄, c₅, h₅, h₇⟩
  · exact Declares.intro hword htype hname hequals hrhs hsemicolon

/-- The declarations that are read extend the scope they start in. -/
theorem declarations_sound : ∀ (bound : Nat) (p p' : Parser) (ds : List Declaration)
    (names : List String), declarations bound p = .ok ds p' → p.nesting = 0 → p.height = 0 →
    p.symbols.Bounded → p.symbols.storageOf? = visible names →
    ∃ ts c o, p.cursor.Reads ts c ∧
      p' = (p.inScope (p.symbols.defineAll (ds.map fun d => (d.name, d.type, .localVar)))).moved
        c o ∧ Statements names ts ds := by
  intro bound
  induction bound with
  | zero =>
    intro p p' ds names h _ _ _ _
    cases h
    exact ⟨[], p.cursor, p.trace, rfl, rfl, .nil⟩
  | succ bound ih =>
    intro p p' ds names h hn hh hbounded hscope
    unfold declarations at h
    obtain ⟨t, q, ht, h⟩ := bind_eq_ok.mp h
    cases ht
    split at h
    next =>
      obtain ⟨d, q, hd, h⟩ := bind_eq_ok.mp h
      obtain ⟨ds', q', hds', h⟩ := bind_eq_ok.mp h
      cases h
      obtain ⟨ts, c, o, hts, rfl, hdeclares⟩ := declaration_sound hn hh hscope hd
      obtain ⟨us, c', o', hus, rfl, hstatements⟩ :=
        ih _ _ _ (d.name :: names) hds' hn hh (hbounded.define d.name d.type .localVar)
          (SymbolTable.storageOf?_define hbounded hscope d.name d.type)
      refine ⟨ts ++ us, c', o', Cursor.reads_append.mpr ⟨c, hts, hus⟩, rfl, ?_⟩
      exact Statements.cons hdeclares hstatements
    next =>
      cases h
      exact ⟨[], p.cursor, p.trace, rfl, rfl, .nil⟩

/-- A block that is read is the one its tokens write, in a scope of its own. -/
theorem block_sound {p p' : Parser} {b : Block} (hn : p.nesting = 0) (hh : p.height = 0)
    (h : block p = .ok b p') :
    ∃ ts ds, p.cursor.Reads ts p'.cursor ∧ Statements [] ts ds ∧
      b = ⟨p.cursor.current, ds⟩ ∧ p'.symbols = .ofDeclarations ds := by
  obtain ⟨t, q, ht, h⟩ := bind_eq_ok.mp h
  cases ht
  obtain ⟨q, hds, rfl⟩ := tagged_eq_ok.mp h
  obtain ⟨_, q₁, hnew, hds⟩ := bind_eq_ok.mp hds
  cases hnew
  obtain ⟨_, q₂, hget, hds⟩ := bind_eq_ok.mp hds
  cases hget
  obtain ⟨ds, q₃, hds, hpure⟩ := bind_eq_ok.mp hds
  cases hpure
  obtain ⟨ts, c, o, hts, rfl, hstatements⟩ :=
    declarations_sound _ _ _ _ [] hds hn hh SymbolTable.bounded_empty SymbolTable.storageOf?_empty
  exact ⟨ts, ds, hts, hstatements, rfl, rfl⟩

/-- A program that is read is the one its tokens write, and the end of the source
follows them. -/
theorem unit_sound {p p' : Parser} {program : Program} (hn : p.nesting = 0) (hh : p.height = 0)
    (h : unit p = .ok program p') :
    ∃ ts c ds, p.cursor.Reads ts c ∧ c.current.isEnd = true ∧ Statements [] ts ds ∧
      program = ⟨unitLabel, p.cursor.current, [⟨p.cursor.current, ds⟩]⟩ ∧
      p'.symbols = .ofDeclarations ds := by
  obtain ⟨t, q, ht, h⟩ := bind_eq_ok.mp h
  cases ht
  obtain ⟨q, hq, rfl⟩ := tagged_eq_ok.mp h
  obtain ⟨b, q₁, hb, hq⟩ := bind_eq_ok.mp hq
  obtain ⟨ts, ds, hts, hstatements, rfl, hsymbols⟩ :=
    block_sound (p := p.moved p.cursor (p.trace.openTag unitLabel)) hn hh hb
  obtain ⟨t, q₂, ht, hq⟩ := bind_eq_ok.mp hq
  cases ht
  split at hq
  next hend =>
    cases hq
    exact ⟨ts, _, ds, hts, hend, hstatements, rfl, hsymbols⟩
  next => cases hq

end TensorLet.Parse
