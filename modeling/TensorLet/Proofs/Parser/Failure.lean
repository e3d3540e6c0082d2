import TensorLet.Proofs.Parser.Height

/-!
# What was read before an unexpected token

A parser step that fails because of the token it finds has read, up to this
token, the beginning of a phrase. What is missing of the phrase can be written
in a few words that need no room: a number for an operand, brackets for those
that are open, the rest of a declaration.

* `Completes R ts`: some words complete `ts` to tokens that `R` relates to a
  value.
* `step.Stops p C`: whenever the step fails at `p` because of a token, this is
  the token it stands on, and `C` holds of the tokens it has read.
* `tensor_stops`, `factor_stops`, `declarations_stops`, `unit_stops`: what each
  production has read can be completed to a phrase of the grammar.
-/

namespace TensorLet

/-- The token that a fault finds where something else was expected. -/
def Fault.found? : Fault → Option Token
  | .unexpected _ found => some found
  | .unclosedTensor found => some found
  | _ => none

/-! ## Completions -/

/-- A token that can be read and that is scanned again where it is written before
a blank. -/
def Token.Plain (t : Token) : Prop := t.Readable ∧ t.word.Scans

theorem plain_token {w : Word} (h : Grammar.Tower.Plain w) (hend : w.kind ≠ .endOfInput) :
    (w.token 0).Plain := by
  refine ⟨⟨?_, h.2 0⟩, ?_⟩
  · simp [Token.isEnd, Word.token, hend]
  · rw [Word.word_token]
    exact h.1

/-- Plain tokens complete `ts` to tokens that `R` relates to a value. -/
def Completes {α : Type} (R : List Token → α → Prop) (ts : List Token) : Prop :=
  ∃ us a, (∀ u ∈ us, u.Plain) ∧ R (ts ++ us) a

namespace Completes

variable {α β : Type} {R : List Token → α → Prop} {S : List Token → β → Prop} {ts us : List Token}

theorem done {a : α} (h : R ts a) : Completes R ts :=
  ⟨[], a, by simp, by rwa [List.append_nil]⟩

/-- One more token completes what this token and some more complete. -/
theorem cons {u : Token} (hu : u.Plain) (h : Completes R (ts ++ [u])) : Completes R ts := by
  obtain ⟨us, a, hus, ha⟩ := h
  refine ⟨u :: us, a, ?_, ?_⟩
  · intro v hv
    rcases List.mem_cons.mp hv with rfl | hv
    · exact hu
    · exact hus v hv
  · rwa [List.append_assoc, List.singleton_append] at ha

/-- A phrase that is completed inside a larger one is completed to it, if the
larger one can be completed behind it. -/
theorem within (h : Completes R us) (hR : ∀ vs a, R vs a → Completes S (ts ++ vs)) :
    Completes S (ts ++ us) := by
  obtain ⟨vs, a, hvs, ha⟩ := h
  obtain ⟨ws, b, hws, hb⟩ := hR _ a ha
  refine ⟨vs ++ ws, b, ?_, ?_⟩
  · intro v hv
    rcases List.mem_append.mp hv with hv | hv
    · exact hvs v hv
    · exact hws v hv
  · rwa [← List.append_assoc, List.append_assoc ts]

theorem mono (h : Completes R ts) (hR : ∀ vs a, R vs a → Completes S vs) : Completes S ts := by
  show Completes S ([] ++ ts)
  exact h.within hR

end Completes

namespace Cursor

/-- No pending error names a token. -/
def Lexical (c : Cursor) : Prop := ∀ e, .error e ∈ c.pending → e.fault.found? = none

theorem Lexical.reads {c c' : Cursor} {ts : List Token} (h : c.Lexical) (hts : c.Reads ts c') :
    c'.Lexical := by
  induction ts generalizing c with
  | nil =>
    cases hts
    exact h
  | cons t ts ih =>
    obtain ⟨-, -, c₁, hadvance, hts⟩ := hts
    refine ih ?_ hts
    unfold advance at hadvance
    split at hadvance
    next hnil =>
      cases hadvance
      exact fun e he => absurd he (by simp [hnil])
    next hcons =>
      cases hadvance
      exact fun e he => h e (by rw [hcons]; exact List.mem_cons_of_mem _ he)
    next => cases hadvance

end Cursor

namespace Parse

variable {α β : Type}

/-! ## Steps that stop at a token -/

/-- Whenever the step fails at `p` because of a token, the parser has read tokens
of which `C` holds and stands on the one it found. -/
def Stops (step : Parse α) (p : Parser) (C : List Token → Prop) : Prop :=
  p.cursor.Lexical → ∀ e p' t, step p = .error e p' → e.fault.found? = some t →
    p'.cursor.current = t ∧ ∃ ts, p.cursor.Reads ts p'.cursor ∧ C ts

namespace Stops

variable {p : Parser} {x : Parse α} {C : List Token → Prop}

theorem pure {a : α} : (Pure.pure a : Parse α).Stops p C := by
  intro _ e p' t h
  cases h

theorem throw {e : Error} (he : e.fault.found? = none) :
    (MonadExcept.throw e : Parse α).Stops p C := by
  intro _ e' p' t h hfound
  cases h
  rw [he] at hfound
  cases hfound

/-- A failure that names the current token. -/
theorem throw_current {e : Error} (he : e.fault.found? = some p.cursor.current) (hC : C []) :
    (MonadExcept.throw e : Parse α).Stops p C := by
  intro _ e' p' t h hfound
  cases h
  rw [he] at hfound
  cases hfound
  exact ⟨rfl, [], rfl, hC⟩

theorem unexpected {e : Expectation} (hC : C []) : (Parse.unexpected e : Parse α).Stops p C := by
  intro _ e' p' t h hfound
  cases h
  cases hfound
  exact ⟨rfl, [], rfl, hC⟩

theorem mono {D : List Token → Prop} (hx : x.Stops p C) (h : ∀ ts, C ts → D ts) : x.Stops p D := by
  intro hlexical e p' t he hfound
  obtain ⟨hcurrent, ts, hts, hC⟩ := hx hlexical e p' t he hfound
  exact ⟨hcurrent, ts, hts, h ts hC⟩

/-- A sequence stops in its first part, or behind what this part has read. -/
theorem bind {f : α → Parse β} {R : List Token → α → Prop} (hy : x.Yields p R) (hx : x.Stops p C)
    (hf : ∀ ts a c o, p.cursor.Reads ts c → R ts a →
      (f a).Stops (p.moved c o) fun us => C (ts ++ us)) :
    (x >>= f).Stops p C := by
  intro hlexical e p' t he hfound
  rcases bind_eq_error.mp he with he | ⟨a, q, ha, he⟩
  · exact hx hlexical e p' t he hfound
  · obtain ⟨ts, c, o, hts, rfl, hR⟩ := hy a q ha
    obtain ⟨hcurrent, us, hus, hC⟩ := hf ts a c o hts hR (hlexical.reads hts) e p' t he hfound
    exact ⟨hcurrent, ts ++ us, Cursor.reads_append.mpr ⟨c, hts, hus⟩, hC⟩

/-- What does not fail does not stop. -/
theorem bind_done {f : α → Parse β} (hx : x.Stops p C) (hf : ∀ a q, ∃ b q', f a q = .ok b q') :
    (x >>= f).Stops p C := by
  intro hlexical e p' t he hfound
  rcases bind_eq_error.mp he with he | ⟨a, q, -, he⟩
  · exact hx hlexical e p' t he hfound
  · obtain ⟨b, q', hb⟩ := hf a q
    rw [hb] at he
    cases he

theorem bind_pure {f : α → β} (hx : x.Stops p C) :
    (x >>= fun a => Pure.pure (f a) : Parse β).Stops p C :=
  hx.bind_done fun a q => ⟨f a, q, rfl⟩

theorem current {f : Token → Parse α} (h : (f p.cursor.current).Stops p C) :
    (Parse.current >>= f).Stops p C := h

theorem get {f : Parser → Parse α} (h : (f p).Stops p C) : (MonadState.get >>= f).Stops p C := h

theorem define {f : Unit → Parse α} {y : String} {type : ValueType} {storage : Storage}
    (h : (f ()).Stops (p.inScope (p.symbols.define y type storage)) C) :
    (Parse.define y type storage >>= f).Stops p C := h

theorem grow {f : Unit → Parse α} (h : (f ()).Stops p.taller C) : (Parse.grow >>= f).Stops p C := h

theorem newScope {f : Unit → Parse α} (h : (f ()).Stops (p.inScope .empty) C) :
    (Parse.newScope >>= f).Stops p C := h

theorem tagged {tag : String} (h : ∀ o, x.Stops (p.moved p.cursor o) C) :
    (Parse.tagged tag x).Stops p C := by
  intro hlexical e p' t he hfound
  exact h (p.trace.openTag tag) hlexical e p' t (tagged_eq_error.mp he) hfound

/-- What comes behind a token may be a lexical error, which names none. -/
theorem advance : Parse.advance.Stops p C := by
  intro hlexical e p' t he hfound
  obtain ⟨c, hc, -⟩ := advance_eq_error.mp he
  have hmem : .error e ∈ p.cursor.pending := by
    unfold Cursor.advance at hc
    split at hc
    next => cases hc
    next => cases hc
    next hcons =>
      cases hc
      rw [hcons]
      exact List.mem_cons_self
  rw [hlexical e hmem] at hfound
  cases hfound

theorem expect {test : Token → Bool} {e : Expectation} (hC : C []) :
    (Parse.expect test e).Stops p C := by
  unfold Parse.expect
  apply current
  split
  · exact advance
  · exact unexpected hC

theorem descend {inside : Option (Parse α)} {span : Span}
    (h : ∀ step, inside = some step → p.height < maxHeight → step.Stops p.deeper C) :
    (Parse.descend span inside).Stops p C := by
  cases inside with
  | none => exact throw rfl
  | some step =>
    intro hlexical e p' t he hfound
    rcases bind_eq_error.mp he with he | ⟨_, q, hq, he⟩
    · rw [enter_eq] at he
      split at he <;> cases he
      cases hfound
    · rw [enter_eq] at hq
      split at hq
      next hheight =>
        cases hq
        rcases bind_eq_error.mp he with he | ⟨a, q, -, he⟩
        · exact h step rfl hheight hlexical e p' t he hfound
        · rcases bind_eq_error.mp he with he | ⟨_, q, -, he⟩ <;> cases he
      next => cases hq

end Stops

/-! ## Tensor literals -/

open Grammar

theorem found?_of_scalar {t : Token} {e : Error} (h : t.scalar = .error e) :
    e.fault.found? = none := by
  unfold Token.scalar at h
  split at h
  · cases h
    rfl
  · split at h <;> cases h
    rfl

/-- A number is taken before it is read, and then no token is missing. -/
theorem scalar_stops {p : Parser} {C : List Token → Prop} : scalar.Stops p C := by
  intro hlexical e p' t he hfound
  rcases bind_eq_error.mp he with he | ⟨token, q, -, he⟩
  · exact Stops.advance hlexical e p' t he hfound
  · cases hs : token.scalar with
    | ok s =>
      rw [hs] at he
      cases he
    | error e' =>
      rw [hs] at he
      cases he
      rw [found?_of_scalar hs] at hfound
      cases hfound

/-- The number that completes what lacks an operand. -/
def digit : Token := Tower.one.token 0

theorem digit_plain : digit.Plain := plain_token Tower.plain_one (by simp [Tower.one])

theorem exists_number?_digit : ∃ s, digit.number? = some s := by
  obtain ⟨s, hs, -⟩ := Tower.number?_one 0
  exact ⟨s, hs⟩

theorem sign_plain {c : Char} (hc : isSymbolChar c = true) : ((Tower.sign c).token 0).Plain :=
  plain_token (Tower.plain_sign hc) (by simp [Tower.sign])

/-- What a symbol completes can be completed. -/
theorem completes_symbol {R : List Token → α → Prop} {ts : List Token} (c : Char)
    (hc : isSymbolChar c = true)
    (h : ∀ t : Token, t.isSymbol c = true → Completes R (ts ++ [t])) : Completes R ts :=
  .cons (sign_plain hc) (h _ (Tower.sign_isSymbol c 0))

/-- What a number completes can be completed. -/
theorem completes_number {R : List Token → α → Prop} {ts : List Token}
    (h : ∀ t s, t.isNumber = true → t.number? = some s → Completes R (ts ++ [t])) :
    Completes R ts := by
  obtain ⟨s, hs⟩ := exists_number?_digit
  exact .cons digit_plain (h digit s rfl hs)

theorem signedNumber_stops (p : Parser) (n h : Nat) :
    signedNumber.Stops p (Completes (Element n h)) := by
  unfold signedNumber
  apply Stops.current
  extract_lets negative after
  have hafter : ∀ (q : Parser) (C : List Token → Prop), C [] → (after ()).Stops q C := by
    intro q C hC
    apply Stops.current
    split
    next => exact Stops.bind_pure scalar_stops
    next => exact Stops.unexpected hC
  split
  next hneg =>
    refine Stops.bind (Yields.advance (Token.readable_of_isSymbol hneg)) Stops.advance ?_
    rintro _ minus c o - ⟨rfl, rfl⟩
    refine hafter _ _ (completes_number fun t s ht hs => ?_)
    exact .done (Element.negative hneg ht hs)
  next =>
    exact hafter _ _ (completes_number fun t s ht hs => .done (Element.number ht hs))

section

variable {nested : Parse Tensor} {n h : Nat}

theorem element_stops {p : Parser} (hnested : nested.Stops p (Completes (Literal n h))) :
    (element nested).Stops p (Completes (Element n h)) := by
  unfold element
  apply Stops.current
  split
  · refine Stops.bind_pure (hnested.mono fun ts hts => ?_)
    exact hts.mono fun vs t ht => .done (Element.literal ht)
  · exact signedNumber_stops p n h

variable (hyields : ∀ q : Parser, q.nesting = n → q.height = h → nested.Yields q (Literal n h))
  (hnested : ∀ q : Parser, q.nesting = n → q.height = h →
    nested.Stops q (Completes (Literal n h)))
include hyields hnested

theorem elements_stops : ∀ (bound index : Nat) (p : Parser), p.nesting = n → p.height = h →
    (elements nested bound index).Stops p (Completes (Elements n h)) := by
  have helement : ∀ p : Parser, p.nesting = n → p.height = h →
      (element nested).Stops p (Completes (Elements n h)) := by
    intro p hn hh
    refine (element_stops (hnested p hn hh)).mono fun ts hts => ?_
    exact hts.mono fun vs e he => .done (Elements.last he)
  intro bound
  induction bound with
  | zero =>
    intro index p hn hh
    exact Stops.bind_pure (helement p hn hh)
  | succ bound ih =>
    intro index p hn hh
    refine Stops.bind (element_yields (hyields p hn hh)) (helement p hn hh) ?_
    intro ts e c o _ he
    apply Stops.current
    split
    next hcomma =>
      refine Stops.bind (Yields.advance (Token.readable_of_isSymbol hcomma)) Stops.advance ?_
      rintro _ comma c₁ o₁ - ⟨rfl, rfl⟩
      have hrest := ih (index + 1) ((p.moved c o).moved c₁ o₁) hn hh
      refine Stops.bind_pure (hrest.mono fun us hus => ?_)
      rw [← List.append_assoc]
      refine hus.within fun vs es hes => .done (a := e :: es) ?_
      rw [List.append_assoc]
      exact Elements.more he hcomma hes
    next => exact Stops.pure

theorem optionalElements_stops {p : Parser} (hn : p.nesting = n) (hh : p.height = h) :
    (optionalElements nested).Stops p (Completes (Elements n h)) := by
  unfold optionalElements
  apply Stops.current
  split
  · exact Stops.pure
  · apply Stops.get
    exact elements_stops hyields hnested _ 0 p hn hh

end

theorem braces_stops {nested : Parse Tensor} {n h : Nat} (hopens : Opens n h)
    (hyields : ∀ q : Parser, q.nesting = n + 1 → q.height = h + 1 →
      nested.Yields q (Literal (n + 1) (h + 1)))
    (hnested : ∀ q : Parser, q.nesting = n + 1 → q.height = h + 1 →
      nested.Stops q (Completes (Literal (n + 1) (h + 1))))
    {p : Parser} (hn : p.nesting = n + 1) (hh : p.height = h + 1) :
    (braces nested).Stops p (Completes (Literal n h)) := by
  unfold braces
  refine Stops.bind Yields.expectSymbol (Stops.expect ?_) ?_
  · refine completes_symbol '\x7b' (by decide) fun l hl => ?_
    exact completes_symbol '\x7d' (by decide) fun r hr => .done (Literal.empty hopens hl hr)
  rintro _ l c o - ⟨rfl, hl⟩
  have hinside := optionalElements_stops (p := p.moved c o) hyields hnested hn hh
  refine Stops.bind (optionalElements_yields hyields hn hh) (hinside.mono ?_) ?_
  · intro us hus
    refine hus.within fun vs es hes => ?_
    exact completes_symbol '\x7d' (by decide) fun r hr => .done (Literal.filled hopens hl hes hr)
  rintro ts ⟨extent, entries⟩ c₁ o₁ - hts
  apply Stops.current
  split
  next => exact Stops.bind_pure Stops.advance
  next =>
    refine Stops.throw_current rfl ?_
    rw [List.append_nil]
    refine completes_symbol '\x7d' (by decide) fun r hr => ?_
    rcases hts with ⟨rfl, -⟩ | ⟨es, hes, -⟩
    · exact .done (Literal.empty hopens hl hr)
    · exact .done (Literal.filled hopens hl hes hr)

/-- What is read of a tensor literal can be completed. -/
theorem tensor_stops : ∀ (room : Nat) (p : Parser), room = maxNesting - p.nesting →
    (tensor room).Stops p (Completes (Literal p.nesting p.height)) := by
  intro room
  induction room with
  | zero =>
    intro p _
    refine Stops.tagged fun o => ?_
    apply Stops.current
    exact Stops.throw rfl
  | succ room ih =>
    intro p hroom
    refine Stops.tagged fun o => ?_
    apply Stops.current
    refine Stops.descend ?_
    intro step hstep hheight
    cases hstep
    refine braces_stops ⟨by omega, hheight⟩ ?_ ?_ rfl rfl
    · intro q hn hh
      have := tensor_yields room q (by omega)
      rwa [hn, hh] at this
    · intro q hn hh
      have := ih q (by omega)
      rwa [hn, hh] at this

/-! ## Expressions -/

/-- The step stops where phrases of one kind can be completed, wherever the
parser has the given symbols and nesting. -/
def PhraseStops (phrase : Phrase) (symbols : SymbolTable) (n : Nat) (step : Parse Expr) : Prop :=
  ∀ p : Parser, p.symbols = symbols → p.nesting = n →
    step.Stops p (Completes (Derives symbols.storageOf? phrase n p.height))

theorem completes_factor {scope : String → Option Storage} {n h : Nat} :
    Completes (Derives scope .factor n h) [] :=
  completes_number fun _ _ ht hs => .done (.primary (.number ht hs))

theorem completes_operand {scope : String → Option Storage} {n h : Nat} (level : Level) :
    Completes (Derives scope level.operand n h) [] := by
  cases level with
  | sum => exact completes_factor.mono fun vs e he => .done (.term (.first he))
  | product => exact completes_factor

section

variable {symbols : SymbolTable} {n : Nat}

/-- What is read of the rest of a chain can be completed to the whole of it. -/
theorem chain_stops {level : Level} {operand : Parse Expr}
    (hyields : PhraseStep level.operand symbols n operand)
    (hoperand : PhraseStops level.operand symbols n operand) (h : Nat) :
    ∀ (room k : Nat) (ts : List Token) (left : Expr) (p : Parser), p.symbols = symbols →
      p.nesting = n → p.height = h + k → room = maxHeight - p.height →
      Derives symbols.storageOf? (.chain level k) n h ts left →
      (chain level.ops operand room left).Stops p fun us =>
        ∃ k', Completes (Derives symbols.storageOf? (.chain level k') n h) (ts ++ us) := by
  intro room
  induction room with
  | zero =>
    intro k ts left p _ _ _ _ _
    unfold chain
    apply Stops.current
    split
    next => exact Stops.pure
    next op hop =>
      have ht := List.find?_some hop
      refine Stops.bind (Yields.advance (Token.readable_of_isSymbol ht)) Stops.advance ?_
      intro _ t c o _ _
      exact Stops.throw rfl
  | succ room ih =>
    intro k ts left p hs hn hh hroom hleft
    unfold chain
    apply Stops.current
    split
    next => exact Stops.pure
    next op hop =>
      have ht := List.find?_some hop
      refine Stops.bind (Yields.advance (Token.readable_of_isSymbol ht)) Stops.advance ?_
      rintro _ t c o - ⟨rfl, rfl⟩
      -- An operand behind the operator makes the chain longer by one.
      have hnext : ∀ us right, Derives symbols.storageOf? level.operand n (h + (k + 1)) us right →
          Derives symbols.storageOf? (.chain level (k + 1)) n h
            (ts ++ p.cursor.current :: us) (.binary op left right p.cursor.current) := by
        intro us right hright
        exact Derives.next hleft (List.mem_of_find?_eq_some hop) ht (by omega) hright
      have hheight : (p.moved c o).taller.height = h + (k + 1) := by
        rw [Parser.height_taller, Parser.height_moved, hh]
        omega
      refine Stops.grow (Stops.bind (hyields _ hs hn)
        ((hoperand (p.moved c o).taller hs hn).mono ?_) ?_)
      · intro us hus
        rw [hheight] at hus
        refine ⟨k + 1, ?_⟩
        rw [← List.append_assoc]
        refine hus.within fun vs right hright =>
          .done (a := .binary op left right p.cursor.current) ?_
        rw [List.append_assoc]
        exact hnext vs right hright
      · intro us right c₁ o₁ _ hright
        rw [hheight] at hright
        have hrest := ih (k + 1) _ _ ((p.moved c o).taller.moved c₁ o₁) hs hn hheight
          (by rw [Parser.height_moved, hheight]; omega) (hnext us right hright)
        refine Stops.bind_done (hrest.mono ?_) fun e q => ⟨e, _, rfl⟩
        rintro vs ⟨k', hvs⟩
        rw [List.append_assoc, List.cons_append] at hvs
        exact ⟨k', hvs⟩

theorem level_stops (level : Level) {operand : Parse Expr} {tag : String}
    (hyields : PhraseStep level.operand symbols n operand)
    (hoperand : PhraseStops level.operand symbols n operand) {p : Parser}
    (hs : p.symbols = symbols) (hn : p.nesting = n) :
    (Parse.level tag level.ops operand).Stops p fun ts =>
      ∃ k, Completes (Derives symbols.storageOf? (.chain level k) n p.height) ts := by
  refine Stops.tagged fun o => ?_
  refine Stops.bind (hyields _ hs hn) ((hoperand (p.moved p.cursor o) hs hn).mono ?_) ?_
  · intro ts hts
    exact ⟨0, hts.mono fun vs e he => .done (Derives.first he)⟩
  · intro ts first c o _ hfirst
    apply Stops.get
    exact chain_stops hyields hoperand p.height _ 0 ts first _ hs hn rfl rfl (Derives.first hfirst)

theorem term_stops {factor : Parse Expr} (hyields : PhraseStep .factor symbols n factor)
    (hfactor : PhraseStops .factor symbols n factor) :
    PhraseStops .term symbols n (term factor) := by
  intro p hs hn
  refine (level_stops .product hyields hfactor hs hn).mono ?_
  rintro ts ⟨k, hts⟩
  exact hts.mono fun vs e he => .done (Derives.term he)

theorem expression_stops {factor : Parse Expr} (hyields : PhraseStep .factor symbols n factor)
    (hfactor : PhraseStops .factor symbols n factor) :
    PhraseStops .expression symbols n (expression factor) := by
  intro p hs hn
  refine (level_stops .sum (term_yields hyields) (term_stops hyields hfactor) hs hn).mono ?_
  rintro ts ⟨k, hts⟩
  exact hts.mono fun vs e he => .done (Derives.expression he)

/-- The steps that read what a bracket or sign holds stop where it can be
completed. -/
def InnerStops (symbols : SymbolTable) (n : Nat) (inner : Option (Parse Expr)) : Prop :=
  ∀ factor, inner = some factor → PhraseStops .factor symbols (n + 1) factor

section

variable {inner : Option (Parse Expr)} (hyields : InnerStep symbols n inner)
  (hinner : InnerStops symbols n inner)
include hyields hinner

theorem parenthesized_stops {p : Parser} (hs : p.symbols = symbols) (hn : p.nesting = n)
    (hl : p.cursor.current.isSymbol '(' = true) :
    (parenthesized inner).Stops p (Completes (Derives symbols.storageOf? .factor n p.height)) := by
  unfold parenthesized
  refine Stops.bind (Yields.advance (Token.readable_of_isSymbol hl)) Stops.advance ?_
  rintro _ l c o - ⟨rfl, rfl⟩
  refine Stops.descend ?_
  intro step hstep hheight
  obtain ⟨factor, hfactor, rfl⟩ := Option.map_eq_some_iff.mp hstep
  obtain ⟨hnesting, hfactorYields⟩ := hyields factor hfactor
  have hn' : (p.moved c o).deeper.nesting = n + 1 := by rw [← hn]; rfl
  -- An expression behind the parenthesis lacks the closing one at most.
  have hclose : ∀ ts e, Derives symbols.storageOf? .expression (n + 1) (p.height + 1) ts e →
      Completes (Derives symbols.storageOf? .factor n p.height)
        ([p.cursor.current] ++ ts) := by
    intro ts e he
    refine completes_symbol ')' (by decide) fun r hr => ?_
    exact .done (Derives.parentheses ⟨hnesting, hheight⟩ hl he hr)
  have hexpression := expression_stops hfactorYields (hinner factor hfactor)
    (p.moved c o).deeper hs hn'
  refine Stops.bind (expression_yields hfactorYields _ hs hn')
    (hexpression.mono fun ts hts => hts.within hclose) ?_
  intro ts e c₁ o₁ _ he
  refine Stops.bind_pure (Stops.expect ?_)
  rw [List.append_nil]
  exact hclose ts e he

theorem signed_stops {p : Parser} {op : UnaryOp} (hs : p.symbols = symbols) (hn : p.nesting = n)
    (hop : p.cursor.current.isSymbol op.symbol = true) :
    (signed op inner).Stops p (Completes (Derives symbols.storageOf? .primary n p.height)) := by
  unfold signed
  refine Stops.bind (Yields.advance (Token.readable_of_isSymbol hop)) Stops.advance ?_
  rintro _ t c o - ⟨rfl, rfl⟩
  refine Stops.bind_pure (Stops.descend ?_)
  intro factor hfactor hheight
  obtain ⟨hnesting, -⟩ := hyields factor hfactor
  refine (hinner factor hfactor (p.moved c o).deeper hs (by rw [← hn]; rfl)).mono ?_
  intro ts hts
  exact hts.within fun vs e he => .done (Derives.sign ⟨hnesting, hheight⟩ hop he)

theorem primary_stops {literal : Parse Tensor}
    (hliteral : ∀ q : Parser, q.nesting = n → literal.Stops q (Completes (Literal n q.height))) :
    PhraseStops .primary symbols n (primary inner literal) := by
  intro p hs hn
  refine Stops.tagged fun o => ?_
  apply Stops.current
  have hnumber : Completes (Derives symbols.storageOf? .primary n p.height) [] :=
    completes_number fun _ _ ht hs => .done (.number ht hs)
  split
  next => exact Stops.bind_pure scalar_stops
  next => exact Stops.bind_pure scalar_stops
  next =>
    intro hlexical e p' t he hfound
    rcases bind_eq_error.mp he with he | ⟨resolved, q, hq, he⟩
    · cases he
    · cases hq
      exact Stops.bind_pure Stops.advance hlexical e p' t he hfound
  next hkind =>
    split
    next =>
      refine Stops.bind_pure ((hliteral (p.moved p.cursor o) hn).mono fun ts hts => ?_)
      refine hts.mono fun vs t ht => ?_
      cases vs with
      | nil => cases ht
      | cons brace vs => exact .done (Derives.tensor ht)
    next =>
      split
      next op hop =>
        exact signed_stops hyields hinner hs hn ((Token.unaryOp?_eq_some hkind).mp hop)
      next => exact Stops.unexpected hnumber
  next => exact Stops.unexpected hnumber

theorem factorWith_stops {literal : Parse Tensor}
    (hliteral : ∀ q : Parser, q.nesting = n → literal.Stops q (Completes (Literal n q.height))) :
    PhraseStops .factor symbols n (factorWith inner literal) := by
  intro p hs hn
  refine Stops.tagged fun o => ?_
  apply Stops.current
  split
  next hl => exact parenthesized_stops hyields hinner hs hn hl
  next =>
    refine (primary_stops hyields hinner hliteral (p.moved p.cursor o) hs hn).mono fun ts hts => ?_
    exact hts.mono fun vs e he => .done (Derives.primary he)

end

/-- What is read of a factor can be completed. -/
theorem factor_stops : ∀ (room n : Nat), room = maxNesting - n →
    PhraseStops .factor symbols n (factor room) := by
  intro room
  induction room with
  | zero =>
    intro n hroom
    show PhraseStops .factor symbols n (factorWith none (tensor 0))
    refine factorWith_stops ?_ ?_ ?_
    · intro factor hfactor
      cases hfactor
    · intro factor hfactor
      cases hfactor
    · intro q hq
      have := tensor_stops 0 q (by omega)
      rwa [hq] at this
  | succ room ih =>
    intro n hroom
    show PhraseStops .factor symbols n (factorWith (some (factor room)) (tensor (room + 1)))
    refine factorWith_stops ?_ ?_ ?_
    · intro factor hfactor
      cases hfactor
      exact ⟨by omega, factor_yields room (n + 1) (by omega)⟩
    · intro factor hfactor
      cases hfactor
      exact ih (n + 1) (by omega)
    · intro q hq
      have := tensor_stops (room + 1) q (by omega)
      rwa [hq] at this

end

/-! ## Declarations -/

theorem initializer_stops {p : Parser} {names : List String} (hn : p.nesting = 0)
    (hh : p.height = 0) (hscope : p.symbols.storageOf? = visible names) :
    initializer.Stops p (Completes (Derives (visible names) .expression 0 0)) := by
  unfold initializer
  apply Stops.get
  have hroom : p.nestingRoom = maxNesting - 0 := by rw [Parser.nestingRoom, hn]
  have := expression_stops (factor_yields _ 0 hroom) (factor_stops _ 0 hroom) p rfl hn
  rwa [hh, hscope] at this

section

variable {names : List String} {word type name equals : Token} {valueType : ValueType}

/-! A declaration can be completed from each of its parts on. -/

theorem completes_initialized (hword : word.isKeyword .letWord = true)
    (htype : type.valueType? = some valueType) (hname : name.kind = .identifier)
    (hequals : equals.isSymbol '=' = true) {ts : List Token} {rhs : Expr}
    (hrhs : Derives (visible names) .expression 0 0 ts rhs) :
    Completes (Declares names) ([word, type, name, equals] ++ ts) := by
  refine completes_symbol ';' (by decide) fun semicolon hsemicolon => ?_
  exact .done (Declares.intro hword htype hname hequals hrhs hsemicolon)

theorem completes_assigned (hword : word.isKeyword .letWord = true)
    (htype : type.valueType? = some valueType) (hname : name.kind = .identifier)
    (hequals : equals.isSymbol '=' = true) :
    Completes (Declares names) [word, type, name, equals] := by
  have hexpression : Completes (Derives (visible names) .expression 0 0) [] :=
    (completes_operand .sum).mono fun vs e he => .done (.expression (.first he))
  exact hexpression.within fun vs rhs hrhs => completes_initialized hword htype hname hequals hrhs

theorem completes_named (hword : word.isKeyword .letWord = true)
    (htype : type.valueType? = some valueType) (hname : name.kind = .identifier) :
    Completes (Declares names) [word, type, name] :=
  completes_symbol '=' (by decide) fun _ hequals => completes_assigned hword htype hname hequals

theorem completes_typed (hword : word.isKeyword .letWord = true)
    (htype : type.valueType? = some valueType) : Completes (Declares names) [word, type] := by
  have hplain := Tower.plain_opening ⟨['x'], .identifier⟩ (by simp [Tower.opening])
  exact .cons (plain_token hplain (by simp)) (completes_named hword htype rfl)

theorem completes_started (hword : word.isKeyword .letWord = true) :
    Completes (Declares names) [word] := by
  have hplain := Tower.plain_opening ⟨"int".toList, .keyword⟩ (by simp [Tower.opening])
  have htype : ((Word.mk "int".toList .keyword).token 0).valueType? = some .int := rfl
  exact .cons (plain_token hplain (by simp)) (completes_typed hword htype)

theorem completes_declaration : Completes (Declares names) [] := by
  have hplain := Tower.plain_opening ⟨"let".toList, .keyword⟩ (by simp [Tower.opening])
  exact .cons (plain_token hplain (by simp)) (completes_started rfl)

end

theorem valueType_stops {p : Parser} {C : List Token → Prop} (hC : C []) : valueType.Stops p C := by
  unfold valueType
  apply Stops.current
  split
  · exact Stops.bind_pure Stops.advance
  · exact Stops.unexpected hC

/-- What is read of a declaration can be completed. -/
theorem declaration_stops {p : Parser} {names : List String} (hn : p.nesting = 0)
    (hh : p.height = 0) (hscope : p.symbols.storageOf? = visible names) :
    declaration.Stops p (Completes (Declares names)) := by
  refine Stops.tagged fun o => ?_
  refine Stops.bind Yields.expectKeyword (Stops.expect completes_declaration) ?_
  rintro _ word c₁ o₁ - ⟨rfl, hword⟩
  refine Stops.bind valueType_yields (valueType_stops (completes_started hword)) ?_
  rintro _ type c₂ o₂ - ⟨typeName, rfl, htype⟩
  refine Stops.bind Yields.expectIdentifier (Stops.expect (completes_typed hword htype)) ?_
  rintro _ name c₃ o₃ - ⟨rfl, hname⟩
  refine Stops.bind Yields.expectSymbol (Stops.expect (completes_named hword htype hname)) ?_
  rintro _ equals c₄ o₄ - ⟨rfl, hequals⟩
  have hinitializer := initializer_stops (p := p.moved c₄ o₄) hn hh hscope
  refine Stops.bind (initializer_yields hn hh hscope) (hinitializer.mono fun ts hts => ?_) ?_
  · exact hts.within fun vs rhs hrhs => completes_initialized hword htype hname hequals hrhs
  intro ts rhs c₅ o₅ _ hrhs
  refine Stops.define (Stops.bind_pure (Stops.expect ?_))
  simpa using completes_initialized hword htype hname hequals hrhs

/-- What is read of the declarations behind those of `names` can be completed. -/
theorem declarations_stops : ∀ (bound : Nat) (p : Parser) (names : List String),
    p.nesting = 0 → p.height = 0 → p.symbols.Bounded → p.symbols.storageOf? = visible names →
    (declarations bound).Stops p (Completes (Statements names)) := by
  intro bound
  induction bound with
  | zero => exact fun _ _ _ _ _ _ => Stops.pure
  | succ bound ih =>
    intro p names hn hh hbounded hscope
    apply Stops.current
    split
    next =>
      intro hlexical e p' t he hfound
      rcases bind_eq_error.mp he with he | ⟨d, q, hd, he⟩
      · obtain ⟨hcurrent, ts, hts, hC⟩ :=
          declaration_stops hn hh hscope hlexical e p' t he hfound
        refine ⟨hcurrent, ts, hts, hC.mono fun vs d hd => ?_⟩
        have hsingle := Statements.cons hd .nil
        rw [List.append_nil] at hsingle
        exact .done hsingle
      · obtain ⟨ts, c, o, hts, rfl, hdeclares⟩ := declaration_sound hn hh hscope hd
        have hrest := ih ((p.inScope (p.symbols.define d.name d.type .localVar)).moved c o)
          (d.name :: names) hn hh (hbounded.define d.name d.type .localVar)
          (SymbolTable.storageOf?_define hbounded hscope d.name d.type)
        obtain ⟨hcurrent, us, hus, hC⟩ :=
          Stops.bind_pure hrest (hlexical.reads hts) e p' t he hfound
        refine ⟨hcurrent, ts ++ us, Cursor.reads_append.mpr ⟨c, hts, hus⟩, ?_⟩
        exact hC.within fun vs ds hds => .done (Statements.cons hdeclares hds)
    next => exact Stops.pure

theorem block_stops {p : Parser} (hn : p.nesting = 0) (hh : p.height = 0) :
    block.Stops p (Completes (Statements [])) := by
  unfold block
  apply Stops.current
  refine Stops.tagged fun o => Stops.newScope (Stops.get (Stops.bind_pure ?_))
  exact declarations_stops _ _ [] hn hh SymbolTable.bounded_empty SymbolTable.storageOf?_empty

/-- What a parser has read of a source when it finds a token that does not fit
can be completed to a source of the grammar. -/
theorem unit_stops {p : Parser} (hn : p.nesting = 0) (hh : p.height = 0) :
    unit.Stops p (Completes (Statements [])) := by
  unfold unit
  apply Stops.current
  refine Stops.tagged fun o => ?_
  intro hlexical e p' t he hfound
  rcases bind_eq_error.mp he with he | ⟨b, q, hb, he⟩
  · exact block_stops (p := p.moved p.cursor o) hn hh hlexical e p' t he hfound
  · obtain ⟨ts, ds, hts, hstatements, -, -⟩ := block_sound (p := p.moved p.cursor o) hn hh hb
    rw [current_bind] at he
    split at he
    next => cases he
    next =>
      cases he
      cases hfound
      exact ⟨rfl, ts, hts, .done hstatements⟩

end Parse

end TensorLet
