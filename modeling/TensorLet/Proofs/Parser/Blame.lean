import TensorLet.Proofs.Parser.Trace
import TensorLet.Proofs.Tensor.Literals
import TensorLet.Proofs.Token.Places

/-!
# What a failed parse blames

A parser fails because of the pieces it has seen: a lexical error behind the tokens
that it has taken, one of these tokens, or the one it stands on. It never looks
further, and it scans only one piece ahead of what it has checked.

* `Matched`: tokens whose braces match.
* `Culprit`: the errors that are about the tokens taken and the one behind them.
* `step.Blames c taken R`: the step at a cursor, with some tokens taken before it,
  takes tokens that `R` relates to its value, or fails because of what it has seen.
* `culprit_of_parse`: what the error of a source is about.
-/

namespace TensorLet

/-! ## Tokens to blame -/

/-- Tokens whose braces match. -/
inductive Matched : List Token → Prop
  | nil : Matched []
  | other {t : Token} {ts : List Token} : Dense.isBrace t = false → Matched ts → Matched (t :: ts)
  | braces {l r : Token} {us ts : List Token} : l.isSymbol '\x7b' = true → Matched us →
      r.isSymbol '\x7d' = true → Matched ts → Matched (l :: (us ++ r :: ts))

theorem Matched.append {ts us : List Token} (h : Matched ts) (h' : Matched us) :
    Matched (ts ++ us) := by
  induction h with
  | nil => exact h'
  | other ht _ ih => exact .other ht ih
  | braces hl hus hr _ _ ih =>
    rw [List.cons_append, List.append_assoc, List.cons_append]
    exact .braces hl hus hr ih

theorem Matched.singleton {t : Token} (h : Dense.isBrace t = false) : Matched [t] := .other h .nil

/-- The symbols that nest: brackets that open and signs. -/
def nestingSymbols : List Char := ['(', '\x7b', '-', '~', '\'']

/-- The symbols that make a tree grow: those that nest, and operators. -/
def growingSymbols : List Char := nestingSymbols ++ ['+', '*', '/']

/-- True of a token that is one of some symbols. -/
def Token.isAnySymbol (t : Token) (symbols : List Char) : Bool := symbols.any t.isSymbol

theorem Token.isAnySymbol_of_isSymbol {t : Token} {c : Char} {symbols : List Char}
    (h : t.isSymbol c = true) (hc : c ∈ symbols) : t.isAnySymbol symbols = true :=
  List.any_eq_true.mpr ⟨c, hc, h⟩

/-- The errors of a parser that has taken some tokens and stands on the next one. -/
inductive Culprit (taken : List Token) (current : Token) : Error → Prop
  | number {t : Token} {e : Error} : t ∈ taken → t.isNumber = true → t.scalar = .error e →
      Culprit taken current e
  | unexpected (expected : Expectation) :
      Culprit taken current ⟨.unexpected expected current, current.span⟩
  | unclosed {l : Token} {before us : List Token} : taken = before ++ l :: us →
      l.isSymbol '\x7b' = true → Matched us →
      Culprit taken current ⟨.unclosedTensor current, l.span.merge current.span⟩
  | nesting {t : Token} : t ∈ taken ++ [current] → t.isAnySymbol nestingSymbols = true →
      Culprit taken current ⟨.nestingTooDeep, t.span⟩
  | height {t : Token} : t ∈ taken ++ [current] → t.isAnySymbol growingSymbols = true →
      Culprit taken current ⟨.expressionTooDeep, t.span⟩

namespace Cursor

/-- The tokens are taken, and the end of the source is none of them. -/
structure Passes (c : Cursor) (ts : List Token) (stop : Option Error) (c' : Cursor) : Prop where
  takes : c.Takes ts stop c'
  isEnd : ∀ t ∈ ts, t.isEnd = false

variable {c c₁ c' : Cursor} {ts us : List Token} {stop : Option Error}

theorem Passes.refl (c : Cursor) : c.Passes [] none c := ⟨.done, by simp⟩

theorem Passes.append (h : c.Passes ts none c₁) (h' : c₁.Passes us stop c') :
    c.Passes (ts ++ us) stop c' := by
  refine ⟨h.takes.append h'.takes, fun t ht => ?_⟩
  rcases List.mem_append.mp ht with ht | ht
  · exact h.isEnd t ht
  · exact h'.isEnd t ht

/-- What was passed and what is behind it stand at the front: the token that the
cursor has come to, or the error that has stopped it. -/
theorem Passes.isPrefix (h : c.Passes ts stop c') :
    ts.map .ok ++ [stop.elim (.ok c'.current) .error] <+:
      .ok c.current :: (c.pending ++ [.ok (.endOfInput c.size)]) := by
  obtain ⟨htakes, hend⟩ := h
  induction htakes with
  | done => exact ⟨_, rfl⟩
  | @next c c₁ c' t ts stop hadvance htakes ih =>
    have ih := ih fun u hu => hend u (List.mem_cons_of_mem _ hu)
    have ht := current_of_advance hadvance
    rw [List.map_cons, List.cons_append, ht, List.prefix_cons_inj]
    unfold Cursor.advance at hadvance
    split at hadvance
    next hnil =>
      cases hadvance
      rw [hnil]
      -- The cursor stands on the end, which is not taken.
      cases htakes with
      | done => exact List.prefix_rfl
      | next hadvance' _ =>
        have hu := hend _ (List.mem_cons_of_mem _ List.mem_cons_self)
        rw [← current_of_advance hadvance'] at hu
        cases hu
      | stopped => cases hend _ (List.mem_cons_of_mem _ List.mem_cons_self)
    next hcons =>
      cases hadvance
      rwa [hcons]
    next => cases hadvance
  | @stopped c c' e hadvance =>
    rw [List.map_singleton, List.singleton_append, List.prefix_cons_inj]
    unfold Cursor.advance at hadvance
    split at hadvance
    next => cases hadvance
    next => cases hadvance
    next hcons =>
      cases hadvance
      rw [hcons]
      exact ⟨_, rfl⟩

/-- The same for the pieces of a source. -/
theorem Passes.isPrefix_pieces {source : String} (hc : ofText source = .ok c)
    (h : c.Passes ts stop c') :
    ts.map .ok ++ [stop.elim (.ok c'.current) .error] <+: pieces source := by
  have hinitial := h.isPrefix
  rcases ofText_eq_ok_iff.mp hc with ⟨hnil, rfl⟩ | ⟨t, rest, hcons, rfl⟩
  · obtain ⟨htakes, hend⟩ := h
    rw [pieces, hnil]
    cases htakes with
    | done => exact List.prefix_rfl
    | next hadvance _ =>
      have hu := hend _ List.mem_cons_self
      rw [← current_of_advance hadvance] at hu
      cases hu
    | stopped => cases hend _ List.mem_cons_self
  · rw [pieces, hcons]
    exact hinitial

/-- A source without a first token starts with an error. -/
theorem ofText_eq_error {source : String} {e : Error} (h : ofText source = .error e) :
    [.error e] <+: pieces source := by
  unfold ofText Scan.ofText ofScan Cursor.advance at h
  rw [pieces, Scan.ofText]
  cases hitems : scanFrom 0 source.toList with
  | nil =>
    rw [hitems] at h
    cases h
  | cons item items =>
    rw [hitems] at h
    cases item with
    | ok t => cases h
    | error e' =>
      cases h
      exact ⟨_, rfl⟩

end Cursor

namespace Parse

variable {α β : Type}

/-! ## Steps that blame what they have seen -/

/-- Where the step at `c` succeeds, it has passed tokens that `R` relates to its
value. Where it fails, a lexical error stands behind the tokens it has passed, or
the error is about these, those taken before and the one behind them. -/
def Blames (step : Parse α) (c : Cursor) (taken : List Token) (R : List Token → α → Prop) : Prop :=
  ∀ p : Parser, p.cursor = c →
    (∀ a q, step p = .ok a q → ∃ ts, c.Passes ts none q.cursor ∧ R ts a) ∧
    ∀ e q, step p = .error e q → (∃ ts, c.Passes ts (some e) q.cursor) ∨
      ∃ ts, c.Passes ts none q.cursor ∧ Culprit (taken ++ ts) q.cursor.current e

/-- A step that passes tokens with matching braces. -/
def Balances (step : Parse α) (c : Cursor) (taken : List Token) : Prop :=
  step.Blames c taken fun ts _ => Matched ts

namespace Blames

variable {x : Parse α} {c : Cursor} {taken : List Token} {R : List Token → α → Prop}

theorem pure {a : α} (h : R [] a) : (Pure.pure a : Parse α).Blames c taken R := by
  rintro p rfl
  refine ⟨?_, ?_⟩
  · rintro _ _ ⟨⟩
    exact ⟨[], .refl _, h⟩
  · rintro _ _ ⟨⟩

theorem throw {e : Error} (h : Culprit taken c.current e) :
    (MonadExcept.throw e : Parse α).Blames c taken R := by
  rintro p rfl
  refine ⟨?_, ?_⟩
  · rintro _ _ ⟨⟩
  · rintro _ _ ⟨⟩
    exact .inr ⟨[], .refl _, by rwa [List.append_nil]⟩

theorem unexpected (e : Expectation) : (Parse.unexpected e : Parse α).Blames c taken R := by
  rintro p rfl
  refine ⟨?_, ?_⟩
  · rintro _ _ ⟨⟩
  · rintro _ _ ⟨⟩
    exact .inr ⟨[], .refl _, .unexpected e⟩

theorem bind {f : α → Parse β} {S : List Token → β → Prop} (hx : x.Blames c taken R)
    (hf : ∀ ts a c', R ts a → (f a).Blames c' (taken ++ ts) fun us b => S (ts ++ us) b) :
    (x >>= f).Blames c taken S := by
  intro p hp
  refine ⟨fun b r h => ?_, fun e r h => ?_⟩
  · obtain ⟨a, q, ha, hb⟩ := bind_eq_ok.mp h
    obtain ⟨ts, hts, hR⟩ := (hx p hp).1 a q ha
    obtain ⟨us, hus, hS⟩ := (hf ts a q.cursor hR q rfl).1 b r hb
    exact ⟨ts ++ us, hts.append hus, hS⟩
  · rcases bind_eq_error.mp h with h | ⟨a, q, ha, hb⟩
    · exact (hx p hp).2 e r h
    · obtain ⟨ts, hts, hR⟩ := (hx p hp).1 a q ha
      rcases (hf ts a q.cursor hR q rfl).2 e r hb with ⟨us, hus⟩ | ⟨us, hus, hculprit⟩
      · exact .inl ⟨ts ++ us, hts.append hus⟩
      · rw [List.append_assoc] at hculprit
        exact .inr ⟨ts ++ us, hts.append hus, hculprit⟩

theorem mono {S : List Token → α → Prop} (hx : x.Blames c taken R)
    (h : ∀ ts a, R ts a → S ts a) : x.Blames c taken S := by
  intro p hp
  refine ⟨fun a q ha => ?_, (hx p hp).2⟩
  obtain ⟨ts, hts, hR⟩ := (hx p hp).1 a q ha
  exact ⟨ts, hts, h ts a hR⟩

/-- A step that does not move the cursor passes nothing. -/
theorem skip {f : α → Parse β} {S : List Token → β → Prop}
    (hx : ∀ p, ∃ a q, x p = .ok a q ∧ q.cursor = p.cursor) (hf : ∀ a, (f a).Blames c taken S) :
    (x >>= f).Blames c taken S := by
  rintro p rfl
  obtain ⟨a, q, ha, hcursor⟩ := hx p
  have heq : (x >>= f) p = f a q := by
    show EStateM.bind x f p = f a q
    rw [EStateM.bind, ha]
  rw [heq]
  exact hf a q hcursor

theorem current {f : Token → Parse α} (h : (f c.current).Blames c taken R) :
    (Parse.current >>= f).Blames c taken R := by
  rintro p rfl
  exact h p rfl

theorem get {f : Parser → Parse α} (h : ∀ p, (f p).Blames c taken R) :
    ((MonadState.get : Parse Parser) >>= f).Blames c taken R := fun p hp => h p p hp

/-- What is done behind a step without moving the cursor changes nothing. -/
theorem keep {y : Parse β} (hx : x.Blames c taken R)
    (hy : ∀ p, ∃ b q, y p = .ok b q ∧ q.cursor = p.cursor) :
    (x >>= fun a => y >>= fun _ => Pure.pure a).Blames c taken R := by
  refine hx.bind fun ts a c' hR => skip hy fun _ => pure ?_
  rwa [List.append_nil]

theorem tagged {tag : String} (h : x.Blames c taken R) : (Parse.tagged tag x).Blames c taken R :=
  skip (fun _ => ⟨(), _, rfl, rfl⟩) fun _ => h.keep fun _ => ⟨(), _, rfl, rfl⟩

/-- The token under the cursor is taken, and the next piece is scanned. -/
theorem advance (h : c.current.isEnd = false) :
    Parse.advance.Blames c taken fun ts t => ts = [t] ∧ t = c.current := by
  rintro p rfl
  refine ⟨?_, ?_⟩
  · intro t q ht
    obtain ⟨c', hc', rfl⟩ := advance_eq_ok.mp ht
    obtain rfl := Cursor.current_of_advance hc'
    exact ⟨_, ⟨.next hc' .done, by simpa using h⟩, rfl, rfl⟩
  · intro e q he
    obtain ⟨c', hc', rfl⟩ := advance_eq_error.mp he
    exact .inl ⟨_, .stopped hc', by simpa using h⟩

theorem expect {test : Token → Bool} {e : Expectation}
    (h : ∀ t : Token, test t = true → t.isEnd = false) :
    (Parse.expect test e).Blames c taken fun ts t => ts = [t] ∧ test t = true := by
  apply current
  split
  next ht =>
    refine (advance (h _ ht)).mono ?_
    rintro ts t ⟨hts, rfl⟩
    exact ⟨hts, ht⟩
  next => exact unexpected e

theorem expectSymbol (d : Char) :
    (Parse.expectSymbol d).Blames c taken fun ts t => ts = [t] ∧ t.isSymbol d = true :=
  expect fun _ ht => (Token.readable_of_isSymbol ht).1

theorem enter {f : Unit → Parse α} {span : Span} (h : (f ()).Blames c taken R)
    (hculprit : Culprit taken c.current ⟨.expressionTooDeep, span⟩) :
    (Parse.enter span >>= f).Blames c taken R := by
  rintro p rfl
  show (∀ a q, EStateM.bind (Parse.enter span) f p = .ok a q → _) ∧
    ∀ e q, EStateM.bind (Parse.enter span) f p = .error e q → _
  rw [EStateM.bind, enter_eq]
  by_cases hheight : p.height < maxHeight
  · rw [if_pos hheight]
    exact h p.deeper rfl
  · rw [if_neg hheight]
    exact throw hculprit { p with nesting := p.nesting + 1 } rfl

/-- Where a bracket or sign is too much, it is to blame. -/
theorem descend {inside : Option (Parse α)} {t : Token} (ht : t ∈ taken ++ [c.current])
    (hsymbol : t.isAnySymbol nestingSymbols = true)
    (h : ∀ step ∈ inside, step.Blames c taken R) :
    (Parse.descend t.span inside).Blames c taken R := by
  cases inside with
  | none => exact throw (.nesting ht hsymbol)
  | some step =>
    have hgrowing : t.isAnySymbol growingSymbols = true := by
      rw [Token.isAnySymbol, growingSymbols, List.any_append]
      exact (Bool.or_eq_true _ _).mpr (.inl hsymbol)
    exact enter ((h step rfl).keep fun _ => ⟨(), _, rfl, rfl⟩) (.height ht hgrowing)

end Blames

namespace Balances

variable {x : Parse α} {c : Cursor} {taken : List Token}

theorem pure (a : α) : (Pure.pure a : Parse α).Balances c taken := Blames.pure .nil

theorem bind {f : α → Parse β} (hx : x.Balances c taken)
    (hf : ∀ a c' taken', (f a).Balances c' taken') : (x >>= f).Balances c taken := by
  refine Blames.bind hx fun ts a c' hts => ?_
  exact (hf a c' _).mono fun us _ hus => hts.append hus

theorem bind_pure {f : α → β} (hx : x.Balances c taken) :
    (x >>= fun a => Pure.pure (f a)).Balances c taken := hx.bind fun a _ _ => pure (f a)

/-- A token that is not a brace is taken. What follows may blame it. -/
theorem advance_bind {f : Token → Parse β} (hend : c.current.isEnd = false)
    (hbrace : Dense.isBrace c.current = false)
    (hf : ∀ c', (f c.current).Balances c' (taken ++ [c.current])) :
    (Parse.advance >>= f).Balances c taken := by
  refine Blames.bind (Blames.advance hend) ?_
  rintro _ t c' ⟨rfl, rfl⟩
  exact (hf c').mono fun us _ hus => (Matched.singleton hbrace).append hus

theorem advance_of_isSymbol {f : Token → Parse β} {d : Char} (h : c.current.isSymbol d = true)
    (hl : d ≠ '\x7b') (hr : d ≠ '\x7d')
    (hf : ∀ c', (f c.current).Balances c' (taken ++ [c.current])) :
    (Parse.advance >>= f).Balances c taken :=
  advance_bind (Token.readable_of_isSymbol h).1 (Dense.isBrace_of_isSymbol h hl hr) hf

theorem advance_of_kind {f : Token → Parse β} {k : TokenKind} (h : c.current.kind = k)
    (hend : k ≠ .endOfInput) (hsymbol : k ≠ .symbol)
    (hf : ∀ c', (f c.current).Balances c' (taken ++ [c.current])) :
    (Parse.advance >>= f).Balances c taken := by
  refine advance_bind ?_ (Dense.isBrace_of_kind h hsymbol) hf
  simp [Token.isEnd, h, hend]

theorem expectSymbol {d : Char} (hl : d ≠ '\x7b') (hr : d ≠ '\x7d') :
    (Parse.expectSymbol d).Balances c taken := by
  refine (Blames.expectSymbol d).mono ?_
  rintro _ t ⟨rfl, ht⟩
  exact .singleton (Dense.isBrace_of_isSymbol ht hl hr)

theorem expect_of_kind {test : Token → Bool} {e : Expectation} {k : TokenKind}
    (h : ∀ t : Token, test t = true → t.kind = k) (hend : k ≠ .endOfInput)
    (hsymbol : k ≠ .symbol) : (Parse.expect test e).Balances c taken := by
  refine (Blames.expect fun t ht => by simp [Token.isEnd, h t ht, hend]).mono ?_
  rintro _ t ⟨rfl, ht⟩
  exact .singleton (Dense.isBrace_of_kind (h t ht) hsymbol)

end Balances

/-! ## Tensor literals -/

theorem scalar_balances {c : Cursor} {taken : List Token} (h : c.current.isNumber = true) :
    scalar.Balances c taken := by
  refine Balances.advance_bind (Token.isEnd_of_isNumber h) (Dense.isBrace_of_isNumber h) ?_
  intro c'
  split
  next => exact Balances.pure _
  next e he => exact Blames.throw (.number (List.mem_append_right _ List.mem_cons_self) h he)

theorem signedNumber_balances (c : Cursor) (taken : List Token) :
    signedNumber.Balances c taken := by
  apply Blames.current
  extract_lets negative after
  have hafter : ∀ c' taken', (after ()).Balances c' taken' := by
    intro c' taken'
    apply Blames.current
    split
    next hnumber => exact (scalar_balances hnumber).bind_pure
    next => exact Blames.unexpected _
  split
  next hminus =>
    exact Balances.advance_of_isSymbol hminus (by decide) (by decide) fun c' => hafter c' _
  next => exact hafter c taken

section

variable {nested : Parse Tensor}
  (hnested : ∀ (c : Cursor) (taken : List Token), c.current.isSymbol '\x7b' = true →
    nested.Balances c taken)
include hnested

theorem element_balances (c : Cursor) (taken : List Token) :
    (element nested).Balances c taken := by
  apply Blames.current
  split
  next hbrace => exact (hnested c taken hbrace).bind_pure
  next => exact signedNumber_balances c taken

theorem elements_balances : ∀ (bound index : Nat) (c : Cursor) (taken : List Token),
    (elements nested bound index).Balances c taken := by
  intro bound
  induction bound with
  | zero =>
    intro index c taken
    exact (element_balances hnested c taken).bind_pure
  | succ bound ih =>
    intro index c taken
    refine (element_balances hnested c taken).bind fun e c' taken' => ?_
    apply Blames.current
    split
    next hcomma =>
      refine Balances.advance_of_isSymbol hcomma (by decide) (by decide) fun c' => ?_
      exact (ih (index + 1) c' _).bind fun _ _ _ => Balances.pure _
    next => exact Balances.pure _

theorem optionalElements_balances (c : Cursor) (taken : List Token) :
    (optionalElements nested).Balances c taken := by
  apply Blames.current
  split
  next => exact Balances.pure _
  next => exact Blames.get fun p => elements_balances hnested _ 0 c taken

/-- What stands between a brace and the token that does not close it has matching
braces. -/
theorem braces_balances (c : Cursor) (taken : List Token) : (braces nested).Balances c taken := by
  refine Blames.bind (Blames.expectSymbol _) ?_
  rintro _ l c₁ ⟨rfl, hl⟩
  refine Blames.bind (optionalElements_balances hnested c₁ _) ?_
  rintro us ⟨extent, entries⟩ c₂ hus
  apply Blames.current
  split
  next hr =>
    refine Blames.bind (Blames.advance (Token.readable_of_isSymbol hr).1) ?_
    rintro _ r c₃ ⟨rfl, rfl⟩
    exact Blames.pure (.braces hl hus hr .nil)
  next => exact Blames.throw (.unclosed (List.append_assoc _ _ _) hl hus)

end

theorem tensorWith_balances {nested : Option (Parse Tensor)}
    (hnested : ∀ literal ∈ nested, ∀ (c : Cursor) (taken : List Token),
      c.current.isSymbol '\x7b' = true → literal.Balances c taken)
    {c : Cursor} {taken : List Token} (hbrace : c.current.isSymbol '\x7b' = true) :
    (tensorWith nested).Balances c taken := by
  apply Blames.tagged
  apply Blames.current
  refine Blames.descend (List.mem_append_right _ List.mem_cons_self)
    (Token.isAnySymbol_of_isSymbol hbrace (by decide)) ?_
  intro step hstep
  obtain ⟨literal, hliteral, rfl⟩ := Option.map_eq_some_iff.mp hstep
  exact braces_balances (hnested literal hliteral) c taken

theorem tensor_balances : ∀ (room : Nat) (c : Cursor) (taken : List Token),
    c.current.isSymbol '\x7b' = true → (tensor room).Balances c taken := by
  intro room
  induction room with
  | zero => exact fun c taken hbrace => tensorWith_balances (by simp) hbrace
  | succ room ih =>
    intro c taken hbrace
    refine tensorWith_balances ?_ hbrace
    rintro _ ⟨⟩
    exact ih

/-! ## Expressions -/

/-- The operators of a chain are symbols that make the tree grow. -/
theorem chain_balances {ops : List BinOp} {operand : Parse Expr}
    (hoperand : ∀ c taken, operand.Balances c taken) :
    ∀ (room : Nat) (left : Expr) (c : Cursor) (taken : List Token),
      (chain ops operand room left).Balances c taken := by
  have hadvance : ∀ (c : Cursor) (taken : List Token) op (f : Token → Parse Expr),
      c.current.binaryOp? ops = some op →
      (∀ c', (f c.current).Balances c' (taken ++ [c.current])) →
      (advance >>= f).Balances c taken := by
    intro c taken op f hop
    have hfound := List.find?_some hop
    exact Balances.advance_of_isSymbol hfound (by cases op <;> decide) (by cases op <;> decide)
  intro room
  induction room with
  | zero =>
    intro left c taken
    unfold chain
    apply Blames.current
    split
    next => exact Balances.pure _
    next op hop =>
      have hfound := List.find?_some hop
      refine hadvance c taken op _ hop fun c' => Blames.throw ?_
      refine .height (t := c.current) (by simp) (Token.isAnySymbol_of_isSymbol hfound ?_)
      cases op <;> decide
  | succ room ih =>
    intro left c taken
    unfold chain
    apply Blames.current
    split
    next => exact Balances.pure _
    next op hop =>
      refine hadvance c taken op _ hop fun c' => ?_
      refine Blames.skip (fun _ => ⟨(), _, rfl, rfl⟩) fun _ => ?_
      refine (hoperand c' _).bind fun right c₁ taken₁ => ?_
      exact Blames.keep (ih _ c₁ taken₁) fun _ => ⟨(), _, rfl, rfl⟩

theorem level_balances {tag : String} {ops : List BinOp} {operand : Parse Expr}
    (hoperand : ∀ c taken, operand.Balances c taken) (c : Cursor) (taken : List Token) :
    (level tag ops operand).Balances c taken := by
  apply Blames.tagged
  refine Balances.bind (hoperand c taken) fun first c' taken' => ?_
  exact Blames.get fun p => chain_balances hoperand _ first c' taken'

theorem expression_balances {factor : Parse Expr}
    (hfactor : ∀ c taken, factor.Balances c taken) (c : Cursor) (taken : List Token) :
    (expression factor).Balances c taken := level_balances (level_balances hfactor) c taken

section

variable {inner : Option (Parse Expr)}
  (hinner : ∀ factor ∈ inner, ∀ c taken, factor.Balances c taken)
include hinner

theorem parenthesized_balances {c : Cursor} {taken : List Token}
    (h : c.current.isSymbol '(' = true) : (parenthesized inner).Balances c taken := by
  refine Balances.advance_of_isSymbol h (by decide) (by decide) fun c' => ?_
  refine Blames.descend (by simp) (Token.isAnySymbol_of_isSymbol h (by decide)) ?_
  intro step hstep
  obtain ⟨factor, hfactor, rfl⟩ := Option.map_eq_some_iff.mp hstep
  refine (expression_balances (hinner factor hfactor) c' _).bind fun e c₁ taken₁ => ?_
  exact (Balances.expectSymbol (by decide) (by decide)).bind_pure

theorem signed_balances {op : UnaryOp} {c : Cursor} {taken : List Token}
    (h : c.current.isSymbol op.symbol = true) : (signed op inner).Balances c taken := by
  have hl : op.symbol ≠ '\x7b' := by cases op <;> decide
  have hr : op.symbol ≠ '\x7d' := by cases op <;> decide
  refine Balances.advance_of_isSymbol h hl hr fun c' => ?_
  have hsymbol : c.current.isAnySymbol nestingSymbols = true :=
    Token.isAnySymbol_of_isSymbol h (by cases op <;> decide)
  refine Balances.bind_pure (Blames.descend (by simp) hsymbol ?_)
  exact fun factor hfactor => hinner factor hfactor c' _

theorem primary_balances {literal : Parse Tensor}
    (hliteral : ∀ (c : Cursor) (taken : List Token), c.current.isSymbol '\x7b' = true →
      literal.Balances c taken) (c : Cursor) (taken : List Token) :
    (primary inner literal).Balances c taken := by
  apply Blames.tagged
  apply Blames.current
  split
  next hkind => exact (scalar_balances (by simp [Token.isNumber, hkind])).bind_pure
  next hkind => exact (scalar_balances (by simp [Token.isNumber, hkind])).bind_pure
  next hkind =>
    refine Blames.skip (fun _ => ⟨_, _, rfl, rfl⟩) fun resolved => ?_
    exact Balances.advance_of_kind hkind (by decide) (by decide) fun _ => Balances.pure _
  next hkind =>
    split
    next hbrace => exact (hliteral c taken hbrace).bind_pure
    next =>
      split
      next op hop => exact signed_balances hinner ((Token.unaryOp?_eq_some hkind).mp hop)
      next => exact Blames.unexpected _
  next => exact Blames.unexpected _

theorem factorWith_balances {literal : Parse Tensor}
    (hliteral : ∀ (c : Cursor) (taken : List Token), c.current.isSymbol '\x7b' = true →
      literal.Balances c taken) (c : Cursor) (taken : List Token) :
    (factorWith inner literal).Balances c taken := by
  apply Blames.tagged
  apply Blames.current
  split
  next hparen => exact parenthesized_balances hinner hparen
  next => exact primary_balances hinner hliteral c taken

end

theorem factor_balances : ∀ (room : Nat) (c : Cursor) (taken : List Token),
    (factor room).Balances c taken := by
  intro room
  induction room with
  | zero => exact factorWith_balances (by simp) (tensor_balances 0)
  | succ room ih =>
    refine factorWith_balances ?_ (tensor_balances (room + 1))
    rintro _ ⟨⟩
    exact ih

/-! ## Declarations -/

theorem valueType_balances (c : Cursor) (taken : List Token) : valueType.Balances c taken := by
  apply Blames.current
  split
  next type htype =>
    have hkind := Token.kind_of_valueType? htype
    exact Balances.advance_of_kind hkind (by decide) (by decide) fun _ => Balances.pure _
  next => exact Blames.unexpected _

theorem declaration_balances (c : Cursor) (taken : List Token) :
    declaration.Balances c taken := by
  apply Blames.tagged
  have hword : (expectKeyword .letWord).Balances c taken :=
    Balances.expect_of_kind (fun _ => Token.kind_of_isKeyword) (by decide) (by decide)
  refine hword.bind fun token c taken => ?_
  refine (valueType_balances c taken).bind fun type c taken => ?_
  have hname : expectIdentifier.Balances c taken :=
    Balances.expect_of_kind (fun _ ht => of_decide_eq_true ht) (by decide) (by decide)
  refine hname.bind fun name c taken => ?_
  refine (Balances.expectSymbol (by decide) (by decide)).bind fun _ c taken => ?_
  have hrhs : initializer.Balances c taken :=
    Blames.get fun p => expression_balances (factor_balances _) c taken
  refine hrhs.bind fun rhs c taken => ?_
  refine Blames.skip (fun _ => ⟨(), _, rfl, rfl⟩) fun _ => ?_
  exact (Balances.expectSymbol (by decide) (by decide)).bind_pure

theorem declarations_balances : ∀ (bound : Nat) (c : Cursor) (taken : List Token),
    (declarations bound).Balances c taken := by
  intro bound
  induction bound with
  | zero => exact fun c taken => Balances.pure _
  | succ bound ih =>
    intro c taken
    apply Blames.current
    split
    next =>
      refine (declaration_balances c taken).bind fun d c taken => ?_
      exact (ih c taken).bind_pure
    next => exact Balances.pure _

/-- A whole parse blames what it has seen. -/
theorem unit_balances (c : Cursor) (taken : List Token) : unit.Balances c taken := by
  apply Blames.current
  apply Blames.tagged
  have hblock : block.Balances c taken := by
    apply Blames.current
    apply Blames.tagged
    refine Blames.skip (fun _ => ⟨(), _, rfl, rfl⟩) fun _ => Blames.get fun p => ?_
    exact (declarations_balances _ c taken).bind_pure
  refine hblock.bind fun b c taken => ?_
  apply Blames.current
  split
  next => exact Balances.pure _
  next => exact Blames.unexpected _

end Parse

/-! ## Sources -/

/-- The error of a source is the first lexical error, with none but tokens before
it, or it is about tokens from the front of the source. -/
theorem culprit_of_parse {source : String} {e : Error} (h : parse source = .error e) :
    (∃ ts : List Token, ts.map .ok ++ [.error e] <+: pieces source) ∨
      ∃ ts t, (ts ++ [t]).map .ok <+: pieces source ∧ Culprit ts t e := by
  rcases parse_eq_error.mp h with h | ⟨c, p, hc, hunit⟩
  · exact .inl ⟨[], Cursor.ofText_eq_error h⟩
  · rcases (Parse.unit_balances c [] _ rfl).2 e p hunit with ⟨ts, hts⟩ | ⟨ts, hts, hculprit⟩
    · exact .inl ⟨ts, hts.isPrefix_pieces hc⟩
    · refine .inr ⟨ts, _, ?_, hculprit⟩
      rw [List.map_append]
      exact hts.isPrefix_pieces hc

end TensorLet
