import Mathlib.Tactic.ByContra
import TensorLet.Proofs.Grammar
import TensorLet.Proofs.SymbolTable

/-!
# What a parser step reads

A step that succeeds moves the cursor over some tokens and writes to the trace;
the steps of expressions and tensor literals leave everything else as it was.
Two statements about a step at a parser `p` are used throughout:

* `step.Yields p R`: whenever the step succeeds, it has moved `p` over tokens
  that `R` relates to its value.
* `step.Gives p c a`: the step succeeds with the value `a` and moves `p` to the
  cursor `c`.

Each way of combining steps has a rule for both, so that the productions of the
grammar need no unfolding of the steps inside them.
-/

namespace TensorLet

/-! ## Tokens at a cursor -/

namespace Token

/-- A token that a parser can take: it is not the end of the source, and if it
is a number it is finite. -/
def Readable (t : Token) : Prop := t.isEnd = false ∧ t.FiniteNumber

theorem scalar_eq_ok_iff (t : Token) (s : Scalar) :
    t.scalar = .ok s ↔ t.number? = some s ∧ s.value.isFinite = true := by
  unfold scalar number?
  cases Decimal.ofChars? t.lexeme.toList with
  | none => simp
  | some d =>
    by_cases hd : d.toBinary64.isFinite = true
    · simp only [hd, if_true, Option.map_some, Except.ok.injEq, Option.some.injEq]
      constructor
      · rintro rfl
        exact ⟨rfl, hd⟩
      · exact fun h => h.1
    · simp only [hd, Bool.false_eq_true, if_false, Option.map_some, Option.some.injEq]
      constructor
      · intro h
        cases h
      · rintro ⟨rfl, h⟩
        exact absurd h hd

/-- A token of a class that is neither the end nor a number is readable. -/
theorem readable_of_kind {t : Token} {k : TokenKind} (h : t.kind = k) (hend : k ≠ .endOfInput)
    (hint : k ≠ .int) (hfloat : k ≠ .float) : t.Readable := by
  refine ⟨by simp [isEnd, h, hend], fun hn => ?_⟩
  simp [isNumber, h, hint, hfloat] at hn

theorem kind_of_isSymbol {t : Token} {c : Char} (h : t.isSymbol c = true) : t.kind = .symbol := by
  simp only [isSymbol, Bool.and_eq_true, decide_eq_true_eq] at h
  exact h.1

theorem readable_of_isSymbol {t : Token} {c : Char} (h : t.isSymbol c = true) : t.Readable :=
  readable_of_kind (kind_of_isSymbol h) (by decide) (by decide) (by decide)

theorem kind_of_isKeyword {t : Token} {k : Keyword} (h : t.isKeyword k = true) :
    t.kind = .keyword := by
  simp only [isKeyword, Bool.and_eq_true, decide_eq_true_eq] at h
  exact h.1

theorem readable_of_isKeyword {t : Token} {k : Keyword} (h : t.isKeyword k = true) :
    t.Readable :=
  readable_of_kind (kind_of_isKeyword h) (by decide) (by decide) (by decide)

theorem kind_of_valueType? {t : Token} {type : ValueType} (h : t.valueType? = some type) :
    t.kind = .keyword := by
  by_contra hne
  simp [valueType?, keyword?, hne] at h

theorem readable_of_valueType? {t : Token} {type : ValueType} (h : t.valueType? = some type) :
    t.Readable :=
  readable_of_kind (kind_of_valueType? h) (by decide) (by decide) (by decide)

theorem isEnd_of_isNumber {t : Token} (h : t.isNumber = true) : t.isEnd = false := by
  simp only [isNumber, Bool.or_eq_true, decide_eq_true_eq] at h
  rcases h with h | h <;> simp [isEnd, h]

/-- A symbol token stands for one character only. -/
theorem eq_of_isSymbol {t : Token} {c d : Char} (hc : t.isSymbol c = true)
    (hd : t.isSymbol d = true) : c = d := by
  simp only [isSymbol, Bool.and_eq_true, decide_eq_true_eq] at hc hd
  exact Option.some.inj (hc.2.symm.trans hd.2)

theorem isSymbol_eq_false {t : Token} {c d : Char} (hc : t.isSymbol c = true) (hne : d ≠ c) :
    t.isSymbol d = false := by
  by_contra h
  exact hne (eq_of_isSymbol (by simpa using h) hc)

theorem unaryOp?_eq_some {t : Token} {op : UnaryOp} (hk : t.kind = .symbol) :
    t.unaryOp? = some op ↔ t.isSymbol op.symbol = true := by
  simp only [unaryOp?, isSymbol, hk, decide_true, Bool.true_and, decide_eq_true_eq,
    Option.bind_eq_some_iff, UnaryOp.ofSymbol?_eq_some_iff]
  constructor
  · rintro ⟨c, hc, rfl⟩
    exact hc
  · intro h
    exact ⟨_, h, rfl⟩

theorem binaryOp?_eq_some {t : Token} {op : BinOp} {ops : List BinOp}
    (ht : t.isSymbol op.symbol = true) (hop : op ∈ ops) : t.binaryOp? ops = some op := by
  cases h : t.binaryOp? ops with
  | none => exact absurd ht (List.find?_eq_none.mp h op hop)
  | some op' =>
    have hfound := List.find?_some h
    have hsymbol := eq_of_isSymbol hfound ht
    cases op <;> cases op' <;> first | rfl | cases hsymbol

/-- A token that is some other symbol is none of the operators. -/
theorem binaryOp?_eq_none {t : Token} {c : Char} {ops : List BinOp} (hc : t.isSymbol c = true)
    (hne : ∀ op ∈ ops, op.symbol ≠ c) : t.binaryOp? ops = none := by
  refine List.find?_eq_none.mpr fun op hop h => ?_
  exact hne op hop (eq_of_isSymbol h hc)

end Token

namespace Cursor

/-- `c.Reads ts c'`: the readable tokens `ts` stand at `c` one after the other,
and `c'` is the cursor behind them. -/
def Reads : Cursor → List Token → Cursor → Prop
  | c, [], c' => c = c'
  | c, t :: ts, c' => c.current = t ∧ t.Readable ∧ ∃ c₁, c.advance = (.ok t, c₁) ∧ Reads c₁ ts c'

theorem reads_append {c c' : Cursor} {ts us : List Token} :
    c.Reads (ts ++ us) c' ↔ ∃ c₁, c.Reads ts c₁ ∧ c₁.Reads us c' := by
  induction ts generalizing c with
  | nil => simp [Reads]
  | cons t ts ih =>
    simp only [List.cons_append, Reads, ih]
    constructor
    · rintro ⟨hc, ht, c₁, ha, c₂, h₁, h₂⟩
      exact ⟨c₂, ⟨hc, ht, c₁, ha, h₁⟩, h₂⟩
    · rintro ⟨c₂, ⟨hc, ht, c₁, ha, h₁⟩, h₂⟩
      exact ⟨hc, ht, c₁, ha, c₂, h₁, h₂⟩

theorem reads_singleton {c c' : Cursor} {t : Token} :
    c.Reads [t] c' ↔ c.current = t ∧ t.Readable ∧ c.advance = (.ok t, c') := by
  simp [Reads]

/-- The token taken is the one under the cursor. -/
theorem current_of_advance {c c' : Cursor} {t : Token} (h : c.advance = (.ok t, c')) :
    c.current = t := by
  unfold advance at h
  split at h
  · cases h; rfl
  · cases h; rfl
  · cases h

theorem Reads.readable {c c' : Cursor} {ts : List Token} (h : c.Reads ts c') :
    ∀ t ∈ ts, t.Readable := by
  induction ts generalizing c with
  | nil => simp
  | cons t ts ih =>
    obtain ⟨-, ht, c₁, -, h₁⟩ := h
    intro u hu
    rcases List.mem_cons.mp hu with rfl | hu
    · exact ht
    · exact ih h₁ u hu

end Cursor

/-! ## Scopes -/

namespace SymbolTable

theorem storageOf?_empty : empty.storageOf? = Grammar.visible [] := by
  funext x
  simp [storageOf?, get?, empty, Grammar.visible]

/-- A name declared in a scope is visible behind its declaration. -/
theorem storageOf?_define {t : SymbolTable} (ht : t.Bounded) {names : List String}
    (hscope : t.storageOf? = Grammar.visible names) (name : String) (type : ValueType) :
    (t.define name type .localVar).storageOf? = Grammar.visible (name :: names) := by
  funext x
  rw [storageOf?, get?_define ht]
  by_cases hx : name = x
  · rw [if_pos hx, Grammar.visible, if_pos (by rw [hx]; exact List.mem_cons_self)]
    rfl
  · rw [if_neg hx]
    have := congrFun hscope x
    rw [storageOf?] at this
    simp only [this, Grammar.visible, List.mem_cons, Ne.symm hx, false_or]

end SymbolTable

/-! ## Parsers that have moved -/

namespace Parser

/-- The parser with its cursor and its trace replaced. -/
def moved (p : Parser) (c : Cursor) (o : Outline) : Parser := { p with cursor := c, trace := o }

/-- The parser one level higher in the tree. -/
def taller (p : Parser) : Parser := { p with height := p.height + 1 }

/-- The parser inside one more bracket or sign. -/
def deeper (p : Parser) : Parser := { p with nesting := p.nesting + 1, height := p.height + 1 }

/-- The parser `k` levels higher in the tree. -/
def raised (p : Parser) (k : Nat) : Parser := { p with height := p.height + k }

/-- The parser with other symbols. -/
def inScope (p : Parser) (symbols : SymbolTable) : Parser := { p with symbols := symbols }

/-- The parser has these symbols and stands at this nesting and height. -/
structure StandsAt (p : Parser) (symbols : SymbolTable) (n h : Nat) : Prop where
  symbols : p.symbols = symbols
  nesting : p.nesting = n
  height : p.height = h

variable (p : Parser) (c c' : Cursor) (o o' : Outline)

@[simp] theorem cursor_moved : (p.moved c o).cursor = c := rfl
@[simp] theorem nesting_moved : (p.moved c o).nesting = p.nesting := rfl
@[simp] theorem height_moved : (p.moved c o).height = p.height := rfl
@[simp] theorem moved_moved : (p.moved c o).moved c' o' = p.moved c' o' := rfl
@[simp] theorem headroom_moved : (p.moved c o).headroom = p.headroom := rfl
@[simp] theorem height_taller : p.taller.height = p.height + 1 := rfl

namespace StandsAt

variable {p : Parser} {symbols : SymbolTable} {n h : Nat} (hp : p.StandsAt symbols n h)
include hp

theorem moved : (p.moved c o).StandsAt symbols n h := ⟨hp.symbols, hp.nesting, hp.height⟩

theorem deeper : p.deeper.StandsAt symbols (n + 1) (h + 1) :=
  ⟨hp.symbols, congrArg (· + 1) hp.nesting, congrArg (· + 1) hp.height⟩

theorem raised (k : Nat) : (p.raised k).StandsAt symbols n (h + k) :=
  ⟨hp.symbols, hp.nesting, congrArg (· + k) hp.height⟩

end StandsAt

end Parser

namespace Parse

variable {α β : Type}

/-- A sequence succeeds when its parts do. -/
theorem bind_eq_ok {x : Parse α} {f : α → Parse β} {p p'' : Parser} {b : β} :
    (x >>= f) p = .ok b p'' ↔ ∃ a p', x p = .ok a p' ∧ f a p' = .ok b p'' := by
  show EStateM.bind x f p = .ok b p'' ↔ _
  unfold EStateM.bind
  cases h : x p with
  | ok a p' =>
    constructor
    · intro hf
      exact ⟨a, p', rfl, hf⟩
    · rintro ⟨a', q, hq, hf⟩
      cases hq
      exact hf
  | error e p' => simp

/-- Taking a token moves the cursor and leaves all but the trace as it was. -/
theorem advance_eq_ok {p p' : Parser} {t : Token} :
    advance p = .ok t p' ↔ ∃ c, p.cursor.advance = (.ok t, c) ∧
      p' = p.moved c (match p.cursor.current.traceText? with
        | some text => p.trace.line text
        | none => p.trace) := by
  unfold advance
  extract_lets trace
  rcases h : p.cursor.advance with ⟨r, c⟩
  cases r with
  | ok u =>
    simp only [EStateM.Result.ok.injEq, Prod.mk.injEq, Except.ok.injEq]
    constructor
    · rintro ⟨rfl, rfl⟩
      exact ⟨c, ⟨rfl, rfl⟩, rfl⟩
    · rintro ⟨d, ⟨rfl, rfl⟩, rfl⟩
      exact ⟨rfl, rfl⟩
  | error e =>
    simp

/-- A step inside a tag succeeds when the step does, and differs from it in the
trace only. -/
theorem tagged_eq_ok {tag : String} {x : Parse α} {p p' : Parser} {a : α} :
    tagged tag x p = .ok a p' ↔ ∃ q, x (p.moved p.cursor (p.trace.openTag tag)) = .ok a q ∧
      p' = q.moved q.cursor (q.trace.closeTag tag) := by
  constructor
  · intro ha
    obtain ⟨_, q, hq, ha⟩ := bind_eq_ok.mp ha
    cases hq
    obtain ⟨a', q, hx, ha⟩ := bind_eq_ok.mp ha
    obtain ⟨_, q', hq', ha⟩ := bind_eq_ok.mp ha
    cases hq'
    cases ha
    exact ⟨q, hx, rfl⟩
  · rintro ⟨q, hx, rfl⟩
    refine bind_eq_ok.mpr ⟨(), _, rfl, bind_eq_ok.mpr ⟨a, q, hx, ?_⟩⟩
    exact bind_eq_ok.mpr ⟨(), _, rfl, rfl⟩

/-! ## Failures of combined steps -/

/-- A sequence fails in its first part or, behind it, in its second. -/
theorem bind_eq_error {x : Parse α} {f : α → Parse β} {p p'' : Parser} {e : Error} :
    (x >>= f) p = .error e p'' ↔
      x p = .error e p'' ∨ ∃ a p', x p = .ok a p' ∧ f a p' = .error e p'' := by
  show EStateM.bind x f p = .error e p'' ↔ _
  unfold EStateM.bind
  cases h : x p with
  | ok a p' =>
    constructor
    · intro hf
      exact .inr ⟨a, p', rfl, hf⟩
    · rintro (hx | ⟨a', q, hq, hf⟩)
      · cases hx
      · cases hq
        exact hf
  | error e' p' => simp

/-- A sequence depends on its second part only where the first one ends. -/
theorem bind_congr {x y : Parse α} {f g : α → Parse β} {p : Parser} (hxy : x p = y p)
    (h : ∀ a q, x p = .ok a q → f a q = g a q) : (x >>= f) p = (y >>= g) p := by
  show EStateM.bind x f p = EStateM.bind y g p
  unfold EStateM.bind
  rw [← hxy]
  cases hx : x p with
  | ok a q => exact h a q hx
  | error e q => rfl

theorem current_bind (f : Token → Parse α) (p : Parser) :
    (current >>= f) p = f p.cursor.current p := rfl

/-- A step inside a tag fails as the step does. -/
theorem tagged_eq_error {tag : String} {x : Parse α} {p p' : Parser} {e : Error} :
    tagged tag x p = .error e p' ↔ x (p.moved p.cursor (p.trace.openTag tag)) = .error e p' := by
  constructor
  · intro h
    rcases bind_eq_error.mp h with h | ⟨_, q, hq, h⟩
    · cases h
    · cases hq
      rcases bind_eq_error.mp h with h | ⟨a, q, -, h⟩
      · exact h
      · rcases bind_eq_error.mp h with h | ⟨_, q, -, h⟩ <;> cases h
  · intro h
    exact bind_eq_error.mpr (.inr ⟨(), _, rfl, bind_eq_error.mpr (.inl h)⟩)

/-- At a lexical error the step fails with it and moves behind it. -/
theorem advance_eq_error {p p' : Parser} {e : Error} :
    advance p = .error e p' ↔ ∃ c, p.cursor.advance = (.error e, c) ∧
      p' = p.moved c (match p.cursor.current.traceText? with
        | some text => p.trace.line text
        | none => p.trace) := by
  unfold advance
  extract_lets trace
  rcases h : p.cursor.advance with ⟨r, c⟩
  cases r with
  | ok t => simp
  | error e' =>
    simp only [EStateM.Result.error.injEq, Prod.mk.injEq, Except.error.injEq]
    constructor
    · rintro ⟨rfl, rfl⟩
      exact ⟨c, ⟨rfl, rfl⟩, rfl⟩
    · rintro ⟨d, ⟨rfl, rfl⟩, rfl⟩
      exact ⟨rfl, rfl⟩

/-- One bracket or sign deeper there is a level more, unless the tree is as high
as it may be. -/
theorem enter_eq (span : Span) (p : Parser) :
    enter span p = if p.height < maxHeight then .ok () p.deeper
      else .error ⟨.expressionTooDeep, span⟩ { p with nesting := p.nesting + 1 } := by
  by_cases h : p.height < maxHeight
  · rw [if_pos h]
    exact if_neg (show ¬ maxHeight - p.height = 0 by omega)
  · rw [if_neg h]
    exact if_pos (show maxHeight - p.height = 0 by omega)

/-! ## What a success has read -/

/-- Whenever `step` succeeds, it has moved `p` over tokens that `R` relates to
its value, and has left the symbols and the counters as they were. -/
def Yields (step : Parse α) (p : Parser) (R : List Token → α → Prop) : Prop :=
  ∀ a p', step p = .ok a p' → ∃ ts c o, p.cursor.Reads ts c ∧ p' = p.moved c o ∧ R ts a

namespace Yields

variable {p : Parser} {x : Parse α} {R : List Token → α → Prop}

theorem pure {a : α} (h : R [] a) : (Pure.pure a : Parse α).Yields p R := by
  intro b p' hb
  cases hb
  exact ⟨[], p.cursor, p.trace, rfl, rfl, h⟩

/-- What the first part of a sequence has read, and what is left to run. -/
theorem uncons {f : α → Parse β} {b : β} {p'' : Parser} (hx : x.Yields p R)
    (h : (x >>= f) p = .ok b p'') : ∃ ts a c o, p.cursor.Reads ts c ∧ R ts a ∧
      f a (p.moved c o) = .ok b p'' := by
  obtain ⟨a, p', hxa, hfb⟩ := bind_eq_ok.mp h
  obtain ⟨ts, c, o, hts, rfl, hR⟩ := hx a p' hxa
  exact ⟨ts, a, c, o, hts, hR, hfb⟩

theorem bind {f : α → Parse β} {S : List Token → β → Prop} (hx : x.Yields p R)
    (hf : ∀ ts a c o, p.cursor.Reads ts c → R ts a →
      (f a).Yields (p.moved c o) fun us b => S (ts ++ us) b) :
    (x >>= f).Yields p S := by
  intro b p'' h
  obtain ⟨ts, a, c, o, hts, hR, hfb⟩ := hx.uncons h
  obtain ⟨us, c', o', hus, rfl, hS⟩ := hf ts a c o hts hR b p'' hfb
  exact ⟨ts ++ us, c', o', Cursor.reads_append.mpr ⟨c, hts, hus⟩, rfl, hS⟩

theorem mono {S : List Token → α → Prop} (hx : x.Yields p R) (h : ∀ ts a, R ts a → S ts a) :
    x.Yields p S := by
  intro a p' ha
  obtain ⟨ts, c, o, hts, hp, hR⟩ := hx a p' ha
  exact ⟨ts, c, o, hts, hp, h ts a hR⟩

theorem throw {e : Error} : (MonadExcept.throw e : Parse α).Yields p R := by
  intro a p' h
  cases h

theorem unexpected {e : Expectation} : (Parse.unexpected e : Parse α).Yields p R := by
  intro a p' h
  cases h

theorem current {f : Token → Parse α} (h : (f p.cursor.current).Yields p R) :
    (Parse.current >>= f).Yields p R := h

theorem get {f : Parser → Parse α} (h : (f p).Yields p R) :
    (MonadState.get >>= f).Yields p R := h

theorem tagged {tag : String} (h : ∀ o, x.Yields (p.moved p.cursor o) R) :
    (Parse.tagged tag x).Yields p R := by
  intro a p' ha
  obtain ⟨q, hx, rfl⟩ := tagged_eq_ok.mp ha
  obtain ⟨ts, c, o, hts, rfl, hR⟩ := h _ a q hx
  exact ⟨ts, c, o.closeTag tag, hts, rfl, hR⟩

theorem advance (h : p.cursor.current.Readable) :
    Parse.advance.Yields p fun ts t => ts = [t] ∧ p.cursor.current = t := by
  intro t p' ha
  obtain ⟨c, hc, rfl⟩ := advance_eq_ok.mp ha
  have ht := Cursor.current_of_advance hc
  refine ⟨[t], c, _, Cursor.reads_singleton.mpr ⟨ht, ht ▸ h, hc⟩, rfl, rfl, ht⟩

theorem expect {test : Token → Bool} {e : Expectation}
    (h : ∀ t : Token, test t = true → t.Readable) :
    (Parse.expect test e).Yields p fun ts t => ts = [t] ∧ test t = true := by
  unfold Parse.expect
  apply current
  split
  next ht =>
    refine (advance (h _ ht)).mono ?_
    rintro ts t ⟨rfl, rfl⟩
    exact ⟨rfl, ht⟩
  next => exact unexpected

theorem expectSymbol {c : Char} :
    (Parse.expectSymbol c).Yields p fun ts t => ts = [t] ∧ t.isSymbol c = true :=
  expect fun _ => Token.readable_of_isSymbol

theorem expectKeyword {k : Keyword} :
    (Parse.expectKeyword k).Yields p fun ts t => ts = [t] ∧ t.isKeyword k = true :=
  expect fun _ => Token.readable_of_isKeyword

theorem expectIdentifier :
    Parse.expectIdentifier.Yields p fun ts t => ts = [t] ∧ t.kind = .identifier := by
  refine (expect ?_).mono ?_
  · intro t ht
    exact Token.readable_of_kind (of_decide_eq_true ht) (by decide) (by decide) (by decide)
  · rintro ts t ⟨hts, ht⟩
    exact ⟨hts, of_decide_eq_true ht⟩

/-- A step inside a bracket or sign reads what it reads one level deeper. -/
theorem descend {inside : Option (Parse α)} {span : Span}
    (h : ∀ step, inside = some step → p.height < maxHeight → step.Yields p.deeper R) :
    (Parse.descend span inside).Yields p R := by
  intro a p' ha
  cases inside with
  | none => cases ha
  | some step =>
    obtain ⟨_, q, hq, ha⟩ := bind_eq_ok.mp ha
    obtain ⟨a', q', hstep, ha⟩ := bind_eq_ok.mp ha
    obtain ⟨_, q'', hq'', ha⟩ := bind_eq_ok.mp ha
    cases hq''
    cases ha
    unfold enter at hq
    extract_lets p₁ at hq
    split at hq
    · cases hq
    next hroom =>
      cases hq
      have hlt : p.height < maxHeight := Nat.lt_of_sub_ne_zero hroom
      obtain ⟨ts, c, o, hts, rfl, hR⟩ := h step rfl hlt a q' hstep
      exact ⟨ts, c, o, hts, rfl, hR⟩

end Yields

/-! ## Steps that succeed -/

/-- The step succeeds with the value `a`, moves `p` to the cursor `c` and leaves
the symbols and the counters as they were. -/
def Gives (step : Parse α) (p : Parser) (c : Cursor) (a : α) : Prop :=
  ∃ o, step p = .ok a (p.moved c o)

namespace Gives

variable {p : Parser} {x : Parse α} {c c' : Cursor} {a : α} {b : β}

theorem pure : (Pure.pure a : Parse α).Gives p p.cursor a := ⟨p.trace, rfl⟩

theorem bind {f : α → Parse β} (hx : x.Gives p c a)
    (hf : ∀ o, (f a).Gives (p.moved c o) c' b) : (x >>= f).Gives p c' b := by
  obtain ⟨o, hxa⟩ := hx
  obtain ⟨o', hfb⟩ := hf o
  exact ⟨o', bind_eq_ok.mpr ⟨a, _, hxa, hfb⟩⟩

theorem current {f : Token → Parse α} (h : (f p.cursor.current).Gives p c a) :
    (Parse.current >>= f).Gives p c a := h

theorem get {f : Parser → Parse α} (h : (f p).Gives p c a) :
    (MonadState.get >>= f).Gives p c a := h

theorem tagged {tag : String} (h : ∀ o, x.Gives (p.moved p.cursor o) c a) :
    (Parse.tagged tag x).Gives p c a := by
  obtain ⟨o, hx⟩ := h (p.trace.openTag tag)
  exact ⟨o.closeTag tag, tagged_eq_ok.mpr ⟨_, hx, rfl⟩⟩

theorem advance {t : Token} (h : p.cursor.Reads [t] c) : Parse.advance.Gives p c t := by
  obtain ⟨-, -, hc⟩ := Cursor.reads_singleton.mp h
  exact ⟨_, advance_eq_ok.mpr ⟨c, hc, rfl⟩⟩

theorem expect {test : Token → Bool} {e : Expectation} {t : Token} (h : p.cursor.Reads [t] c)
    (ht : test t = true) : (Parse.expect test e).Gives p c t := by
  have hcur := (Cursor.reads_singleton.mp h).1
  unfold Parse.expect
  apply current
  rw [hcur, if_pos ht]
  exact advance h

theorem expectSymbol {t : Token} {d : Char} (h : p.cursor.Reads [t] c)
    (ht : t.isSymbol d = true) : (Parse.expectSymbol d).Gives p c t := expect h ht

theorem expectKeyword {t : Token} {k : Keyword} (h : p.cursor.Reads [t] c)
    (ht : t.isKeyword k = true) : (Parse.expectKeyword k).Gives p c t := expect h ht

theorem expectIdentifier {t : Token} (h : p.cursor.Reads [t] c) (ht : t.kind = .identifier) :
    Parse.expectIdentifier.Gives p c t := expect h (decide_eq_true ht)

theorem descend {step : Parse α} {span : Span} (hlt : p.height < maxHeight)
    (h : step.Gives p.deeper c a) : (Parse.descend span (some step)).Gives p c a := by
  obtain ⟨o, hstep⟩ := h
  have henter : enter span p = .ok () p.deeper := by
    have hroom : ¬ maxHeight - p.height = 0 := by omega
    exact if_neg hroom
  refine ⟨o, bind_eq_ok.mpr ⟨(), _, henter, bind_eq_ok.mpr ⟨a, _, hstep, ?_⟩⟩⟩
  exact bind_eq_ok.mpr ⟨(), _, rfl, rfl⟩

end Gives

end Parse

end TensorLet
