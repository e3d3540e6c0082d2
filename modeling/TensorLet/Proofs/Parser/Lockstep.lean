import TensorLet.Proofs.Correspondence
import TensorLet.Proofs.Parser.Acceptance
import TensorLet.Proofs.Parser.Progress

/-!
# Two parsers in lockstep

Two parsers whose sources have corresponding tokens do the same: they succeed
with corresponding trees and tables, or fail with an error of one kind.

The sources need not correspond to their ends. `Agrees N m` compares two cursors
up to where `m` pieces are left of the first one, so the statement about two
steps has a third outcome beside two successes and two failures: the first
parser has gone beyond that point. No step moves back, so it stays there. With
`m = 0` there is nothing beyond.

* `Parse.Lockstep`: the outcomes of two steps correspond; each way of combining
  steps has a rule.
* `Parse.tensor_lockstep`, `Parse.factor_lockstep`, `Parse.unit_lockstep`: the
  productions of the grammar keep step.
* `Cursor.ofTokens_agrees`: cursors on corresponding tokens agree.
-/

namespace TensorLet

variable {N : String → String → Prop} {m : Nat}

/-! ## Parsers -/

/-- The tokens under two cursors correspond, and so do those behind them until
`m` pieces are left of the first source. -/
inductive Cursor.Agrees (N : String → String → Prop) (m : Nat) : Cursor → Cursor → Prop
  | here {c c' : Cursor} : c.current.Renamed N c'.current → c.left = m → Agrees N m c c'
  | ahead {c c' d d' : Cursor} : c.current.Renamed N c'.current →
      c.advance = (.ok c.current, d) → c'.advance = (.ok c'.current, d') → Agrees N m d d' →
      Agrees N m c c'

theorem Cursor.Agrees.current {c c' : Cursor} (h : c.Agrees N m c') :
    c.current.Renamed N c'.current := by
  cases h with
  | here ht _ => exact ht
  | ahead ht _ _ _ => exact ht

/-- Parsers at corresponding cursors that know the same. -/
structure Parser.Agrees (N : String → String → Prop) (m : Nat) (p p' : Parser) : Prop where
  cursor : p.cursor.Agrees N m p'.cursor
  symbols : p.symbols.Renamed N p'.symbols
  nesting : p.nesting = p'.nesting
  height : p.height = p'.height

namespace Parser.Agrees

variable {p p' : Parser} (h : p.Agrees N m p')
include h

theorem current : p.cursor.current.Renamed N p'.cursor.current := h.cursor.current

theorem moved {c c' : Cursor} (hc : c.Agrees N m c') (o o' : Outline) :
    (p.moved c o).Agrees N m (p'.moved c' o') :=
  ⟨hc, h.symbols, h.nesting, h.height⟩

theorem taller : p.taller.Agrees N m p'.taller :=
  ⟨h.cursor, h.symbols, h.nesting, congrArg (· + 1) h.height⟩

theorem deeper : p.deeper.Agrees N m p'.deeper :=
  ⟨h.cursor, h.symbols, congrArg (· + 1) h.nesting, congrArg (· + 1) h.height⟩

end Parser.Agrees

namespace Parse

variable {α α' β β' : Type}

/-! ## Steps -/

/-- The outcomes of two steps correspond: values that `R` relates, with parsers
that agree, or errors of one kind; or the first parser has gone beyond the point
up to which the sources correspond. -/
inductive Meets (N : String → String → Prop) (m : Nat) (R : α → β → Prop) :
    EStateM.Result Error Parser α → EStateM.Result Error Parser β → Prop
  | ok {a : α} {b : β} {q q' : Parser} : R a b → q.Agrees N m q' → Meets N m R (.ok a q) (.ok b q')
  | error {e e' : Error} {q q' : Parser} : e.fault.kind = e'.fault.kind →
      Meets N m R (.error e q) (.error e' q')
  | okBeyond {a : α} {q : Parser} {r : EStateM.Result Error Parser β} : q.cursor.left < m →
      Meets N m R (.ok a q) r
  | errorBeyond {e : Error} {q : Parser} {r : EStateM.Result Error Parser β} :
      q.cursor.left < m → Meets N m R (.error e q) r

theorem Meets.mono {R S : α → β → Prop} {r : EStateM.Result Error Parser α}
    {r' : EStateM.Result Error Parser β} (hr : Meets N m R r r') (h : ∀ a b, R a b → S a b) :
    Meets N m S r r' := by
  cases hr with
  | ok hR hq => exact .ok (h _ _ hR) hq
  | error he => exact .error he
  | okBeyond hq => exact .okBeyond hq
  | errorBeyond hq => exact .errorBeyond hq

/-- With nothing beyond there are two successes or two failures. -/
theorem Meets.zero {R : α → β → Prop} {r : EStateM.Result Error Parser α}
    {r' : EStateM.Result Error Parser β} (hr : Meets N 0 R r r') :
    (∃ a b q q', r = .ok a q ∧ r' = .ok b q' ∧ R a b ∧ q.Agrees N 0 q') ∨
      ∃ e e' q q', r = .error e q ∧ r' = .error e' q' ∧ e.fault.kind = e'.fault.kind := by
  cases hr with
  | ok hR hq => exact .inl ⟨_, _, _, _, rfl, rfl, hR, hq⟩
  | error he => exact .inr ⟨_, _, _, _, rfl, rfl, he⟩
  | okBeyond hlt => exact absurd hlt (Nat.not_lt_zero _)
  | errorBeyond hlt => exact absurd hlt (Nat.not_lt_zero _)

/-- The steps have corresponding outcomes at two parsers. -/
def Lockstep (N : String → String → Prop) (m : Nat) (x : Parse α) (x' : Parse α') (p p' : Parser)
    (R : α → α' → Prop) : Prop := Meets N m R (x p) (x' p')

namespace Lockstep

variable {x : Parse α} {x' : Parse α'} {p p' : Parser} {R : α → α' → Prop}

theorem pure {a : α} {a' : α'} (h : p.Agrees N m p') (hR : R a a') :
    Lockstep N m (Pure.pure a) (Pure.pure a') p p' R := .ok hR h

theorem throw {e e' : Error} (h : e.fault.kind = e'.fault.kind) :
    Lockstep N m (MonadExcept.throw e : Parse α) (MonadExcept.throw e' : Parse α') p p' R :=
  .error h

theorem unexpected {e : Expectation} :
    Lockstep N m (Parse.unexpected e : Parse α) (Parse.unexpected e : Parse α') p p' R := .error rfl

/-- Behind a step the parsers agree, or the first one stays beyond. -/
theorem bind {f : α → Parse β} {f' : α' → Parse β'} {S : β → β' → Prop}
    [o : ∀ a, Scripted (f a)] (hx : Lockstep N m x x' p p' R)
    (hf : ∀ a a' q q', R a a' → q.Agrees N m q' → Lockstep N m (f a) (f' a') q q' S) :
    Lockstep N m (x >>= f) (x' >>= f') p p' S := by
  show Meets N m S (EStateM.bind x f p) (EStateM.bind x' f' p')
  unfold EStateM.bind
  unfold Lockstep at hx
  revert hx
  generalize x p = r
  generalize x' p' = r'
  intro hx
  cases hx with
  | ok hR hq => exact hf _ _ _ _ hR hq
  | error he => exact .error he
  | @okBeyond a q _ hq =>
    have hle := Scripted.left_run_le (f a) q
    show Meets N m S (f a q) _
    unfold Parser.run at hle
    cases hfa : f a q with
    | ok b q'' =>
      rw [hfa] at hle
      exact .okBeyond (Nat.lt_of_le_of_lt hle hq)
    | error e q'' =>
      rw [hfa] at hle
      exact .errorBeyond (Nat.lt_of_le_of_lt hle hq)
  | errorBeyond hq => exact .errorBeyond hq

theorem mono {S : α → α' → Prop} (hx : Lockstep N m x x' p p' R) (h : ∀ a a', R a a' → S a a') :
    Lockstep N m x x' p p' S := Meets.mono hx h

theorem congr {y : Parse α} {y' : Parse α'} (hx : x p = y p) (hx' : x' p' = y' p')
    (h : Lockstep N m y y' p p' R) : Lockstep N m x x' p p' R := by
  unfold Lockstep
  rwa [hx, hx']

theorem current {f : Token → Parse α} {f' : Token → Parse α'}
    (h : Lockstep N m (f p.cursor.current) (f' p'.cursor.current) p p' R) :
    Lockstep N m (Parse.current >>= f) (Parse.current >>= f') p p' R := h

theorem get {f : Parser → Parse α} {f' : Parser → Parse α'}
    (h : Lockstep N m (f p) (f' p') p p' R) :
    Lockstep N m (MonadState.get >>= f) (MonadState.get >>= f') p p' R := h

/-- A branch that a test of corresponding tokens decides. -/
theorem ite {b b' : Bool} {y : Parse α} {y' : Parse α'} (hb : b = b')
    (hx : b = true → Lockstep N m x x' p p' R) (hy : b = false → Lockstep N m y y' p p' R) :
    Lockstep N m (if b = true then x else y) (if b' = true then x' else y') p p' R := by
  subst hb
  cases b with
  | true => exact hx rfl
  | false => exact hy rfl

theorem tagged {tag : String} (h : p.Agrees N m p')
    (hx : ∀ q q', q.Agrees N m q' → Lockstep N m x x' q q' R) :
    Lockstep N m (Parse.tagged tag x) (Parse.tagged tag x') p p' R := by
  have hinside := hx _ _ (h.moved h.cursor (p.trace.openTag tag) (p'.trace.openTag tag))
  refine (hinside.bind ?_ : Lockstep N m
    (x >>= fun a => Parse.closeTag tag >>= fun _ => Pure.pure a)
    (x' >>= fun a => Parse.closeTag tag >>= fun _ => Pure.pure a) _ _ R)
  intro a a' q q' hR hq
  exact .ok hR (hq.moved hq.cursor _ _)

/-- Where the current token is not the end, both parsers move on, unless the
first one goes beyond. -/
theorem advance (h : p.Agrees N m p') (hend : p.cursor.current.isEnd = false) :
    Lockstep N m Parse.advance Parse.advance p p' fun t t' =>
      t = p.cursor.current ∧ t' = p'.cursor.current := by
  unfold Lockstep
  cases hc : h.cursor with
  | here ht hleft =>
    have hlt := Cursor.left_advance_lt hend
    cases hp : Parse.advance p with
    | ok t q =>
      obtain ⟨c, hc, rfl⟩ := advance_eq_ok.mp hp
      rw [hc, hleft] at hlt
      exact .okBeyond hlt
    | error e q =>
      obtain ⟨c, hc, rfl⟩ := advance_eq_error.mp hp
      rw [hc, hleft] at hlt
      exact .errorBeyond hlt
  | @ahead _ _ d d' ht hd hd' hagrees =>
    rw [advance_eq_ok.mpr ⟨d, hd, rfl⟩, advance_eq_ok.mpr ⟨d', hd', rfl⟩]
    exact .ok ⟨rfl, rfl⟩ (h.moved hagrees _ _)

theorem expect {test : Token → Bool} {e : Expectation} (h : p.Agrees N m p')
    (htest : ∀ t t' : Token, t.Renamed N t' → test t = test t')
    (hend : ∀ t, test t = true → t.isEnd = false) :
    Lockstep N m (Parse.expect test e) (Parse.expect test e) p p' fun t t' =>
      test t = true ∧ t.Renamed N t' := by
  refine current (ite (htest _ _ h.current) ?_ fun _ => unexpected)
  intro ht
  refine (advance h (hend _ ht)).mono ?_
  rintro t t' ⟨rfl, rfl⟩
  exact ⟨ht, h.current⟩

theorem expectSymbol (h : p.Agrees N m p') (c : Char) :
    Lockstep N m (Parse.expectSymbol c) (Parse.expectSymbol c) p p' fun _ _ => True :=
  (expect h (fun _ _ ht => ht.isSymbol c) fun _ ht => (Token.readable_of_isSymbol ht).1).mono
    fun _ _ _ => trivial

theorem enter (h : p.Agrees N m p') (span span' : Span) :
    Lockstep N m (Parse.enter span) (Parse.enter span') p p' fun _ _ => True := by
  unfold Lockstep
  rw [enter_eq, enter_eq, ← h.height]
  split
  · exact .ok trivial h.deeper
  · exact .error rfl

/-- One bracket or sign deeper both parsers have as much room. -/
theorem descend {inside : Option (Parse α)} {R : α → α → Prop} (h : p.Agrees N m p')
    (span span' : Span) (hscript : ∀ step ∈ inside, Scripted step)
    (hinside : ∀ step ∈ inside, ∀ q q', q.Agrees N m q' → Lockstep N m step step q q' R) :
    Lockstep N m (Parse.descend span inside) (Parse.descend span' inside) p p' R := by
  cases inside with
  | none => exact throw rfl
  | some step =>
    have := hscript step rfl
    refine bind (enter h span span') fun _ _ q q' _ hq => ?_
    refine bind (hinside step rfl q q' hq) fun a a' q q' hR hq => ?_
    exact .ok hR ⟨hq.cursor, hq.symbols, congrArg (· - 1) hq.nesting, congrArg (· - 1) hq.height⟩

theorem grow (h : p.Agrees N m p') :
    Lockstep N m Parse.grow Parse.grow p p' fun _ _ => True := .ok trivial h.taller

theorem shrink (h : p.Agrees N m p') :
    Lockstep N m Parse.shrink Parse.shrink p p' fun _ _ => True :=
  .ok trivial ⟨h.cursor, h.symbols, h.nesting, congrArg (· - 1) h.height⟩

theorem newScope (h : p.Agrees N m p') :
    Lockstep N m Parse.newScope Parse.newScope p p' fun _ _ => True :=
  .ok trivial ⟨h.cursor, .empty, h.nesting, h.height⟩

/-- Corresponding names are resolved to the same storage. -/
theorem resolve {f : Option Storage → Parse α} {f' : Option Storage → Parse α'}
    (h : p.Agrees N m p') {y y' : String} (hy : N y y')
    (hf : ∀ resolved, Lockstep N m (f resolved) (f' resolved) p p' R) :
    Lockstep N m (Parse.resolve y >>= f) (Parse.resolve y' >>= f') p p' R := by
  have hstorage := hf (p.symbols.storageOf? y)
  show Meets N m R (f (p.symbols.storageOf? y) p) (f' (p'.symbols.storageOf? y') p')
  rwa [← h.symbols.storageOf? hy]

theorem define (hN : Relator.BiUnique N) (h : p.Agrees N m p') {x x' : String} (hx : N x x')
    (type type' : ValueType) (storage : Storage) :
    Lockstep N m (Parse.define x type storage) (Parse.define x' type' storage) p p'
      fun _ _ => True :=
  .ok trivial ⟨h.cursor, h.symbols.define hN hx type type' storage, h.nesting, h.height⟩

end Lockstep

/-- A step keeps step with itself wherever two parsers agree, and the values it
returns are related by `R`. -/
def Keeps (N : String → String → Prop) (m : Nat) (step : Parse α) (R : α → α → Prop) : Prop :=
  ∀ p p', p.Agrees N m p' → Lockstep N m step step p p' R

/-! ## Tensor literals -/

theorem scalar_lockstep {p p' : Parser} (h : p.Agrees N m p')
    (hnumber : p.cursor.current.isNumber = true) : Lockstep N m scalar scalar p p' Eq := by
  refine Lockstep.bind (o := fun t => ?_)
    (Lockstep.advance h (Token.isEnd_of_isNumber hnumber)) ?_
  · split <;> infer_instance
  · rintro t t' q q' ⟨rfl, rfl⟩ hq
    rcases h.current.scalar hnumber with ⟨s, hs, hs'⟩ | ⟨e, e', he, he', hfault⟩
    · rw [hs, hs']
      exact Lockstep.pure hq rfl
    · rw [he, he']
      exact Lockstep.throw (congrArg Fault.kind hfault)

theorem signedNumber_lockstep : Keeps N m signedNumber Eq := by
  intro p p' h
  unfold signedNumber
  refine Lockstep.current ?_
  rw [← h.current.isSymbol]
  extract_lets negative after
  have hafter : ∀ q q', q.Agrees N m q' → Lockstep N m (after ()) (after ()) q q' Eq := by
    intro q q' hq
    refine Lockstep.current (Lockstep.ite hq.current.isNumber ?_ fun _ => Lockstep.unexpected)
    intro hnumber
    refine Lockstep.bind (scalar_lockstep hq hnumber) ?_
    rintro s _ r r' rfl hr
    exact Lockstep.pure hr rfl
  refine Lockstep.ite rfl ?_ fun _ => hafter p p' h
  intro hminus
  have : Scripted (after ()) := Scripted.bind
  refine Lockstep.bind (Lockstep.advance h (Token.readable_of_isSymbol hminus).1) ?_
  intro _ _ q q' _ hq
  exact hafter q q' hq

section

variable {room : Nat} (hnested : Keeps N m (tensor room) Eq)
include hnested

theorem element_lockstep : Keeps N m (element (tensor room)) Eq := by
  intro p p' h
  refine Lockstep.current (Lockstep.ite (h.current.isSymbol _) ?_ fun _ =>
    signedNumber_lockstep p p' h)
  intro _
  refine Lockstep.bind (hnested p p' h) ?_
  rintro t _ q q' rfl hq
  exact Lockstep.pure hq rfl

theorem elements_lockstep : ∀ bound index : Nat,
    Keeps N m (elements (tensor room) bound index) Eq := by
  intro bound
  induction bound with
  | zero =>
    intro index p p' h
    refine Lockstep.bind (element_lockstep hnested p p' h) ?_
    rintro e _ q q' rfl hq
    exact Lockstep.pure hq rfl
  | succ bound ih =>
    intro index p p' h
    refine Lockstep.bind (element_lockstep hnested p p' h) ?_
    rintro e _ q q' rfl hq
    refine Lockstep.current (Lockstep.ite (hq.current.isSymbol _) ?_ fun _ =>
      Lockstep.pure hq rfl)
    intro hcomma
    refine Lockstep.bind (Lockstep.advance hq (Token.readable_of_isSymbol hcomma).1) ?_
    intro _ _ r r' _ hr
    refine Lockstep.bind (ih (index + 1) r r' hr) ?_
    rintro ⟨extent, entries⟩ _ r r' rfl hr
    exact Lockstep.pure hr rfl

theorem optionalElements_lockstep : Keeps N m (optionalElements (tensor room)) Eq := by
  intro p p' h
  refine Lockstep.current (Lockstep.ite (h.current.isSymbol _) (fun _ => Lockstep.pure h rfl) ?_)
  intro _
  refine Lockstep.get ?_
  -- The two sources may differ in length, so both bounds are raised to a common one.
  refine Lockstep.congr
    (elements_eq_of_left_le room _ (p.cursor.pending.length + p'.cursor.pending.length) 0 p
      p.cursor.left_le (by omega))
    (elements_eq_of_left_le room _ (p.cursor.pending.length + p'.cursor.pending.length) 0 p'
      p'.cursor.left_le (by omega)) ?_
  exact elements_lockstep hnested _ 0 p p' h

theorem braces_lockstep : Keeps N m (braces (tensor room)) Eq := by
  intro p p' h
  refine Lockstep.bind (Lockstep.expectSymbol h _) ?_
  intro brace brace' q q' _ hq
  refine Lockstep.bind (optionalElements_lockstep hnested q q' hq) ?_
  rintro ⟨extent, entries⟩ _ r r' rfl hr
  refine Lockstep.current (Lockstep.ite (hr.current.isSymbol _) ?_ fun _ => Lockstep.throw rfl)
  intro hclose
  refine Lockstep.bind (Lockstep.advance hr (Token.readable_of_isSymbol hclose).1) ?_
  intro _ _ u u' _ hu
  exact Lockstep.pure hu rfl

end

theorem tensor_lockstep : ∀ room : Nat, Keeps N m (tensor room) Eq := by
  intro room
  induction room with
  | zero =>
    intro p p' h
    exact Lockstep.tagged h fun q q' hq => Lockstep.current (Lockstep.throw rfl)
  | succ room ih =>
    intro p p' h
    refine Lockstep.tagged h fun q q' hq => Lockstep.current (Lockstep.descend hq _ _ ?_ ?_)
    · rintro step hstep
      cases hstep
      infer_instance
    · rintro step hstep
      cases hstep
      exact braces_lockstep ih

/-! ## Expressions -/

theorem chain_lockstep {ops : List BinOp} {operand : Parse Expr} [Scripted operand]
    (hoperand : Keeps N m operand (Expr.Renamed N)) : ∀ (room : Nat) (left left' : Expr)
    (p p' : Parser), left.Renamed N left' → p.Agrees N m p' →
      Lockstep N m (chain ops operand room left) (chain ops operand room left') p p'
        (Expr.Renamed N) := by
  intro room
  induction room with
  | zero =>
    intro left left' p p' hleft h
    unfold chain
    refine Lockstep.current ?_
    rw [← h.current.binaryOp?]
    split
    next => exact Lockstep.pure h hleft
    next op hop =>
      have hsymbol := List.find?_some hop
      refine Lockstep.bind (Lockstep.advance h (Token.readable_of_isSymbol hsymbol).1) ?_
      intro t t' q q' _ _
      exact Lockstep.throw rfl
  | succ room ih =>
    intro left left' p p' hleft h
    unfold chain
    refine Lockstep.current ?_
    rw [← h.current.binaryOp?]
    split
    next => exact Lockstep.pure h hleft
    next op hop =>
      have hsymbol := List.find?_some hop
      refine Lockstep.bind (Lockstep.advance h (Token.readable_of_isSymbol hsymbol).1) ?_
      intro t t' q q' _ hq
      refine Lockstep.bind (Lockstep.grow hq) fun _ _ q q' _ hq => ?_
      refine Lockstep.bind (hoperand q q' hq) fun right right' q q' hright hq => ?_
      refine Lockstep.bind (ih _ _ q q' (.binary hleft hright) hq) fun e e' q q' he hq => ?_
      exact Lockstep.bind (Lockstep.shrink hq) fun _ _ q q' _ hq => Lockstep.pure hq he

theorem level_lockstep {tag : String} {ops : List BinOp} {operand : Parse Expr}
    [Scripted operand]
    (hoperand : Keeps N m operand (Expr.Renamed N)) :
    Keeps N m (level tag ops operand) (Expr.Renamed N) := by
  intro p p' h
  refine Lockstep.tagged h fun q q' hq => ?_
  refine Lockstep.bind (o := fun _ => Scripted.get fun _ => rfl) (hoperand q q' hq)
    fun first first' q q' hfirst hq => ?_
  refine Lockstep.get ?_
  rw [show q'.headroom = q.headroom by rw [Parser.headroom, Parser.headroom, hq.height]]
  exact chain_lockstep hoperand _ _ _ q q' hfirst hq

theorem expression_lockstep {factor : Parse Expr} [Scripted factor]
    (hfactor : Keeps N m factor (Expr.Renamed N)) :
    Keeps N m (expression factor) (Expr.Renamed N) := level_lockstep (level_lockstep hfactor)

theorem inParentheses_scripted {inner : Option (Parse Expr)}
    (hinner : ∀ factor ∈ inner, Scripted factor) : ∀ step ∈ inner.map fun factor => do
      let e ← expression factor
      let _ ← expectSymbol ')'
      pure e, Scripted step := by
  intro step hstep
  obtain ⟨factor, hfactor, rfl⟩ := Option.map_eq_some_iff.mp hstep
  have := hinner factor hfactor
  infer_instance

section

variable {inner : Option (Parse Expr)} {literal : Parse Tensor}
  (hscript : ∀ factor ∈ inner, Scripted factor)
  (hinner : ∀ factor ∈ inner, Keeps N m factor (Expr.Renamed N))
include hscript hinner

theorem parenthesized_lockstep {p p' : Parser} (h : p.Agrees N m p')
    (hparen : p.cursor.current.isSymbol '(' = true) :
    Lockstep N m (parenthesized inner) (parenthesized inner) p p' (Expr.Renamed N) := by
  have := Scripted.descend (inParentheses_scripted hscript)
  refine Lockstep.bind (Lockstep.advance h (Token.readable_of_isSymbol hparen).1) ?_
  intro paren paren' q q' _ hq
  refine Lockstep.descend hq _ _ (inParentheses_scripted hscript) ?_
  intro step hstep r r' hr
  obtain ⟨factor, hfactor, rfl⟩ := Option.map_eq_some_iff.mp hstep
  have := hscript factor hfactor
  refine Lockstep.bind (expression_lockstep (hinner factor hfactor) r r' hr) ?_
  intro e e' r r' he hr
  exact Lockstep.bind (Lockstep.expectSymbol hr _) fun _ _ r r' _ hr => Lockstep.pure hr he

theorem signed_lockstep (op : UnaryOp) {p p' : Parser} (h : p.Agrees N m p')
    (hend : p.cursor.current.isEnd = false) :
    Lockstep N m (signed op inner) (signed op inner) p p' (Expr.Renamed N) := by
  have := Scripted.descend hscript
  refine Lockstep.bind (Lockstep.advance h hend) fun t t' q q' _ hq => ?_
  refine Lockstep.bind (Lockstep.descend hq _ _ hscript hinner) fun e e' q q' he hq => ?_
  exact Lockstep.pure hq (.unary he)

theorem primary_lockstep [Scripted literal] (hliteral : Keeps N m literal Eq) :
    Keeps N m (primary inner literal) (Expr.Renamed N) := by
  intro p p' h
  refine Lockstep.tagged h fun q q' hq => Lockstep.current ?_
  have hnumber : q.cursor.current.isNumber = true →
      Lockstep N m (scalar >>= fun s => pure (Expr.scalar s q.cursor.current))
        (scalar >>= fun s => pure (Expr.scalar s q'.cursor.current)) q q' (Expr.Renamed N) := by
    intro hnumber
    refine Lockstep.bind (scalar_lockstep hq hnumber) ?_
    rintro s _ r r' rfl hr
    exact Lockstep.pure hr .scalar
  rw [← hq.current.kind]
  split
  next hkind => exact hnumber (by simp [Token.isNumber, hkind])
  next hkind => exact hnumber (by simp [Token.isNumber, hkind])
  next hkind =>
    have hname := hq.current.name hkind
    refine Lockstep.resolve hq hname fun resolved => ?_
    refine Lockstep.bind (Lockstep.advance hq (by simp [Token.isEnd, hkind])) ?_
    intro _ _ r r' _ hr
    exact Lockstep.pure hr (.name hname)
  next hkind =>
    refine Lockstep.ite (hq.current.isSymbol _) ?_ ?_
    · intro _
      refine Lockstep.bind (hliteral q q' hq) ?_
      rintro t _ r r' rfl hr
      exact Lockstep.pure hr .tensor
    · intro _
      rw [← hq.current.unaryOp? hkind]
      split
      next op hop => exact signed_lockstep hscript hinner op hq (by simp [Token.isEnd, hkind])
      next => exact Lockstep.unexpected
  next => exact Lockstep.unexpected

theorem factorWith_lockstep [Scripted literal] (hliteral : Keeps N m literal Eq) :
    Keeps N m (factorWith inner literal) (Expr.Renamed N) := by
  intro p p' h
  refine Lockstep.tagged h fun q q' hq => Lockstep.current ?_
  refine Lockstep.ite (hq.current.isSymbol _) ?_ ?_
  · intro hparen
    exact parenthesized_lockstep hscript hinner hq hparen
  · intro _
    exact primary_lockstep hscript hinner hliteral q q' hq

end

/-- Two parsers that agree read corresponding factors. -/
theorem factor_lockstep : ∀ room : Nat, Keeps N m (factor room) (Expr.Renamed N) := by
  intro room
  induction room with
  | zero => exact factorWith_lockstep (by simp) (by simp) (tensor_lockstep 0)
  | succ room ih =>
    refine factorWith_lockstep ?_ ?_ (tensor_lockstep (room + 1))
    · rintro factor hfactor
      cases hfactor
      infer_instance
    · rintro factor hfactor
      cases hfactor
      exact ih

/-! ## Declarations -/

theorem valueType_lockstep : Keeps N m valueType fun _ _ => True := by
  intro p p' h
  refine Lockstep.current ?_
  have hsome := h.current.isSome_valueType?
  split
  next type htype =>
    rw [htype] at hsome
    obtain ⟨type', htype'⟩ := Option.isSome_iff_exists.mp hsome.symm
    rw [htype']
    refine Lockstep.bind (Lockstep.advance h (Token.readable_of_valueType? htype).1) ?_
    intro _ _ q q' _ hq
    exact Lockstep.pure hq trivial
  next htype =>
    rw [htype] at hsome
    have hnone : p'.cursor.current.valueType? = none := by
      rw [← Option.not_isSome_iff_eq_none, ← hsome]
      simp
    rw [hnone]
    exact Lockstep.unexpected

theorem initializer_lockstep : Keeps N m initializer (Expr.Renamed N) := by
  intro p p' h
  refine Lockstep.get ?_
  rw [show p'.nestingRoom = p.nestingRoom by rw [Parser.nestingRoom, Parser.nestingRoom, h.nesting]]
  exact expression_lockstep (factor_lockstep _) p p' h

section

variable (hN : Relator.BiUnique N)
include hN

theorem declaration_lockstep : Keeps N m declaration (Declaration.Renamed N) := by
  intro p p' h
  refine Lockstep.tagged h fun q q' hq => ?_
  refine Lockstep.bind (Lockstep.expect hq (fun _ _ ht => ht.isKeyword_letWord)
    fun _ ht => (Token.readable_of_isKeyword ht).1) fun token token' q q' _ hq => ?_
  refine Lockstep.bind (valueType_lockstep q q' hq) fun type type' q q' _ hq => ?_
  refine Lockstep.bind (Lockstep.expect hq ?_ ?_) fun name name' q q' hname hq => ?_
  · intro t t' ht
    rw [ht.kind]
  · intro t ht
    simp only [decide_eq_true_eq] at ht
    simp [Token.isEnd, ht]
  have hnames : N name.lexeme name'.lexeme := hname.2.name (of_decide_eq_true hname.1)
  refine Lockstep.bind (Lockstep.expectSymbol hq _) fun _ _ q q' _ hq => ?_
  refine Lockstep.bind (initializer_lockstep q q' hq) fun rhs rhs' q q' hrhs hq => ?_
  refine Lockstep.bind (Lockstep.define hN hq hnames type type' .localVar) fun _ _ q q' _ hq => ?_
  refine Lockstep.bind (Lockstep.expectSymbol hq _) fun _ _ q q' _ hq => ?_
  exact Lockstep.pure hq ⟨hnames, hrhs⟩

theorem declarations_lockstep : ∀ bound : Nat,
    Keeps N m (declarations bound) (List.Forall₂ (Declaration.Renamed N)) := by
  intro bound
  induction bound with
  | zero => exact fun p p' h => Lockstep.pure h .nil
  | succ bound ih =>
    intro p p' h
    refine Lockstep.current (Lockstep.ite h.current.isKeyword_letWord ?_ fun _ =>
      Lockstep.pure h .nil)
    intro _
    refine Lockstep.bind (declaration_lockstep hN p p' h) fun d d' q q' hd hq => ?_
    refine Lockstep.bind (ih q q' hq) fun ds ds' q q' hds hq => ?_
    exact Lockstep.pure hq (.cons hd hds)

theorem block_lockstep :
    Keeps N m block fun b b' => List.Forall₂ (Declaration.Renamed N) b.declarations
      b'.declarations := by
  intro p p' h
  refine Lockstep.current (Lockstep.tagged h fun q q' hq => ?_)
  refine Lockstep.bind (o := fun _ => Scripted.get fun _ => rfl) (Lockstep.newScope hq)
    fun _ _ q q' _ hq => Lockstep.get ?_
  have hdeclarations := declarations_lockstep hN
    (q.cursor.pending.length + 1 + (q'.cursor.pending.length + 1)) q q' hq
  refine Lockstep.bind (Lockstep.congr
    (declarations_eq_of_left_le _ _ q q.cursor.left_le (by omega))
    (declarations_eq_of_left_le _ _ q' q'.cursor.left_le (by omega)) hdeclarations) ?_
  intro ds ds' q q' hds hq
  exact Lockstep.pure hq hds

/-- Two parsers that agree read corresponding programs. -/
theorem unit_lockstep : Keeps N m unit (Program.Renamed N) := by
  intro p p' h
  refine Lockstep.current (Lockstep.tagged h fun q q' hq => ?_)
  refine Lockstep.bind (block_lockstep hN q q' hq) fun b b' q q' hb hq => ?_
  refine Lockstep.current (Lockstep.ite hq.current.isEnd ?_ fun _ => Lockstep.unexpected)
  intro _
  refine Lockstep.pure hq ?_
  simpa [Program.Renamed, Program.declarations] using hb

end

end Parse

/-! ## Sources -/

theorem Token.renamed_endOfInput (size size' : Nat) :
    (Token.endOfInput size).Renamed N (Token.endOfInput size') :=
  ⟨rfl, fun h => (by cases h), fun _ => .inl rfl⟩

namespace Cursor

/-- The cursor on the first of some tokens, with the end of the source behind
them. -/
def ofTokens (size : Nat) : List Token → Cursor
  | [] => ⟨.endOfInput size, [], size⟩
  | t :: ts => ⟨t, ts.map .ok, size⟩

theorem ofText_eq_ofTokens {source : String} {ts : List Token}
    (h : (Scan.ofText source).items = ts.map .ok) :
    ofText source = .ok (ofTokens (byteLength source.toList) ts) := by
  rw [ofText_eq_ok_iff]
  cases ts with
  | nil => exact .inl ⟨h, rfl⟩
  | cons t ts => exact .inr ⟨t, ts.map .ok, h, rfl⟩

/-- All tokens are read, if they can be. -/
theorem ofTokens_reads (size : Nat) {ts : List Token} (h : ∀ t ∈ ts, t.Readable) :
    (ofTokens size ts).Reads ts ⟨.endOfInput size, [], size⟩ := by
  cases ts with
  | nil => rfl
  | cons t ts => exact reads_pending size ts t h

/-- Cursors on corresponding tokens agree up to the ends of their sources. -/
theorem ofTokens_agrees (size size' : Nat) {ts ts' : List Token}
    (h : List.Forall₂ (Token.Renamed N) ts ts') :
    (ofTokens size ts).Agrees N 0 (ofTokens size' ts') := by
  have hend := Token.renamed_endOfInput (N := N) size size'
  have hcons : ∀ {us us' : List Token}, List.Forall₂ (Token.Renamed N) us us' →
      ∀ {t t' : Token}, t.Renamed N t' →
        Agrees N 0 ⟨t, us.map .ok, size⟩ ⟨t', us'.map .ok, size'⟩ := by
    intro us us' hus
    induction hus with
    | nil =>
      intro t t' ht
      exact .ahead ht rfl rfl (.here hend rfl)
    | cons hu _ ih =>
      intro t t' ht
      exact .ahead ht rfl rfl (ih hu)
  cases h with
  | nil => exact .here hend rfl
  | cons ht hts => exact hcons hts ht

end Cursor

/-- Parsers that start where two cursors agree do. -/
theorem Parser.agrees_start {c c' : Cursor} (h : c.Agrees N m c') :
    Parser.Agrees N m ⟨c, .empty, .silent, 0, 0⟩ ⟨c', .empty, .silent, 0, 0⟩ :=
  ⟨h, .empty, rfl, rfl⟩

end TensorLet
