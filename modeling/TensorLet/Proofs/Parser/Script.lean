import TensorLet.Parser
import TensorLet.Proofs.Parser.Steps

/-!
# The moves of a parser

A parser step is a function from a parser to an outcome, which does not show what
it does on the way. A script shows it: it looks at the parser and changes it, one
act after the other, until it is done or stops at an error. What it looks at is the
parser without its trace. Every production of the grammar has a script, and running
the script is the production.

* `Act`: one thing that a parser does to itself.
* `Script`: acts one after the other, each of which may depend on the parser.
* `Script.run`: the step that a script describes.
* `Script.visits`: the acts that a script gets to, each with the parser at that
  point.
* `Script.forall_visits`, `Script.exists_visit_of_error`: what every act keeps is kept
  by the script, and the script fails where an act does.
* `Script.run_unit`: the script of a whole parse runs as the parser does.
-/

namespace TensorLet

/-- One thing that a parser does to itself, or the error that it stops with. -/
inductive Act where
  | openTag (tag : String)
  | closeTag (tag : String)
  | advance
  | define (name : String) (type : ValueType) (storage : Storage)
  | newScope
  | grow
  | shrink
  | enter (span : Span)
  | leave
  | fail (e : Error)
deriving DecidableEq

/-- What an act does. -/
def Act.run : Act → Parse Unit
  | .openTag tag => Parse.openTag tag
  | .closeTag tag => Parse.closeTag tag
  | .advance => do
    let _ ← Parse.advance
  | .define name type storage => Parse.define name type storage
  | .newScope => Parse.newScope
  | .grow => Parse.grow
  | .shrink => Parse.shrink
  | .enter span => Parse.enter span
  | .leave => Parse.leave
  | .fail e => throw e

namespace Act

/-- The parser behind an act, whether or not it fails. -/
def after (a : Act) (p : Parser) : Parser := (p.run a.run).2

theorem after_of_ok {a : Act} {p q : Parser} (h : a.run p = .ok () q) : a.after p = q := by
  simp only [after, Parser.run, h]

theorem after_of_error {a : Act} {p q : Parser} {e : Error} (h : a.run p = .error e q) :
    a.after p = q := by
  simp only [after, Parser.run, h]

/-- Taking a token moves the cursor, also where the next piece is an error. -/
theorem exists_after_advance (p : Parser) :
    ∃ o, advance.after p = p.moved p.cursor.advance.2 o := by
  cases h : Parse.advance p with
  | ok t q =>
    have hrun : advance.run p = .ok () q := Parse.bind_eq_ok.mpr ⟨t, q, h, rfl⟩
    obtain ⟨c, hc, rfl⟩ := Parse.advance_eq_ok.mp h
    rw [after_of_ok hrun, hc]
    exact ⟨_, rfl⟩
  | error e q =>
    have hrun : advance.run p = .error e q := Parse.bind_eq_error.mpr (.inl h)
    obtain ⟨c, hc, rfl⟩ := Parse.advance_eq_error.mp h
    rw [after_of_error hrun, hc]
    exact ⟨_, rfl⟩

theorem after_enter (span : Span) (p : Parser) : (enter span).after p =
    if p.height < maxHeight then p.deeper else { p with nesting := p.nesting + 1 } := by
  have hrun : (enter span).run p = _ := Parse.enter_eq span p
  split at hrun
  next h => rw [after_of_ok hrun, if_pos h]
  next h => rw [after_of_error hrun, if_neg h]

/-- Only taking a token moves the cursor. -/
theorem cursor_after (a : Act) (p : Parser) :
    (a.after p).cursor = if a = advance then p.cursor.advance.2 else p.cursor := by
  cases a with
  | advance =>
    obtain ⟨o, ho⟩ := exists_after_advance p
    rw [ho]
    rfl
  | enter span =>
    rw [after_enter]
    split <;> rfl
  | _ => rfl

end Act

/-- Acts one after the other. Between them the parser is looked at, and what
follows may depend on all of it but its trace. -/
inductive Script (α : Type) where
  | done (a : α)
  | stop (e : Error)
  | look (next : Parser → Script α)
  | act (a : Act) (next : Script α)

namespace Script

variable {α β γ : Type}

/-- The step that a script describes. -/
def run : Script α → Parse α
  | done a => pure a
  | stop e => throw e
  | look next => fun p => (next p.silent).run p
  | act a next => do
    a.run
    next.run

/-- The acts of a script from a parser on, each with the parser at which it is
done, up to the first one that fails. -/
def visits : Script α → Parser → List (Act × Parser)
  | done _, _ => []
  | stop e, p => [(.fail e, p)]
  | look next, p => (next p.silent).visits p
  | act a next, p =>
    (a, p) ::
      match a.run p with
      | .ok _ q => next.visits q
      | .error _ _ => []

/-- The parser behind a script, whether or not it fails. -/
def after (s : Script α) (p : Parser) : Parser := (p.run s.run).2

theorem after_of_ok {s : Script α} {p q : Parser} {a : α} (h : s.run p = .ok a q) :
    s.after p = q := by
  simp only [after, Parser.run, h]

theorem after_of_error {s : Script α} {p q : Parser} {e : Error} (h : s.run p = .error e q) :
    s.after p = q := by
  simp only [after, Parser.run, h]

/-- How many tokens a script takes from a parser on. -/
def advances (s : Script α) (p : Parser) : Nat := (s.visits p).countP (·.1 = .advance)

/-- One script behind the other. -/
protected def bind : Script α → (α → Script β) → Script β
  | done a, f => f a
  | stop e, _ => stop e
  | look next, f => look fun p => (next p).bind f
  | act a next, f => act a (next.bind f)

instance : Monad Script where
  pure := done
  bind := Script.bind

@[simp] theorem run_pure (a : α) : (pure a : Script α).run = pure a := rfl

@[simp] theorem run_stop (e : Error) : (stop e : Script α).run = throw e := rfl

@[simp] theorem run_bind (s : Script α) (f : α → Script β) :
    (s >>= f).run = s.run >>= fun a => (f a).run := by
  show (s.bind f).run = _
  induction s with
  | done a => rfl
  | stop e => rfl
  | look next ih =>
    funext p
    exact congrFun (ih p.silent) p
  | act a next ih =>
    rw [Script.bind, run, ih, run]
    funext p
    show EStateM.bind _ _ p = EStateM.bind (EStateM.bind _ _) _ p
    unfold EStateM.bind
    cases a.run p <;> rfl

theorem run_act (a : Act) (next : Script α) (p : Parser) : (act a next).run p =
    match a.run p with
    | .ok _ q => next.run q
    | .error e q => .error e q := by
  show EStateM.bind _ _ p = _
  unfold EStateM.bind
  cases a.run p <;> rfl

@[simp] theorem run_ite {c : Prop} [Decidable c] (s t : Script α) :
    (if c then s else t).run = if c then s.run else t.run := by
  split <;> rfl

/-- What one script does is followed by what the other does where it ends. -/
theorem visits_bind (s : Script α) (f : α → Script β) (p : Parser) :
    (s >>= f).visits p = s.visits p ++
      match s.run p with
      | .ok a q => (f a).visits q
      | .error _ _ => [] := by
  show (s.bind f).visits p = _
  induction s generalizing p with
  | done a => rfl
  | stop e => rfl
  | look next ih => exact ih p.silent p
  | act a next ih =>
    rw [Script.bind, visits, visits, run_act, List.cons_append]
    cases a.run p with
    | ok _ q => exact congrArg _ (ih q)
    | error e q => rfl

theorem run_bind_of_ok {s : Script α} {f : α → Script β} {p q : Parser} {a : α}
    (h : s.run p = .ok a q) : (s >>= f).run p = (f a).run q := by
  rw [run_bind]
  show EStateM.bind _ _ p = _
  simp only [EStateM.bind, h]

theorem run_bind_of_error {s : Script α} {f : α → Script β} {p q : Parser} {e : Error}
    (h : s.run p = .error e q) : (s >>= f).run p = .error e q := by
  rw [run_bind]
  show EStateM.bind _ _ p = _
  simp only [EStateM.bind, h]

theorem advances_bind (s : Script α) (f : α → Script β) (p : Parser) :
    (s >>= f).advances p = s.advances p +
      match s.run p with
      | .ok a q => (f a).advances q
      | .error _ _ => 0 := by
  rw [advances, visits_bind, List.countP_append]
  cases s.run p <;> rfl

protected theorem bind_assoc (s : Script α) (f : α → Script β) (g : β → Script γ) :
    s >>= f >>= g = s >>= fun a => f a >>= g := by
  show (s.bind f).bind g = s.bind fun a => (f a).bind g
  induction s with
  | done a => rfl
  | stop e => rfl
  | look next ih => exact congrArg look (funext ih)
  | act a next ih => exact congrArg (act a) ih

/-! ## Along a script -/

/-- A property that holds at the start and that every act keeps which succeeds holds at
all acts that the script gets to, and behind the script if it succeeds. -/
theorem forall_visits {P : Parser → Prop} (s : Script α) : ∀ p, P p →
    (∀ v ∈ s.visits p, P v.2 → ∀ q, v.1.run v.2 = .ok () q → P q) →
    (∀ v ∈ s.visits p, P v.2) ∧ ∀ a q, s.run p = .ok a q → P q := by
  induction s with
  | done a =>
    intro p hp _
    refine ⟨by rintro v ⟨⟩, ?_⟩
    rintro _ _ ⟨⟩
    exact hp
  | stop e =>
    intro p hp _
    refine ⟨?_, by rintro _ _ ⟨⟩⟩
    rw [visits, List.forall_mem_singleton]
    exact hp
  | look next ih => exact fun p => ih p.silent p
  | act a next ih =>
    intro p hp hstep
    rw [visits, List.forall_mem_cons] at hstep ⊢
    obtain ⟨hact, hnext⟩ := hstep
    rw [run_act]
    cases hrun : a.run p with
    | ok _ q =>
      rw [hrun] at hnext
      obtain ⟨hvisits, hlast⟩ := ih q (hact hp q hrun) hnext
      exact ⟨⟨hp, hvisits⟩, hlast⟩
    | error e q => exact ⟨⟨hp, by rintro v ⟨⟩⟩, by rintro _ _ ⟨⟩⟩

/-- A script fails where one of its acts does. -/
theorem exists_visit_of_error (s : Script α) : ∀ {p q : Parser} {e : Error},
    s.run p = .error e q → ∃ v ∈ s.visits p, v.1.run v.2 = .error e q := by
  induction s with
  | done a => rintro p q e ⟨⟩
  | stop e =>
    rintro p _ _ ⟨⟩
    exact ⟨_, List.mem_singleton_self _, rfl⟩
  | look next ih => exact fun {p} => ih p.silent
  | act a next ih =>
    intro p q e h
    rw [run_act] at h
    rw [visits]
    cases hrun : a.run p with
    | ok _ q' =>
      rw [hrun] at h
      obtain ⟨v, hv, hfails⟩ := ih h
      exact ⟨v, List.mem_cons_of_mem _ hv, hfails⟩
    | error e' q' =>
      rw [hrun] at h
      cases h
      exact ⟨_, List.mem_cons_self, hrun⟩

/-- A property that every act keeps, whether or not it fails, holds behind the script. -/
theorem forall_visits_after {P : Parser → Prop} (s : Script α) {p : Parser} (hp : P p)
    (hstep : ∀ v ∈ s.visits p, P v.2 → P (v.1.after v.2)) :
    (∀ v ∈ s.visits p, P v.2) ∧ P (s.after p) := by
  obtain ⟨hvisits, hok⟩ := s.forall_visits p hp fun v hv hP q hq =>
    Act.after_of_ok hq ▸ hstep v hv hP
  refine ⟨hvisits, ?_⟩
  cases hrun : s.run p with
  | ok a q =>
    rw [after_of_ok hrun]
    exact hok a q hrun
  | error e q =>
    obtain ⟨v, hv, hfails⟩ := s.exists_visit_of_error hrun
    rw [after_of_error hrun, ← Act.after_of_error hfails]
    exact hstep v hv (hvisits v hv)

/-! ## Steps in terms of acts -/

/-- An act on its own. -/
def one (a : Act) : Script Unit := act a (done ())

/-- The token under the cursor. -/
def current : Script Token := look fun p => done p.cursor.current

/-- The parser without its trace. -/
def get : Script Parser := look done

/-- Takes the current token. -/
def advance : Script Token := do
  let token ← current
  one .advance
  pure token

/-- Stops at the current token, where something else should be. -/
def unexpected (expected : Expectation) : Script α := do
  let found ← current
  stop ⟨.unexpected expected found, found.span⟩

/-- Takes the current token if it passes a test. -/
def expect (test : Token → Bool) (expected : Expectation) : Script Token := do
  if test (← current) then advance else unexpected expected

/-- What a name refers to. -/
def resolve (name : String) : Script (Option Storage) :=
  look fun p => done (p.symbols.storageOf? name)

/-- A script between two acts. -/
def between (first last : Act) (s : Script α) : Script α := do
  one first
  let a ← s
  one last
  pure a

/-- A script inside a tag. -/
def tagged (tag : String) (s : Script α) : Script α := between (.openTag tag) (.closeTag tag) s

/-- A script with the tree one level higher. -/
def raised (s : Script α) : Script α := between .grow .shrink s

/-- A script one bracket or sign deeper, if there is room for it. -/
def descend (span : Span) : Option (Script α) → Script α
  | none => stop ⟨.nestingTooDeep, span⟩
  | some inside => between (.enter span) .leave inside

@[simp] theorem run_one (a : Act) : (one a).run = a.run := by
  funext p
  rw [one, run_act]
  cases a.run p <;> rfl

@[simp] theorem visits_one (a : Act) (p : Parser) : (one a).visits p = [(a, p)] := by
  rw [one, visits]
  cases a.run p <;> rfl

theorem visits_between (first last : Act) (s : Script α) (p : Parser) :
    (between first last s).visits p = (first, p) ::
      match first.run p with
      | .ok _ q => s.visits q ++
        match s.run q with
        | .ok _ r => [(last, r)]
        | .error _ _ => []
      | .error _ _ => [] := by
  show (act first (s >>= fun a => act last (done a))).visits p = _
  rw [visits]
  cases first.run p with
  | error e q => rfl
  | ok _ q =>
    simp only [visits_bind]
    cases s.run q with
    | error e r => rfl
    | ok a r =>
      simp only [visits]
      cases last.run r <;> rfl

theorem run_between (first last : Act) (s : Script α) (p : Parser) :
    (between first last s).run p =
      match first.run p with
      | .ok _ q =>
        match s.run q with
        | .ok a r =>
          match last.run r with
          | .ok _ r' => .ok a r'
          | .error e r' => .error e r'
        | .error e r => .error e r
      | .error e q => .error e q := by
  show (act first (s >>= fun a => act last (done a))).run p = _
  rw [run_act]
  cases first.run p with
  | error e q => rfl
  | ok _ q =>
    cases hs : s.run q with
    | error e r => simp only [run_bind_of_error hs, hs]
    | ok a r =>
      simp only [run_bind_of_ok hs, hs, run_act]
      rfl

@[simp] theorem run_current : current.run = Parse.current := rfl

@[simp] theorem run_resolve (name : String) : (resolve name).run = Parse.resolve name := rfl

@[simp] theorem run_advance : advance.run = Parse.advance := by
  funext p
  rw [advance, run_bind, run_current, Parse.current_bind, run_bind, run_one]
  show EStateM.bind (EStateM.bind Parse.advance _) _ p = _
  unfold EStateM.bind
  cases h : Parse.advance p with
  | ok t q =>
    obtain ⟨c, hc, -⟩ := Parse.advance_eq_ok.mp h
    rw [Cursor.current_of_advance hc]
    rfl
  | error e q => rfl

@[simp] theorem visits_advance (p : Parser) : advance.visits p = [(.advance, p)] := by
  show (Act.advance, p) :: _ = _
  split <;> rfl

@[simp] theorem run_unexpected (e : Expectation) :
    (unexpected e : Script α).run = Parse.unexpected e := rfl

@[simp] theorem run_expect (test : Token → Bool) (e : Expectation) :
    (expect test e).run = Parse.expect test e := by
  simp only [expect, Parse.expect, run_bind, run_ite, run_current, run_advance, run_unexpected]

@[simp] theorem run_tagged (tag : String) (s : Script α) :
    (tagged tag s).run = Parse.tagged tag s.run := by
  simp only [tagged, between, Parse.tagged, run_bind, run_one, run_pure, Act.run]

@[simp] theorem run_descend (span : Span) (inside : Option (Script α)) :
    (descend span inside).run = Parse.descend span (inside.map run) := by
  cases inside with
  | none => rfl
  | some s =>
    simp only [descend, between, Parse.descend, Option.map_some, run_bind, run_one, run_pure,
      Act.run]

/-! ## Tensor literals -/

/-- The token under the cursor as a number. -/
def scalar : Script Scalar := do
  let token ← advance
  match token.scalar with
  | .ok s => pure s
  | .error e => stop e

/-- A number with an optional minus sign inside a tensor literal. -/
def signedNumber : Script (Option Tensor) := do
  let negative := (← current).isSymbol '-'
  if negative then
    let _ ← advance
  if (← current).isNumber then
    let s ← scalar
    let value := if negative then s.value.negate else s.value
    pure (if value.isZero then none else some (.leaf { s with value := value }))
  else
    unexpected .element

/-- An element: a nested literal or a number. -/
def element (nested : Script Tensor) : Script (Option Tensor) := do
  if (← current).isSymbol '\x7b' then
    let t ← nested
    pure (some t)
  else
    signedNumber

/-- Elements with commas between them. -/
def elements (nested : Script Tensor) : Nat → Nat → Script (Nat × List (Nat × Tensor))
  | 0, index => do
    let e ← element nested
    pure (index + 1, (e.map (index, ·)).toList)
  | bound + 1, index => do
    let e ← element nested
    if (← current).isSymbol ',' then
      let _ ← advance
      let (extent, entries) ← elements nested bound (index + 1)
      pure (extent, (e.map (index, ·)).toList ++ entries)
    else
      pure (index + 1, (e.map (index, ·)).toList)

/-- The elements up to the closing brace. -/
def optionalElements (nested : Script Tensor) : Script (Nat × List (Nat × Tensor)) := do
  if (← current).isSymbol '\x7d' then pure (0, [])
  else
    let p ← get
    elements nested p.cursor.pending.length 0

/-- A pair of braces and what is between them. -/
def braces (nested : Script Tensor) : Script Tensor := do
  let brace ← expect (·.isSymbol '\x7b') (.symbol '\x7b')
  let (extent, entries) ← optionalElements nested
  let found ← current
  if found.isSymbol '\x7d' then
    let _ ← advance
    pure (.node extent entries)
  else
    stop ⟨.unclosedTensor found, brace.span.merge found.span⟩

/-- A tensor literal, given how to read those nested in it. -/
def tensorWith (nested : Option (Script Tensor)) : Script Tensor :=
  tagged "tensor" do
    let brace ← current
    descend brace.span (nested.map braces)

/-- A tensor literal in which `room` braces may nest. -/
def tensor : Nat → Script Tensor
  | 0 => tensorWith none
  | room + 1 => tensorWith (some (tensor room))

@[simp] theorem run_scalar : scalar.run = Parse.scalar := by
  rw [scalar, Parse.scalar, run_bind, run_advance]
  congr 1
  funext token
  cases token.scalar <;> rfl

@[simp] theorem run_signedNumber : signedNumber.run = Parse.signedNumber := by
  simp only [signedNumber, Parse.signedNumber, run_bind, run_ite, run_current, run_advance,
    run_scalar, run_pure, run_unexpected]

@[simp] theorem run_element (nested : Script Tensor) :
    (element nested).run = Parse.element nested.run := by
  simp only [element, Parse.element, run_bind, run_ite, run_current, run_pure, run_signedNumber]

@[simp] theorem run_elements (nested : Script Tensor) : ∀ bound index : Nat,
    (elements nested bound index).run = Parse.elements nested.run bound index := by
  intro bound
  induction bound with
  | zero =>
    intro index
    simp only [elements, Parse.elements, run_bind, run_element, run_pure]
  | succ bound ih =>
    intro index
    simp only [elements, Parse.elements, run_bind, run_ite, run_current, run_advance, run_element,
      run_pure, ih]

@[simp] theorem run_optionalElements (nested : Script Tensor) :
    (optionalElements nested).run = Parse.optionalElements nested.run := by
  simp only [optionalElements, Parse.optionalElements, run_bind, run_ite, run_current, run_pure,
    run_elements]
  rfl

@[simp] theorem run_braces (nested : Script Tensor) :
    (braces nested).run = Parse.braces nested.run := by
  simp only [braces, Parse.braces, Parse.expectSymbol, run_bind, run_ite, run_expect, run_current,
    run_advance, run_pure, run_stop, run_optionalElements]

theorem run_tensorWith (nested : Option (Script Tensor)) :
    (tensorWith nested).run = Parse.tensorWith (nested.map run) := by
  have hbraces : run ∘ braces = Parse.braces ∘ run := funext run_braces
  simp only [tensorWith, Parse.tensorWith, run_tagged, run_bind, run_current, run_descend,
    Option.map_map, hbraces]

@[simp] theorem run_tensor (room : Nat) : (tensor room).run = Parse.tensor room := by
  induction room with
  | zero => exact run_tensorWith none
  | succ room ih => rw [tensor, Parse.tensor, run_tensorWith, Option.map_some, ih]

/-! ## Expressions -/

/-- An operator and its right operand behind `left`: one round of a chain. -/
def link (op : BinOp) (left : Expr) (operand : Script Expr) : Script Expr := do
  let token ← advance
  one .grow
  let right ← operand
  pure (.binary op left right token)

/-- Operators and operands that follow `left`, with room for a number of
operators. -/
def chain (ops : List BinOp) (operand : Script Expr) : Nat → Expr → Script Expr
  | room, left => do
    match (← current).binaryOp? ops with
    | none => pure left
    | some op =>
      match room with
      | 0 =>
        let token ← advance
        stop ⟨.expressionTooDeep, token.span⟩
      | room + 1 =>
        let e ← link op left operand
        let e ← chain ops operand room e
        one .shrink
        pure e

/-- A round of a chain and what follows it stand one level higher. -/
theorem chain_succ (ops : List BinOp) (operand : Script Expr) (room : Nat) (left : Expr) :
    chain ops operand (room + 1) left = (do
      match (← current).binaryOp? ops with
      | none => pure left
      | some op =>
        let token ← advance
        raised do
          let right ← operand
          chain ops operand room (.binary op left right token)) := by
  rw [chain]
  congr 1
  funext token
  cases token.binaryOp? ops with
  | none => rfl
  | some op => simp only [link, raised, between, Script.bind_assoc]; rfl

/-- One level of precedence. -/
def level (tag : String) (ops : List BinOp) (operand : Script Expr) : Script Expr :=
  tagged tag do
    let first ← operand
    let p ← get
    chain ops operand p.headroom first

/-- Products and quotients of factors. -/
def term (factor : Script Expr) : Script Expr := level "term" [.mul, .div] factor

/-- Sums and differences of terms. -/
def expression (factor : Script Expr) : Script Expr :=
  level "expression" [.add, .sub] (term factor)

/-- An expression in parentheses. -/
def parenthesized (inner : Option (Script Expr)) : Script Expr := do
  let paren ← advance
  descend paren.span (inner.map fun factor => do
    let e ← expression factor
    let _ ← expect (·.isSymbol ')') (.symbol ')')
    pure e)

/-- A sign and its operand. -/
def signed (op : UnaryOp) (inner : Option (Script Expr)) : Script Expr := do
  let token ← advance
  let operand ← descend token.span inner
  pure (.unary op operand token)

/-- A number, a name, a tensor literal or a sign with its operand. -/
def primary (inner : Option (Script Expr)) (literal : Script Tensor) : Script Expr :=
  tagged "primary" do
    let token ← current
    match token.kind with
    | .int | .float =>
      let s ← scalar
      pure (.scalar s token)
    | .identifier =>
      let resolved ← resolve token.lexeme
      let _ ← advance
      pure (.name token.lexeme resolved token)
    | .symbol =>
      if token.isSymbol '\x7b' then
        let t ← literal
        pure (.tensor t token)
      else
        match token.unaryOp? with
        | some op => signed op inner
        | none => unexpected .expression
    | _ => unexpected .expression

/-- A factor, given how to read those nested in it. -/
def factorWith (inner : Option (Script Expr)) (literal : Script Tensor) : Script Expr :=
  tagged "factor" do
    if (← current).isSymbol '(' then parenthesized inner else primary inner literal

/-- A factor in which `room` brackets and signs may nest. -/
def factor : Nat → Script Expr
  | 0 => factorWith none (tensor 0)
  | room + 1 => factorWith (some (factor room)) (tensor (room + 1))

@[simp] theorem run_chain (ops : List BinOp) (operand : Script Expr) : ∀ (room : Nat) (left : Expr),
    (chain ops operand room left).run = Parse.chain ops operand.run room left := by
  intro room
  induction room with
  | zero =>
    intro left
    rw [chain, Parse.chain, run_bind, run_current]
    congr 1
    funext token
    cases token.binaryOp? ops with
    | none => rfl
    | some op => simp only [run_bind, run_advance, run_stop]
  | succ room ih =>
    intro left
    rw [chain, Parse.chain, run_bind, run_current]
    congr 1
    funext token
    cases token.binaryOp? ops with
    | none => rfl
    | some op =>
      simp only [link, run_bind, run_advance, run_one, run_pure, ih, Act.run, bind_assoc, pure_bind]

@[simp] theorem run_level (tag : String) (ops : List BinOp) (operand : Script Expr) :
    (level tag ops operand).run = Parse.level tag ops operand.run := by
  simp only [level, Parse.level, run_tagged, run_bind, run_chain]
  rfl

@[simp] theorem run_expression (factor : Script Expr) :
    (expression factor).run = Parse.expression factor.run := by
  simp only [expression, Parse.expression, term, Parse.term, run_level]

@[simp] theorem run_parenthesized (inner : Option (Script Expr)) :
    (parenthesized inner).run = Parse.parenthesized (inner.map run) := by
  simp only [parenthesized, Parse.parenthesized, Parse.expectSymbol, run_bind, run_advance,
    run_descend, Option.map_map, Function.comp_def, run_expression, run_expect, run_pure]

@[simp] theorem run_signed (op : UnaryOp) (inner : Option (Script Expr)) :
    (signed op inner).run = Parse.signed op (inner.map run) := by
  simp only [signed, Parse.signed, run_bind, run_advance, run_descend, run_pure]

@[simp] theorem run_primary (inner : Option (Script Expr)) (literal : Script Tensor) :
    (primary inner literal).run = Parse.primary (inner.map run) literal.run := by
  rw [primary, Parse.primary, run_tagged, run_bind, run_current]
  congr 2
  funext token
  cases token.kind with
  | symbol =>
    simp only [run_ite, run_bind, run_pure]
    cases token.unaryOp? with
    | none => simp only [run_unexpected]
    | some op => simp only [run_signed]
  | int | float | identifier =>
    simp only [run_bind, run_scalar, run_resolve, run_advance, run_pure]
  | _ => rfl

theorem run_factorWith (inner : Option (Script Expr)) (literal : Script Tensor) :
    (factorWith inner literal).run = Parse.factorWith (inner.map run) literal.run := by
  simp only [factorWith, Parse.factorWith, run_tagged, run_bind, run_ite, run_current,
    run_parenthesized, run_primary]

@[simp] theorem run_factor (room : Nat) : (factor room).run = Parse.factor room := by
  induction room with
  | zero => rw [factor, Parse.factor, run_factorWith, Option.map_none, run_tensor]
  | succ room ih => rw [factor, Parse.factor, run_factorWith, Option.map_some, ih, run_tensor]

/-! ## Declarations -/

/-- The name of a type. -/
def valueType : Script ValueType := do
  match (← current).valueType? with
  | some type =>
    let _ ← advance
    pure type
  | none => unexpected .type

/-- An initializer. -/
def initializer : Script Expr := do
  let p ← get
  expression (factor p.nestingRoom)

/-- A declaration of a local variable. -/
def declaration : Script Declaration :=
  tagged "var_dec" do
    let token ← expect (·.isKeyword .letWord) (.keyword .letWord)
    let type ← valueType
    let name ← expect (·.kind = .identifier) .identifier
    let _ ← expect (·.isSymbol '=') (.symbol '=')
    let rhs ← initializer
    one (.define name.lexeme type .localVar)
    let _ ← expect (·.isSymbol ';') (.symbol ';')
    pure ⟨token, name.lexeme, type, .localVar, rhs⟩

/-- Declarations for as long as there are any, at most `bound` of them. -/
def declarations : Nat → Script (List Declaration)
  | 0 => pure []
  | bound + 1 => do
    if (← current).isKeyword .letWord then
      let d ← declaration
      let ds ← declarations bound
      pure (d :: ds)
    else
      pure []

/-- A list of declarations with a scope of its own. -/
def block : Script Block := do
  let token ← current
  tagged "statements" do
    one .newScope
    let p ← get
    let ds ← declarations (p.cursor.pending.length + 1)
    pure ⟨token, ds⟩

/-- A whole source: a block and nothing behind it. -/
def unit : Script Program := do
  let token ← current
  tagged unitLabel do
    let b ← block
    if (← current).isEnd then pure ⟨unitLabel, token, [b]⟩
    else unexpected .declarationOrEnd

@[simp] theorem run_valueType : valueType.run = Parse.valueType := by
  rw [valueType, Parse.valueType, run_bind, run_current]
  congr 1
  funext token
  cases token.valueType? with
  | none => rfl
  | some type => simp only [run_bind, run_advance, run_pure]

@[simp] theorem run_initializer : initializer.run = Parse.initializer := by
  simp only [initializer, Parse.initializer, run_bind, run_expression, run_factor]
  rfl

@[simp] theorem run_declaration : declaration.run = Parse.declaration := by
  simp only [declaration, Parse.declaration, Parse.expectKeyword, Parse.expectIdentifier,
    Parse.expectSymbol, run_tagged, run_bind, run_expect, run_valueType, run_initializer, run_one,
    run_pure, Act.run]

@[simp] theorem run_declarations (bound : Nat) :
    (declarations bound).run = Parse.declarations bound := by
  induction bound with
  | zero => rfl
  | succ bound ih =>
    simp only [declarations, Parse.declarations, run_bind, run_ite, run_current, run_declaration,
      run_pure, ih]

@[simp] theorem run_block : block.run = Parse.block := by
  simp only [block, Parse.block, run_bind, run_current, run_tagged, run_one, run_declarations,
    run_pure, Act.run]
  rfl

/-- The script of a whole parse runs as the parser does. -/
@[simp] theorem run_unit : unit.run = Parse.unit := by
  simp only [unit, Parse.unit, run_bind, run_current, run_tagged, run_block, run_ite, run_pure,
    run_unexpected]

end Script

end TensorLet
