import TensorLet.Command.Plan
import TensorLet.Proofs.Parser.Script
import TensorLet.Proofs.Token.Scan

/-!
# Parsing without a trace

A parser writes to its trace and never looks at it: its script sees the parser
without the trace. Two parsers that differ in their traces only, one of which does not
record, therefore take the same steps: every act has the same outcome for both, and
leaves them different in their traces only. This also holds of what a failed parse
leaves behind, so it goes on from call to call.

* `Parser.SilentTwin`: the same parser with a trace that records nothing.
* `Script.alike`: a script has the same outcome for both.
* `Parser.calls`: a parser called again and again.
* `trace_never_influences`: the outcomes are the same with and without a trace, for
  parsing and for compiling.
-/

namespace TensorLet

/-! ## Two parsers -/

/-- What does not record does not change by a line. -/
theorem Outline.write_of_recording_eq_false {o : Outline} (h : o.recording = false) (item : Item) :
    o.write item = o := by
  rw [write, h]
  rfl

/-- `q` stands where `p` does and knows the same, and has recorded nothing. -/
structure Parser.SilentTwin (p q : Parser) : Prop where
  cursor : q.cursor = p.cursor
  symbols : q.symbols = p.symbols
  nesting : q.nesting = p.nesting
  height : q.height = p.height
  recording : q.trace.recording = false
  lines : q.trace.lines = #[]

namespace Parser.SilentTwin

variable {p q : Parser}

theorem silent (p : Parser) : p.SilentTwin p.silent := ⟨rfl, rfl, rfl, rfl, rfl, rfl⟩

/-- Without their traces they are the same. -/
theorem silent_eq (h : p.SilentTwin q) : q.silent = p.silent := by
  obtain ⟨hcursor, hsymbols, hnesting, hheight, -, -⟩ := h
  unfold Parser.silent
  rw [hcursor, hsymbols, hnesting, hheight]

/-- Both parsers move, and no line is written in the second one. -/
theorem moved (h : p.SilentTwin q) (c : Cursor) (o : Outline) {o' : Outline}
    (hrecording : o'.recording = q.trace.recording) (hlines : o'.lines = q.trace.lines) :
    (p.moved c o).SilentTwin (q.moved c o') :=
  ⟨rfl, h.symbols, h.nesting, h.height, hrecording.trans h.recording, hlines.trans h.lines⟩

/-- No text is in the trace of the second one. -/
theorem text (h : p.SilentTwin q) : q.trace.text = "" := by
  rw [Outline.text, h.lines]
  rfl

end Parser.SilentTwin

/-! ## Acts and scripts -/

/-- Two outcomes with the same value or the same error, and parsers that differ in
their traces only. -/
inductive Alike {α : Type} :
    EStateM.Result Error Parser α → EStateM.Result Error Parser α → Prop
  | ok {a : α} {p q : Parser} : p.SilentTwin q → Alike (.ok a p) (.ok a q)
  | error {e : Error} {p q : Parser} : p.SilentTwin q → Alike (.error e p) (.error e q)

/-- Taking a token writes its line before anything can fail. -/
theorem Parser.SilentTwin.advance {p q : Parser} (h : p.SilentTwin q) :
    Alike (Parse.advance p) (Parse.advance q) := by
  have hline (text : String) : q.trace.line text = q.trace :=
    Outline.write_of_recording_eq_false h.recording _
  unfold Parse.advance
  rw [h.cursor]
  rcases p.cursor.advance with ⟨_ | t, c⟩
  all_goals rcases p.cursor.current.traceText? with _ | text
  · exact .error (h.moved c _ rfl rfl)
  · exact .error (h.moved c _ (congrArg _ (hline text)) (congrArg _ (hline text)))
  · exact .ok (h.moved c _ rfl rfl)
  · exact .ok (h.moved c _ (congrArg _ (hline text)) (congrArg _ (hline text)))

/-- An act has the same outcome with and without a trace. -/
theorem Act.alike (a : Act) {p q : Parser} (h : p.SilentTwin q) : Alike (a.run p) (a.run q) := by
  cases a with
  | openTag tag =>
    have hwrite := Outline.write_of_recording_eq_false h.recording (.opening tag)
    exact .ok ⟨h.cursor, h.symbols, h.nesting, h.height,
      (congrArg Outline.recording hwrite).trans h.recording,
      (congrArg Outline.lines hwrite).trans h.lines⟩
  | closeTag tag =>
    have hdedent : q.trace.dedent.recording = false := h.recording
    have hwrite := Outline.write_of_recording_eq_false hdedent (.closing tag)
    exact .ok ⟨h.cursor, h.symbols, h.nesting, h.height,
      (congrArg Outline.recording hwrite).trans h.recording,
      (congrArg Outline.lines hwrite).trans h.lines⟩
  | advance =>
    have halike := h.advance
    show Alike (EStateM.bind Parse.advance _ p) (EStateM.bind Parse.advance _ q)
    unfold EStateM.bind
    revert halike
    generalize Parse.advance p = r
    generalize Parse.advance q = r'
    rintro (h' | h')
    · exact .ok h'
    · exact .error h'
  | define name type storage =>
    exact .ok ⟨h.cursor, congrArg (·.define name type storage) h.symbols, h.nesting, h.height,
      h.recording, h.lines⟩
  | newScope => exact .ok ⟨h.cursor, rfl, h.nesting, h.height, h.recording, h.lines⟩
  | grow =>
    exact .ok ⟨h.cursor, h.symbols, h.nesting, congrArg (· + 1) h.height, h.recording, h.lines⟩
  | shrink =>
    exact .ok ⟨h.cursor, h.symbols, h.nesting, congrArg (· - 1) h.height, h.recording, h.lines⟩
  | enter span =>
    have hnesting := congrArg (· + 1) h.nesting
    rw [run, Parse.enter_eq, Parse.enter_eq, h.height]
    split
    · exact .ok ⟨h.cursor, h.symbols, hnesting, congrArg (· + 1) h.height, h.recording, h.lines⟩
    · exact .error ⟨h.cursor, h.symbols, hnesting, rfl, h.recording, h.lines⟩
  | leave =>
    exact .ok ⟨h.cursor, h.symbols, congrArg (· - 1) h.nesting, congrArg (· - 1) h.height,
      h.recording, h.lines⟩
  | fail e => exact .error h

/-- A script has the same outcome with and without a trace, since it looks at parsers
without theirs. -/
theorem Script.alike {α : Type} (s : Script α) : ∀ {p q : Parser}, p.SilentTwin q →
    Alike (s.run p) (s.run q) := by
  induction s with
  | done a => exact fun h => .ok h
  | stop e => exact fun h => .error h
  | look next ih =>
    intro p q h
    show Alike ((next p.silent).run p) ((next q.silent).run q)
    rw [h.silent_eq]
    exact ih _ h
  | act a next ih =>
    intro p q h
    have halike := a.alike h
    rw [run_act, run_act]
    revert halike
    generalize a.run p = r
    generalize a.run q = r'
    rintro (h' | h')
    · exact ih h'
    · exact .error h'

/-! ## Calls -/

namespace Parser

/-- Calls a parser a number of times, each time where the call before it has
stopped, whether or not it failed: what each call gives with the symbols after it,
and the parser in the end. -/
def calls : Nat → Parser → List (Except Error Program × SymbolTable) × Parser
  | 0, p => ([], p)
  | n + 1, p =>
    let (result, p) := p.unit
    let (results, last) := calls n p
    ((result, p.symbols) :: results, last)

/-- One call gives the same with and without a trace. -/
theorem SilentTwin.unit {p q : Parser} (h : p.SilentTwin q) :
    q.unit.1 = p.unit.1 ∧ p.unit.2.SilentTwin q.unit.2 := by
  have halike := Script.unit.alike h
  unfold Parser.unit Parser.run
  rw [← Script.run_unit]
  revert halike
  generalize Script.unit.run p = r
  generalize Script.unit.run q = r'
  rintro (h' | h')
  · exact ⟨rfl, h'⟩
  · exact ⟨rfl, h'⟩

/-- So do all calls, one after the other. -/
theorem SilentTwin.calls {n : Nat} : ∀ {p q : Parser}, p.SilentTwin q →
    (q.calls n).1 = (p.calls n).1 ∧ (p.calls n).2.SilentTwin (q.calls n).2 := by
  induction n with
  | zero => exact fun h => ⟨rfl, h⟩
  | succ n ih =>
    intro p q h
    obtain ⟨hresult, hunit⟩ := h.unit
    obtain ⟨hresults, hlast⟩ := ih hunit
    refine ⟨?_, hlast⟩
    show (q.unit.1, q.unit.2.symbols) :: (q.unit.2.calls n).1 =
      (p.unit.1, p.unit.2.symbols) :: (p.unit.2.calls n).1
    rw [hresult, hunit.symbols, hresults]

end Parser

/-! ## Sources -/

/-- Without a trace a source is parsed as with one. -/
theorem parse_eq_parseTraced (source : String) : parse source = (parseTraced source).1 := by
  unfold parse parseTraced
  cases Parser.ofText source with
  | error e => rfl
  | ok p =>
    obtain ⟨hresult, htwin⟩ := (Parser.SilentTwin.silent p).unit
    dsimp only [bind, Except.bind]
    revert hresult htwin
    generalize p.unit = r
    generalize p.silent.unit = r'
    obtain ⟨_ | program, q⟩ := r
    all_goals
      obtain ⟨_, q'⟩ := r'
      rintro rfl htwin
    · rfl
    · show Except.ok (program, q'.symbols) = .ok (program, q.symbols)
      rw [htwin.symbols]

/-- Tracing never influences parsing. However often a parser on a source is called,
and whatever the calls give, the calls of the same parser without a trace give the
same, with the same symbols after each of them, and no text is traced. So a source
is parsed alike by both ways, and compiled alike by the library and by the command
that also writes the trace. -/
theorem trace_never_influences (source : String) :
    (∀ p, Parser.ofText source = .ok p → ∀ n, (p.silent.calls n).1 = (p.calls n).1 ∧
      (p.silent.calls n).2.trace.text = "") ∧
    parse source = (parseTraced source).1 ∧
    (compile source = do
      let (program, symbols) ← (parseTraced source).1
      program.code symbols) ∧
    ∀ output, Command.codePlan output (parseTraced source).1 =
      match compileToText source with
      | .ok text => .write output text (.done (.success ("Compiled to " ++ output ++ "\n")))
      | .error e => .done (.compileError "" e) := by
  refine ⟨?_, parse_eq_parseTraced source, ?_, ?_⟩
  · intro p _ n
    obtain ⟨hresults, hlast⟩ := (Parser.SilentTwin.silent p).calls (n := n)
    exact ⟨hresults, hlast.text⟩
  · rw [compile, parse_eq_parseTraced]
  · intro output
    rw [compileToText, compile, parse_eq_parseTraced]
    generalize (parseTraced source).1 = r
    cases r with
    | error e => rfl
    | ok result =>
      obtain ⟨program, symbols⟩ := result
      dsimp only [Command.codePlan, bind, Except.bind]
      cases program.code symbols with
      | error e => rfl
      | ok code => rfl

/-- The parser of a source fails twice and goes on to a declaration. -/
theorem trace_never_influences_recovery :
    ∃ p, Parser.ofText "let $ let int b = 2;" = .ok p ∧
      (p.calls 3).1.map (·.1.toBool) = [false, false, true] ∧
      (p.silent.calls 3).1 = (p.calls 3).1 ∧ (p.silent.calls 3).2.trace.text = "" := by
  obtain ⟨p, hp, hcalls⟩ := exists_ok_of_any (x := Parser.ofText "let $ let int b = 2;")
    (p := fun p => (p.calls 3).1.map (·.1.toBool) = [false, false, true]) (by decide +kernel)
  exact ⟨p, hp, of_decide_eq_true hcalls, (trace_never_influences _).1 p hp 3⟩

end TensorLet
