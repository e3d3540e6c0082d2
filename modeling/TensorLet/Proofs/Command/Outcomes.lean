import TensorLet.Proofs.Parser.Silence

/-!
# Outcomes of commands

A command reads one file, decides on a plan and writes at most two files. Reading
can fail, each write can fail, the source can be wrong, and the two files can be
one and the same. This module says for every state of a file system which of
this happens, and what it leaves behind.

Of the file system no more is known than `FileSystem.Files`: whether a path can
be written depends on the path alone, and writing changes one file.

* `Plan.run_write`: what one write of a plan can do.
* `CompileRun.of_run`: the ways in which compiling can end.
* `Directory.filesView`: directories held in memory are such a file system.
* `answer_outcome`: the outcomes of all commands.
-/

namespace TensorLet

variable {σ : Type} {fs : FileSystem σ}

/-! ## Files behind paths -/

/-- Where the paths of a file system lead, and what its files hold. A path can be
written exactly when it leads to a file, be it there already or not. Writing
replaces what this file holds, changes no other file, and leads no path
elsewhere. -/
structure FileSystem.Files (fs : FileSystem σ) where
  File : Type
  leadsTo? : σ → String → Option File
  content : σ → File → Option ByteArray
  write_none : ∀ {s path}, leadsTo? s path = none → ∀ text,
    ∃ failure, fs.write s path text = .error failure
  write_some : ∀ {s path file}, leadsTo? s path = some file → ∀ text,
    ∃ s', fs.write s path text = .ok s' ∧ leadsTo? s' = leadsTo? s ∧
      content s' file = some text.toUTF8 ∧
      ∀ other, other ≠ file → content s' other = content s other

/-- A path that can be written. -/
def FileSystem.CanWrite (fs : FileSystem σ) (s : σ) (path : String) : Prop :=
  ∃ text s', fs.write s path text = .ok s'

namespace FileSystem.Files

variable (v : fs.Files)

/-- The file at a path holds a text. -/
def Holds (s : σ) (path text : String) : Prop :=
  ∃ file, v.leadsTo? s path = some file ∧ v.content s file = some text.toUTF8

/-- No file changes from one state to another but those at some paths. -/
def KeepsAllBut (paths : List String) (s s' : σ) : Prop :=
  ∀ file, (∀ path ∈ paths, v.leadsTo? s path ≠ some file) → v.content s' file = v.content s file

/-- A state in which one text has been written. -/
structure Written (s : σ) (path text : String) (s' : σ) : Prop where
  leadsTo?_eq : v.leadsTo? s' = v.leadsTo? s
  canWrite : fs.CanWrite s path
  holds : v.Holds s' path text
  keeps : v.KeepsAllBut [path] s s'

variable {v} {s s' s'' : σ} {path text : String}

theorem canWrite_iff (v : fs.Files) : fs.CanWrite s path ↔ v.leadsTo? s path ≠ none := by
  constructor
  · rintro ⟨text, s', h⟩ hnone
    obtain ⟨failure, hfails⟩ := v.write_none hnone text
    rw [h] at hfails
    cases hfails
  · intro h
    obtain ⟨file, hfile⟩ := Option.ne_none_iff_exists'.mp h
    obtain ⟨s', hwrite, -⟩ := v.write_some hfile ""
    exact ⟨"", s', hwrite⟩

theorem KeepsAllBut.refl (paths : List String) (s : σ) : v.KeepsAllBut paths s s :=
  fun _ _ => rfl

/-- Two changes one after the other, where paths lead on to the same files. -/
theorem KeepsAllBut.trans {paths more : List String} (h : v.KeepsAllBut paths s s')
    (hleads : v.leadsTo? s' = v.leadsTo? s) (h' : v.KeepsAllBut more s' s'') :
    v.KeepsAllBut (more ++ paths) s s'' := by
  intro file hfile
  have hmore : ∀ path ∈ more, v.leadsTo? s' path ≠ some file := fun path hpath => by
    rw [hleads]
    exact hfile path (List.mem_append_left _ hpath)
  rw [h' file hmore, h file fun path hpath => hfile path (List.mem_append_right _ hpath)]

/-- What a file holds stays when another file is written. -/
theorem Holds.of_written {other more : String} (h : v.Holds s path text)
    (hw : v.Written s other more s') (hne : v.leadsTo? s path ≠ v.leadsTo? s other) :
    v.Holds s' path text := by
  obtain ⟨file, hfile, hcontent⟩ := h
  refine ⟨file, by rw [hw.leadsTo?_eq, hfile], ?_⟩
  rw [← hcontent]
  refine hw.keeps file fun p hp => ?_
  rw [List.mem_singleton.mp hp, ← hfile]
  exact hne.symm

end FileSystem.Files

open FileSystem (Files)

/-! ## Plans and what they may do -/

/-- A write of a plan is done and the plan goes on behind it, or the path cannot be
written and the plan ends there. -/
theorem Plan.run_write (v : fs.Files) (path text : String) (next : Plan) (s : σ) :
    (∃ s', v.Written s path text s' ∧ (Plan.write path text next).run fs s = next.run fs s') ∨
    ¬ fs.CanWrite s path ∧
      ∃ failure, (Plan.write path text next).run fs s = (.fileError path failure, s) := by
  rw [Plan.run]
  cases hfile : v.leadsTo? s path with
  | none =>
    obtain ⟨failure, hwrite⟩ := v.write_none hfile text
    refine .inr ⟨fun h => v.canWrite_iff.mp h hfile, failure, ?_⟩
    rw [hwrite]
  | some file =>
    obtain ⟨s', hwrite, hleads, hcontent, hother⟩ := v.write_some hfile text
    refine .inl ⟨s', ⟨hleads, ⟨text, s', hwrite⟩, ⟨file, by rw [hleads, hfile], hcontent⟩, ?_⟩, ?_⟩
    · intro other hne
      refine hother other fun heq => ?_
      subst heq
      exact hne path List.mem_cons_self hfile
    · rw [hwrite]

/-- The trace is written where a file is given for it. -/
def TracedTo (v : fs.Files) (s : σ) (text : String) : Option String → σ → Prop
  | none, s' => s' = s
  | some path, s' => v.Written s path text s'

section

variable {v : fs.Files} {s s' : σ} {text : String} {trace : Option String}

theorem TracedTo.leadsTo?_eq (h : TracedTo v s text trace s') :
    v.leadsTo? s' = v.leadsTo? s := by
  cases trace with
  | none => rw [show s' = s from h]
  | some path => exact Files.Written.leadsTo?_eq h

theorem TracedTo.canWrite (h : TracedTo v s text trace s') : ∀ x ∈ trace, fs.CanWrite s x := by
  cases trace with
  | none => simp
  | some path =>
    rintro x ⟨⟩
    exact Files.Written.canWrite h

theorem TracedTo.holds (h : TracedTo v s text trace s') : ∀ x ∈ trace, v.Holds s' x text := by
  cases trace with
  | none => simp
  | some path =>
    rintro x ⟨⟩
    exact Files.Written.holds h

theorem TracedTo.keeps (h : TracedTo v s text trace s') : v.KeepsAllBut trace.toList s s' := by
  cases trace with
  | none =>
    rw [show s' = s from h]
    exact .refl _ _
  | some path => exact Files.Written.keeps h

end

/-- A command reads one source, so what depends on the source is determined. -/
theorem read_unique {α : Type} {f : String → α} {s : σ} {input source source' : String} {r r' : α}
    (hread : fs.readText s input = .ok source) (hr : f source = r)
    (hread' : fs.readText s input = .ok source') (hr' : f source' = r') :
    source = source' ∧ r = r' := by
  rw [hread] at hread'
  cases hread'
  exact ⟨rfl, hr.symm.trans hr'⟩

/-! ## Compiling -/

/-- Carrying out the code of a parse is compiling to text. -/
theorem codePlan_parseTraced (source output : String) :
    Command.codePlan output (parseTraced source).1 =
      match compileToText source with
      | .ok text => .write output text (.done (.success ("Compiled to " ++ output ++ "\n")))
      | .error e => .done (.compileError "" e) := by
  rw [compileToText, compile, parse_eq_parseTraced]
  cases (parseTraced source).1 with
  | error e => rfl
  | ok result =>
    obtain ⟨program, symbols⟩ := result
    dsimp only [Command.codePlan, bind, Except.bind]
    cases program.code symbols with
    | error e => rfl
    | ok code => rfl

/-- The file that code goes to: next to the source unless another one is given. -/
def outputPath (input : String) (output : Option String) : String :=
  output.getD (Path.withExtension input "ir")

/-- The ways in which compiling can end. -/
inductive CompileRun (v : fs.Files) (s : σ) (input output : String) (trace : Option String) :
    Report × σ → Prop
  | unread {failure : FileFailure} (hread : fs.readText s input = .error failure) :
      CompileRun v s input output trace (.fileError input failure, s)
  | untraced {source path : String} {failure : FileFailure}
      (hread : fs.readText s input = .ok source) (htrace : path ∈ trace)
      (hwrite : ¬ fs.CanWrite s path) :
      CompileRun v s input output trace (.fileError path failure, s)
  | wrong {source : String} {s' : σ} {e : Error} (hread : fs.readText s input = .ok source)
      (htrace : TracedTo v s (parseTraced source).2.text trace s')
      (hcode : compileToText source = .error e) :
      CompileRun v s input output trace (.compileError "" e, s')
  | unwritten {source code : String} {s' : σ} {failure : FileFailure}
      (hread : fs.readText s input = .ok source)
      (htrace : TracedTo v s (parseTraced source).2.text trace s')
      (hcode : compileToText source = .ok code) (hwrite : ¬ fs.CanWrite s output) :
      CompileRun v s input output trace (.fileError output failure, s')
  | compiled {source code : String} {s' s'' : σ} (hread : fs.readText s input = .ok source)
      (htrace : TracedTo v s (parseTraced source).2.text trace s')
      (hcode : compileToText source = .ok code) (hwrite : v.Written s' output code s'') :
      CompileRun v s input output trace (.success ("Compiled to " ++ output ++ "\n"), s'')

/-- The code is written behind the trace, if there is code. -/
theorem CompileRun.of_codePlan {v : fs.Files} {s s' : σ} {input output source : String}
    {trace : Option String} (hread : fs.readText s input = .ok source)
    (htrace : TracedTo v s (parseTraced source).2.text trace s') :
    CompileRun v s input output trace
      ((Command.codePlan output (parseTraced source).1).run fs s') := by
  rw [codePlan_parseTraced]
  cases hcode : compileToText source with
  | error e => exact .wrong hread htrace hcode
  | ok code =>
    obtain ⟨s'', hwrite, hrun⟩ | ⟨hwrite, failure, hrun⟩ :=
      Plan.run_write v output code (.done (.success ("Compiled to " ++ output ++ "\n"))) s'
    · dsimp only
      rw [hrun]
      exact .compiled hread htrace hcode hwrite
    · dsimp only
      rw [hrun]
      refine .unwritten hread htrace hcode ?_
      rw [v.canWrite_iff, ← htrace.leadsTo?_eq, ← v.canWrite_iff]
      exact hwrite

theorem CompileRun.of_run (v : fs.Files) (s : σ) (input : String) (output trace : Option String) :
    CompileRun v s input (outputPath input output) trace
      ((Command.compile input output trace).run fs s) := by
  rw [Command.run, Command.input]
  cases hread : fs.readText s input with
  | error failure => exact .unread hread
  | ok source =>
    dsimp only [Command.plan, Command.compilePlan]
    cases trace with
    | none => exact .of_codePlan hread rfl
    | some path =>
      obtain ⟨s', hwrite, hrun⟩ | ⟨hwrite, failure, hrun⟩ :=
        Plan.run_write v path (parseTraced source).2.text
          (Command.codePlan (outputPath input output) (parseTraced source).1) s
      · rw [outputPath] at hrun
        dsimp only
        rw [hrun]
        exact .of_codePlan hread hwrite
      · rw [outputPath] at hrun
        dsimp only
        rw [hrun]
        exact .untraced hread rfl hwrite

/-- What compiling comes to, by its exit status. -/
structure CompileOutcome (v : fs.Files) (s : σ) (input output : String) (trace : Option String)
    (report : Report) (s' : σ) : Prop where
  exit_eq_zero_iff : report.exit = 0 ↔ ∃ source code, fs.readText s input = .ok source ∧
    compileToText source = .ok code ∧ (∀ x ∈ trace, fs.CanWrite s x) ∧ fs.CanWrite s output
  of_exit_eq_zero : report.exit = 0 → ∀ source code, fs.readText s input = .ok source →
    compileToText source = .ok code →
      report.stdout = "Compiled to " ++ output ++ "\n" ∧ v.Holds s' output code ∧
      (∀ x ∈ trace, v.leadsTo? s x ≠ v.leadsTo? s output →
        v.Holds s' x (parseTraced source).2.text) ∧
      v.KeepsAllBut (output :: trace.toList) s s'
  exit_eq_65_iff : report.exit = 65 ↔ ∃ source e, fs.readText s input = .ok source ∧
    (∀ x ∈ trace, fs.CanWrite s x) ∧ compileToText source = .error e
  of_exit_eq_65 : report.exit = 65 → report.stdout = "" ∧ v.KeepsAllBut trace.toList s s'
  otherwise : report.exit ≠ 0 → report.exit ≠ 65 → report.exit = 74 ∧ report.stdout = "" ∧
    v.KeepsAllBut trace.toList s s' ∧
    ∀ file, v.leadsTo? s output = some file → v.content s' file = v.content s file

theorem CompileRun.outcome {v : fs.Files} {s s' : σ} {input output : String}
    {trace : Option String} {report : Report}
    (h : CompileRun v s input output trace (report, s')) :
    CompileOutcome v s input output trace report s' := by
  cases h with
  | unread hread =>
    exact
      { exit_eq_zero_iff := ⟨nofun, fun ⟨_, _, hok, _⟩ => by rw [hread] at hok; cases hok⟩
        of_exit_eq_zero := nofun
        exit_eq_65_iff := ⟨nofun, fun ⟨_, _, hok, _⟩ => by rw [hread] at hok; cases hok⟩
        of_exit_eq_65 := nofun
        otherwise := fun _ _ => ⟨rfl, rfl, .refl _ _, fun _ _ => rfl⟩ }
  | untraced hread htrace hwrite =>
    exact
      { exit_eq_zero_iff := ⟨nofun, fun ⟨_, _, _, _, hcan, _⟩ => absurd (hcan _ htrace) hwrite⟩
        of_exit_eq_zero := nofun
        exit_eq_65_iff := ⟨nofun, fun ⟨_, _, _, hcan, _⟩ => absurd (hcan _ htrace) hwrite⟩
        of_exit_eq_65 := nofun
        otherwise := fun _ _ => ⟨rfl, rfl, .refl _ _, fun _ _ => rfl⟩ }
  | @wrong source _ e hread htrace hcode =>
    exact
      { exit_eq_zero_iff :=
          ⟨nofun, fun ⟨_, _, hok, hcode', _⟩ => nomatch (read_unique hread hcode hok hcode').2⟩
        of_exit_eq_zero := nofun
        exit_eq_65_iff := ⟨fun _ => ⟨source, e, hread, htrace.canWrite, hcode⟩, fun _ => rfl⟩
        of_exit_eq_65 := fun _ => ⟨rfl, htrace.keeps⟩
        otherwise := fun _ hne => absurd rfl hne }
  | unwritten hread htrace hcode hwrite =>
    -- The output leads nowhere, so no file of it can change.
    have hnone : v.leadsTo? s output = none := by
      rw [v.canWrite_iff] at hwrite
      exact not_not.mp hwrite
    exact
      { exit_eq_zero_iff := ⟨nofun, fun ⟨_, _, _, _, _, hcan⟩ => absurd hcan hwrite⟩
        of_exit_eq_zero := nofun
        exit_eq_65_iff :=
          ⟨nofun, fun ⟨_, _, hok, _, hcode'⟩ => nomatch (read_unique hread hcode hok hcode').2⟩
        of_exit_eq_65 := nofun
        otherwise := fun _ _ => ⟨rfl, rfl, htrace.keeps, fun file hfile => by
          rw [hnone] at hfile
          cases hfile⟩ }
  | @compiled source code s₁ _ hread htrace hcode hwrite =>
    have hcan : fs.CanWrite s output := by
      rw [v.canWrite_iff, ← htrace.leadsTo?_eq, ← v.canWrite_iff]
      exact hwrite.canWrite
    exact
      { exit_eq_zero_iff :=
          ⟨fun _ => ⟨source, code, hread, hcode, htrace.canWrite, hcan⟩, fun _ => rfl⟩
        of_exit_eq_zero := fun _ source' code' hok hcode' => by
          obtain ⟨rfl, ⟨⟩⟩ := read_unique hread hcode hok hcode'
          refine ⟨rfl, hwrite.holds, fun x hx hne => ?_, ?_⟩
          · refine (htrace.holds x hx).of_written hwrite ?_
            rw [htrace.leadsTo?_eq]
            exact hne
          · exact htrace.keeps.trans htrace.leadsTo?_eq hwrite.keeps
        exit_eq_65_iff :=
          ⟨nofun, fun ⟨_, _, hok, _, hcode'⟩ => nomatch (read_unique hread hcode hok hcode').2⟩
        of_exit_eq_65 := nofun
        otherwise := fun hne => absurd rfl hne }

/-! ## Listing and tracing -/

/-- What listing a source comes to. No file changes, and only success prints. -/
structure ListingOutcome (fs : FileSystem σ) (s : σ) (input : String)
    (list : String → Except Error String) (report : Report) (s' : σ) : Prop where
  exit_eq_zero_iff : report.exit = 0 ↔
    ∃ source text, fs.readText s input = .ok source ∧ list source = .ok text
  exit_eq_65_iff : report.exit = 65 ↔
    ∃ source e, fs.readText s input = .ok source ∧ list source = .error e
  otherwise : report.exit ≠ 0 → report.exit ≠ 65 → report.exit = 74
  of_exit_eq_zero : report.exit = 0 → ∀ source text, fs.readText s input = .ok source →
    list source = .ok text → report.stdout = text
  of_exit_ne_zero : report.exit ≠ 0 → report.stdout = ""
  keeps : s' = s

/-- What tracing a source comes to. The trace is printed, or written to a file,
also when the source is wrong. -/
structure TraceOutcome (v : fs.Files) (s : σ) (input : String) (output : Option String)
    (report : Report) (s' : σ) : Prop where
  exit_eq_zero_iff : report.exit = 0 ↔ ∃ source result, fs.readText s input = .ok source ∧
    (∀ x ∈ output, fs.CanWrite s x) ∧ parse source = .ok result
  exit_eq_65_iff : report.exit = 65 ↔ ∃ source e, fs.readText s input = .ok source ∧
    (∀ x ∈ output, fs.CanWrite s x) ∧ parse source = .error e
  otherwise : report.exit ≠ 0 → report.exit ≠ 65 →
    report.exit = 74 ∧ report.stdout = "" ∧ s' = s
  traced : report.exit = 0 ∨ report.exit = 65 → ∀ source, fs.readText s input = .ok source →
    report.stdout = (if output = none then (parseTraced source).2.text else "") ∧
    ∀ x ∈ output, v.Holds s' x (parseTraced source).2.text
  keeps : v.KeepsAllBut output.toList s s'

/-- A command that lists what it makes of its source, or says what is wrong. -/
theorem ListingOutcome.of_run {s : σ} {c : Command} {list : String → Except Error String}
    (hplan : ∀ source, c.plan source =
      match list source with
      | .ok text => .done (.success text)
      | .error e => .done (.compileError "" e)) :
    ListingOutcome fs s c.input list (c.run fs s).1 (c.run fs s).2 := by
  rw [Command.run]
  cases hread : fs.readText s c.input with
  | error failure =>
    exact
      { exit_eq_zero_iff := ⟨nofun, fun ⟨_, _, hok, _⟩ => nomatch hread.symm.trans hok⟩
        exit_eq_65_iff := ⟨nofun, fun ⟨_, _, hok, _⟩ => nomatch hread.symm.trans hok⟩
        otherwise := fun _ _ => rfl
        of_exit_eq_zero := nofun
        of_exit_ne_zero := fun _ => rfl
        keeps := rfl }
  | ok source =>
    dsimp only
    rw [hplan]
    cases hlist : list source with
    | error e =>
      exact
        { exit_eq_zero_iff :=
            ⟨nofun, fun ⟨_, _, hok, hlist'⟩ => nomatch (read_unique hread hlist hok hlist').2⟩
          exit_eq_65_iff := ⟨fun _ => ⟨source, e, hread, hlist⟩, fun _ => rfl⟩
          otherwise := fun _ hne => absurd rfl hne
          of_exit_eq_zero := nofun
          of_exit_ne_zero := fun _ => rfl
          keeps := rfl }
    | ok text =>
      exact
        { exit_eq_zero_iff := ⟨fun _ => ⟨source, text, hread, hlist⟩, fun _ => rfl⟩
          exit_eq_65_iff :=
            ⟨nofun, fun ⟨_, _, hok, hlist'⟩ => nomatch (read_unique hread hlist hok hlist').2⟩
          otherwise := fun hne => absurd rfl hne
          of_exit_eq_zero := fun _ _ _ hok hlist' => by
            obtain ⟨-, ⟨⟩⟩ := read_unique hread hlist hok hlist'
            rfl
          of_exit_ne_zero := fun hne => absurd rfl hne
          keeps := rfl }

/-- The report of a parse whose trace is printed where no file is given for it. -/
def traceReport (output : Option String) (trace : String) :
    Except Error (Program × SymbolTable) → Report
  | .ok _ => .success (if output = none then trace else "")
  | .error e => .compileError (if output = none then trace else "") e

/-- The ways in which tracing can end. -/
inductive TraceRun (v : fs.Files) (s : σ) (input : String) (output : Option String) :
    Report × σ → Prop
  | unread {failure : FileFailure} (hread : fs.readText s input = .error failure) :
      TraceRun v s input output (.fileError input failure, s)
  | unwritten {source path : String} {failure : FileFailure}
      (hread : fs.readText s input = .ok source) (hpath : path ∈ output)
      (hwrite : ¬ fs.CanWrite s path) :
      TraceRun v s input output (.fileError path failure, s)
  | traced {source : String} {s' : σ} (hread : fs.readText s input = .ok source)
      (htrace : TracedTo v s (parseTraced source).2.text output s') :
      TraceRun v s input output
        (traceReport output (parseTraced source).2.text (parse source), s')

/-- The trace is printed with a report on the parse. -/
theorem tracePlan_none (source : String) : Command.tracePlan none source =
    .done (traceReport none (parseTraced source).2.text (parse source)) := by
  rw [parse_eq_parseTraced]
  unfold Command.tracePlan
  obtain ⟨result, outline⟩ := parseTraced source
  cases result with
  | ok result => rfl
  | error e => rfl

/-- The trace is written before the report on the parse. -/
theorem tracePlan_some (path source : String) : Command.tracePlan (some path) source =
    .write path (parseTraced source).2.text
      (.done (traceReport (some path) (parseTraced source).2.text (parse source))) := by
  rw [parse_eq_parseTraced]
  unfold Command.tracePlan
  obtain ⟨result, outline⟩ := parseTraced source
  cases result with
  | ok result => rfl
  | error e => rfl

theorem TraceRun.of_run (v : fs.Files) (s : σ) (input : String) (output : Option String) :
    TraceRun v s input output ((Command.trace input output).run fs s) := by
  rw [Command.run, Command.input]
  cases hread : fs.readText s input with
  | error failure => exact .unread hread
  | ok source =>
    dsimp only
    rw [Command.plan]
    cases output with
    | none =>
      rw [tracePlan_none]
      exact .traced hread rfl
    | some path =>
      rw [tracePlan_some]
      obtain ⟨s', hwrite, hrun⟩ | ⟨hwrite, failure, hrun⟩ :=
        Plan.run_write v path (parseTraced source).2.text
          (.done (traceReport (some path) (parseTraced source).2.text (parse source))) s
      · rw [hrun]
        exact .traced hread hwrite
      · rw [hrun]
        exact .unwritten hread rfl hwrite

theorem TraceRun.outcome {v : fs.Files} {s s' : σ} {input : String} {output : Option String}
    {report : Report} (h : TraceRun v s input output (report, s')) :
    TraceOutcome v s input output report s' := by
  cases h with
  | unread hread =>
    exact
      { exit_eq_zero_iff := ⟨nofun, fun ⟨_, _, hok, _⟩ => nomatch hread.symm.trans hok⟩
        exit_eq_65_iff := ⟨nofun, fun ⟨_, _, hok, _⟩ => nomatch hread.symm.trans hok⟩
        otherwise := fun _ _ => ⟨rfl, rfl, rfl⟩
        traced := fun _ _ hok => nomatch hread.symm.trans hok
        keeps := .refl _ _ }
  | unwritten hread hpath hwrite =>
    exact
      { exit_eq_zero_iff := ⟨nofun, fun ⟨_, _, _, hcan, _⟩ => absurd (hcan _ hpath) hwrite⟩
        exit_eq_65_iff := ⟨nofun, fun ⟨_, _, _, hcan, _⟩ => absurd (hcan _ hpath) hwrite⟩
        otherwise := fun _ _ => ⟨rfl, rfl, rfl⟩
        traced := fun hexit => by rcases hexit with ⟨⟨⟩⟩ | ⟨⟨⟩⟩
        keeps := .refl _ _ }
  | @traced source _ hread htrace =>
    have hreported : ∀ source', fs.readText s input = .ok source' →
        (traceReport output (parseTraced source).2.text (parse source)).stdout =
            (if output = none then (parseTraced source').2.text else "") ∧
          ∀ x ∈ output, v.Holds s' x (parseTraced source').2.text := by
      intro source' hok
      obtain ⟨rfl, -⟩ := read_unique (f := parse) hread rfl hok rfl
      refine ⟨?_, htrace.holds⟩
      cases parse source with
      | ok result => rfl
      | error e => rfl
    cases hparse : parse source with
    | error e =>
      rw [hparse] at hreported
      exact
        { exit_eq_zero_iff := ⟨nofun, fun ⟨_, _, hok, _, hparse'⟩ =>
            nomatch (read_unique hread hparse hok hparse').2⟩
          exit_eq_65_iff := ⟨fun _ => ⟨source, e, hread, htrace.canWrite, hparse⟩, fun _ => rfl⟩
          otherwise := fun _ hne => absurd rfl hne
          traced := fun _ => hreported
          keeps := htrace.keeps }
    | ok result =>
      rw [hparse] at hreported
      exact
        { exit_eq_zero_iff :=
            ⟨fun _ => ⟨source, result, hread, htrace.canWrite, hparse⟩, fun _ => rfl⟩
          exit_eq_65_iff := ⟨nofun, fun ⟨_, _, hok, _, hparse'⟩ =>
            nomatch (read_unique hread hparse hok hparse').2⟩
          otherwise := fun hne => absurd rfl hne
          traced := fun _ => hreported
          keeps := htrace.keeps }

/-! ## Directories held in memory -/

namespace Directory

/-- What a place is, without what it holds: a folder, or where a file is or can
be made. -/
def Place.spot : Place → List String ⊕ List String
  | .folder path => .inl path
  | .file path _ => .inr path
  | .free path => .inr path

/-- The file that a path leads to. A path that ends in a slash leads to none. -/
def leadsTo? (d : Directory) (path : String) : Option (List String) :=
  if path.toList.getLast? = some '/' then none
  else ((d.locate path).toOption.map Place.spot).bind Sum.getRight?

/-- What the file with given components holds. -/
def content (d : Directory) (file : List String) : Option ByteArray := d.files.lookup file

/-- No folder stands where a file with given components would be found. -/
def FreeOfFolder (d : Directory) (file : List String) : Prop :=
  d.content file = none → d.folders.contains file = false

theorem lookup_filter_ne {file other : List String} (hne : other ≠ file)
    (files : List (List String × ByteArray)) :
    (files.filter fun f => f.1 != file).lookup other = files.lookup other := by
  induction files with
  | nil => rfl
  | cons f files ih =>
    obtain ⟨path, bytes⟩ := f
    by_cases hpath : path = file
    · have hother : (other == path) = false := by simpa [hpath] using hne
      rw [List.filter_cons_of_neg (by simpa using hpath), ih, List.lookup_cons, hother]
    · rw [List.filter_cons_of_pos (by simpa using hpath), List.lookup_cons, List.lookup_cons, ih]

theorem content_put (d : Directory) (file other : List String) (bytes : ByteArray) :
    (d.put file bytes).content other = if other = file then some bytes else d.content other := by
  unfold content put
  rw [List.lookup_cons]
  by_cases hother : other = file
  · simp [hother]
  · rw [if_neg hother, beq_eq_false_iff_ne.mpr hother]
    exact lookup_filter_ne hother d.files

theorem spot_child (d : Directory) (folder : List String) (name : String) :
    (d.child folder name).spot =
      if d.content (folder ++ [name]) = none ∧ d.folders.contains (folder ++ [name]) = true
      then .inl (folder ++ [name]) else .inr (folder ++ [name]) := by
  unfold child content
  dsimp only
  cases d.files.lookup (folder ++ [name]) with
  | some bytes => simp [Place.spot]
  | none =>
    by_cases hfolder : d.folders.contains (folder ++ [name]) = true
    · simp only [hfolder, if_true, and_self]
      rfl
    · simp only [hfolder, Bool.false_eq_true, if_false, and_false]
      rfl

/-- A new file takes the place of nothing but itself. -/
theorem spot_child_put {d : Directory} {file : List String} (hfile : d.FreeOfFolder file)
    (bytes : ByteArray) (folder : List String) (name : String) :
    ((d.put file bytes).child folder name).spot = (d.child folder name).spot := by
  rw [spot_child, spot_child, content_put]
  by_cases hpath : folder ++ [name] = file
  · rw [if_pos hpath, if_neg (by simp), if_neg]
    rintro ⟨hnone, hfolder⟩
    rw [hpath] at hnone hfolder
    rw [hfile hnone] at hfolder
    cases hfolder
  · rw [if_neg hpath]
    rfl

theorem spot_step_put {d : Directory} {file : List String} (hfile : d.FreeOfFolder file)
    (bytes : ByteArray) {place place' : Place} (h : place'.spot = place.spot)
    (component : String) :
    ((d.put file bytes).step place' component).toOption.map Place.spot =
      (d.step place component).toOption.map Place.spot := by
  cases place with
  | folder here =>
    cases place' with
    | folder there =>
      cases h
      unfold step
      dsimp only
      split
      · rfl
      · split
        · rfl
        · exact congrArg some (spot_child_put hfile bytes here component)
    | file path content => cases h
    | free path => cases h
  | file path content => cases place' <;> first | rfl | cases h
  | free path => cases place' <;> first | rfl | cases h

/-- Going along a path after a file is written. -/
theorem spot_foldlM_put {d : Directory} {file : List String} (hfile : d.FreeOfFolder file)
    (bytes : ByteArray) (components : List String) : ∀ place place' : Place,
    place'.spot = place.spot →
    (components.foldlM (d.put file bytes).step place').toOption.map Place.spot =
      (components.foldlM d.step place).toOption.map Place.spot := by
  induction components with
  | nil => exact fun place place' h => congrArg some h
  | cons component components ih =>
    intro place place' h
    have hstep := spot_step_put hfile bytes h component
    rw [List.foldlM_cons, List.foldlM_cons]
    cases hnew : (d.put file bytes).step place' component with
    | error failure =>
      cases hold : d.step place component with
      | error failure' => rfl
      | ok next =>
        rw [hnew, hold] at hstep
        cases hstep
    | ok next' =>
      cases hold : d.step place component with
      | error failure' =>
        rw [hnew, hold] at hstep
        cases hstep
      | ok next =>
        rw [hnew, hold] at hstep
        exact ih next next' (Option.some.inj hstep)

theorem leadsTo?_put {d : Directory} {file : List String} (hfile : d.FreeOfFolder file)
    (bytes : ByteArray) : (d.put file bytes).leadsTo? = d.leadsTo? := by
  funext path
  unfold leadsTo? locate
  split
  · rfl
  · split
    · rfl
    · rw [spot_foldlM_put hfile bytes _ _ _ rfl]

/-- What a path leads to is no folder. -/
theorem freeOfFolder_of_foldlM {d : Directory} (components : List String) :
    ∀ place : Place, (∀ file, place.spot = .inr file → d.FreeOfFolder file) →
    ∀ place' file, components.foldlM d.step place = .ok place' → place'.spot = .inr file →
      d.FreeOfFolder file := by
  induction components with
  | nil =>
    intro place hplace place' file h hspot
    cases h
    exact hplace file hspot
  | cons component components ih =>
    intro place hplace place' file h hspot
    rw [List.foldlM_cons] at h
    obtain ⟨next, hnext, h⟩ := except_bind_eq_ok.mp h
    refine ih next ?_ place' file h hspot
    intro other hother
    unfold step at hnext
    split at hnext
    · cases hnext
    · cases hnext
    · split at hnext
      · cases hnext
        cases hother
      · split at hnext
        · cases hnext
          cases hother
        · cases hnext
          rw [spot_child] at hother
          split at hother
          · cases hother
          next hno =>
            cases hother
            intro hnone
            rw [Bool.eq_false_iff]
            exact fun hfolder => hno ⟨hnone, hfolder⟩

theorem leadsTo?_eq_some {d : Directory} {path : String} {file : List String}
    (h : d.leadsTo? path = some file) : path.toList.getLast? ≠ some '/' ∧
      ∃ place, d.locate path = .ok place ∧ place.spot = .inr file ∧ d.FreeOfFolder file := by
  unfold leadsTo? at h
  split at h
  · cases h
  next hslash =>
    obtain ⟨spot, hspot, hright⟩ := Option.bind_eq_some_iff.mp h
    obtain ⟨place, hplace, rfl⟩ := Option.map_eq_some_iff.mp hspot
    have hlocate : d.locate path = .ok place := eq_ok_of_toOption hplace
    have hfile : place.spot = .inr file := Sum.getRight?_eq_some_iff.mp hright
    refine ⟨hslash, place, hlocate, hfile, ?_⟩
    unfold locate at hlocate
    split at hlocate
    · cases hlocate
    · exact freeOfFolder_of_foldlM _ (.folder []) nofun place file hlocate hfile

/-- A text without a slash at its end is not trimmed. -/
theorem trim_slashes {cs : List Char} (h : cs.getLast? ≠ some '/') :
    (cs.reverse.dropWhile (· = '/')).reverse = cs := by
  cases hcs : cs.reverse with
  | nil => simp [List.reverse_eq_nil_iff.mp hcs]
  | cons c rest =>
    have hlast : cs.getLast? = some c := by rw [← List.head?_reverse, hcs]; rfl
    have hc : c ≠ '/' := fun heq => h (by rw [hlast, heq])
    rw [List.dropWhile_cons_of_neg (by simpa using hc), ← hcs, List.reverse_reverse]

theorem length_trim_slashes_lt {cs : List Char} (h : cs.getLast? = some '/') :
    (cs.reverse.dropWhile (· = '/')).reverse.length < cs.length := by
  obtain ⟨front, rfl⟩ := List.getLast?_eq_some_iff.mp h
  have hle := (List.dropWhile_suffix (fun c => decide (c = '/')) (l := front.reverse)).length_le
  rw [List.length_reverse] at hle
  simp only [List.reverse_append, List.reverse_singleton, List.singleton_append,
    List.length_reverse, List.length_append, List.length_singleton]
  rw [List.dropWhile_cons_of_pos (by simp)]
  omega

theorem write_eq {d : Directory} {path text : String} (h : path.toList.getLast? ≠ some '/') :
    d.write path text = (d.locate path >>= fun place =>
      match place with
      | .folder _ => .error .isDirectory
      | .file there _ => .ok (d.put there text.toUTF8)
      | .free there => .ok (d.put there text.toUTF8)) := by
  unfold write
  dsimp only
  rw [trim_slashes h, String.ofList_toList]
  simp only [String.length_toList, Nat.lt_irrefl, if_false]
  rfl

theorem write_eq_error {d : Directory} {path : String} (h : d.leadsTo? path = none)
    (text : String) : ∃ failure, d.write path text = .error failure := by
  by_cases hslash : path.toList.getLast? = some '/'
  · have hshort : (path.toList.reverse.dropWhile (· = '/')).reverse.length < path.length := by
      exact length_trim_slashes_lt hslash
    unfold write
    dsimp only
    cases d.locate (String.ofList (path.toList.reverse.dropWhile (· = '/')).reverse) with
    | error failure => exact ⟨failure, rfl⟩
    | ok place =>
      refine ⟨.isDirectory, ?_⟩
      show (if _ then _ else _) = _
      rw [if_pos hshort]
      rfl
  · rw [write_eq hslash]
    unfold leadsTo? at h
    rw [if_neg hslash] at h
    cases hl : d.locate path with
    | error failure => exact ⟨failure, rfl⟩
    | ok place =>
      rw [hl] at h
      cases place with
      | folder here => exact ⟨.isDirectory, rfl⟩
      | file there bytes => cases h
      | free there => cases h

theorem write_eq_ok {d : Directory} {path : String} {file : List String}
    (h : d.leadsTo? path = some file) (text : String) :
    d.write path text = .ok (d.put file text.toUTF8) := by
  obtain ⟨hslash, place, hplace, hspot, -⟩ := leadsTo?_eq_some h
  rw [write_eq hslash, hplace]
  cases place with
  | folder here => cases hspot
  | file there bytes =>
    cases hspot
    rfl
  | free there =>
    cases hspot
    rfl

/-- Paths lead to files by their components. -/
def filesView : fileSystem.Files where
  File := List String
  leadsTo? := leadsTo?
  content := content
  write_none := write_eq_error
  write_some := by
    intro d path file h text
    obtain ⟨-, -, -, -, hfree⟩ := leadsTo?_eq_some h
    refine ⟨_, write_eq_ok h text, leadsTo?_put hfree _, ?_, ?_⟩
    · rw [content_put, if_pos rfl]
    · intro other hne
      rw [content_put, if_neg hne]

end Directory

/-! ## All commands -/

/-- What a command comes to. -/
def Command.Outcome (v : fs.Files) (s : σ) : Command → Report → σ → Prop
  | .lex input => ListingOutcome fs s input fun source => (tokenize source).map tokenListing
  | .parse input =>
    ListingOutcome fs s input fun source => (TensorLet.parse source).map (·.1.listing)
  | .trace input output => TraceOutcome v s input output
  | .compile input output traceFile => CompileOutcome v s input (outputPath input output) traceFile

/-- Command lines and what they come to, in every state of a file system. Compiling
exits with 0 exactly when the source can be read and has code, and both files can
be written; the output then holds the code, and the trace is in its file unless
that is the same one. It exits with 65 exactly when the source can be read and is
wrong, and the trace can be written; and otherwise with 74. Output comes with
success alone, and in all cases no other file changes. Tracing changes no file but
the one it is given, and listing changes none and prints nothing unless it
succeeds. -/
theorem answer_outcome (v : fs.Files) (s : σ) {args : List String} {command : Command}
    (h : Args.read args = .run command) :
    command.Outcome v s ((Args.read args).answerOn fs s).1 ((Args.read args).answerOn fs s).2 := by
  rw [h]
  show command.Outcome v s (command.run fs s).1 (command.run fs s).2
  cases command with
  | lex input =>
    refine ListingOutcome.of_run (c := .lex input) fun source => ?_
    rw [Command.plan, Command.lexPlan]
    cases tokenize source with
    | ok tokens => rfl
    | error e => rfl
  | parse input =>
    refine ListingOutcome.of_run (c := .parse input) fun source => ?_
    rw [Command.plan, Command.parsePlan]
    cases TensorLet.parse source with
    | ok result => rfl
    | error e => rfl
  | trace input output => exact (TraceRun.of_run v s input output).outcome
  | compile input output traceFile => exact (CompileRun.of_run v s input output traceFile).outcome

/-- A folder with one source in it. -/
def sourceFolder : Directory := ⟨[], [(["a.tac"], "let int x = 1;".toUTF8)]⟩

/-- Trace and code go to one file by two paths, and the code stays. -/
theorem answer_outcome_one_file :
    let args := ["compile", "a.tac", "-o", "./b", "--trace", "b"]
    let (report, d) := (Args.read args).answerOn Directory.fileSystem sourceFolder
    Args.read args = .run (.compile "a.tac" (some "./b") (some "b")) ∧
    report.exit = 0 ∧ report.stdout = "Compiled to ./b\n" ∧
    Directory.filesView.leadsTo? sourceFolder "./b" =
      Directory.filesView.leadsTo? sourceFolder "b" ∧
    Directory.filesView.Holds d "./b" "push constant 1\npop local 0\n" ∧
    Directory.filesView.KeepsAllBut ["./b", "b"] sourceFolder d := by
  have hargs : Args.read ["compile", "a.tac", "-o", "./b", "--trace", "b"] =
      .run (.compile "a.tac" (some "./b") (some "b")) := by decide +kernel
  have hexit : ((Args.read ["compile", "a.tac", "-o", "./b", "--trace", "b"]).answerOn
      Directory.fileSystem sourceFolder).1.exit = 0 := by decide +kernel
  have hread : Directory.fileSystem.readText sourceFolder "a.tac" = .ok "let int x = 1;" :=
    eq_ok_of_toOption (by decide +kernel)
  have hcode : compileToText "let int x = 1;" = .ok "push constant 1\npop local 0\n" :=
    eq_ok_of_toOption (by decide +kernel)
  obtain ⟨hstdout, hholds, -, hkeeps⟩ :=
    (answer_outcome Directory.filesView sourceFolder hargs).of_exit_eq_zero hexit _ _ hread hcode
  exact ⟨hargs, hexit, hstdout, rfl, hholds, hkeeps⟩

end TensorLet
