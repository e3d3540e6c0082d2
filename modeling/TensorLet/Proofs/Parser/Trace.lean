import TensorLet.Proofs.Parser.Acceptance
import TensorLet.Proofs.Parser.Moves

/-!
# What the trace of a parse says

A parser writes to its trace which production it is in and which tokens it takes.
Every step of it, whether it succeeds or fails, leaves an outline whose tags match
and in which the tokens that it has taken stand as lines, none left out.

* `Cursor.Takes`: the tokens that a cursor has been advanced over, and the lexical
  error behind the last of them.
* `step.Traces p`: the step at `p` writes what it takes, closes what it opens when
  it succeeds, and closes nothing else.
* `unit_traces`: this holds of a whole parse.
-/

namespace TensorLet

/-! ## Tokens that are taken -/

namespace Cursor

/-- `c.Takes ts stop c'`: advancing from `c` takes the tokens `ts` one after the
other and ends at `c'`. If `stop` is an error, it stands behind the last of
them. -/
inductive Takes : Cursor → List Token → Option Error → Cursor → Prop
  | done {c : Cursor} : Takes c [] none c
  | next {c c₁ c' : Cursor} {t : Token} {ts : List Token} {stop : Option Error} :
      c.advance = (.ok t, c₁) → Takes c₁ ts stop c' → Takes c (t :: ts) stop c'
  | stopped {c c' : Cursor} {e : Error} :
      c.advance = (.error e, c') → Takes c [c.current] (some e) c'

theorem Takes.append {c c₁ c' : Cursor} {ts us : List Token} {stop : Option Error}
    (h : c.Takes ts none c₁) (h' : c₁.Takes us stop c') : c.Takes (ts ++ us) stop c' := by
  generalize hnone : (none : Option Error) = stop' at h
  induction h with
  | done => exact h'
  | next hadvance _ ih => exact .next hadvance (ih h' hnone)
  | stopped => cases hnone

/-- The pieces from the current token on. -/
def items (c : Cursor) : List (Except Error Token) :=
  if c.current.isEnd then [] else .ok c.current :: c.pending

/-- The end of the source is none of the pieces to come. -/
def EndsLast (c : Cursor) : Prop := ∀ t, .ok t ∈ c.pending → t.isEnd = false

/-- Taking a token takes the first piece. -/
theorem EndsLast.advance {c c' : Cursor} {t : Token} (hc : c.EndsLast) (hend : t.isEnd = false)
    (h : c.advance = (.ok t, c')) : c.items = .ok t :: c'.items ∧ c'.EndsLast := by
  have ht := current_of_advance h
  unfold Cursor.advance at h
  rw [items, ht, hend]
  split at h
  next hnil =>
    cases h
    rw [hnil]
    exact ⟨rfl, by simp [EndsLast]⟩
  next next rest hcons =>
    cases h
    unfold EndsLast at hc
    rw [hcons] at hc ⊢
    refine ⟨?_, fun u hu => hc u (List.mem_cons_of_mem _ hu)⟩
    simp [items, hc next List.mem_cons_self]
  next => cases h

/-- What is taken stands in front of the pieces, and where no error stops the
cursor it stands behind it. -/
theorem Takes.items_eq {c c' : Cursor} {ts : List Token} {stop : Option Error}
    (h : c.Takes ts stop c') (hc : c.EndsLast) (hts : ∀ t ∈ ts, t.isEnd = false) :
    ∃ rest, c.items = ts.map .ok ++ rest ∧ (stop = none → rest = c'.items) := by
  induction h with
  | done => exact ⟨_, rfl, fun _ => rfl⟩
  | @next c c₁ c' t ts stop hadvance _ ih =>
    obtain ⟨hitems, hc₁⟩ := hc.advance (hts t List.mem_cons_self) hadvance
    obtain ⟨rest, hrest, hstop⟩ := ih hc₁ fun u hu => hts u (List.mem_cons_of_mem _ hu)
    refine ⟨rest, ?_, hstop⟩
    rw [hitems, hrest, List.map_cons, List.cons_append]
  | @stopped c c' e hadvance =>
    refine ⟨c.pending, ?_, fun hstop => by cases hstop⟩
    simp [items, hts c.current List.mem_cons_self]

/-- At the front of a source all of its pieces are ahead. -/
theorem ofText_items {source : String} {c : Cursor} (h : ofText source = .ok c) :
    c.items = (Scan.ofText source).items ∧ c.EndsLast := by
  have hscan : ∀ u, .ok u ∈ (Scan.ofText source).items → u.isEnd = false :=
    isEnd_of_mem_scanFrom 0 source.toList
  rcases ofText_eq_ok_iff.mp h with ⟨hnil, rfl⟩ | ⟨t, rest, hcons, rfl⟩
  · rw [hnil]
    exact ⟨rfl, by simp [EndsLast]⟩
  · rw [hcons] at hscan ⊢
    refine ⟨?_, fun u hu => hscan u (List.mem_cons_of_mem _ hu)⟩
    simp [items, hscan t List.mem_cons_self]

end Cursor

/-! ## Steps that are traced -/

/-- Between `p` and `q` the tokens `ts` are taken, and each of them is written. -/
structure Parser.Writes (p : Parser) (ts : List Token) (stop : Option Error) (q : Parser) :
    Prop where
  takes : p.cursor.Takes ts stop q.cursor
  recording : q.trace.recording = p.trace.recording
  texts : q.trace.texts.map some = p.trace.texts.map some ++ ts.map Token.traceText?

namespace Parser.Writes

variable {p p' q : Parser} {ts us : List Token} {stop : Option Error}

theorem refl (hcursor : q.cursor = p.cursor) (hrecording : q.trace.recording = p.trace.recording)
    (htexts : q.trace.texts = p.trace.texts) : p.Writes [] none q := by
  refine ⟨?_, hrecording, ?_⟩
  · rw [hcursor]
    exact .done
  · rw [htexts, List.map_nil, List.append_nil]

theorem trans (h : p.Writes ts none p') (h' : p'.Writes us stop q) :
    p.Writes (ts ++ us) stop q := by
  refine ⟨h.takes.append h'.takes, h'.recording.trans h.recording, ?_⟩
  rw [h'.texts, h.texts, List.map_append, List.append_assoc]

end Parser.Writes

/-! ## Acts -/

namespace Act

variable {a : Act} {p q : Parser} (hp : p.trace.recording = true)
include hp

/-- The token is written before the next piece is looked at, so that it stands in the
trace also when that is an error. -/
theorem writes_advance (ha : advance.Written p) {ts : List Token} {stop : Option Error}
    {c : Cursor} (hts : ts = [p.cursor.current]) (htakes : p.cursor.Takes ts stop c) :
    p.Writes ts stop (p.moved c (match p.cursor.current.traceText? with
      | some text => p.trace.line text
      | none => p.trace)) := by
  obtain ⟨text, htext⟩ := ha
  rw [htext]
  refine ⟨htakes, Outline.recording_write _ _, ?_⟩
  show ((p.trace.line text).texts).map some = _
  rw [Outline.texts_line hp, hts, List.map_append, List.map_singleton, List.map_singleton, htext]

theorem writes_of_ok (ha : a.Written p) (h : a.run p = .ok () q) : ∃ ts, p.Writes ts none q := by
  cases a with
  | openTag tag =>
    cases h
    exact ⟨[], .refl rfl (Outline.recording_write _ _) (Outline.texts_openTag hp tag)⟩
  | closeTag tag =>
    cases h
    exact ⟨[], .refl rfl (Outline.recording_write _ _) (Outline.texts_closeTag hp tag)⟩
  | advance =>
    obtain ⟨t, q', ht, hq⟩ := Parse.bind_eq_ok.mp h
    cases hq
    obtain ⟨c, hc, rfl⟩ := Parse.advance_eq_ok.mp ht
    exact ⟨[t], writes_advance hp ha (by rw [Cursor.current_of_advance hc]) (.next hc .done)⟩
  | enter span =>
    rw [run, Parse.enter_eq] at h
    split at h <;> cases h
    exact ⟨[], .refl rfl rfl rfl⟩
  | fail e => cases h
  | define | newScope | grow | shrink | leave =>
    cases h
    exact ⟨[], .refl rfl rfl rfl⟩

/-- A lexical error behind the token that is taken is the error that the act fails with. -/
theorem writes_of_error (ha : a.Written p) {e : Error} (h : a.run p = .error e q) :
    ∃ ts stop, p.Writes ts stop q ∧ ∀ e' ∈ stop, e' = e := by
  cases a with
  | advance =>
    rcases Parse.bind_eq_error.mp h with he | ⟨t, q', -, hq⟩
    · obtain ⟨c, hc, rfl⟩ := Parse.advance_eq_error.mp he
      exact ⟨_, some e, writes_advance hp ha rfl (.stopped hc), by simp⟩
    · cases hq
  | enter span =>
    rw [run, Parse.enter_eq] at h
    split at h <;> cases h
    exact ⟨[], none, .refl rfl rfl rfl, by simp⟩
  | fail e' =>
    cases h
    exact ⟨[], none, .refl rfl rfl rfl, by simp⟩
  | openTag | closeTag | define | newScope | grow | shrink | leave => cases h

end Act

/-! ## Steps -/

namespace Parse

variable {α : Type}

/-- The step at `p` writes what it takes. After a success the same tags are open
as before. After a failure there may be more of them, and a lexical error behind
the last token is the error that the step fails with. -/
def Traces (step : Parse α) (p : Parser) : Prop :=
  ∀ tags, p.trace.Nests productions tags →
    (∀ a q, step p = .ok a q → q.trace.Nests productions tags ∧ ∃ ts, p.Writes ts none q) ∧
    ∀ e q, step p = .error e q → (∃ opened, q.trace.Nests productions (opened ++ tags)) ∧
      ∃ ts stop, p.Writes ts stop q ∧ ∀ e' ∈ stop, e' = e

end Parse

/-- A sound script writes what it takes. -/
theorem Script.Sound.traces {α : Type} {s : Script α} {p : Parser} {P : Nat × Nat → Prop} {k : Nat}
    (hs : s.Sound p P k) : s.run.Traces p := by
  intro tags htags
  have hrecording : ∀ {q ts}, p.Writes ts none q → q.trace.recording = true := fun h =>
    h.recording.trans htags.recording
  -- At every act the tokens taken so far are written.
  obtain ⟨hvisits, hok⟩ := s.forall_visits (P := fun q => ∃ ts, p.Writes ts none q) p
    ⟨[], .refl rfl rfl rfl⟩ (by
      rintro v hv ⟨ts, hts⟩ q hq
      obtain ⟨us, hus⟩ := Act.writes_of_ok (hrecording hts) (hs.written v hv) hq
      exact ⟨_, hts.trans hus⟩)
  refine ⟨fun a q ha => ⟨(hs.ok a q ha).nests tags htags, hok a q ha⟩, fun e q he => ?_⟩
  refine ⟨(hs.error e q he).nests tags htags, ?_⟩
  obtain ⟨v, hv, hfails⟩ := s.exists_visit_of_error he
  obtain ⟨ts, hts⟩ := hvisits v hv
  obtain ⟨us, stop, hus, hstop⟩ := Act.writes_of_error (hrecording hts) (hs.written v hv) hfails
  exact ⟨_, stop, hts.trans hus, hstop⟩

/-- A whole parse writes what it takes. -/
theorem Parse.unit_traces (p : Parser) : unit.Traces p := by
  rw [← Script.run_unit]
  exact (Script.unit_sound 0 p).traces

end TensorLet
