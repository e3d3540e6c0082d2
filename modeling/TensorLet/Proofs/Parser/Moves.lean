import TensorLet.Proofs.Outline
import TensorLet.Proofs.Parser.Script

/-!
# What each act of a parse finds

The acts of a parser take for granted that the parser is in a state for them: a
token is taken where there is one, the counters go down where they have gone up
before, and a limit is reported where it is reached. Here this is shown of every act
that a production gets to, together with what the production leaves behind: the
counters and the open tags are those that it found, and how many tokens it has taken
at least.

The productions are gone through once. What a parse writes to its trace, how far it
moves and where its counters stand all follow from that.

* `Act.Fits`: what an act takes for granted.
* `Act.Written`: what an act does can be told from the trace.
* `HasRoom`: the counters are inside their limits, and a given number of brackets and
  signs may still be nested.
* `p.SameDepth q`, `p.NoShallower q`: `q` is as deep as `p`, or not less deep.
* `s.Sound p P k`: every act of the script at `p` is written, and fits if `P` holds of
  the counters; a success takes `k` tokens and ends as deep as it began.
* `Script.unit_sound`: a whole parse is sound.
-/

namespace TensorLet

/-- The tags that a parser opens. -/
def Parse.productions : List String :=
  [unitLabel, "statements", "var_dec", "expression", "term", "factor", "primary", "tensor"]

namespace Token

/-- Tokens of all classes but two have a line in a trace. -/
theorem exists_traceText? {t : Token} {k : TokenKind} (h : t.kind = k) (hstray : k ≠ .stray)
    (hend : k ≠ .endOfInput) : ∃ text, t.traceText? = some text := by
  subst h
  cases hk : t.kind <;> simp_all [traceText?, TokenKind.tag?]

theorem isEnd_of_traceText? {t : Token} {text : String} (h : t.traceText? = some text) :
    t.isEnd = false := by
  by_contra hend
  simp only [isEnd, Bool.not_eq_false, decide_eq_true_eq] at hend
  simp [traceText?, hend, TokenKind.tag?] at h

theorem exists_traceText?_of_isNumber {t : Token} (h : t.isNumber = true) :
    ∃ text, t.traceText? = some text := by
  simp only [isNumber, Bool.or_eq_true, decide_eq_true_eq] at h
  rcases h with h | h
  · exact exists_traceText? h (by decide) (by decide)
  · exact exists_traceText? h (by decide) (by decide)

end Token

namespace Act

/-- What an act takes for granted about the parser. -/
def Fits : Act → Parser → Prop
  | .advance, p => p.cursor.current.isEnd = false
  | .grow, p => p.height < maxHeight
  | .shrink, p => p.nesting < p.height
  | .enter _, p => p.nesting < maxNesting
  | .leave, p => 0 < p.nesting ∧ 0 < p.height
  | .fail e, p => (e.fault = .nestingTooDeep → p.nesting = maxNesting) ∧
      (e.fault = .expressionTooDeep → p.height = maxHeight)
  | .openTag _, _ => True
  | .closeTag _, _ => True
  | .define _ _ _, _ => True
  | .newScope, _ => True

/-- A token that is taken has a line in the trace, and a tag is a production. -/
def Written : Act → Parser → Prop
  | .advance, p => ∃ text, p.cursor.current.traceText? = some text
  | .openTag tag, _ => tag ∈ Parse.productions
  | .closeTag tag, _ => tag ∈ Parse.productions
  | _, _ => True

end Act

/-- A number that cannot be read is no matter of the limits. -/
theorem Token.fits_of_scalar_eq_error {t : Token} {e : Error} (h : t.scalar = .error e)
    (p : Parser) : (Act.fail e).Fits p := by
  unfold Token.scalar at h
  split at h
  · cases h
    refine ⟨?_, ?_⟩ <;> rintro ⟨⟩
  · split at h
    · cases h
    · cases h
      refine ⟨?_, ?_⟩ <;> rintro ⟨⟩

/-! ## Depth -/

/-- Nesting and height are inside their limits, and `room` brackets and signs may still
be nested. -/
structure HasRoom (room : Nat) (counters : Nat × Nat) : Prop where
  room : counters.1 + room = maxNesting
  nesting_le : counters.1 ≤ counters.2
  height_le : counters.2 ≤ maxHeight

namespace Parser

/-- Nesting and height. -/
def counters (p : Parser) : Nat × Nat := (p.nesting, p.height)

/-- The counters are the same at `q` as at `p`, and so are the open tags. -/
structure SameDepth (p q : Parser) : Prop where
  counters : q.counters = p.counters
  nests : ∀ tags, p.trace.Nests Parse.productions tags → q.trace.Nests Parse.productions tags

/-- No counter is lower at `q` than at `p`, and what is open at `p` is open at `q`. -/
structure NoShallower (p q : Parser) : Prop where
  nesting : p.nesting ≤ q.nesting
  height : p.height ≤ q.height
  nests : ∀ tags, p.trace.Nests Parse.productions tags →
    ∃ opened, q.trace.Nests Parse.productions (opened ++ tags)

variable {p q r : Parser}

namespace SameDepth

/-- Only counters and trace matter. -/
theorem of_eq (hcounters : q.counters = p.counters) (htrace : q.trace = p.trace) :
    p.SameDepth q :=
  ⟨hcounters, fun _ h => htrace ▸ h⟩

theorem trans (h : p.SameDepth q) (h' : q.SameDepth r) : p.SameDepth r :=
  ⟨h'.counters.trans h.counters, fun tags ht => h'.nests tags (h.nests tags ht)⟩

theorem noShallower (h : p.SameDepth q) : p.NoShallower q := by
  obtain ⟨hnesting, hheight⟩ := Prod.mk.inj h.counters
  exact ⟨Nat.le_of_eq hnesting.symm, Nat.le_of_eq hheight.symm,
    fun tags ht => ⟨[], h.nests tags ht⟩⟩

end SameDepth

namespace NoShallower

/-- Only counters and trace matter. -/
theorem of_le (hnesting : p.nesting ≤ q.nesting) (hheight : p.height ≤ q.height)
    (htrace : q.trace = p.trace) : p.NoShallower q :=
  ⟨hnesting, hheight, fun _ h => ⟨[], htrace ▸ h⟩⟩

theorem trans (h : p.NoShallower q) (h' : q.NoShallower r) : p.NoShallower r := by
  refine ⟨Nat.le_trans h.nesting h'.nesting, Nat.le_trans h.height h'.height, fun tags ht => ?_⟩
  obtain ⟨opened, ho⟩ := h.nests tags ht
  obtain ⟨opened', ho'⟩ := h'.nests _ ho
  refine ⟨opened' ++ opened, ?_⟩
  rwa [List.append_assoc]

end NoShallower

end Parser

/-! ## Sound scripts -/

namespace Script

variable {α β : Type}

/-- Every act of the script at `p` is written, and fits if `P` holds of the counters. A
success has taken at least `k` tokens and ends as deep as it began; a failure ends no
less deep. -/
structure Sound (s : Script α) (p : Parser) (P : Nat × Nat → Prop) (k : Nat) : Prop where
  written : ∀ v ∈ s.visits p, v.1.Written v.2
  fits : P p.counters → ∀ v ∈ s.visits p, v.1.Fits v.2
  takes : ∀ a q, s.run p = .ok a q → k ≤ s.advances p
  ok : ∀ a q, s.run p = .ok a q → p.SameDepth q
  error : ∀ e q, s.run p = .error e q → p.NoShallower q

/-- `last` takes back what `first` does at `p`. Both of them are written, and fit if `P`
holds of the counters; between them `P'` holds. -/
structure Encloses (first last : Act) (p : Parser) (P P' : Nat × Nat → Prop) : Prop where
  written : first.Written p ∧ ∀ r, last.Written r
  fits : P p.counters → first.Fits p
  error : ∀ e q, first.run p = .error e q → p.NoShallower q
  ok : ∀ q, first.run p = .ok () q → p.NoShallower q ∧ (P p.counters → P' q.counters)
  closes : ∀ q r, first.run p = .ok () q → q.SameDepth r →
    (P p.counters → last.Fits r) ∧ ∃ r', last.run r = .ok () r' ∧ p.SameDepth r'

namespace Sound

variable {s : Script α} {p : Parser} {P P' : Nat × Nat → Prop} {k : Nat}

theorem mono {j : Nat} (hs : s.Sound p P k) (h : j ≤ k) : s.Sound p P j :=
  ⟨hs.written, hs.fits, fun a q ha => Nat.le_trans h (hs.takes a q ha), hs.ok, hs.error⟩

theorem imp (hs : s.Sound p P' k) (h : P p.counters → P' p.counters) : s.Sound p P k :=
  ⟨hs.written, fun hp => hs.fits (h hp), hs.takes, hs.ok, hs.error⟩

/-- The end of the source has no line in a trace, so it is never taken. -/
theorem isEnd_eq_false (hs : s.Sound p P k) :
    ∀ v ∈ s.visits p, v.1 = .advance → v.2.cursor.current.isEnd = false := by
  rintro ⟨_, q⟩ hv rfl
  obtain ⟨text, htext⟩ := hs.written _ hv
  exact Token.isEnd_of_traceText? htext

theorem pure (a : α) : (Pure.pure a : Script α).Sound p P 0 := by
  refine ⟨by rintro v ⟨⟩, fun _ => by rintro v ⟨⟩, fun _ _ _ => Nat.zero_le _, ?_, ?_⟩
  · rintro _ _ ⟨⟩
    exact .of_eq rfl rfl
  · rintro _ _ ⟨⟩

theorem stop {e : Error} (h : P p.counters → (Act.fail e).Fits p) :
    (stop e : Script α).Sound p P k := by
  refine ⟨?_, fun hp => ?_, ?_, ?_, ?_⟩
  · rw [visits, List.forall_mem_singleton]
    exact trivial
  · rw [visits, List.forall_mem_singleton]
    exact h hp
  · rintro _ _ ⟨⟩
  · rintro _ _ ⟨⟩
  · rintro _ _ ⟨⟩
    exact .of_le (Nat.le_refl _) (Nat.le_refl _) rfl

theorem bind {f : α → Script β} {j : Nat} (hs : s.Sound p P k)
    (hf : ∀ a q, p.SameDepth q → (f a).Sound q P j) : (s >>= f).Sound p P (k + j) := by
  have hadvances := advances_bind s f p
  have hvisits := visits_bind s f p
  cases hrun : s.run p with
  | ok a q =>
    have hq := hs.ok a q hrun
    have hnext := hf a q hq
    rw [hrun] at hadvances hvisits
    refine ⟨?_, fun hp => ?_, fun b r hb => ?_, fun b r hb => ?_, fun e r he => ?_⟩
    · rw [hvisits, List.forall_mem_append]
      exact ⟨hs.written, hnext.written⟩
    · rw [hvisits, List.forall_mem_append]
      exact ⟨hs.fits hp, hnext.fits (hq.counters ▸ hp)⟩
    · rw [run_bind_of_ok hrun] at hb
      rw [hadvances]
      exact Nat.add_le_add (hs.takes a q hrun) (hnext.takes b r hb)
    · rw [run_bind_of_ok hrun] at hb
      exact hq.trans (hnext.ok b r hb)
    · rw [run_bind_of_ok hrun] at he
      exact hq.noShallower.trans (hnext.error e r he)
  | error e q =>
    rw [hrun, List.append_nil] at hvisits
    refine ⟨?_, fun hp => ?_, fun b r hb => ?_, fun b r hb => ?_, fun e' r he => ?_⟩
    · rw [hvisits]
      exact hs.written
    · rw [hvisits]
      exact hs.fits hp
    · rw [run_bind_of_error hrun] at hb
      cases hb
    · rw [run_bind_of_error hrun] at hb
      cases hb
    · rw [run_bind_of_error hrun] at he
      cases he
      exact hs.error e q hrun

/-- The tokens are taken in the first part. -/
theorem bind_left {f : α → Script β} (hs : s.Sound p P k)
    (hf : ∀ a q, p.SameDepth q → (f a).Sound q P 0) : (s >>= f).Sound p P k := hs.bind hf

/-- The tokens are taken in the second part. -/
theorem bind_right {f : α → Script β} {j : Nat} (hs : s.Sound p P j)
    (hf : ∀ a q, p.SameDepth q → (f a).Sound q P k) : (s >>= f).Sound p P k :=
  (hs.bind hf).mono (Nat.le_add_left k j)

/-- Looking at the parser changes nothing. -/
theorem look {next : Parser → Script α} (h : (next p.silent).Sound p P k) :
    (look next).Sound p P k :=
  ⟨h.written, h.fits, h.takes, h.ok, h.error⟩

theorem current {f : Token → Script α} (h : (f p.cursor.current).Sound p P k) :
    (Script.current >>= f).Sound p P k := look h

theorem get {f : Parser → Script α} (h : (f p.silent).Sound p P k) :
    (Script.get >>= f).Sound p P k := look h

theorem resolve {name : String} {f : Option Storage → Script α}
    (h : (f (p.symbols.storageOf? name)).Sound p P k) : (Script.resolve name >>= f).Sound p P k :=
  look h

/-- No limit is to blame for a token that should be another one. -/
theorem unexpected (e : Expectation) : (Script.unexpected e : Script α).Sound p P k := by
  refine current (stop fun _ => ⟨?_, ?_⟩) <;> rintro ⟨⟩

/-- An act that succeeds and is not seen in counters and trace. -/
theorem one {a : Act} {q : Parser} (hwritten : a.Written p) (hfits : a.Fits p)
    (hrun : a.run p = .ok () q) (hq : p.SameDepth q) : (one a).Sound p P 0 := by
  refine ⟨?_, fun _ => ?_, fun _ _ _ => Nat.zero_le _, ?_, ?_⟩
  · rw [visits_one, List.forall_mem_singleton]
    exact hwritten
  · rw [visits_one, List.forall_mem_singleton]
    exact hfits
  · intro _ r hr
    rw [run_one, hrun] at hr
    cases hr
    exact hq
  · intro e r hr
    rw [run_one, hrun] at hr
    cases hr

/-- The token under the cursor is taken because it has a line in the trace. -/
theorem advance (h : ∃ text, p.cursor.current.traceText? = some text) :
    Script.advance.Sound p P 1 := by
  obtain ⟨text, htext⟩ := h
  refine ⟨?_, fun _ => ?_, fun _ _ _ => ?_, fun t q hq => ?_, fun e q hq => ?_⟩
  · rw [visits_advance, List.forall_mem_singleton]
    exact ⟨text, htext⟩
  · rw [visits_advance, List.forall_mem_singleton]
    exact Token.isEnd_of_traceText? htext
  · rw [advances, visits_advance]
    exact Nat.le_refl _
  · rw [run_advance] at hq
    obtain ⟨c, -, rfl⟩ := Parse.advance_eq_ok.mp hq
    rw [htext]
    exact ⟨rfl, fun tags ht => ht.line text⟩
  · rw [run_advance] at hq
    obtain ⟨c, -, rfl⟩ := Parse.advance_eq_error.mp hq
    rw [htext]
    exact ⟨Nat.le_refl _, Nat.le_refl _, fun tags ht => ⟨[], ht.line text⟩⟩

theorem advance_of_kind {kind : TokenKind} (h : p.cursor.current.kind = kind)
    (hstray : kind ≠ .stray) (hend : kind ≠ .endOfInput) : Script.advance.Sound p P 1 :=
  advance (Token.exists_traceText? h hstray hend)

theorem advance_of_isSymbol {c : Char} (h : p.cursor.current.isSymbol c = true) :
    Script.advance.Sound p P 1 :=
  advance_of_kind (Token.kind_of_isSymbol h) (by decide) (by decide)

theorem expect {test : Token → Bool} {e : Expectation} {kind : TokenKind}
    (h : ∀ t : Token, test t = true → t.kind = kind) (hstray : kind ≠ .stray)
    (hend : kind ≠ .endOfInput) : (Script.expect test e).Sound p P 1 := by
  refine current ?_
  split
  next ht => exact advance_of_kind (h _ ht) hstray hend
  next => exact unexpected e

theorem expectSymbol {c : Char} {e : Expectation} :
    (Script.expect (·.isSymbol c) e).Sound p P 1 :=
  expect (fun _ => Token.kind_of_isSymbol) (by decide) (by decide)

/-- What is between two acts that belong together keeps the depth of both. -/
theorem between {first last : Act} (h : Encloses first last p P P')
    (hs : ∀ q, s.Sound q P' k) : (between first last s).Sound p P k := by
  have hvisits := visits_between first last s p
  have hrun := run_between first last s p
  cases hfirst : first.run p with
  | error e q =>
    -- Nothing but the first act is gone to.
    rw [hfirst] at hvisits hrun
    refine ⟨?_, fun hp => ?_, fun b r hb => ?_, fun b r hb => ?_, fun e' r he => ?_⟩
    · rw [hvisits, List.forall_mem_singleton]
      exact h.written.1
    · rw [hvisits, List.forall_mem_singleton]
      exact h.fits hp
    · cases hrun.symm.trans hb
    · cases hrun.symm.trans hb
    · cases hrun.symm.trans he
      exact h.error e q hfirst
  | ok _ q =>
    obtain ⟨hopened, hP⟩ := h.ok q hfirst
    have hinside := hs q
    rw [hfirst] at hvisits hrun
    cases hmiddle : s.run q with
    | error e r =>
      -- The last act is not gone to, so what the first one has done stays.
      simp only [hmiddle, List.append_nil] at hvisits hrun
      refine ⟨?_, fun hp => ?_, fun b r hb => ?_, fun b r hb => ?_, fun e' r' he => ?_⟩
      · rw [hvisits, List.forall_mem_cons]
        exact ⟨h.written.1, hinside.written⟩
      · rw [hvisits, List.forall_mem_cons]
        exact ⟨h.fits hp, hinside.fits (hP hp)⟩
      · cases hrun.symm.trans hb
      · cases hrun.symm.trans hb
      · cases hrun.symm.trans he
        exact hopened.trans (hinside.error e r hmiddle)
    | ok a r =>
      obtain ⟨hfits, r', hlast, hclosed⟩ := h.closes q r hfirst (hinside.ok a r hmiddle)
      simp only [hmiddle, hlast] at hvisits hrun
      refine ⟨?_, fun hp => ?_, fun b r hb => ?_, fun b r hb => ?_, fun e' r' he => ?_⟩
      · rw [hvisits, List.forall_mem_cons, List.forall_mem_append, List.forall_mem_singleton]
        exact ⟨h.written.1, hinside.written, h.written.2 r⟩
      · rw [hvisits, List.forall_mem_cons, List.forall_mem_append, List.forall_mem_singleton]
        exact ⟨h.fits hp, hinside.fits (hP hp), hfits hp⟩
      · have htakes := hinside.takes a _ hmiddle
        rw [advances] at htakes
        rw [advances, hvisits, List.countP_cons, List.countP_append]
        omega
      · cases hrun.symm.trans hb
        exact hclosed
      · cases hrun.symm.trans he

/-- A tag is opened before a script and closed behind it; where the script fails it
stays open. -/
theorem tagged {tag : String} (htag : tag ∈ Parse.productions) (hs : ∀ q, s.Sound q P k) :
    (Script.tagged tag s).Sound p P k := by
  refine between ⟨⟨htag, fun _ => htag⟩, fun _ => trivial, ?_, ?_, ?_⟩ hs
  · rintro _ _ ⟨⟩
  · rintro _ ⟨⟩
    refine ⟨⟨Nat.le_refl _, Nat.le_refl _, fun tags ht => ?_⟩, id⟩
    exact ⟨[tag], ht.openTag htag⟩
  · rintro _ r ⟨⟩ hr
    refine ⟨fun _ => trivial, _, rfl, hr.counters, fun tags ht => ?_⟩
    exact (hr.nests _ (ht.openTag htag)).closeTag htag

/-- What the tree has grown by is taken back. -/
theorem raised {room n : Nat}
    (hs : ∀ q, s.Sound q (fun c => HasRoom room c ∧ c.2 + n = maxHeight) k) :
    (Script.raised s).Sound p (fun c => HasRoom room c ∧ c.2 + (n + 1) = maxHeight) k := by
  refine between ⟨⟨trivial, fun _ => trivial⟩, ?_, ?_, ?_, ?_⟩ hs
  · rintro ⟨-, hheight⟩
    show p.height < maxHeight
    change p.height + (n + 1) = maxHeight at hheight
    omega
  · rintro _ _ ⟨⟩
  · rintro _ ⟨⟩
    refine ⟨.of_le (Nat.le_refl _) (Nat.le_succ _) rfl, ?_⟩
    rintro ⟨⟨hroom, hle, -⟩, hheight⟩
    change p.height + (n + 1) = maxHeight at hheight
    refine ⟨⟨hroom, Nat.le_succ_of_le hle, ?_⟩, ?_⟩
    · show p.height + 1 ≤ maxHeight
      omega
    · show p.height + 1 + n = maxHeight
      omega
  · rintro _ r ⟨⟩ hr
    obtain ⟨hnesting, hheight⟩ := Prod.mk.inj hr.counters
    refine ⟨?_, _, rfl, ?_, hr.nests⟩
    · rintro ⟨hroom, -⟩
      show r.nesting < r.height
      rw [hnesting, hheight]
      exact Nat.lt_succ_of_le hroom.nesting_le
    · show (r.nesting, r.height - 1) = p.counters
      rw [hnesting, hheight]
      rfl

end Sound

/-- What is inside a bracket or sign is there when there is room for it, and it is
sound with one place less. -/
def SoundInside (k : Nat) : Nat → Option (Script α) → Prop
  | 0, inside => inside = none
  | room + 1, inside => ∃ s, inside = some s ∧ ∀ q, s.Sound q (HasRoom room) k

/-- A bracket or sign goes one deeper and one higher and comes back. Where there is
no room for it, the nesting is at its limit. -/
theorem Sound.descend {p : Parser} {k room : Nat} {inside : Option (Script α)}
    (hinside : SoundInside k room inside) (span : Span) :
    (Script.descend span inside).Sound p (HasRoom room) k := by
  cases room with
  | zero =>
    cases hinside
    exact Sound.stop fun hp => ⟨fun _ => hp.room, by rintro ⟨⟩⟩
  | succ room =>
    obtain ⟨s, rfl, hs⟩ := hinside
    refine Sound.between ⟨⟨trivial, fun _ => trivial⟩, ?_, ?_, ?_, ?_⟩ hs
    · intro hp
      have hroom : p.nesting + (room + 1) = maxNesting := hp.room
      show p.nesting < maxNesting
      omega
    · intro e q hq
      rw [Act.run, Parse.enter_eq] at hq
      split at hq <;> cases hq
      exact .of_le (Nat.le_succ _) (Nat.le_refl _) rfl
    · intro q hq
      rw [Act.run, Parse.enter_eq] at hq
      split at hq <;> cases hq
      next hlt =>
        refine ⟨.of_le (Nat.le_succ _) (Nat.le_succ _) rfl, fun hp => ⟨?_, ?_, hlt⟩⟩
        · have hroom : p.nesting + (room + 1) = maxNesting := hp.room
          show p.nesting + 1 + room = maxNesting
          omega
        · exact Nat.succ_le_succ hp.nesting_le
    · intro q r hq hr
      rw [Act.run, Parse.enter_eq] at hq
      split at hq <;> cases hq
      obtain ⟨hnesting, hheight⟩ := Prod.mk.inj hr.counters
      have hnesting : r.nesting = p.nesting + 1 := hnesting
      have hheight : r.height = p.height + 1 := hheight
      refine ⟨fun _ => ⟨by omega, by omega⟩, _, rfl, ?_, hr.nests⟩
      show (r.nesting - 1, r.height - 1) = p.counters
      rw [hnesting, hheight]
      rfl

/-! ## Tensor literals -/

theorem scalar_sound {p : Parser} {P : Nat × Nat → Prop} (h : p.cursor.current.isNumber = true) :
    scalar.Sound p P 1 := by
  refine (Sound.advance (Token.exists_traceText?_of_isNumber h)).bind_left fun token q _ => ?_
  split
  next => exact Sound.pure _
  next e he => exact Sound.stop fun _ => Token.fits_of_scalar_eq_error he q

theorem signedNumber_sound {P : Nat × Nat → Prop} (p : Parser) : signedNumber.Sound p P 1 := by
  unfold signedNumber
  apply Sound.current
  extract_lets negative after
  have hafter : ∀ q, (after ()).Sound q P 1 := by
    intro q
    apply Sound.current
    split
    next hnumber => exact (scalar_sound hnumber).bind_left fun _ _ _ => Sound.pure _
    next => exact Sound.unexpected _
  split
  next hminus => exact (Sound.advance_of_isSymbol hminus).bind_right fun _ q _ => hafter q
  next => exact hafter p

section

variable {nested : Script Tensor} {room : Nat} (hnested : ∀ q, nested.Sound q (HasRoom room) 1)
include hnested

theorem element_sound (p : Parser) : (element nested).Sound p (HasRoom room) 1 := by
  apply Sound.current
  split
  · exact (hnested p).bind_left fun _ _ _ => Sound.pure _
  · exact signedNumber_sound p

theorem elements_sound : ∀ (bound index : Nat) (p : Parser),
    (elements nested bound index).Sound p (HasRoom room) 1 := by
  intro bound
  induction bound with
  | zero =>
    intro index p
    exact (element_sound hnested p).bind_left fun _ _ _ => Sound.pure _
  | succ bound ih =>
    intro index p
    refine (element_sound hnested p).bind_left fun e q _ => ?_
    apply Sound.current
    split
    next hcomma =>
      refine (Sound.advance_of_isSymbol hcomma).bind_right fun _ r _ => ?_
      exact (ih (index + 1) r).bind_right fun _ _ _ => Sound.pure _
    next => exact Sound.pure _

theorem braces_sound (p : Parser) : (braces nested).Sound p (HasRoom room) 1 := by
  refine Sound.expectSymbol.bind_left fun brace q _ => ?_
  have hinside : (optionalElements nested).Sound q (HasRoom room) 0 := by
    apply Sound.current
    split
    · exact Sound.pure _
    · exact Sound.get ((elements_sound hnested _ 0 q).mono (Nat.zero_le _))
  refine hinside.bind_right fun _ q _ => ?_
  apply Sound.current
  split
  next hbrace => exact (Sound.advance_of_isSymbol hbrace).bind_right fun _ _ _ => Sound.pure _
  next => exact Sound.stop fun _ => ⟨by rintro ⟨⟩, by rintro ⟨⟩⟩

end

theorem tensorWith_sound {nested : Option (Script Tensor)} {room : Nat}
    (hnested : SoundInside 1 room (nested.map braces)) (p : Parser) :
    (tensorWith nested).Sound p (HasRoom room) 1 := by
  refine Sound.tagged (by decide) fun q => ?_
  apply Sound.current
  exact Sound.descend hnested _

theorem tensor_sound : ∀ (room : Nat) (p : Parser), (tensor room).Sound p (HasRoom room) 1 := by
  intro room
  induction room with
  | zero => exact tensorWith_sound rfl
  | succ room ih => exact tensorWith_sound ⟨_, rfl, braces_sound ih⟩

/-! ## Expressions -/

section

variable {operand : Script Expr} {room : Nat} (hoperand : ∀ q, operand.Sound q (HasRoom room) 1)
include hoperand

/-- What the tree has grown by in a chain is taken back behind it. An operator
without room stands at the limit. -/
theorem chain_sound {ops : List BinOp} : ∀ (n : Nat) (left : Expr) (p : Parser),
    (chain ops operand n left).Sound p (fun c => HasRoom room c ∧ c.2 + n = maxHeight) 0 := by
  intro n
  induction n with
  | zero =>
    intro left p
    unfold chain
    apply Sound.current
    split
    next => exact Sound.pure _
    next op hop =>
      have hfound := List.find?_some hop
      refine (Sound.advance_of_isSymbol hfound).bind_right fun token q _ => ?_
      exact Sound.stop fun hq => ⟨by rintro ⟨⟩, fun _ => hq.2⟩
  | succ n ih =>
    intro left p
    rw [chain_succ]
    apply Sound.current
    split
    next => exact Sound.pure _
    next op hop =>
      have hfound := List.find?_some hop
      refine (Sound.advance_of_isSymbol hfound).bind_right fun token q _ => Sound.raised fun q => ?_
      exact ((hoperand q).imp fun hq => hq.1).bind_right fun right q _ => ih _ q

theorem level_sound {tag : String} {ops : List BinOp} (htag : tag ∈ Parse.productions)
    (p : Parser) : (level tag ops operand).Sound p (HasRoom room) 1 := by
  refine Sound.tagged htag fun q => (hoperand q).bind_left fun first r _ => Sound.get ?_
  refine (chain_sound hoperand _ first r).imp fun hr => ⟨hr, ?_⟩
  exact Nat.add_sub_cancel' hr.height_le

theorem expression_sound (p : Parser) : (expression operand).Sound p (HasRoom room) 1 :=
  level_sound (level_sound hoperand (by decide)) (by decide) p

end

section

variable {inner : Option (Script Expr)} {room : Nat} {p : Parser}
  (hinner : SoundInside 1 room inner)
include hinner

theorem parenthesized_sound (h : p.cursor.current.isSymbol '(' = true) :
    (parenthesized inner).Sound p (HasRoom room) 1 := by
  refine (Sound.advance_of_isSymbol h).bind_right fun paren q _ => Sound.descend ?_ _
  cases room with
  | zero =>
    cases hinner
    rfl
  | succ room =>
    obtain ⟨factor, rfl, hfactor⟩ := hinner
    refine ⟨_, rfl, fun q => ?_⟩
    refine (expression_sound hfactor q).bind_left fun e q _ => ?_
    exact Sound.expectSymbol.bind_right fun _ _ _ => Sound.pure _

theorem signed_sound (h : p.cursor.current.kind = .symbol) (op : UnaryOp) :
    (signed op inner).Sound p (HasRoom room) 1 := by
  refine (Sound.advance_of_kind h (by decide) (by decide)).bind_left fun token q _ => ?_
  exact (Sound.descend hinner _).bind_right fun _ _ _ => Sound.pure _

theorem primary_sound {literal : Script Tensor} (hliteral : ∀ q, literal.Sound q (HasRoom room) 1) :
    (primary inner literal).Sound p (HasRoom room) 1 := by
  refine Sound.tagged (by decide) fun q => ?_
  apply Sound.current
  split
  next hkind =>
    exact (scalar_sound (by simp [Token.isNumber, hkind])).bind_left fun _ _ _ => Sound.pure _
  next hkind =>
    exact (scalar_sound (by simp [Token.isNumber, hkind])).bind_left fun _ _ _ => Sound.pure _
  next hkind =>
    apply Sound.resolve
    have hadvance : advance.Sound q (HasRoom room) 1 :=
      Sound.advance_of_kind hkind (by decide) (by decide)
    exact hadvance.bind_left fun _ _ _ => Sound.pure _
  next hkind =>
    split
    · exact (hliteral q).bind_left fun _ _ _ => Sound.pure _
    · split
      · exact signed_sound hinner hkind _
      · exact Sound.unexpected _
  next => exact Sound.unexpected _

theorem factorWith_sound {literal : Script Tensor}
    (hliteral : ∀ q, literal.Sound q (HasRoom room) 1) :
    (factorWith inner literal).Sound p (HasRoom room) 1 := by
  refine Sound.tagged (by decide) fun q => ?_
  apply Sound.current
  split
  next hparen => exact parenthesized_sound hinner hparen
  next => exact primary_sound hinner hliteral

end

/-- What a factor with some room holds. -/
def inner : Nat → Option (Script Expr)
  | 0 => none
  | room + 1 => some (factor room)

theorem factor_sound : ∀ (room : Nat) (p : Parser), (factor room).Sound p (HasRoom room) 1 := by
  intro room
  induction room with
  | zero =>
    have hinner : SoundInside 1 0 (none : Option (Script Expr)) := rfl
    exact fun p => factorWith_sound hinner (tensor_sound 0)
  | succ room ih =>
    have hinner : SoundInside 1 (room + 1) (some (factor room)) := ⟨_, rfl, ih⟩
    exact fun p => factorWith_sound hinner (tensor_sound (room + 1))

theorem inner_sound (room : Nat) : SoundInside 1 room (inner room) := by
  cases room with
  | zero => rfl
  | succ room => exact ⟨_, rfl, factor_sound room⟩

/-! ## Declarations -/

theorem valueType_sound {P : Nat × Nat → Prop} (p : Parser) : valueType.Sound p P 1 := by
  unfold valueType
  apply Sound.current
  split
  next type htype =>
    have hadvance : advance.Sound p P 1 :=
      Sound.advance_of_kind (Token.kind_of_valueType? htype) (by decide) (by decide)
    exact hadvance.bind_left fun _ _ _ => Sound.pure _
  next => exact Sound.unexpected _

section

variable (room : Nat) (p : Parser)

theorem initializer_sound : initializer.Sound p (HasRoom room) 1 := by
  refine Sound.get ((expression_sound (factor_sound _) p).imp fun hp => ?_)
  have hroom : p.silent.nestingRoom = room := Nat.sub_eq_of_eq_add' hp.room.symm
  rwa [hroom]

theorem declaration_sound : declaration.Sound p (HasRoom room) 1 := by
  refine Sound.tagged (by decide) fun q => ?_
  have hlet : (expect (·.isKeyword .letWord) (.keyword .letWord)).Sound q (HasRoom room) 1 :=
    Sound.expect (fun _ => Token.kind_of_isKeyword) (by decide) (by decide)
  refine hlet.bind_left fun token q _ => (valueType_sound q).bind_right fun type q _ => ?_
  have hname : (expect (·.kind = .identifier) .identifier).Sound q (HasRoom room) 1 :=
    Sound.expect (fun _ ht => of_decide_eq_true ht) (by decide) (by decide)
  refine hname.bind_right fun name q _ => Sound.expectSymbol.bind_right fun _ q _ => ?_
  refine (initializer_sound room q).bind_right fun rhs q _ => ?_
  have hdefine : (one (.define name.lexeme type .localVar)).Sound q (HasRoom room) 0 :=
    Sound.one trivial trivial rfl (.of_eq rfl rfl)
  exact hdefine.bind_right fun _ _ _ => Sound.expectSymbol.bind_right fun _ _ _ => Sound.pure _

end

section

variable (room : Nat)

theorem declarations_sound : ∀ (bound : Nat) (p : Parser),
    (declarations bound).Sound p (HasRoom room) 0 := by
  intro bound
  induction bound with
  | zero => exact fun p => Sound.pure _
  | succ bound ih =>
    intro p
    unfold declarations
    apply Sound.current
    split
    · refine (declaration_sound room p).bind_right fun d q _ => ?_
      exact (ih q).bind_right fun _ _ _ => Sound.pure _
    · exact Sound.pure _

theorem block_sound (p : Parser) : block.Sound p (HasRoom room) 0 := by
  apply Sound.current
  refine Sound.tagged (by decide) fun q => ?_
  have hscope : (one .newScope).Sound q (HasRoom room) 0 :=
    Sound.one trivial trivial rfl (.of_eq rfl rfl)
  refine hscope.bind_right fun _ q _ => Sound.get ?_
  exact (declarations_sound room _ q).bind_right fun _ _ _ => Sound.pure _

/-- Every act of a whole parse is written, and fits wherever the counters are inside
their limits. -/
theorem unit_sound (p : Parser) : unit.Sound p (HasRoom room) 0 := by
  apply Sound.current
  refine Sound.tagged (by decide) fun q => (block_sound room q).bind_right fun b q _ => ?_
  apply Sound.current
  split
  · exact Sound.pure _
  · exact Sound.unexpected _

end

end Script

end TensorLet
