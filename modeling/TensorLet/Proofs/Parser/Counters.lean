import TensorLet.Parser
import TensorLet.Proofs.Parser.Completeness
import TensorLet.Proofs.Parser.Moves
import TensorLet.Proofs.Token.Scan

/-!
# Nesting and height stay inside their limits

A parser counts how deep and how high it is, and a failure leaves the counters where
they are. The next call starts from there. Still neither of them ever passes its
limit or goes below zero, because every act that changes them finds them where it
needs them.

* `Parser.Reached`: the parsers that calls lead to from the front of a source.
* `Parser.InBounds`: both counters are inside their limits.
* `InBounds.act`, `InBounds.visits`: one act keeps the counters inside, and so does
  everything that a script does.
* `counters_stay_in_bounds`: so they are at every point of every call.
-/

namespace TensorLet

namespace Parser

/-- `p.Reached source n`: calls one after the other, whether or not they fail, lead
from the front of the source to `p`, and by then the source has been scanned `n`
times. The trace may be switched off at any time. -/
inductive Reached (source : String) : Nat → Parser → Prop
  | start {p : Parser} : Parser.ofText source = .ok p → Reached source 1 p
  | silent {n : Nat} {p : Parser} : Reached source n p → Reached source n p.silent
  | call {n : Nat} {p : Parser} : Reached source n p →
      Reached source (n + Script.unit.advances p) p.unit.2

/-- The parser behind a call is the one behind its script. -/
theorem unit_snd (p : Parser) : p.unit.2 = Script.unit.after p := by
  rw [Parser.unit, Script.after, Script.run_unit]

/-- Nesting and height are inside their limits, and nesting is not above height. -/
structure InBounds (p : Parser) : Prop where
  nesting_le_height : p.nesting ≤ p.height
  nesting_le : p.nesting ≤ maxNesting
  height_le : p.height ≤ maxHeight

namespace InBounds

variable {p : Parser}

theorem hasRoom (h : p.InBounds) : HasRoom p.nestingRoom p.counters :=
  ⟨Nat.add_sub_cancel' h.nesting_le, h.nesting_le_height, h.height_le⟩

/-- An act that fits leaves the counters inside their limits, also when it fails. -/
theorem act {a : Act} (hp : p.InBounds) (hfits : a.Fits p) : (a.after p).InBounds := by
  obtain ⟨hle, hnesting, hheight⟩ := hp
  cases a with
  | openTag | closeTag | define | newScope | fail => exact ⟨hle, hnesting, hheight⟩
  | advance =>
    obtain ⟨o, ho⟩ := Act.exists_after_advance p
    rw [ho]
    exact ⟨hle, hnesting, hheight⟩
  | grow => exact ⟨Nat.le_succ_of_le hle, hnesting, hfits⟩
  | shrink => exact ⟨Nat.le_sub_one_of_lt hfits, hnesting, Nat.le_trans (Nat.sub_le _ _) hheight⟩
  | enter span =>
    rw [Act.after_enter]
    split
    next hlt => exact ⟨Nat.succ_le_succ hle, hfits, hlt⟩
    next hfull =>
      -- The nesting has gone up alone, and the height is far above its limit.
      have hfits : p.nesting < maxNesting := hfits
      have hlimits : maxNesting < maxHeight := by decide
      refine ⟨?_, hfits, hheight⟩
      show p.nesting + 1 ≤ p.height
      omega
  | leave =>
    exact ⟨Nat.sub_le_sub_right hle 1, Nat.le_trans (Nat.sub_le _ _) hnesting,
      Nat.le_trans (Nat.sub_le _ _) hheight⟩

/-- A script whose acts fit never takes the counters out of their limits. -/
theorem visits {α : Type} {s : Script α} (hp : p.InBounds)
    (hfits : ∀ v ∈ s.visits p, v.1.Fits v.2) :
    (∀ v ∈ s.visits p, v.2.InBounds) ∧ (s.after p).InBounds :=
  s.forall_visits_after hp fun v hv hin => hin.act (hfits v hv)

end InBounds

/-- Every call starts with the counters inside their limits. -/
theorem Reached.inBounds {source : String} {n : Nat} {p : Parser} (h : p.Reached source n) :
    p.InBounds := by
  induction h with
  | start hp =>
    unfold Parser.ofText at hp
    obtain ⟨c, -, hc⟩ := except_bind_eq_ok.mp hp
    cases hc
    exact ⟨Nat.le_refl _, Nat.zero_le _, Nat.zero_le _⟩
  | silent _ ih => exact ⟨ih.nesting_le_height, ih.nesting_le, ih.height_le⟩
  | call _ ih =>
    rw [unit_snd]
    exact (ih.visits ((Script.unit_sound _ _).fits ih.hasRoom)).2

/-- The productions of the grammar as they are called at a parser. Those that nest are
given the room that is left. -/
inductive Production (p : Parser) : {α : Type} → Parse α → Prop
  | unit : Production p Parse.unit
  | block : Production p Parse.block
  | declaration : Production p Parse.declaration
  | valueType : Production p Parse.valueType
  | initializer : Production p Parse.initializer
  | expression : Production p (Parse.expression (Parse.factor p.nestingRoom))
  | term : Production p (Parse.term (Parse.factor p.nestingRoom))
  | factor : Production p (Parse.factor p.nestingRoom)
  | primary : Production p
      (Parse.primary (Grammar.inner p.nestingRoom) (Parse.tensor p.nestingRoom))
  | tensor : Production p (Parse.tensor p.nestingRoom)
  | element : Production p (Parse.element (Parse.tensor p.nestingRoom))
  | number : p.cursor.current.isNumber = true → Production p Parse.scalar

/-- Every production has a sound script. -/
theorem Production.exists_script {α : Type} {p : Parser} {step : Parse α}
    (h : p.Production step) : ∃ s : Script α, s.run = step ∧ ∃ P k, s.Sound p P k := by
  have hfactor := Script.factor_sound p.nestingRoom
  have htensor := Script.tensor_sound p.nestingRoom
  have hinner : (Script.inner p.nestingRoom).map Script.run = Grammar.inner p.nestingRoom := by
    cases p.nestingRoom with
    | zero => rfl
    | succ room => exact congrArg some (Script.run_factor room)
  cases h with
  | unit => exact ⟨_, Script.run_unit, _, _, Script.unit_sound 0 p⟩
  | block => exact ⟨_, Script.run_block, _, _, Script.block_sound 0 p⟩
  | declaration => exact ⟨_, Script.run_declaration, _, _, Script.declaration_sound 0 p⟩
  | valueType => exact ⟨_, Script.run_valueType, HasRoom 0, _, Script.valueType_sound p⟩
  | initializer => exact ⟨_, Script.run_initializer, _, _, Script.initializer_sound 0 p⟩
  | expression =>
    refine ⟨_, ?_, _, _, Script.expression_sound hfactor p⟩
    rw [Script.run_expression, Script.run_factor]
  | term =>
    refine ⟨Script.term _, ?_, _, _, Script.level_sound hfactor (by decide) p⟩
    rw [Script.term, Script.run_level, Script.run_factor]
    rfl
  | factor => exact ⟨_, Script.run_factor _, _, _, hfactor p⟩
  | primary =>
    refine ⟨_, ?_, _, _, Script.primary_sound (Script.inner_sound _) htensor⟩
    rw [Script.run_primary, hinner, Script.run_tensor]
  | tensor => exact ⟨_, Script.run_tensor _, _, _, htensor p⟩
  | element =>
    refine ⟨_, ?_, _, _, Script.element_sound htensor p⟩
    rw [Script.run_element, Script.run_tensor]
  | number hnumber => exact ⟨_, Script.run_scalar, HasRoom 0, _, Script.scalar_sound hnumber⟩

end Parser

/-- Nesting and height never pass their limits and never go below zero. However often
a parser on a source has been called, and whatever the calls gave, at every act of the
next call both counters are inside their limits, and the act finds them where it needs
them: they are lowered only where they have been raised, and a limit is reported
exactly where its counter stands at it. Every production leaves both counters as they
were when it succeeds, and none of them lower when it fails. -/
theorem counters_stay_in_bounds {source : String} {n : Nat} {p : Parser}
    (h : p.Reached source n) :
    Script.unit.run = Parse.unit ∧
    (∀ v ∈ Script.unit.visits p, v.2.InBounds ∧ v.1.Fits v.2) ∧
    p.unit.2.InBounds ∧
    ∀ q : Parser, q.InBounds → ∀ {α : Type} (step : Parse α), q.Production step →
      (∀ a r, step q = .ok a r → r.nesting = q.nesting ∧ r.height = q.height) ∧
      ∀ e r, step q = .error e r → q.nesting ≤ r.nesting ∧ q.height ≤ r.height := by
  have hfits := (Script.unit_sound _ p).fits h.inBounds.hasRoom
  obtain ⟨hvisits, hafter⟩ := h.inBounds.visits hfits
  refine ⟨Script.run_unit, fun v hv => ⟨hvisits v hv, hfits v hv⟩, ?_, ?_⟩
  · rwa [Parser.unit_snd]
  · intro q _ α step hstep
    obtain ⟨s, rfl, P, k, hs⟩ := hstep.exists_script
    refine ⟨fun a r hr => Prod.mk.inj (hs.ok a r hr).counters, fun e r hr => ?_⟩
    exact ⟨(hs.error e r hr).nesting, (hs.error e r hr).height⟩

/-- A call that fails inside two parentheses leaves both counters at two, and the next
one succeeds from there. -/
theorem counters_stay_in_bounds_leftover :
    ∃ p, Parser.ofText "let int a = ((let int b = (2);" = .ok p ∧
      p.unit.1.toBool = false ∧ p.unit.2.counters = (2, 2) ∧ p.unit.2.unit.1.toBool = true ∧
      (∀ v ∈ Script.unit.visits p.unit.2, v.2.InBounds ∧ v.1.Fits v.2) ∧
      p.unit.2.unit.2.InBounds := by
  obtain ⟨p, hp, hcalls⟩ := exists_ok_of_any
    (x := Parser.ofText "let int a = ((let int b = (2);")
    (p := fun p => p.unit.1.toBool = false ∧ p.unit.2.counters = (2, 2) ∧
      p.unit.2.unit.1.toBool = true) (by decide +kernel)
  obtain ⟨hfirst, hcounters, hsecond⟩ := of_decide_eq_true hcalls
  obtain ⟨-, hvisits, hafter, -⟩ := counters_stay_in_bounds (.call (.start hp))
  exact ⟨p, hp, hfirst, hcounters, hsecond, hvisits, hafter⟩

end TensorLet
