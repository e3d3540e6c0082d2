import Mathlib.Tactic.Choose
import TensorLet.Proofs.Parser.Moves

/-!
# Steps go forward

A parser step that has a script, whether it succeeds or fails, never leaves more of
its source than it found, and a sound one uses up some of it when it takes a token.
Two loops of the parser go by a bound that is taken from the length of the source;
since every round uses up a part of the source, the bound is never what ends them.

* `Script.advances_add_left_le`: a script that never takes the end takes no more tokens
  than are left.
* `Script.Sound.left_lt`: where a token is taken, less is left.
* `Parse.Scripted`: the steps that have a script, which every step of the parser is.
* `Parse.Scripted.left_run_le`: no such step moves back.
* `elements_eq_of_left_le`, `declarations_eq_of_left_le`: a larger bound on
  elements or declarations changes nothing.
-/

namespace TensorLet

/-! ## What is left of a source -/

namespace Cursor

/-- How much is left to take: the pending pieces, and the current token unless
it is the end. -/
def left (c : Cursor) : Nat := c.pending.length + if c.current.isEnd then 0 else 1

theorem left_le (c : Cursor) : c.left ≤ c.pending.length + 1 := by
  unfold left
  split <;> omega

theorem isEnd_of_left_eq_zero {c : Cursor} (h : c.left = 0) : c.current.isEnd = true := by
  by_contra hne
  simp [left, hne] at h

/-- Taking a token that is not the end leaves less. -/
theorem left_advance_lt {c : Cursor} (h : c.current.isEnd = false) : c.advance.2.left < c.left := by
  rcases c with ⟨t, pending, size⟩
  simp only at h
  cases pending with
  | nil => simp [advance, left, h]
  | cons item rest =>
    cases item with
    | ok next =>
      cases hn : next.isEnd with
      | false => simp [advance, left, h, hn]
      | true =>
        simp only [advance, left, h, hn, List.length_cons, if_true]
        omega
    | error e => simp [advance, left, h]

theorem left_advance_le (c : Cursor) : c.advance.2.left ≤ c.left := by
  cases hc : c.current.isEnd with
  | false => exact Nat.le_of_lt (left_advance_lt hc)
  | true =>
    rcases c with ⟨t, pending, size⟩
    simp only at hc
    cases pending with
    | nil => simp [advance, left]
    | cons item rest =>
      cases item with
      | ok next => cases hn : next.isEnd <;> simp [advance, left, hc, hn]
      | error e => simp [advance, left, hc]

end Cursor

/-- Taking a token that is not the end leaves less, and nothing else moves the
cursor. -/
theorem Act.taken_add_left_le (a : Act) {p : Parser}
    (h : a = .advance → p.cursor.current.isEnd = false) :
    (if a = .advance then 1 else 0) + (a.after p).cursor.left ≤ p.cursor.left := by
  rw [Act.cursor_after]
  split
  next ha =>
    have hlt := Cursor.left_advance_lt (h ha)
    omega
  next => exact Nat.le_of_eq (Nat.zero_add _)

/-- No act moves back. -/
theorem Act.left_after_le (a : Act) (p : Parser) :
    (a.after p).cursor.left ≤ p.cursor.left := by
  rw [Act.cursor_after]
  split
  · exact Cursor.left_advance_le p.cursor
  · exact Nat.le_refl _

namespace Script

variable {α : Type}

theorem advances_act (a : Act) (next : Script α) (p : Parser) :
    (act a next).advances p = (if a = .advance then 1 else 0) +
      match a.run p with
      | .ok _ q => next.advances q
      | .error _ _ => 0 := by
  rw [advances, visits, List.countP_cons, Nat.add_comm]
  simp only [decide_eq_true_eq]
  congr 1
  cases a.run p <;> rfl

/-- A script that never takes the end takes no more tokens than are left. -/
theorem advances_add_left_le (s : Script α) : ∀ p : Parser,
    (∀ v ∈ s.visits p, v.1 = .advance → v.2.cursor.current.isEnd = false) →
    s.advances p + (s.after p).cursor.left ≤ p.cursor.left := by
  induction s with
  | done a => exact fun p _ => Nat.le_of_eq (Nat.zero_add _)
  | stop e => exact fun p _ => Nat.le_of_eq (Nat.zero_add _)
  | look next ih => exact fun p => ih p.silent p
  | act a next ih =>
    intro p hfits
    rw [visits, List.forall_mem_cons] at hfits
    have hact := a.taken_add_left_le hfits.1
    rw [after, Parser.run, run_act, advances_act]
    cases hrun : a.run p with
    | ok _ q =>
      rw [hrun] at hfits
      rw [Act.after_of_ok hrun] at hact
      have hnext : next.advances q + (next.after q).cursor.left ≤ q.cursor.left := ih q hfits.2
      calc _ = (if a = .advance then 1 else 0) + (next.advances q + (next.after q).cursor.left) :=
            Nat.add_assoc _ _ _
        _ ≤ (if a = .advance then 1 else 0) + q.cursor.left := Nat.add_le_add_left hnext _
        _ ≤ p.cursor.left := hact
    | error e q =>
      rw [Act.after_of_error hrun] at hact
      exact hact

/-- Where a token is taken, less is left. -/
theorem Sound.left_lt {s : Script α} {p q : Parser} {P : Nat × Nat → Prop} {a : α}
    (hs : s.Sound p P 1) (hrun : s.run p = .ok a q) : q.cursor.left < p.cursor.left := by
  have hle := s.advances_add_left_le p hs.isEnd_eq_false
  have htakes := hs.takes a q hrun
  rw [after_of_ok hrun] at hle
  omega

/-- No script moves back, whether or not it succeeds. -/
theorem left_after_le (s : Script α) (p : Parser) : (s.after p).cursor.left ≤ p.cursor.left := by
  refine (s.forall_visits_after (P := fun q => q.cursor.left ≤ p.cursor.left)
    (Nat.le_refl _) fun v _ hle => ?_).2
  exact Nat.le_trans (v.1.left_after_le v.2) hle

end Script

/-! ## Steps with a script -/

namespace Parse

variable {α β : Type}

/-- A step that a script describes. -/
class Scripted (step : Parse α) : Prop where
  exists_script : ∃ s : Script α, s.run = step

namespace Scripted

variable {x y : Parse α}

instance pure (a : α) : Scripted (Pure.pure a : Parse α) := ⟨_, Script.run_pure a⟩
instance throw (e : Error) : Scripted (MonadExcept.throw e : Parse α) := ⟨_, Script.run_stop e⟩
instance current : Scripted current := ⟨_, Script.run_current⟩
instance advance : Scripted advance := ⟨_, Script.run_advance⟩
instance unexpected (e : Expectation) : Scripted (unexpected e : Parse α) :=
  ⟨_, Script.run_unexpected e⟩
instance expect (test : Token → Bool) (e : Expectation) : Scripted (expect test e) :=
  ⟨_, Script.run_expect test e⟩
instance expectSymbol (c : Char) : Scripted (expectSymbol c) := Scripted.expect _ _
instance expectIdentifier : Scripted expectIdentifier := Scripted.expect _ _

theorem act (a : Act) : Scripted a.run := ⟨_, Script.run_one a⟩

instance closeTag (tag : String) : Scripted (closeTag tag) := act (.closeTag tag)
instance define (name : String) (type : ValueType) (storage : Storage) :
    Scripted (define name type storage) := act (.define name type storage)
instance grow : Scripted grow := act .grow
instance shrink : Scripted shrink := act .shrink
instance leave : Scripted leave := act .leave

instance bind {f : α → Parse β} [hx : Scripted x] [hf : ∀ a, Scripted (f a)] :
    Scripted (x >>= f) := by
  obtain ⟨s, rfl⟩ := hx.exists_script
  choose t ht using fun a => (hf a).exists_script
  refine ⟨s >>= t, ?_⟩
  rw [Script.run_bind]
  exact congrArg _ (funext ht)

instance ite {c : Prop} [Decidable c] [Scripted x] [Scripted y] :
    Scripted (if c then x else y) := by
  split <;> infer_instance

/-- What is looked up in the parser is not its trace. -/
theorem get {f : Parser → Parse α} (hf : ∀ p : Parser, f p.silent = f p)
    [h : ∀ p, Scripted (f p)] : Scripted (MonadState.get >>= f) := by
  choose s hs using fun p => (h p).exists_script
  refine ⟨.look s, ?_⟩
  funext p
  show (s p.silent).run p = f p p
  rw [hs, hf]

/-- Whatever its outcome, a step with a script does not move back. -/
theorem left_run_le (step : Parse α) [h : Scripted step] (p : Parser) :
    (p.run step).2.cursor.left ≤ p.cursor.left := by
  obtain ⟨s, rfl⟩ := h.exists_script
  exact s.left_after_le p

theorem descend {inside : Option (Parse α)} (h : ∀ step ∈ inside, Scripted step) (span : Span) :
    Scripted (Parse.descend span inside) := by
  cases inside with
  | none => exact Scripted.throw _
  | some step =>
    obtain ⟨s, rfl⟩ := (h step rfl).exists_script
    exact ⟨_, Script.run_descend span (some s)⟩

end Scripted

instance scalar_scripted : Scripted scalar := ⟨_, Script.run_scalar⟩

section

variable {nested : Parse Tensor} {operand : Parse Expr}

instance elements_scripted [h : Scripted nested] (bound index : Nat) :
    Scripted (elements nested bound index) := by
  obtain ⟨s, rfl⟩ := h.exists_script
  exact ⟨_, Script.run_elements s bound index⟩

instance optionalElements_scripted [h : Scripted nested] : Scripted (optionalElements nested) := by
  obtain ⟨s, rfl⟩ := h.exists_script
  exact ⟨_, Script.run_optionalElements s⟩

instance braces_scripted [h : Scripted nested] : Scripted (braces nested) := by
  obtain ⟨s, rfl⟩ := h.exists_script
  exact ⟨_, Script.run_braces s⟩

instance tensor_scripted (room : Nat) : Scripted (tensor room) := ⟨_, Script.run_tensor room⟩

instance chain_scripted [h : Scripted operand] (ops : List BinOp) (room : Nat) (left : Expr) :
    Scripted (chain ops operand room left) := by
  obtain ⟨s, rfl⟩ := h.exists_script
  exact ⟨_, Script.run_chain ops s room left⟩

instance level_scripted [h : Scripted operand] (tag : String) (ops : List BinOp) :
    Scripted (level tag ops operand) := by
  obtain ⟨s, rfl⟩ := h.exists_script
  exact ⟨_, Script.run_level tag ops s⟩

instance term_scripted [Scripted operand] : Scripted (term operand) := level_scripted _ _
instance expression_scripted [Scripted operand] : Scripted (expression operand) :=
  level_scripted _ _

end

instance factor_scripted (room : Nat) : Scripted (factor room) := ⟨_, Script.run_factor room⟩
instance valueType_scripted : Scripted valueType := ⟨_, Script.run_valueType⟩
instance initializer_scripted : Scripted initializer := ⟨_, Script.run_initializer⟩
instance declarations_scripted (bound : Nat) : Scripted (declarations bound) :=
  ⟨_, Script.run_declarations bound⟩

/-! ## Bounds of loops -/

theorem element_left_lt {room : Nat} {p q : Parser} {e : Option Tensor}
    (h : element (tensor room) p = .ok e q) : q.cursor.left < p.cursor.left := by
  rw [← Script.run_tensor, ← Script.run_element] at h
  exact (Script.element_sound (Script.tensor_sound room) p).left_lt h

theorem declaration_left_lt {p q : Parser} {d : Declaration} (h : declaration p = .ok d q) :
    q.cursor.left < p.cursor.left := by
  rw [← Script.run_declaration] at h
  exact (Script.declaration_sound 0 p).left_lt h

/-- An element uses up a piece, so where no more than the bound allows for is
left, no more than the bound is read. -/
theorem elements_eq_of_left_le (room : Nat) : ∀ (bound bound' index : Nat) (p : Parser),
    p.cursor.left ≤ bound + 1 → bound ≤ bound' →
      elements (tensor room) bound index p = elements (tensor room) bound' index p := by
  intro bound
  induction bound with
  | zero =>
    intro bound' index p hleft _
    cases bound' with
    | zero => rfl
    | succ bound' =>
      refine bind_congr rfl fun e q he => ?_
      have hq := element_left_lt he
      have hend := Cursor.isEnd_of_left_eq_zero (show q.cursor.left = 0 by omega)
      simp only [Token.isEnd, decide_eq_true_eq] at hend
      rw [current_bind, if_neg (by simp [Token.isSymbol, hend])]
  | succ bound ih =>
    intro bound' index p hleft hbound
    cases bound' with
    | zero => omega
    | succ bound' =>
      refine bind_congr rfl fun e q he => ?_
      have hq := element_left_lt he
      rw [current_bind, current_bind]
      split
      · refine bind_congr rfl fun comma q' hq' => ?_
        have hle := Scripted.left_run_le advance q
        rw [Parser.run, hq'] at hle
        change q'.cursor.left ≤ q.cursor.left at hle
        exact bind_congr (ih bound' (index + 1) q' (by omega) (by omega)) fun _ _ _ => rfl
      · rfl

/-- A declaration uses up a piece, so where no more than the bound allows for is
left, no more than the bound is read. -/
theorem declarations_eq_of_left_le : ∀ (bound bound' : Nat) (p : Parser),
    p.cursor.left ≤ bound → bound ≤ bound' → declarations bound p = declarations bound' p := by
  intro bound
  induction bound with
  | zero =>
    intro bound' p hleft _
    cases bound' with
    | zero => rfl
    | succ bound' =>
      have hend := Cursor.isEnd_of_left_eq_zero (Nat.le_zero.mp hleft)
      simp only [Token.isEnd, decide_eq_true_eq] at hend
      rw [declarations, declarations, current_bind, if_neg (by simp [Token.isKeyword, hend])]
  | succ bound ih =>
    intro bound' p hleft hbound
    cases bound' with
    | zero => omega
    | succ bound' =>
      rw [declarations, declarations, current_bind, current_bind]
      split
      · refine bind_congr rfl fun d q hd => ?_
        have hlt := declaration_left_lt hd
        exact bind_congr (ih bound' q (by omega) (by omega)) fun _ _ _ => rfl
      · rfl

end Parse

end TensorLet
