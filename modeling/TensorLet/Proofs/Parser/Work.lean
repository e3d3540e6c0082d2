import Mathlib.Logic.Function.Iterate
import TensorLet.Proofs.Parser.Counters
import TensorLet.Proofs.Parser.Progress
import TensorLet.Proofs.Token.Layout

/-!
# A call ends after bounded work

The end of a source can be looked at again and again, and a lexical error leaves the
cursor on its token. So that a call ends does not follow from its loops alone. It
follows from what is left of the source: a parser takes tokens only where there are
some, each of them uses up a part of what is left, and no loop and no bracket is gone
through without one.

* `Script.cursor_after`: behind a script the cursor has moved on as often as the script
  has taken a token.
* `Script.Round`: the rounds of the loops, and the ways through a bracket or sign.
* `exists_unscanned`: what is pending is no more than the characters not yet scanned.
* `work_is_bounded`: the tokens taken by a call are no more than these and one.
-/

namespace TensorLet

/-! ## Counting tokens -/

namespace Script

variable {α β : Type}

/-- Behind a script the cursor has moved on as often as the script has taken a
token. -/
theorem cursor_after (s : Script α) : ∀ p : Parser,
    (s.after p).cursor = (fun c : Cursor => c.advance.2)^[s.advances p] p.cursor := by
  induction s with
  | done a => exact fun p => rfl
  | stop e => exact fun p => rfl
  | look next ih => exact fun p => ih p.silent p
  | act a next ih =>
    intro p
    have hcursor := a.cursor_after p
    rw [after, Parser.run, run_act, advances_act]
    cases hrun : a.run p with
    | ok _ q =>
      rw [Act.after_of_ok hrun] at hcursor
      have hafter := ih q
      rw [hcursor] at hafter
      split at hafter
      next ha =>
        rw [if_pos ha, Nat.add_comm, Function.iterate_succ_apply]
        exact hafter
      next ha =>
        rw [if_neg ha, Nat.zero_add]
        exact hafter
    | error e q =>
      rw [Act.after_of_error hrun] at hcursor
      rw [Nat.add_zero]
      split at hcursor
      next ha => rw [if_pos ha]; exact hcursor
      next ha => rw [if_neg ha]; exact hcursor

theorem one_le_advances_advance {f : Token → Script β} (p : Parser) :
    1 ≤ (advance >>= f).advances p := by
  rw [advances, visits_bind, visits_advance, List.countP_append]
  exact Nat.le_add_right 1 _

/-! ## Rounds -/

/-- One round of a loop, or one way through a bracket or sign. -/
inductive Round : {α : Type} → Script α → Prop
  | statement : Round declaration
  | sum (op : BinOp) (left : Expr) (room : Nat) : Round (link op left (term (factor room)))
  | product (op : BinOp) (left : Expr) (room : Nat) : Round (link op left (factor room))
  | element (room : Nat) : Round (element (tensor room))
  | parentheses (room : Nat) : Round (parenthesized (inner room))
  | sign (op : UnaryOp) (room : Nat) : Round (signed op (inner room))
  | braces (room : Nat) : Round (tensor room)

/-- No round is completed without a token. -/
theorem Round.one_le_advances {s : Script α} (h : s.Round) {p q : Parser} {a : α}
    (hrun : s.run p = .ok a q) : 1 ≤ s.advances p := by
  cases h with
  | statement => exact (declaration_sound 0 p).takes a q hrun
  | element room => exact (element_sound (tensor_sound room) p).takes a q hrun
  | braces room => exact (tensor_sound room p).takes a q hrun
  | sum | product | parentheses | sign => exact one_le_advances_advance p

end Script

/-! ## What is not yet scanned -/

namespace Cursor

theorem afterScans_add (source : String) (n k : Nat) :
    afterScans source (n + k) = (fun c : Cursor => c.advance.2)^[k] (afterScans source n) := by
  induction k with
  | zero => rfl
  | succ k ih => rw [Function.iterate_succ_apply', ← ih, ← Nat.add_assoc, afterScans]

end Cursor

/-- The cursor of a parser stands where its scans have brought it. -/
theorem Parser.Reached.cursor_eq {source : String} {n : Nat} {p : Parser}
    (h : p.Reached source n) : p.cursor = Cursor.afterScans source n := by
  induction h with
  | start hp =>
    unfold Parser.ofText at hp
    obtain ⟨c, hc, hpure⟩ := except_bind_eq_ok.mp hp
    cases hpure
    unfold Cursor.ofText Cursor.ofScan at hc
    split at hc
    next hadvance =>
      cases hc
      exact (congrArg Prod.snd hadvance).symm
    next => cases hc
  | silent _ ih => exact ih
  | call _ ih => rw [Parser.unit_snd, Script.cursor_after, ih, Cursor.afterScans_add]

/-- Behind its first items a text is laid out as they leave it. -/
theorem Layout.exists_rest {offset : Nat} {cs : List Char} {items : List (Except Error Token)}
    (H : Layout offset cs items) : ∀ n, n ≤ items.length → ∃ before rest, before ++ rest = cs ∧
      stopBefore offset items n = offset + byteLength before ∧
      Layout (offset + byteLength before) rest (items.drop n) := by
  induction H with
  | @done offset gap hgap =>
    intro n hn
    cases Nat.le_zero.mp hn
    exact ⟨[], gap, rfl, rfl, .done hgap⟩
  | @piece offset gap text rest item items hgap hne hreports hrest ih =>
    intro n hn
    cases n with
    | zero => exact ⟨[], _, rfl, rfl, .piece hgap hne hreports hrest⟩
    | succ n =>
      obtain ⟨before, rest', rfl, hstop, hlayout⟩ := ih n (Nat.le_of_succ_le_succ hn)
      have hoffset : offset + byteLength gap + byteLength text + byteLength before =
          offset + byteLength (gap ++ (text ++ before)) := by
        simp only [byteLength_append]
        omega
      refine ⟨gap ++ (text ++ before), rest', ?_, ?_, ?_⟩
      · simp only [List.append_assoc]
      · rw [stopBefore, hreports.span, hstop, hoffset]
      · rwa [List.drop_succ_cons, ← hoffset]

/-- After `n` scans, no more pieces are pending than characters stand behind the last
one that was scanned. -/
theorem exists_unscanned (source : String) (n : Nat) :
    ∃ rest, dropBytes (gapStart source n) source.toList = some rest ∧
      (Cursor.afterScans source n).pending.length ≤ rest.length := by
  rw [(Cursor.afterScans_eq source n).1]
  by_cases hn : n ≤ (Scan.ofText source).items.length
  · obtain ⟨before, rest, hsource, hstop, hlayout⟩ :=
      (scanFrom_layout 0 source.toList).exists_rest n hn
    refine ⟨rest, ?_, hlayout.length_le⟩
    have hstart : gapStart source n = byteLength before := by
      rw [gapStart_eq source n hn, ← Nat.zero_add (byteLength before)]
      exact hstop
    rw [hstart, ← hsource, dropBytes_byteLength]
  · -- The end of the source has been scanned.
    obtain ⟨m, rfl⟩ : ∃ m, n = m + 1 := ⟨n - 1, by omega⟩
    refine ⟨[], ?_, ?_⟩
    · have hspan : spanAt source m = ⟨byteLength source.toList, byteLength source.toList⟩ := by
        rw [spanAt, scanAt_of_length_le (by omega)]
        rfl
      have hend := dropBytes_byteLength source.toList []
      rw [List.append_nil] at hend
      rw [gapStart, hspan, hend]
    · rw [List.drop_eq_nil_of_le (by omega)]
      exact Nat.zero_le _

/-- A call always ends after bounded work. However often a parser on a source has been
called, and whatever the calls gave, the next call never takes the end of the source,
and takes no more tokens than there are characters behind what has been scanned, and
one. No round of a loop and no way through a bracket or sign is completed without
taking a token, and the bounds on the two loops that read declarations and elements
are never what ends them. -/
theorem work_is_bounded {source : String} {n : Nat} {p : Parser} (h : p.Reached source n) :
    Script.unit.run = Parse.unit ∧
    (∀ v ∈ Script.unit.visits p, v.1 = .advance → v.2.cursor.current.isEnd = false) ∧
    (∃ rest, dropBytes (gapStart source n) source.toList = some rest ∧
      Script.unit.advances p ≤ rest.length + 1) ∧
    (∀ {α : Type} (s : Script α), s.Round → ∀ q a q', s.run q = .ok a q' → 1 ≤ s.advances q) ∧
    ∀ (q : Parser) (bound : Nat),
      (q.cursor.pending.length + 1 ≤ bound →
        Parse.declarations bound q = Parse.declarations (q.cursor.pending.length + 1) q) ∧
      ∀ room, q.cursor.pending.length ≤ bound →
        Parse.elements (Parse.tensor room) bound 0 q =
          Parse.elements (Parse.tensor room) q.cursor.pending.length 0 q := by
  have hends := (Script.unit_sound 0 p).isEnd_eq_false
  refine ⟨Script.run_unit, hends, ?_, ?_, ?_⟩
  · obtain ⟨rest, hrest, hpending⟩ := exists_unscanned source n
    refine ⟨rest, hrest, ?_⟩
    have htaken := Script.unit.advances_add_left_le p hends
    have hleft := p.cursor.left_le
    rw [← h.cursor_eq] at hpending
    omega
  · exact fun s hs q a q' hrun => hs.one_le_advances hrun
  · intro q bound
    have hleft := q.cursor.left_le
    refine ⟨fun hbound => ?_, fun room hbound => ?_⟩
    · exact (Parse.declarations_eq_of_left_le _ bound q hleft hbound).symm
    · exact (Parse.elements_eq_of_left_le room _ bound 0 q hleft hbound).symm

/-- A lexical error ends the first call after one token. The second one goes on behind
it, with fifteen characters to scan. -/
theorem work_is_bounded_recovery :
    ∃ p, Parser.ofText "let $ let int b = 2;" = .ok p ∧ p.unit.1.toBool = false ∧
      Script.unit.advances p = 1 ∧
      (∀ v ∈ Script.unit.visits p.unit.2, v.1 = .advance → v.2.cursor.current.isEnd = false) ∧
      Script.unit.advances p.unit.2 ≤ 16 := by
  obtain ⟨p, hp, hcall⟩ := exists_ok_of_any (x := Parser.ofText "let $ let int b = 2;")
    (p := fun p => p.unit.1.toBool = false ∧ Script.unit.advances p = 1) (by decide +kernel)
  obtain ⟨hfails, hadvances⟩ := of_decide_eq_true hcall
  obtain ⟨-, hends, ⟨rest, hrest, hle⟩, -⟩ := work_is_bounded (.call (.start hp))
  rw [hadvances] at hrest
  have hlength : (dropBytes (gapStart "let $ let int b = 2;" (1 + 1))
      "let $ let int b = 2;".toList).map List.length = some 15 := by decide +kernel
  rw [hrest, Option.map_some, Option.some.injEq] at hlength
  rw [hlength] at hle
  exact ⟨p, hp, hfails, hadvances, hends, hle⟩

end TensorLet
