import TensorLet.Proofs.Parser.Completeness
import TensorLet.Proofs.Unparse

/-!
# Steps that only a limit stops

On a text that is written correctly a parser can fail in one way only: the limits
on nesting and height stop it. Where the tokens at the cursor have known words,
both outcomes are known, and so is which of them it is.

* `c.Spells ws c'`: the tokens from `c` up to `c'` have the words `ws`.
* `Standing`: where a parser stands, its cursor with its nesting and height.
* `step.Settles s s' fits R`: from where `s` is, the step succeeds where `s'` is
  with a value of `R` if `fits` holds, and one of the limits stops it otherwise.

What a sequence of steps needs is what its parts need, so each rule tells what
`fits` is for a way of combining steps.
-/

namespace TensorLet

/-! ## Words at a cursor -/

namespace Cursor

/-- The tokens from `c` up to `c'` have the words `ws`. -/
def Spells (c : Cursor) (ws : List Word) (c' : Cursor) : Prop :=
  ∃ ts, c.Reads ts c' ∧ ts.map Token.word = ws

variable {c c' : Cursor} {ws vs : List Word} {w : Word}

theorem spells_nil : c.Spells [] c' ↔ c = c' := by
  constructor
  · rintro ⟨ts, hts, hwords⟩
    rw [List.map_eq_nil_iff.mp hwords] at hts
    exact hts
  · rintro rfl
    exact ⟨[], rfl, rfl⟩

theorem spells_append : c.Spells (ws ++ vs) c' ↔ ∃ c₁, c.Spells ws c₁ ∧ c₁.Spells vs c' := by
  constructor
  · rintro ⟨ts, hts, hwords⟩
    obtain ⟨us, us', rfl, rfl, rfl⟩ := List.map_eq_append_iff.mp hwords
    obtain ⟨c₁, h₁, h₂⟩ := reads_append.mp hts
    exact ⟨c₁, ⟨us, h₁, rfl⟩, us', h₂, rfl⟩
  · rintro ⟨c₁, ⟨us, h₁, rfl⟩, us', h₂, rfl⟩
    exact ⟨us ++ us', reads_append.mpr ⟨c₁, h₁, h₂⟩, List.map_append⟩

theorem spells_singleton : c.Spells [w] c' ↔ ∃ t, c.Reads [t] c' ∧ t.word = w := by
  constructor
  · rintro ⟨ts, hts, hwords⟩
    obtain ⟨t, rfl, ht⟩ := List.map_eq_singleton_iff.mp hwords
    exact ⟨t, hts, ht⟩
  · rintro ⟨t, ht, rfl⟩
    exact ⟨[t], ht, rfl⟩

theorem spells_cons :
    c.Spells (w :: ws) c' ↔ ∃ t c₁, c.Reads [t] c₁ ∧ t.word = w ∧ c₁.Spells ws c' := by
  rw [← List.singleton_append, spells_append]
  simp only [spells_singleton]
  constructor
  · rintro ⟨c₁, ⟨t, ht, hw⟩, h⟩
    exact ⟨t, c₁, ht, hw, h⟩
  · rintro ⟨t, c₁, ht, hw, h⟩
    exact ⟨c₁, ⟨t, ht, hw⟩, h⟩

/-- Each word is the current one or uses up a pending piece. -/
theorem Spells.length_le (h : c.Spells ws c') : ws.length ≤ c.pending.length + 1 := by
  obtain ⟨ts, hts, rfl⟩ := h
  rw [List.length_map]
  exact hts.length_le

end Cursor

/-! ## Where a parser stands -/

/-- True of the faults of the two limits. -/
def Fault.IsTooDeep (f : Fault) : Prop := f = .nestingTooDeep ∨ f = .expressionTooDeep

/-- What decides the outcome of a step at known words: the cursor, and how deep
and how high the parser is. -/
structure Standing where
  cursor : Cursor
  nesting : Nat
  height : Nat

/-- Where a parser stands. -/
def Parser.standing (p : Parser) : Standing := ⟨p.cursor, p.nesting, p.height⟩

namespace Parse

variable {α β : Type}

/-- Every parser that stands at `s` succeeds at `s'` with a value of `R` if `fits`
holds, and is stopped by a limit otherwise. -/
def Settles (step : Parse α) (s s' : Standing) (fits : Prop) (R : α → Prop) : Prop :=
  ∀ p : Parser, p.standing = s →
    (fits ∧ ∃ a p', step p = .ok a p' ∧ p'.standing = s' ∧ R a) ∨
    ¬fits ∧ ∃ e p', step p = .error e p' ∧ e.fault.IsTooDeep

namespace Settles

variable {s s₁ s' : Standing} {x : Parse α} {f : α → Parse β} {R : α → Prop} {S : β → Prop}
  {F G : Prop}

theorem of_iff (h : x.Settles s s' F R) (hiff : F ↔ G) : x.Settles s s' G R := by
  rwa [propext hiff] at h

theorem pure {a : α} (ha : R a) : (Pure.pure a : Parse α).Settles s s True R :=
  fun p hp => .inl ⟨trivial, a, p, rfl, hp, ha⟩

theorem throw {e : Error} (he : e.fault.IsTooDeep) :
    (MonadExcept.throw e : Parse α).Settles s s' False R :=
  fun p _ => .inr ⟨id, e, p, rfl, he⟩

theorem bind (hx : x.Settles s s₁ F R) (hf : ∀ a, R a → (f a).Settles s₁ s' G S) :
    (x >>= f).Settles s s' (F ∧ G) S := by
  intro p hp
  rcases hx p hp with ⟨hF, a, p', hxa, hp', ha⟩ | ⟨hF, e, p', hxe, he⟩
  · rcases hf a ha p' hp' with ⟨hG, b, p'', hfb, hp'', hb⟩ | ⟨hG, e, p'', hfe, he⟩
    · exact .inl ⟨⟨hF, hG⟩, b, p'', bind_eq_ok.mpr ⟨a, p', hxa, hfb⟩, hp'', hb⟩
    · exact .inr ⟨fun h => hG h.2, e, p'', bind_eq_error.mpr (.inr ⟨a, p', hxa, hfe⟩), he⟩
  · exact .inr ⟨fun h => hF h.1, e, p', bind_eq_error.mpr (.inl hxe), he⟩

/-- Behind a step that always succeeds, the rest decides. -/
theorem after (hx : x.Settles s s₁ True R) (hf : ∀ a, R a → (f a).Settles s₁ s' F S) :
    (x >>= f).Settles s s' F S :=
  (bind hx hf).of_iff (iff_of_eq (true_and F))

/-- Before a step that always succeeds, the start decides. -/
theorem before (hx : x.Settles s s₁ F R) (hf : ∀ a, R a → (f a).Settles s₁ s' True S) :
    (x >>= f).Settles s s' F S :=
  (bind hx hf).of_iff (iff_of_eq (and_true F))

theorem current {f : Token → Parse α} (h : (f s.cursor.current).Settles s s' F R) :
    (Parse.current >>= f).Settles s s' F R := by
  rintro p rfl
  exact h p rfl

theorem get {f : Parser → Parse α} (h : ∀ p : Parser, p.standing = s → (f p).Settles s s' F R) :
    (MonadState.get >>= f).Settles s s' F R :=
  fun p hp => h p hp p hp

/-- A step that gives nothing always succeeds when it only moves the parser. -/
theorem skip {step : Parse Unit} {f : Unit → Parse β}
    (hstep : ∀ p : Parser, p.standing = s → ∃ p', step p = .ok () p' ∧ p'.standing = s₁)
    (h : (f ()).Settles s₁ s' F S) : (step >>= f).Settles s s' F S := by
  refine after (R := fun _ => True) (fun p hp => ?_) fun _ _ => h
  obtain ⟨p', hok, hp'⟩ := hstep p hp
  exact .inl ⟨trivial, (), p', hok, hp', trivial⟩

theorem tagged {tag : String} (h : x.Settles s s' F R) : (Parse.tagged tag x).Settles s s' F R := by
  refine skip (fun p hp => ⟨_, rfl, hp⟩) (before h fun a ha => ?_)
  exact skip (fun p hp => ⟨_, rfl, hp⟩) (pure ha)

section

variable {c c' : Cursor} {n h : Nat} {t : Token}

/-- A step that succeeds is stopped by no limit. -/
theorem of_gives (hx : ∀ p : Parser, p.cursor = c → ∃ a, x.Gives p c' a ∧ R a) :
    x.Settles ⟨c, n, h⟩ ⟨c', n, h⟩ True R := by
  intro p hp
  obtain ⟨hcursor, hnesting, hheight⟩ := Standing.mk.inj hp
  obtain ⟨a, ⟨o, hok⟩, ha⟩ := hx p hcursor
  exact .inl ⟨trivial, a, _, hok, by rw [Parser.standing, ← hnesting, ← hheight]; rfl, ha⟩

theorem advance (hreads : c.Reads [t] c') :
    Parse.advance.Settles ⟨c, n, h⟩ ⟨c', n, h⟩ True (· = t) := by
  refine of_gives fun p hp => ?_
  rw [← hp] at hreads
  exact ⟨t, Gives.advance hreads, rfl⟩

theorem expectSymbol {d : Char} (hreads : c.Reads [t] c') (ht : t.word = .symbol d) :
    (Parse.expectSymbol d).Settles ⟨c, n, h⟩ ⟨c', n, h⟩ True (· = t) := by
  refine of_gives fun p hp => ?_
  rw [← hp] at hreads
  exact ⟨t, Gives.expectSymbol hreads (Token.isSymbol_of_word ht), rfl⟩

theorem grow {f : Unit → Parse β} (hf : (f ()).Settles ⟨c, n, h + 1⟩ s' F S) :
    (Parse.grow >>= f).Settles ⟨c, n, h⟩ s' F S := by
  refine skip (fun p hp => ⟨_, rfl, ?_⟩) hf
  obtain ⟨hcursor, hnesting, hheight⟩ := Standing.mk.inj hp
  simp only [Parser.standing, hcursor, hnesting, hheight]

theorem shrink {f : Unit → Parse β} (hf : (f ()).Settles ⟨c, n, h⟩ s' F S) :
    (Parse.shrink >>= f).Settles ⟨c, n, h + 1⟩ s' F S := by
  refine skip (fun p hp => ⟨_, rfl, ?_⟩) hf
  obtain ⟨hcursor, hnesting, hheight⟩ := Standing.mk.inj hp
  simp only [Parser.standing, hcursor, hnesting, hheight, Nat.add_sub_cancel]

theorem enter {span : Span} (hnesting : n < maxNesting) :
    (Parse.enter span).Settles ⟨c, n, h⟩ ⟨c, n + 1, h + 1⟩ (Grammar.Opens n h) fun _ => True := by
  intro p hp
  obtain ⟨rfl, rfl, rfl⟩ := Standing.mk.inj hp
  rw [enter_eq]
  by_cases hheight : p.height < maxHeight
  · rw [if_pos hheight]
    exact .inl ⟨⟨hnesting, hheight⟩, (), _, rfl, rfl, trivial⟩
  · rw [if_neg hheight]
    exact .inr ⟨fun hopens => hheight hopens.2, _, _, rfl, .inr rfl⟩

theorem leave {f : Unit → Parse β} (hf : (f ()).Settles ⟨c, n, h⟩ s' F S) :
    (Parse.leave >>= f).Settles ⟨c, n + 1, h + 1⟩ s' F S := by
  refine skip (fun p hp => ⟨_, rfl, ?_⟩) hf
  obtain ⟨hcursor, hnesting, hheight⟩ := Standing.mk.inj hp
  simp only [Parser.standing, hcursor, hnesting, hheight, Nat.add_sub_cancel]

/-- A bracket or sign needs room for itself and for what it holds. -/
theorem descend {inside : Option (Parse α)} {span : Span}
    (hroom : inside = none ↔ maxNesting ≤ n)
    (hinside : ∀ step ∈ inside, step.Settles ⟨c, n + 1, h + 1⟩ ⟨c', n + 1, h + 1⟩ F R) :
    (Parse.descend span inside).Settles ⟨c, n, h⟩ ⟨c', n, h⟩ (Grammar.Opens n h ∧ F) R := by
  cases inside with
  | none =>
    have hfull := hroom.mp rfl
    refine (throw (.inl rfl)).of_iff ⟨False.elim, fun hopens => ?_⟩
    exact Nat.not_lt.mpr hfull hopens.1.1
  | some step =>
    have hnesting : n < maxNesting := by
      by_contra hfull
      cases hroom.mpr (Nat.not_lt.mp hfull)
    refine bind (enter hnesting) fun _ _ => before (hinside step rfl) fun a ha => ?_
    exact leave (pure ha)

end

end Settles

end Parse

end TensorLet
