import TensorLet.Proofs.Parser.Limits
import TensorLet.Proofs.Tensor.Dense

/-!
# Literals are read back

The words of a sparse tensor literal are read as this literal, up to the forms of
its numbers, unless its braces nest too deeply.

* `Tensor.Fits`: the braces of a literal may nest as they do.
* `Tensor.slots`: the elements that a literal is written with, gaps included.
* `elements_settle`: elements with commas between them are read back.
* `tensor_settles`: literals are read back.
-/

namespace TensorLet

/-! ## Literals that the limits allow -/

instance (n h : Nat) : Decidable (Grammar.Opens n h) := inferInstanceAs (Decidable (_ ∧ _))

namespace Tensor

/-- The braces of the literal may nest where nesting is `n` and height `h`
already. -/
def Fits (t : Tensor) (n h : Nat) : Prop := ∀ k < t.depth, Grammar.Opens (n + k) (h + k)

instance (t : Tensor) (n h : Nat) : Decidable (t.Fits n h) :=
  inferInstanceAs (Decidable (∀ k < t.depth, Grammar.Opens (n + k) (h + k)))

theorem fits_leaf (scalar : Scalar) (n h : Nat) : (leaf scalar).Fits n h :=
  fun _ hk => absurd hk (Nat.not_lt_zero _)

theorem fits_node {extent : Nat} {entries : List (Nat × Tensor)} {n h : Nat} :
    (node extent entries).Fits n h ↔
      Grammar.Opens n h ∧ ∀ e ∈ entries, e.2.Fits (n + 1) (h + 1) := by
  constructor
  · intro hfits
    refine ⟨hfits 0 (by rw [depth]; omega), fun e he k hk => ?_⟩
    have hle := (maxDepth_le_iff entries).mp (Nat.le_refl _) e he
    have hopens := hfits (k + 1) (by rw [depth]; omega)
    rwa [← Nat.add_assoc, ← Nat.add_assoc, Nat.add_right_comm n, Nat.add_right_comm h] at hopens
  · rintro ⟨hopens, hentries⟩ k hk
    cases k with
    | zero => exact hopens
    | succ k =>
      rw [depth, Nat.add_comm 1, Nat.succ_lt_succ_iff] at hk
      -- Some element is as deep as the deepest one.
      obtain ⟨e, he, hdepth⟩ : ∃ e ∈ entries, k < e.2.depth := by
        by_contra hnone
        simp only [not_exists, not_and, Nat.not_lt] at hnone
        exact Nat.not_lt.mpr ((maxDepth_le_iff entries).mpr hnone) hk
      have hinner := hentries e he k hdepth
      rwa [Nat.add_right_comm n, Nat.add_right_comm h] at hinner

/-! ## The elements of a literal -/

/-- The elements of a literal from position `index` on, with nothing where a zero
is written. -/
def slots (extent : Nat) : Nat → List (Nat × Tensor) → List (Option Tensor)
  | index, [] => List.replicate (extent - index) none
  | index, (position, t) :: rest =>
    List.replicate (position - index) none ++ some t :: slots extent (position + 1) rest

/-- The words of an element. -/
def slotWords : Option Tensor → List Word
  | none => [.number (.ofBits 0)]
  | some t => t.words

theorem elementWords_eq (extent : Nat) (entries : List (Nat × Tensor)) : ∀ index,
    elementWords extent index entries = (slots extent index entries).map slotWords := by
  induction entries with
  | nil =>
    intro index
    rw [elementWords, slots, List.map_replicate]
    rfl
  | cons e entries ih =>
    obtain ⟨position, t⟩ := e
    intro index
    rw [elementWords, slots, List.map_append, List.map_replicate, List.map_cons, ih]
    rfl

/-- A literal is written with as many elements as its extent says. -/
theorem length_slots {extent : Nat} : ∀ {entries : List (Nat × Tensor)} {index : Nat},
    index ≤ extent → areSparse extent index entries = true →
      index + (slots extent index entries).length = extent := by
  intro entries
  induction entries with
  | nil =>
    intro index hle _
    rw [slots, List.length_replicate]
    omega
  | cons e entries ih =>
    obtain ⟨position, t⟩ := e
    intro index _ h
    obtain ⟨hlow, hextent, -, hrest⟩ := areSparse_cons.mp h
    have hlength := ih (show position + 1 ≤ extent from hextent) hrest
    rw [slots, List.length_append, List.length_replicate, List.length_cons]
    omega

theorem entries_replicate_append (es : List (Option Tensor)) (n : Nat) : ∀ index,
    Grammar.entries index (List.replicate n none ++ es) = Grammar.entries (index + n) es := by
  induction n with
  | zero => exact fun _ => rfl
  | succ n ih =>
    intro index
    rw [List.replicate_succ, List.cons_append, Grammar.entries, ih, Nat.add_right_comm]
    rfl

/-- The stored elements stand at their positions again. -/
theorem entries_slots {extent : Nat} : ∀ {entries : List (Nat × Tensor)} {index : Nat},
    areSparse extent index entries = true →
      Grammar.entries index (slots extent index entries) = entries := by
  intro entries
  induction entries with
  | nil =>
    intro index _
    have hreplicate := entries_replicate_append [] (extent - index) index
    rwa [List.append_nil] at hreplicate
  | cons e entries ih =>
    obtain ⟨position, t⟩ := e
    intro index h
    obtain ⟨hlow, -, -, hrest⟩ := areSparse_cons.mp h
    rw [slots, entries_replicate_append, Nat.add_sub_cancel' hlow, Grammar.entries, ih hrest]
    rfl

theorem some_mem_slots_iff {extent : Nat} {t : Tensor} : ∀ {entries : List (Nat × Tensor)}
    {index : Nat}, some t ∈ slots extent index entries ↔ ∃ e ∈ entries, e.2 = t := by
  intro entries
  induction entries with
  | nil => simp [slots]
  | cons e entries ih =>
    intro index
    rw [slots, List.mem_append, List.mem_cons, ih]
    simp [eq_comm]

/-- What holds of all stored elements holds of all elements that are no gaps. -/
theorem forall_mem_slots_iff (P : Tensor → Prop) {extent index : Nat}
    {entries : List (Nat × Tensor)} :
    (∀ e ∈ slots extent index entries, ∀ t ∈ e, P t) ↔ ∀ e ∈ entries, P e.2 := by
  constructor
  · intro h e he
    exact h (some e.2) (some_mem_slots_iff.mpr ⟨e, he, rfl⟩) e.2 rfl
  · rintro h _ he t rfl
    obtain ⟨e, hmem, rfl⟩ := some_mem_slots_iff.mp he
    exact h e hmem

theorem formlessEntries_append (e : Option Tensor) (index : Nat) (rest : List (Nat × Tensor)) :
    formlessEntries ((e.map (index, ·)).toList ++ rest) =
      ((e.map formless).map (index, ·)).toList ++ formlessEntries rest := by
  cases e <;> rfl

theorem formlessEntries_entries (es : List (Option Tensor)) : ∀ index,
    formlessEntries (Grammar.entries index es) =
      Grammar.entries index (es.map (Option.map formless)) := by
  induction es with
  | nil => exact fun _ => rfl
  | cons e es ih =>
    intro index
    rw [Grammar.entries, formlessEntries_append, ih]
    rfl

end Tensor

/-! ## Reading them back -/

namespace Parse

open Grammar

variable {c c' : Cursor} {n h : Nat}

/-- The words of a number are a numeric token, or a sign and one. -/
theorem reads_of_words {x : Binary64} (hfinite : x.isFinite = true) (h : c.Spells x.words c') :
    (∃ t form, c.Reads [t] c' ∧ t.isNumber = true ∧ t.number? = some ⟨x, form⟩) ∨
    ∃ minus t form, c.Reads [minus, t] c' ∧ minus.isSymbol '-' = true ∧ t.isNumber = true ∧
      t.number? = some ⟨x.negate, form⟩ := by
  unfold Binary64.words at h
  cases hsign : x.negative with
  | false =>
    rw [hsign, if_neg (by simp)] at h
    obtain ⟨t, h₁, ht⟩ := Cursor.spells_singleton.mp h
    obtain ⟨form, hform⟩ := Token.number?_of_word ht hfinite hsign
    exact .inl ⟨t, form, h₁, Token.isNumber_of_word ht, hform⟩
  | true =>
    rw [hsign, if_pos rfl] at h
    obtain ⟨minus, c₁, h₁, hminus, h⟩ := Cursor.spells_cons.mp h
    obtain ⟨t, h₂, ht⟩ := Cursor.spells_singleton.mp h
    obtain ⟨form, hform⟩ := Token.number?_of_word ht hfinite (by simp [Binary64.negate, hsign])
    have hreads := Cursor.reads_append.mpr ⟨c₁, h₁, h₂⟩
    exact .inr ⟨minus, t, form, hreads, Token.isSymbol_of_word hminus,
      Token.isNumber_of_word ht, hform⟩

theorem map_formless_stored (x : Binary64) (form : NumberForm) :
    (stored ⟨x, form⟩).map Tensor.formless = stored ⟨x, .float⟩ := by
  unfold stored
  dsimp only
  split <;> rfl

/-- A number in a literal is read back, whatever reads nested literals. -/
theorem element_settles_number (nested : Parse Tensor) {x : Binary64} (hfinite : x.isFinite = true)
    (hspells : c.Spells x.words c') : (element nested).Settles ⟨c, n, h⟩ ⟨c', n, h⟩ True
      fun e => e.map Tensor.formless = stored ⟨x, .float⟩ := by
  refine Settles.current ?_
  rcases reads_of_words hfinite hspells with ⟨t, form, hreads, hnumber, hform⟩ |
    ⟨minus, t, form, hreads, hminus, hnumber, hform⟩
  · rw [hreads.1, Token.isSymbol_eq_false_of_isNumber hnumber, if_neg (by simp)]
    refine Settles.of_gives fun p hp => ⟨_, ?_, map_formless_stored x form⟩
    exact signedNumber_gives (by rwa [hp]) hnumber hform
  · rw [hreads.1, Token.isSymbol_eq_false hminus (by decide), if_neg (by simp)]
    refine Settles.of_gives fun p hp => ⟨_, ?_, map_formless_stored x form⟩
    have hgives := signedNumber_gives_negative (p := p) (by rwa [hp]) hminus hnumber hform
    simpa only [Binary64.negate_negate] using hgives

/-- The words of an element are read back where the braces in it may nest. -/
def ElementReadBack (e : Option Tensor) : Prop :=
  ∀ (n h : Nat) (c c' : Cursor), c.Spells (Tensor.slotWords e) c' →
    (element (Parse.tensor (maxNesting - n))).Settles ⟨c, n, h⟩ ⟨c', n, h⟩
      (∀ t ∈ e, t.Fits n h) fun e' => e'.map Tensor.formless = e.map Tensor.formless

theorem elementReadBack_none : ElementReadBack none :=
  fun _ _ _ _ hspells => (element_settles_number _ (x := .ofBits 0) (by decide) hspells).of_iff
    (by simp)

/-- Elements with commas between them are read back. -/
theorem elements_settle (es : List (Option Tensor)) (hes : ∀ e ∈ es, ElementReadBack e)
    (hcomma : c'.current.isSymbol ',' = false) :
    ∀ (bound index : Nat) (c : Cursor), es ≠ [] → es.length ≤ bound + 1 →
      c.Spells ([.symbol ','].intercalate (es.map Tensor.slotWords)) c' →
      (elements (Parse.tensor (maxNesting - n)) bound index).Settles ⟨c, n, h⟩ ⟨c', n, h⟩
        (∀ e ∈ es, ∀ t ∈ e, t.Fits n h) fun r => r.1 = index + es.length ∧
          Tensor.formlessEntries r.2 = entries index (es.map (Option.map Tensor.formless)) := by
  induction es with
  | nil => exact fun _ _ _ hne => absurd rfl hne
  | cons e es ih =>
    obtain ⟨he, hes⟩ := List.forall_mem_cons.mp hes
    intro bound index c _ hlength hspells
    cases es with
    | nil =>
      rw [List.map_singleton, List.intercalate_singleton] at hspells
      refine Settles.of_iff (F := ∀ t ∈ e, t.Fits n h) ?_ (by simp)
      have hlast : ∀ e' : Option Tensor, e'.map Tensor.formless = e.map Tensor.formless →
          Tensor.formlessEntries (e'.map (index, ·)).toList =
            entries index ([e].map (Option.map Tensor.formless)) := by
        intro e' he'
        have hentry := Tensor.formlessEntries_append e' index []
        rwa [he', List.append_nil] at hentry
      cases bound with
      | zero => exact .before (he n h c c' hspells) fun e' he' => .pure ⟨rfl, hlast e' he'⟩
      | succ bound =>
        refine .before (he n h c c' hspells) fun e' he' => .current ?_
        rw [hcomma, if_neg (by simp)]
        exact .pure ⟨rfl, hlast e' he'⟩
    | cons f es =>
      cases bound with
      | zero => simp at hlength
      | succ bound =>
        rw [List.map_cons, List.map_cons, List.intercalate_cons_cons, List.append_assoc,
          ← List.map_cons] at hspells
        obtain ⟨c₁, h₁, hspells⟩ := Cursor.spells_append.mp hspells
        obtain ⟨comma, c₂, h₂, hword, h₃⟩ := Cursor.spells_cons.mp hspells
        refine Settles.of_iff ?_ List.forall_mem_cons.symm
        refine .bind (he n h c c₁ h₁) fun e' he' => .current ?_
        rw [h₂.1, Token.isSymbol_of_word hword, if_pos rfl]
        have hrest := ih hes bound (index + 1) c₂ (by simp)
          (by simp only [List.length_cons] at hlength ⊢; omega) h₃
        refine .after (.advance h₂) fun _ _ => .before hrest ?_
        rintro ⟨extent, stored⟩ ⟨hextent, hstored⟩
        refine .pure ⟨?_, ?_⟩
        · simp only [List.length_cons] at hextent ⊢
          omega
        · rw [Tensor.formlessEntries_append, he', hstored]
          rfl

/-- An element has a first word, which is not the brace that closes a literal. -/
theorem slotWords_eq_cons (e : Option Tensor) : ∃ w ws, Tensor.slotWords e = w :: ws ∧
    ∀ t : Token, t.word = w → t.isSymbol '\x7d' = false := by
  have hnumber : ∀ (x : Binary64) (t : Token), t.word = .number x → t.isSymbol '\x7d' = false :=
    fun x t ht => Token.isSymbol_eq_false_of_isNumber (Token.isNumber_of_word ht) _
  have hsymbol : ∀ d, '\x7d' ≠ d → ∀ t : Token, t.word = .symbol d → t.isSymbol '\x7d' = false :=
    fun d hd t ht => Token.isSymbol_eq_false (Token.isSymbol_of_word ht) hd
  cases e with
  | none => exact ⟨_, [], rfl, hnumber _⟩
  | some t =>
    cases t with
    | leaf scalar =>
      rw [Tensor.slotWords, Tensor.words, Binary64.words]
      split
      · exact ⟨_, _, rfl, hsymbol _ (by decide)⟩
      · exact ⟨_, [], rfl, hnumber _⟩
    | node extent entries =>
      rw [Tensor.slotWords, Tensor.words]
      exact ⟨_, _, rfl, hsymbol _ (by decide)⟩

/-- Every element has a word of its own. -/
theorem length_le_length_intercalate (es : List (Option Tensor)) :
    es.length ≤ ([.symbol ','].intercalate (es.map Tensor.slotWords) : List Word).length := by
  induction es with
  | nil => exact Nat.zero_le _
  | cons e es ih =>
    obtain ⟨w, ws, hwords, -⟩ := slotWords_eq_cons e
    cases es with
    | nil => simp [hwords]
    | cons f es =>
      rw [List.map_cons, List.map_cons, List.intercalate_cons_cons, ← List.map_cons]
      simp only [List.length_append, List.length_cons, List.length_nil] at ih ⊢
      omega

/-- What is between two braces is read back. -/
theorem optionalElements_settles {es : List (Option Tensor)} (hes : ∀ e ∈ es, ElementReadBack e)
    (hbrace : c'.current.isSymbol '\x7d' = true)
    (hspells : c.Spells ([.symbol ','].intercalate (es.map Tensor.slotWords)) c') :
    (optionalElements (Parse.tensor (maxNesting - n))).Settles ⟨c, n, h⟩ ⟨c', n, h⟩
      (∀ e ∈ es, ∀ t ∈ e, t.Fits n h) fun r => r.1 = es.length ∧
        Tensor.formlessEntries r.2 = entries 0 (es.map (Option.map Tensor.formless)) := by
  refine Settles.current ?_
  cases es with
  | nil =>
    obtain rfl := Cursor.spells_nil.mp hspells
    rw [hbrace, if_pos rfl]
    exact Settles.of_iff (.pure ⟨rfl, rfl⟩) (by simp)
  | cons e es =>
    have hcurrent : c.current.isSymbol '\x7d' = false := by
      obtain ⟨w, ws, hwords, hw⟩ := slotWords_eq_cons e
      rw [List.map_cons, intercalate_cons, hwords, List.cons_append] at hspells
      obtain ⟨t, c₁, ht, hword, -⟩ := Cursor.spells_cons.mp hspells
      rw [ht.1]
      exact hw t hword
    rw [hcurrent, if_neg (by simp)]
    refine Settles.get fun p hp => ?_
    -- Every element has a word, so the pending pieces are bound enough for the commas.
    have hcursor : p.cursor = c := congrArg Standing.cursor hp
    have hlength := length_le_length_intercalate (e :: es)
    have hpending := hspells.length_le
    have hcomma := Token.isSymbol_eq_false hbrace (show ',' ≠ '\x7d' by decide)
    have hsettles := elements_settle (n := n) (h := h) (e :: es) hes hcomma
      p.cursor.pending.length 0 c (by simp) (by rw [hcursor]; omega) hspells
    rwa [Nat.zero_add] at hsettles

/-- Braces are read back when the elements stored between them are. -/
theorem braces_settle {extent : Nat} {stored : List (Nat × Tensor)}
    (hsparse : Tensor.areSparse extent 0 stored = true)
    (hstored : ∀ e ∈ stored, ElementReadBack (some e.2))
    (hspells : c.Spells (Tensor.node extent stored).words c') :
    (braces (Parse.tensor (maxNesting - n))).Settles ⟨c, n, h⟩ ⟨c', n, h⟩
      (∀ e ∈ stored, e.2.Fits n h) fun t =>
        t.formless = (Tensor.node extent stored).formless := by
  rw [Tensor.words, Tensor.elementWords_eq] at hspells
  obtain ⟨brace, c₁, h₁, hbrace, hspells⟩ := Cursor.spells_cons.mp hspells
  obtain ⟨c₂, h₂, hspells⟩ := Cursor.spells_append.mp hspells
  obtain ⟨close, h₃, hclose⟩ := Cursor.spells_singleton.mp hspells
  have hclosed : c₂.current.isSymbol '\x7d' = true := by
    rw [h₃.1]
    exact Token.isSymbol_of_word hclose
  have hslots : ∀ e ∈ Tensor.slots extent 0 stored, ElementReadBack e := by
    intro e he
    cases e with
    | none => exact elementReadBack_none
    | some t =>
      exact (Tensor.forall_mem_slots_iff (ElementReadBack <| some ·)).mpr hstored _ he t rfl
  have hinside := (optionalElements_settles (n := n) (h := h) hslots hclosed h₂).of_iff
    (Tensor.forall_mem_slots_iff (·.Fits n h))
  refine .after (.expectSymbol h₁ hbrace) fun _ _ => .before hinside ?_
  rintro ⟨extent', stored'⟩ ⟨hextent, hentries⟩
  refine .current ?_
  dsimp only at hextent hentries ⊢
  rw [hclosed, if_pos rfl]
  refine .after (.advance h₃) fun _ _ => .pure ?_
  have hlength := Tensor.length_slots (Nat.zero_le extent) hsparse
  rw [Nat.zero_add] at hlength
  rw [Tensor.formless, Tensor.formless, hentries, hextent, hlength,
    ← Tensor.formlessEntries_entries, Tensor.entries_slots hsparse]

/-- A literal needs room for its braces and for those inside them. -/
theorem tensor_settles_node {extent : Nat} {stored : List (Nat × Tensor)}
    (hsparse : Tensor.areSparse extent 0 stored = true)
    (hstored : ∀ e ∈ stored, ElementReadBack (some e.2))
    (hspells : c.Spells (Tensor.node extent stored).words c') :
    (Parse.tensor (maxNesting - n)).Settles ⟨c, n, h⟩ ⟨c', n, h⟩
      ((Tensor.node extent stored).Fits n h) fun t =>
        t.formless = (Tensor.node extent stored).formless := by
  have hbraces := braces_settle (n := n + 1) (h := h + 1) hsparse hstored hspells
  refine Settles.of_iff ?_ Tensor.fits_node.symm
  -- The room of the step is what the nesting leaves of the limit.
  cases hroom : maxNesting - n with
  | zero =>
    refine .tagged (.current (.descend ⟨fun _ => by omega, fun _ => rfl⟩ fun _ hstep => ?_))
    cases hstep
  | succ room =>
    have hnext : maxNesting - (n + 1) = room := by omega
    rw [hnext] at hbraces
    refine .tagged (.current (.descend ⟨fun hnone => ?_, fun hfull => by omega⟩ ?_))
    · cases hnone
    · rintro _ ⟨⟩
      exact hbraces

/-- Every sparse literal is read back as an element. -/
theorem elementReadBack_some (t : Tensor) : t.isSparse = true → ElementReadBack (some t) := by
  induction t using Tensor.induct with
  | leaf scalar =>
    intro hsparse n h c c' hspells
    rw [Tensor.isSparse, Bool.and_eq_true, Bool.not_eq_true'] at hsparse
    have hstored : stored ⟨scalar.value, .float⟩ = some (Tensor.leaf scalar).formless := by
      rw [stored, hsparse.2]
      rfl
    have hsettles := element_settles_number (n := n) (h := h) (Parse.tensor (maxNesting - n))
      hsparse.1 hspells
    rw [hstored] at hsettles
    refine hsettles.of_iff (iff_of_true trivial ?_)
    rintro _ ⟨⟩
    exact Tensor.fits_leaf scalar n h
  | node extent stored ih =>
    intro hsparse n h c c' hspells
    have hstored : ∀ e ∈ stored, ElementReadBack (some e.2) :=
      fun e he => ih e he (Tensor.of_mem_areSparse hsparse e he).2.2
    have hsettles := tensor_settles_node (n := n) (h := h) hsparse hstored hspells
    refine Settles.of_iff (F := (Tensor.node extent stored).Fits n h) (.current ?_) (by simp)
    rw [Tensor.slotWords, Tensor.words] at hspells
    obtain ⟨brace, c₁, h₁, hbrace, -⟩ := Cursor.spells_cons.mp hspells
    rw [h₁.1, Token.isSymbol_of_word hbrace, if_pos rfl]
    exact .before hsettles fun t ht => .pure (congrArg some ht)

/-- Every sparse literal is read back. -/
theorem tensor_settles {extent : Nat} {stored : List (Nat × Tensor)}
    (hsparse : Tensor.areSparse extent 0 stored = true)
    (hspells : c.Spells (Tensor.node extent stored).words c') :
    (Parse.tensor (maxNesting - n)).Settles ⟨c, n, h⟩ ⟨c', n, h⟩
      ((Tensor.node extent stored).Fits n h) fun t =>
        t.formless = (Tensor.node extent stored).formless :=
  tensor_settles_node hsparse (fun e he => elementReadBack_some e.2
    (Tensor.of_mem_areSparse hsparse e he).2.2) hspells

end Parse

end TensorLet
