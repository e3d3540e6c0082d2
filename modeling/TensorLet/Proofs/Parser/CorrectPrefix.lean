import TensorLet.Proofs.Parser.Failure
import TensorLet.Proofs.Parser.Lockstep
import TensorLet.Proofs.Token.Respacing

/-!
# The first token that does not fit

A parser that fails because of a token has read tokens with which an accepted
source can start, and no accepted source goes on with the token it has found.
So it neither gives up before it has to nor reads on after it could know.

* `Viable`: words with which an accepted source starts.
* `viable_of_completes`: what can be completed to tokens of the grammar is viable,
  since the words of these tokens are a source.
* `not_viable_of_error`: what a parser has read and the token it fails at are not
  viable, since a parser on these words goes the same way.
* `unexpected_is_first_not_viable`: both for the token that is reported.
-/

namespace TensorLet

/-! ## Words and tokens -/

/-- Tokens with the same word correspond to each other. -/
theorem Token.renamed_of_word_eq {t t' : Token} (h : t.word = t'.word) : t.Renamed Eq t' := by
  simp only [Token.word, Word.mk.injEq, String.toList_inj] at h
  exact ⟨h.2, fun _ => h.1, fun _ => .inl h.1⟩

theorem forall₂_renamed_of_map_word {ts ts' : List Token}
    (h : ts.map Token.word = ts'.map Token.word) : List.Forall₂ (Token.Renamed Eq) ts ts' := by
  rw [← List.forall₂_eq_eq_eq, List.forall₂_map_left_iff, List.forall₂_map_right_iff] at h
  exact h.imp fun _ _ => Token.renamed_of_word_eq

theorem biUnique_eq {α : Type} : Relator.BiUnique (Eq : α → α → Prop) :=
  ⟨fun _ _ _ h h' => h.trans h'.symm, fun _ _ _ h h' => h.symm.trans h'⟩

theorem Piece.found?_of_first {c : Char} {cs : List Char} {fault : Fault}
    (h : (Piece.first c cs).outcome = .error fault) : fault.found? = none := by
  unfold Piece.first at h
  split at h
  · unfold Piece.number at h
    extract_lets run at h
    split at h
    · split at h <;> cases h
      rfl
    · cases h
  · split at h
    · cases h
    · split at h <;> cases h
      rfl

/-- Lexical errors name no token. -/
theorem found?_of_mem_scanFrom {offset : Nat} {cs : List Char} {e : Error}
    (h : .error e ∈ scanFrom offset cs) : e.fault.found? = none := by
  obtain ⟨c, more, start, -, -, hitem⟩ := exists_piece_of_mem_scanFrom h
  exact Piece.found?_of_first (Piece.item_eq_error hitem)

/-! ## What has been read -/

namespace Cursor

/-- What is read and the token behind it stand at the front. -/
theorem Reads.isPrefix {c d : Cursor} {ts : List Token} (h : c.Reads ts d) :
    (ts ++ [d.current]).map .ok <+: .ok c.current :: (c.pending ++ [.ok (.endOfInput c.size)]) := by
  induction ts generalizing c with
  | nil =>
    cases h
    exact ⟨_, rfl⟩
  | cons t ts ih =>
    obtain ⟨rfl, -, c₁, hadvance, hts⟩ := h
    rw [List.cons_append, List.map_cons, List.prefix_cons_inj]
    unfold advance at hadvance
    split at hadvance
    next hnil =>
      cases hadvance
      obtain rfl := hts.eq_nil rfl
      cases hts
      rw [hnil]
      exact List.prefix_rfl
    next next rest hcons =>
      cases hadvance
      rw [hcons]
      exact ih hts
    next => cases hadvance

variable {source : String} {c d : Cursor} {ts : List Token}

/-- What is read of a source and the token behind it are its first pieces. -/
theorem Reads.isPrefix_items (hc : ofText source = .ok c) (h : c.Reads ts d) :
    (ts ++ [d.current]).map .ok <+:
      (Scan.ofText source).items ++ [.ok (.endOfInput (byteLength source.toList))] := by
  rcases ofText_eq_ok_iff.mp hc with ⟨hitems, rfl⟩ | ⟨t, rest, hitems, rfl⟩
  · obtain rfl := h.eq_nil rfl
    cases h
    rw [hitems]
    exact List.prefix_rfl
  · rw [hitems]
    exact h.isPrefix

/-- What is read of a source can be written again before a blank. -/
theorem Reads.plain (hc : ofText source = .ok c) (h : c.Reads ts d) : ∀ t ∈ ts, t.Plain := by
  intro t ht
  have hreadable := h.readable t ht
  refine ⟨hreadable, ?_⟩
  have hmem := (h.isPrefix_items hc).subset (List.mem_map_of_mem (List.mem_append_left _ ht))
  rcases List.mem_append.mp hmem with hmem | hmem
  · exact word_scans_of_mem_scanFrom hmem
  · -- The end of the source is not read.
    cases List.mem_singleton.mp hmem
    cases hreadable.1

/-- An error at the front of a source names no token. -/
theorem found?_of_ofText {e : Error} (h : ofText source = .error e) : e.fault.found? = none := by
  suffices hmem : .error e ∈ scanFrom 0 source.toList from found?_of_mem_scanFrom hmem
  unfold ofText Scan.ofText ofScan advance at h
  split at h
  next => cases h
  next heq =>
    cases h
    split at heq
    next => cases heq
    next => cases heq
    next hitems =>
      cases heq
      rw [show scanFrom 0 source.toList = _ from hitems]
      exact List.mem_cons_self

/-- Nor do the errors behind its first token. -/
theorem lexical_ofText (hc : ofText source = .ok c) : c.Lexical := by
  intro e he
  suffices hmem : .error e ∈ scanFrom 0 source.toList from found?_of_mem_scanFrom hmem
  rcases ofText_eq_ok_iff.mp hc with ⟨-, rfl⟩ | ⟨t, rest, hitems, rfl⟩
  · cases he
  · have hscan : scanFrom 0 source.toList = .ok t :: rest := hitems
    rw [hscan]
    exact List.mem_cons_of_mem _ he

/-- Before each of the tokens that are read, and before the one behind them, those
in front of it have been read. -/
theorem Reads.split {us vs : List Token} {u : Token} (h : c.Reads ts d)
    (hsplit : ts ++ [d.current] = us ++ u :: vs) : ∃ c₁, c.Reads us c₁ ∧ c₁.current = u := by
  induction ts generalizing c us with
  | nil =>
    cases h
    cases us with
    | nil =>
      cases hsplit
      exact ⟨d, rfl, rfl⟩
    | cons v us => simp at hsplit
  | cons t ts ih =>
    obtain ⟨rfl, ht, c₁, hadvance, hts⟩ := h
    cases us with
    | nil =>
      cases hsplit
      exact ⟨c, rfl, rfl⟩
    | cons v us =>
      rw [List.cons_append, List.cons_append, List.cons.injEq] at hsplit
      obtain ⟨rfl, hsplit⟩ := hsplit
      obtain ⟨c₂, hus, hu⟩ := ih hts hsplit
      exact ⟨c₂, ⟨rfl, ht, c₁, hadvance, hus⟩, hu⟩

/-- Cursors from which corresponding tokens are read agree up to where these
end. -/
theorem Reads.agrees {N : String → String → Prop} {ts ts' : List Token}
    (h : List.Forall₂ (Token.Renamed N) ts ts') : ∀ {c c' d d' : Cursor}, c.Reads ts d →
      c'.Reads ts' d' → d.current.Renamed N d'.current → c.Agrees N d.left c' := by
  induction h with
  | nil =>
    rintro c c' _ _ rfl rfl hcurrent
    exact .here hcurrent rfl
  | cons ht _ ih =>
    rintro c c' d d' ⟨rfl, -, c₁, hadvance, hts⟩ ⟨rfl, -, c₁', hadvance', hts'⟩ hcurrent
    exact .ahead ht hadvance hadvance' (ih hts hts' hcurrent)

end Cursor

/-! ## Viable words -/

/-- The tokens of some accepted source, its end included, start with these
words. -/
def Viable (ws : List Word) : Prop :=
  ∃ source result ts, parse source = .ok result ∧ tokenize source = .ok ts ∧
    ws <+: ts.map Token.word

/-- Tokens of the grammar are those of an accepted source: their words with a
blank behind each. -/
theorem viable_of_statements {ts : List Token} {ds : List Declaration}
    (hplain : ∀ t ∈ ts, t.Plain) (H : Grammar.Statements [] ts ds) :
    Viable (ts.map Token.word) := by
  have hscans : ∀ w ∈ ts.map Token.word, w.Scans := by
    intro w hw
    obtain ⟨t, ht, rfl⟩ := List.mem_map.mp hw
    exact (hplain t ht).2
  generalize hsource : String.ofList (Word.spaced (ts.map Token.word)) = source
  have hitems : (Scan.ofText source).items = (Word.tokens 0 (ts.map Token.word)).map .ok := by
    rw [← hsource, Scan.ofText, String.toList_ofList]
    exact Word.scanFrom_spaced _ hscans 0
  have hwords := Word.map_word_tokens (ts.map Token.word) 0
  -- The grammar has the tokens as they are; the words of the source have other places.
  have hunit := Parse.unit_lockstep biUnique_eq _ _ (Parser.agrees_start
    (Cursor.ofTokens_agrees 0 (byteLength source.toList)
      (forall₂_renamed_of_map_word hwords.symm)))
  obtain ⟨p, hp, -⟩ := H.unit_isRead (p := ⟨Cursor.ofTokens 0 ts, .empty, .silent, 0, 0⟩) rfl rfl
    (Cursor.ofTokens_reads 0 fun t ht => (hplain t ht).1) rfl
  rcases Parse.Meets.zero hunit with ⟨_, program, _, p', -, hp', -⟩ | ⟨e, _, _, _, he, -⟩
  · refine ⟨source, (program, p'.symbols), _, ?_, (tokenize_eq_ok_iff source _).mpr hitems, ?_⟩
    · exact parse_eq_ok.mpr ⟨_, p', Cursor.ofText_eq_ofTokens hitems, hp', rfl⟩
    · rw [List.map_append, hwords]
      exact List.prefix_append _ _
  · rw [hp] at he
    cases he

theorem viable_of_completes {ts : List Token} (hplain : ∀ t ∈ ts, t.Plain)
    (h : Completes (Grammar.Statements []) ts) : Viable (ts.map Token.word) := by
  obtain ⟨us, ds, hus, H⟩ := h
  obtain ⟨source, result, vs, hparse, htokens, hinitial⟩ := viable_of_statements (by
    intro t ht
    rcases List.mem_append.mp ht with ht | ht
    · exact hplain t ht
    · exact hus t ht) H
  refine ⟨source, result, vs, hparse, htokens, List.IsPrefix.trans ?_ hinitial⟩
  rw [List.map_append]
  exact List.prefix_append _ _

/-- An accepted source is read to its end. -/
theorem exists_reads_of_parse {source : String} {result : Program × SymbolTable} {us : List Token}
    (h : parse source = .ok result) (hus : tokenize source = .ok us) :
    ∃ c d ts p, c.Reads ts d ∧ ts ++ [d.current] = us ∧
      Parse.unit ⟨c, .empty, .silent, 0, 0⟩ = .ok result.1 p := by
  obtain ⟨c, p, hc, hunit, -⟩ := parse_eq_ok.mp h
  obtain ⟨ts, htokens, hfinite, -⟩ := Grammar.CompilationUnit.of_parse h
  have hitems := (tokenize_eq_ok_iff source ts).mp htokens
  rw [hus] at htokens
  cases htokens
  rw [Cursor.ofText_eq_ofTokens hitems] at hc
  cases hc
  refine ⟨_, _, ts, p, Cursor.ofTokens_reads _ fun t ht => ⟨?_, hfinite t ht⟩, rfl, hunit⟩
  refine isEnd_of_mem_scanFrom 0 source.toList t ?_
  rw [show scanFrom 0 source.toList = ts.map .ok from hitems]
  exact List.mem_map_of_mem ht

/-- A parser whose tokens start with those that a failed parser has read and the
one it failed at fails too. -/
theorem not_viable_of_error {c : Cursor} {e : Error} {p' : Parser} {ts : List Token}
    (h : Parse.unit ⟨c, .empty, .silent, 0, 0⟩ = .error e p') (hts : c.Reads ts p'.cursor) :
    ¬ Viable ((ts ++ [p'.cursor.current]).map Token.word) := by
  rintro ⟨source, result, us, hparse, hus, vs, hvs⟩
  obtain ⟨c', d', ts', q, hreads, rfl, hunit⟩ := exists_reads_of_parse hparse hus
  -- The accepted source is cut where the failed parser stands.
  rw [List.map_append, List.append_assoc] at hvs
  obtain ⟨us₁, rest, hsplit, hus₁, hrest⟩ := List.map_eq_append_iff.mp hvs.symm
  obtain ⟨u, us₂, rfl, hu, -⟩ := List.map_eq_cons_iff.mp hrest
  obtain ⟨c₁, hc₁, rfl⟩ := hreads.split hsplit
  have hagrees := hts.agrees (forall₂_renamed_of_map_word hus₁.symm) hc₁
    (Token.renamed_of_word_eq hu.symm)
  have hmeets := Parse.unit_lockstep biUnique_eq _ _ (Parser.agrees_start hagrees)
  rw [Parse.Lockstep, h, hunit] at hmeets
  cases hmeets with
  | errorBeyond hlt => exact absurd hlt (Nat.lt_irrefl _)

/-! ## Reported tokens -/

/-- A token is reported as unexpected at the first place where it can be known to
be. The tokens in front of it have been read, and some accepted source starts
with them; none starts with them and the token. -/
theorem unexpected_is_first_not_viable {source : String} {e : Error} {t : Token}
    (h : parse source = .error e) (ht : e.fault.found? = some t) :
    ∃ p p' ts, Parser.ofText source = .ok p ∧ p.silent.unit = (.error e, p') ∧
      p.cursor.Reads ts p'.cursor ∧ p'.cursor.current = t ∧
      (ts ++ [t]).map .ok <+:
        (Scan.ofText source).items ++ [.ok (.endOfInput (byteLength source.toList))] ∧
      Viable (ts.map Token.word) ∧ ¬ Viable ((ts ++ [t]).map Token.word) := by
  rcases parse_eq_error.mp h with hc | ⟨c, p', hc, hunit⟩
  · rw [Cursor.found?_of_ofText hc] at ht
    cases ht
  · have hstops := Parse.unit_stops (p := ⟨c, .empty, .silent, 0, 0⟩) rfl rfl
    obtain ⟨rfl, ts, hts, hcompletes⟩ := hstops (Cursor.lexical_ofText hc) e p' t hunit ht
    refine ⟨⟨c, .empty, .empty, 0, 0⟩, p', ts, ?_, ?_, hts, rfl, hts.isPrefix_items hc, ?_, ?_⟩
    · rw [Parser.ofText, hc]
      rfl
    · rw [Parser.unit, Parser.run, Parser.silent, hunit]
    · exact viable_of_completes (hts.plain hc) hcompletes
    · exact not_viable_of_error hunit hts

/-- A number where the elements of a tensor literal end, inside parentheses behind
a sign. -/
theorem unexpected_is_first_not_viable_in_tensor : ∃ e t,
    parse "let tensor x = -(1 + \x7b2 3\x7d);" = .error e ∧ e.fault.found? = some t ∧
    t = ⟨"3", .int, ⟨24, 25⟩⟩ ∧
    ∃ p p' ts, Parser.ofText "let tensor x = -(1 + \x7b2 3\x7d);" = .ok p ∧
      p.silent.unit = (.error e, p') ∧ p.cursor.Reads ts p'.cursor ∧ p'.cursor.current = t ∧
      (ts ++ [t]).map .ok <+: (Scan.ofText "let tensor x = -(1 + \x7b2 3\x7d);").items ++
        [.ok (.endOfInput (byteLength "let tensor x = -(1 + \x7b2 3\x7d);".toList))] ∧
      Viable (ts.map Token.word) ∧ ¬ Viable ((ts ++ [t]).map Token.word) := by
  obtain ⟨e, he, hfound⟩ := exists_error_of_test
    (x := parse "let tensor x = -(1 + \x7b2 3\x7d);")
    (p := fun e => e.fault.found? = some ⟨"3", .int, ⟨24, 25⟩⟩) (by decide +kernel)
  have ht := of_decide_eq_true hfound
  exact ⟨e, _, he, ht, rfl, unexpected_is_first_not_viable he ht⟩

end TensorLet
