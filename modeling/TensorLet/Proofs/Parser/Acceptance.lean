import TensorLet.Parser
import TensorLet.Proofs.Parser.Soundness
import TensorLet.Proofs.Parser.Completeness
import TensorLet.Proofs.Token.Scan

/-!
# The sources that are accepted

Soundness and completeness of the productions speak of a cursor that stands
before some tokens. Here the cursor starts at the front of a source, so that the
tokens it can read up to the end are those that scanning the source gives.

* `Cursor.ofText_reads_iff`: a source is read to its end exactly when it scans
  without error and its numbers are finite.
* `CompilationUnit.of_parse`, `CompilationUnit.parse`: the two halves of acceptance.
* `parse_eq_ok_iff_compilationUnit`: a source is accepted exactly when the grammar derives its
  tokens, with the program and the symbols of the derivation.
-/

namespace TensorLet

/-! ## Sources read to their end -/

namespace Cursor

/-- What is read up to the end is all that is pending. -/
theorem Reads.pending_eq {c c' : Cursor} {ts : List Token} (h : c.Reads ts c')
    (hend : c'.current.isEnd = true) (hcurrent : c.current.isEnd = false)
    (hpending : ∀ t, .ok t ∈ c.pending → t.isEnd = false) :
    .ok c.current :: c.pending = ts.map .ok := by
  induction ts generalizing c with
  | nil =>
    cases h
    rw [hcurrent] at hend
    cases hend
  | cons t ts ih =>
    obtain ⟨ht, -, c₁, hadvance, h₁⟩ := h
    rw [List.map_cons, ht]
    congr 1
    unfold advance at hadvance
    split at hadvance
    next hnil =>
      cases hadvance
      cases ts with
      | nil => exact hnil
      | cons u us =>
        -- The cursor stands on the end, which is not read.
        obtain ⟨rfl, ⟨hu, -⟩, -⟩ := h₁
        cases hu
    next next rest hcons =>
      cases hadvance
      rw [hcons] at hpending ⊢
      refine ih h₁ (hpending next List.mem_cons_self) ?_
      intro u hu
      exact hpending u (List.mem_cons_of_mem _ hu)
    next => cases hadvance

/-- Pending tokens are read up to the end. -/
theorem reads_pending (size : Nat) : ∀ (ts : List Token) (t : Token),
    (∀ u ∈ t :: ts, u.Readable) →
    Reads ⟨t, ts.map .ok, size⟩ (t :: ts) ⟨.endOfInput size, [], size⟩ := by
  intro ts
  induction ts with
  | nil =>
    intro t ht
    exact ⟨rfl, ht t List.mem_cons_self, _, rfl, rfl⟩
  | cons u us ih =>
    intro t ht
    refine ⟨rfl, ht t List.mem_cons_self, ⟨u, us.map .ok, size⟩, rfl, ih u ?_⟩
    intro v hv
    exact ht v (List.mem_cons_of_mem _ hv)

/-- The end of the source is not read. -/
theorem Reads.eq_nil {c c' : Cursor} {ts : List Token} (h : c.Reads ts c')
    (hend : c.current.isEnd = true) : ts = [] := by
  cases ts with
  | nil => rfl
  | cons t ts =>
    obtain ⟨rfl, ⟨ht, -⟩, -⟩ := h
    rw [hend] at ht
    cases ht

/-- The cursor starts on the first token of the source, or on its end. -/
theorem ofText_eq_ok_iff {source : String} {c : Cursor} :
    ofText source = .ok c ↔
      (Scan.ofText source).items = [] ∧ c = ⟨.endOfInput (byteLength source.toList), [],
        byteLength source.toList⟩ ∨
      ∃ t rest, (Scan.ofText source).items = .ok t :: rest ∧
        c = ⟨t, rest, byteLength source.toList⟩ := by
  unfold ofText Scan.ofText ofScan advance
  cases scanFrom 0 source.toList with
  | nil => simp [eq_comm]
  | cons item items =>
    cases item with
    | error e => simp
    | ok t =>
      simp only [Except.ok.injEq, reduceCtorEq, false_and, false_or, List.cons.injEq]
      constructor
      · rintro rfl
        exact ⟨t, items, ⟨rfl, rfl⟩, rfl⟩
      · rintro ⟨t, rest, ⟨rfl, rfl⟩, rfl⟩
        rfl

/-- A source is read to its end exactly when it scans without error and its
numbers are finite. -/
theorem ofText_reads_iff (source : String) (ts : List Token) (t : Token) :
    (∃ c c', ofText source = .ok c ∧ c.current = t ∧ c.Reads ts c' ∧ c'.current.isEnd = true) ↔
      tokenize source = .ok (ts ++ [.endOfInput (byteLength source.toList)]) ∧
      (∀ u ∈ ts, u.FiniteNumber) ∧ t = ts.headD (.endOfInput (byteLength source.toList)) := by
  have hscan : ∀ u, .ok u ∈ (Scan.ofText source).items → u.isEnd = false :=
    isEnd_of_mem_scanFrom 0 source.toList
  rw [tokenize_eq_ok_iff]
  constructor
  · rintro ⟨c, c', hc, rfl, hts, hend⟩
    refine ⟨?_, fun u hu => (hts.readable u hu).2, ?_⟩
    · rcases ofText_eq_ok_iff.mp hc with ⟨hnil, rfl⟩ | ⟨u, rest, hcons, rfl⟩
      · rw [hts.eq_nil rfl, hnil]
        rfl
      · rw [hcons] at hscan ⊢
        exact hts.pending_eq hend (hscan u List.mem_cons_self) fun v hv =>
          hscan v (List.mem_cons_of_mem _ hv)
    · cases ts with
      | cons u us => exact hts.1
      | nil =>
        cases hts
        rcases ofText_eq_ok_iff.mp hc with ⟨-, rfl⟩ | ⟨u, rest, hcons, rfl⟩
        · rfl
        · -- No token of the source is its end.
          have hu := hscan u (by rw [hcons]; exact List.mem_cons_self)
          rw [show u.isEnd = true from hend] at hu
          cases hu
  · rintro ⟨hitems, hfinite, rfl⟩
    cases ts with
    | nil => exact ⟨_, _, ofText_eq_ok_iff.mpr (.inl ⟨hitems, rfl⟩), rfl, rfl, rfl⟩
    | cons u us =>
      refine ⟨_, _, ofText_eq_ok_iff.mpr (.inr ⟨u, us.map .ok, hitems, rfl⟩), rfl,
        reads_pending _ us u ?_, rfl⟩
      intro v hv
      refine ⟨hscan v ?_, hfinite v hv⟩
      rw [hitems]
      exact List.mem_map_of_mem hv

end Cursor

/-! ## Accepted sources -/

/-- A source is accepted when the parser on its first token succeeds. -/
theorem parse_eq_ok {source : String} {program : Program} {table : SymbolTable} :
    parse source = .ok (program, table) ↔ ∃ c p', Cursor.ofText source = .ok c ∧
      Parse.unit ⟨c, .empty, .silent, 0, 0⟩ = .ok program p' ∧ p'.symbols = table := by
  unfold parse Parser.ofText
  simp only [except_bind_eq_ok, pure, Except.pure, Except.ok.injEq]
  constructor
  · rintro ⟨p, ⟨c, hc, rfl⟩, h⟩
    simp only [Parser.silent, Parser.unit, Parser.run] at h
    split at h
    next program' p' hunit =>
      cases h
      split at hunit
      next a q hrun =>
        cases hunit
        exact ⟨c, p', hc, hrun, rfl⟩
      next => cases hunit
    next => cases h
  · rintro ⟨c, p', hc, hunit, rfl⟩
    refine ⟨_, ⟨c, hc, rfl⟩, ?_⟩
    simp only [Parser.silent, Parser.unit, Parser.run, hunit]

/-- A source is refused when it starts with a lexical error or the parser on its
first token fails. -/
theorem parse_eq_error {source : String} {e : Error} :
    parse source = .error e ↔ Cursor.ofText source = .error e ∨ ∃ c p',
      Cursor.ofText source = .ok c ∧ Parse.unit ⟨c, .empty, .silent, 0, 0⟩ = .error e p' := by
  unfold parse Parser.ofText
  cases hc : Cursor.ofText source with
  | error e' => simp [bind, Except.bind]
  | ok c =>
    simp only [bind, Except.bind, pure, Except.pure, Parser.silent, Parser.unit, Parser.run,
      reduceCtorEq, Except.ok.injEq, false_or]
    constructor
    · intro h
      refine ⟨c, ?_⟩
      cases hunit : Parse.unit ⟨c, .empty, .silent, 0, 0⟩ with
      | ok program p' =>
        rw [hunit] at h
        cases h
      | error e' p' =>
        rw [hunit] at h
        cases h
        exact ⟨p', rfl, rfl⟩
    · rintro ⟨_, p', rfl, hunit⟩
      rw [hunit]
      rfl

/-- A source whose outcome passes a test is accepted. -/
theorem exists_of_parse_any {s : String} {p : Program × SymbolTable → Bool}
    (h : (parse s).toOption.any p = true) :
    ∃ program table, parse s = .ok (program, table) ∧ p (program, table) = true := by
  cases hs : parse s with
  | error e =>
    rw [hs] at h
    cases h
  | ok r =>
    rw [hs] at h
    exact ⟨r.1, r.2, rfl, h⟩

namespace Grammar

/-- Every initializer of a block is derived from some of its tokens. -/
theorem Statements.exists_derives {names : List String} {ts : List Token}
    {ds : List Declaration} (H : Statements names ts ds) : ∀ d ∈ ds, ∃ names' us, us ⊆ ts ∧
      Derives (visible names') .expression 0 0 us d.rhs := by
  induction H with
  | nil => simp
  | @cons names ts us d ds hd hds ih =>
    intro d' hd'
    rcases List.mem_cons.mp hd' with rfl | hd'
    · cases hd with
      | @intro _ _ _ _ _ ts' _ _ _ _ _ _ hrhs _ =>
        refine ⟨names, ts', ?_, hrhs⟩
        intro t ht
        simp [ht]
    · obtain ⟨names', us', hsub, hrhs⟩ := ih d' hd'
      exact ⟨names', us', fun t ht => List.mem_append_right _ (hsub ht), hrhs⟩

/-- Every declaration of a block is of a local variable. -/
theorem Statements.storage {names : List String} {ts : List Token}
    {ds : List Declaration} (H : Statements names ts ds) : ∀ d ∈ ds, d.storage = .localVar := by
  induction H with
  | nil => simp
  | cons hd _ ih =>
    intro d hmem
    rcases List.mem_cons.mp hmem with rfl | hmem
    · cases hd
      rfl
    · exact ih d hmem

theorem CompilationUnit.statements {ts : List Token} {theEnd : Token} {program : Program}
    (H : CompilationUnit ts theEnd program) : Statements [] ts program.declarations := by
  obtain ⟨ds, hstatements, rfl⟩ := H
  simpa [Program.declarations] using hstatements

/-- An accepted source is derived from its tokens. -/
theorem CompilationUnit.of_parse {source : String} {program : Program} {table : SymbolTable}
    (h : TensorLet.parse source = .ok (program, table)) :
    ∃ ts, tokenize source = .ok (ts ++ [.endOfInput (byteLength source.toList)]) ∧
      (∀ t ∈ ts, t.FiniteNumber) ∧
      CompilationUnit ts (.endOfInput (byteLength source.toList)) program ∧
      table = .ofDeclarations program.declarations := by
  obtain ⟨c, p', hc, hunit, rfl⟩ := parse_eq_ok.mp h
  obtain ⟨ts, c', ds, hts, hend, hstatements, hprogram, hsymbols⟩ := Parse.unit_sound rfl rfl hunit
  obtain ⟨htokens, hfinite, hcurrent⟩ := (Cursor.ofText_reads_iff source ts c.current).mp
    ⟨c, c', hc, rfl, hts, hend⟩
  refine ⟨ts, htokens, hfinite, ⟨ds, hstatements, ?_⟩, ?_⟩
  · rw [hprogram, ← hcurrent]
  · rw [hsymbols, hprogram]
    simp [Program.declarations]

/-- A source whose tokens are derived is accepted. -/
theorem CompilationUnit.parse {source : String} {program : Program} {ts : List Token}
    (htokens : tokenize source = .ok (ts ++ [.endOfInput (byteLength source.toList)]))
    (hfinite : ∀ t ∈ ts, t.FiniteNumber)
    (H : CompilationUnit ts (.endOfInput (byteLength source.toList)) program) :
    TensorLet.parse source = .ok (program, .ofDeclarations program.declarations) := by
  obtain ⟨ds, hstatements, rfl⟩ := H
  obtain ⟨c, c', hc, hcurrent, hts, hend⟩ := (Cursor.ofText_reads_iff source ts _).mpr
    ⟨htokens, hfinite, rfl⟩
  obtain ⟨p', hunit, hsymbols⟩ :=
    hstatements.unit_isRead (p := ⟨c, .empty, .silent, 0, 0⟩) rfl rfl hts hend
  refine parse_eq_ok.mpr ⟨c, p', hc, ?_, ?_⟩
  · rw [← hcurrent]
    exact hunit
  · rw [hsymbols]
    simp [Program.declarations]

end Grammar

end TensorLet
