import Mathlib.Data.Set.Function
import TensorLet.Proofs.Evaluation
import TensorLet.Proofs.Parser.Lockstep
import TensorLet.Proofs.Scope

/-!
# Code does not depend on names, types and layout

Two sources whose tokens correspond one by one compile to the same code, or fail
with an error of the same kind. Their names may differ by an injective map, the
types of their declarations in any way, and blanks and comments as well.

The parsers of the two sources run in lockstep (`TensorLet.Parse.Lockstep`), so
their programs and symbol tables correspond. The code of a program reads names
only to look them up, and what it finds are slots, which are the same.

* `SymbolTable.Renamed.lookupBefore?`: corresponding names are found in the same
  slot.
* `Expr.Renamed.code`, `Program.Renamed.code`: corresponding trees have the same
  code.
* `compile_of_renamed`: the statement about sources.
-/

namespace TensorLet

open Machine (Code)

variable {N : String → String → Prop} {α β γ δ : Type}

/-! ## Outcomes -/

/-- Two values that are related, or two errors of one kind. -/
def SameOutcome (R : α → β → Prop) : Except Error α → Except Error β → Prop
  | .ok a, .ok b => R a b
  | .error e, .error e' => e.diagnostic.kind = e'.diagnostic.kind
  | _, _ => False

theorem SameOutcome.bind {R : α → β → Prop} {S : γ → δ → Prop} {x : Except Error α}
    {x' : Except Error β} {f : α → Except Error γ} {f' : β → Except Error δ}
    (hx : SameOutcome R x x')
    (hf : ∀ a b, x = .ok a → x' = .ok b → R a b → SameOutcome S (f a) (f' b)) :
    SameOutcome S (x >>= f) (x' >>= f') := by
  cases x with
  | ok a =>
    cases x' with
    | ok b => exact hf a b rfl rfl hx
    | error e' => exact hx.elim
  | error e =>
    cases x' with
    | ok b => exact hx.elim
    | error e' => exact hx

/-- Equal values or errors of one kind. -/
theorem sameOutcome_eq_iff {x x' : Except Error α} : SameOutcome Eq x x' ↔
    (∀ a, x = .ok a ↔ x' = .ok a) ∧
      ∀ e e', x = .error e → x' = .error e' → e.diagnostic.kind = e'.diagnostic.kind := by
  cases x with
  | ok a =>
    cases x' with
    | ok b => simp [SameOutcome]
    | error e' => simp [SameOutcome]
  | error e =>
    cases x' with
    | ok b => simp [SameOutcome]
    | error e' => simp [SameOutcome]

/-! ## Code -/

theorem find?_of_forall₂ (hN : Relator.BiUnique N) {x x' : String} (hx : N x x')
    {ss ss' : List Symbol} (h : List.Forall₂ (Symbol.Renamed N) ss ss') :
    Option.Rel (Symbol.Renamed N) (ss.find? (·.name = x)) (ss'.find? (·.name = x')) := by
  induction h with
  | nil => exact .none
  | @cons s s' _ _ hs _ ih =>
    have hiff := eq_iff_of_biUnique hN hs.name hx
    by_cases heq : s.name = x
    · rw [List.find?_cons_of_pos (by simpa using heq),
        List.find?_cons_of_pos (by simpa using hiff.mp heq)]
      exact .some hs
    · rw [List.find?_cons_of_neg (by simpa using heq),
        List.find?_cons_of_neg (by simpa using mt hiff.mpr heq)]
      exact ih

namespace SymbolTable.Renamed

variable {T T' : SymbolTable} (h : T.Renamed N T') (hN : Relator.BiUnique N) {x x' : String}
  (hx : N x x') (n : Nat)
include h hN hx

/-- Corresponding names are found in the same slot, or neither is found. -/
theorem lookupBefore? :
    Option.Rel (Symbol.Renamed N) (T.lookupBefore? x n) (T'.lookupBefore? x' n) :=
  find?_of_forall₂ hN hx (List.rel_reverse (List.forall₂_take n h.history))

/-- Uses of corresponding names refer to the same slot, or are wrong in the same
way. -/
theorem resolveUse (resolved : Option Storage) :
    (∃ s s', T.resolveUse n x resolved = .ok s ∧ T'.resolveUse n x' resolved = .ok s' ∧
      s.Renamed N s') ∨
    ∃ fault fault', T.resolveUse n x resolved = .error fault ∧
      T'.resolveUse n x' resolved = .error fault' ∧ fault.kind = fault'.kind := by
  unfold SymbolTable.resolveUse
  cases resolved with
  | none => exact .inr ⟨_, _, rfl, rfl, rfl⟩
  | some storage =>
    have hlookup := h.lookupBefore? hN hx n
    revert hlookup
    generalize T.lookupBefore? x n = found
    generalize T'.lookupBefore? x' n = found'
    intro hlookup
    cases hlookup with
    | none => exact .inr ⟨_, _, rfl, rfl, rfl⟩
    | @some s s' hs =>
      by_cases hstorage : s.storage = storage
      · have hstorage' : s'.storage = storage := hs.storage ▸ hstorage
        simp only [Option.filter, hstorage, hstorage', decide_true, if_true]
        exact .inl ⟨s, s', rfl, rfl, hs⟩
      · have hstorage' : s'.storage ≠ storage := hs.storage ▸ hstorage
        simp only [Option.filter, hstorage, hstorage', decide_false, Bool.false_eq_true, if_false]
        exact .inr ⟨_, _, rfl, rfl, rfl⟩

end SymbolTable.Renamed

/-- Corresponding trees have the same code, or fail in the same way. -/
theorem Expr.Renamed.code (hN : Relator.BiUnique N) {T T' : SymbolTable} (hT : T.Renamed N T')
    (n : Nat) {e e' : Expr} (h : e.Renamed N e') :
    SameOutcome Eq (e.code T n) (e'.code T' n) := by
  induction h with
  | binary _ _ ihl ihr =>
    refine ihl.bind ?_
    rintro l _ - - rfl
    refine ihr.bind ?_
    rintro r _ - - rfl
    rfl
  | @unary op _ _ _ _ _ ih =>
    unfold Expr.code
    cases op.arith? with
    | none => rfl
    | some arith =>
      refine ih.bind ?_
      rintro code _ - - rfl
      rfl
  | scalar => rfl
  | @name x x' resolved t t' hx =>
    unfold Expr.code
    rcases hT.resolveUse hN hx n resolved with ⟨s, s', hs, hs', hrenamed⟩ | ⟨f, f', hf, hf', hkind⟩
    · rw [hs, hs']
      show [Machine.Instr.push _ _] = [Machine.Instr.push _ _]
      rw [hrenamed.storage, hrenamed.index]
    · rw [hf, hf']
      exact hkind
  | tensor => rfl

/-- Declarations that a table records at the same place have the same code. -/
theorem Declaration.Renamed.code (hN : Relator.BiUnique N) {ds ds' : List Declaration}
    (hT : (SymbolTable.ofDeclarations ds).Renamed N (.ofDeclarations ds')) {n : Nat}
    {d d' : Declaration} (h : d.Renamed N d') (hd : ds[n]? = some d) (hd' : ds'[n]? = some d')
    (hlocal : d.storage = .localVar) (hlocal' : d'.storage = .localVar) :
    SameOutcome Eq (d.code (.ofDeclarations ds) n) (d'.code (.ofDeclarations ds') n) := by
  refine (h.rhs.code hN hT n).bind ?_
  rintro code _ - - rfl
  rw [SymbolTable.recorded_ofDeclarations hd hlocal, SymbolTable.recorded_ofDeclarations hd' hlocal']
  rfl

/-- The declarations behind the first `n` have the same code. -/
theorem declarationsCode_of_renamed (hN : Relator.BiUnique N) {ds ds' : List Declaration}
    (hT : (SymbolTable.ofDeclarations ds).Renamed N (.ofDeclarations ds'))
    (hlocal : ∀ d ∈ ds, d.storage = .localVar) (hlocal' : ∀ d ∈ ds', d.storage = .localVar)
    {rest rest' : List Declaration} (h : List.Forall₂ (Declaration.Renamed N) rest rest') :
    ∀ n, ds.drop n = rest → ds'.drop n = rest' →
      SameOutcome Eq (declarationsCode (.ofDeclarations ds) n rest)
        (declarationsCode (.ofDeclarations ds') n rest') := by
  induction h with
  | nil => intro n _ _; rfl
  | @cons d d' rest rest' hd hrest ih =>
    intro n hn hn'
    have hget : ds[n]? = some d := by rw [← List.head?_drop, hn]; rfl
    have hget' : ds'[n]? = some d' := by rw [← List.head?_drop, hn']; rfl
    refine (hd.code hN hT hget hget' (hlocal d (List.mem_of_getElem? hget))
      (hlocal' d' (List.mem_of_getElem? hget'))).bind ?_
    rintro code _ - - rfl
    refine (ih (n + 1) ?_ ?_).bind ?_
    · rw [← List.tail_drop, hn]; rfl
    · rw [← List.tail_drop, hn']; rfl
    · rintro more _ - - rfl
      rfl

/-- Accepted sources with corresponding programs have the same code. -/
theorem Program.Renamed.code (hN : Relator.BiUnique N) {source source' : String}
    {program program' : Program} {T T' : SymbolTable} (h : program.Renamed N program')
    (hT : T.Renamed N T') (hparse : parse source = .ok (program, T))
    (hparse' : parse source' = .ok (program', T')) :
    SameOutcome Eq (program.code T) (program'.code T') := by
  obtain ⟨ts, -, -, hunit, rfl⟩ := Grammar.CompilationUnit.of_parse hparse
  obtain ⟨ts', -, -, hunit', rfl⟩ := Grammar.CompilationUnit.of_parse hparse'
  have hdeclarations := declarationsCode_of_renamed hN hT hunit.statements.storage
    hunit'.statements.storage h 0 rfl rfl
  refine hdeclarations.bind ?_
  rintro code _ - - rfl
  rw [if_pos (SymbolTable.size_ofDeclarations _), if_pos (SymbolTable.size_ofDeclarations _)]
  rfl

/-! ## Sources -/

/-- Sources with corresponding tokens have corresponding programs and symbols, or
are refused with an error of one kind. -/
theorem parse_of_renamed (hN : Relator.BiUnique N) {source source' : String}
    {ts ts' : List Token} (hts : (Scan.ofText source).items = ts.map .ok)
    (hts' : (Scan.ofText source').items = ts'.map .ok)
    (h : List.Forall₂ (Token.Renamed N) ts ts') :
    SameOutcome (fun r r' => r.1.Renamed N r'.1 ∧ r.2.Renamed N r'.2) (parse source)
      (parse source') := by
  have hc := Cursor.ofText_eq_ofTokens hts
  have hc' := Cursor.ofText_eq_ofTokens hts'
  have hagrees := Cursor.ofTokens_agrees (byteLength source.toList) (byteLength source'.toList) h
  have hunit := Parse.unit_lockstep hN _ _ (Parser.agrees_start hagrees)
  rcases Parse.Meets.zero hunit with ⟨program, program', p, p', hr, hr', hprogram, hp⟩ |
    ⟨e, e', p, p', hr, hr', hkind⟩
  · rw [parse_eq_ok.mpr ⟨_, p, hc, hr, rfl⟩, parse_eq_ok.mpr ⟨_, p', hc', hr', rfl⟩]
    exact ⟨hprogram, hp.symbols⟩
  · rw [parse_eq_error.mpr (.inr ⟨_, p, hc, hr⟩), parse_eq_error.mpr (.inr ⟨_, p', hc', hr'⟩)]
    exact hkind

/-- The names that occur among some tokens. -/
def namesOf (ts : List Token) : Set String :=
  { x | ∃ t ∈ ts, t.kind = .identifier ∧ t.lexeme = x }

/-- The tokens of a source are its pieces and the end behind them. -/
theorem exists_items_of_tokenize {source : String} {ts : List Token}
    (h : tokenize source = .ok ts) : ∃ us, ts = us ++ [.endOfInput (byteLength source.toList)] ∧
      (Scan.ofText source).items = us.map .ok := by
  obtain ⟨us, hus, hts⟩ := except_bind_eq_ok.mp h
  cases hts
  exact ⟨us, rfl, (mapM_id_eq_ok_iff _ us).mp hus⟩

/-- A map that is injective on the names of a source relates them one-to-one. -/
theorem biUnique_of_injOn {f : String → String} {names : Set String} (hf : Set.InjOn f names) :
    Relator.BiUnique fun x x' => x ∈ names ∧ f x = x' := by
  refine ⟨?_, ?_⟩
  · rintro x y x' ⟨hx, rfl⟩ ⟨hy, hxy⟩
    exact hf hx hy hxy.symm
  · rintro x x' y' ⟨-, rfl⟩ ⟨-, rfl⟩
    rfl

/-- Code does not depend on layout, names and declared types. If the tokens of
two sources correspond position by position, the names by a map that is injective
on those of the first source, names of types by any names of types and all other
lexemes by equality, then both compile to the same code, or both fail with errors
of one kind. -/
theorem compile_of_renamed {source source' : String} {ts ts' : List Token} {f : String → String}
    (hts : tokenize source = .ok ts) (hts' : tokenize source' = .ok ts')
    (hf : Set.InjOn f (namesOf ts))
    (h : List.Forall₂ (Token.Renamed fun x x' => f x = x') ts ts') :
    (∀ code, compile source = .ok code ↔ compile source' = .ok code) ∧
      ∀ e e', compile source = .error e → compile source' = .error e' →
        e.diagnostic.kind = e'.diagnostic.kind := by
  have hN := biUnique_of_injOn hf
  -- Of each name it is recorded that it is one of the first source.
  have hrenamed : List.Forall₂ (Token.Renamed fun x x' => x ∈ namesOf ts ∧ f x = x') ts ts' := by
    refine ((List.forall₂_and_left ts ts').mpr ⟨fun t (ht : t ∈ ts) => ht, h⟩).imp ?_
    rintro t t' ⟨hmem, ht⟩
    exact ⟨ht.kind, fun hk => ⟨⟨t, hmem, hk, rfl⟩, ht.name hk⟩, ht.lexeme⟩
  obtain ⟨us, rfl, hus⟩ := exists_items_of_tokenize hts
  obtain ⟨us', rfl, hus'⟩ := exists_items_of_tokenize hts'
  have hlength : us.length = us'.length := by simpa using h.length_eq
  have hpieces := List.forall₂_take us.length hrenamed
  rw [List.take_left, hlength, List.take_left] at hpieces
  refine sameOutcome_eq_iff.mp ((parse_of_renamed hN hus hus' hpieces).bind ?_)
  rintro ⟨program, T⟩ ⟨program', T'⟩ hparse hparse' ⟨hprogram, hT⟩
  exact hprogram.code hN hT hparse hparse'

/-- The names `a` and `b` in each other's place. -/
def swapped (x : String) : String := if x = "a" then "b" else if x = "b" then "a" else x

/-- Names exchanged where one of them is declared twice, with other types, blanks
and a comment. -/
theorem compile_of_renamed_swapped : ∃ ts ts' code,
    tokenize "let int a = 2; let int b = a; let int a = b * a;" = .ok ts ∧
    tokenize "let tensor b=2;# b\n let float a = b; let int b = a*b;" = .ok ts' ∧
    Set.InjOn swapped (namesOf ts) ∧
    List.Forall₂ (Token.Renamed fun x x' => swapped x = x') ts ts' ∧
    compile "let int a = 2; let int b = a; let int a = b * a;" = .ok code ∧
    compile "let tensor b=2;# b\n let float a = b; let int b = a*b;" = .ok code := by
  have hswapped : Function.Involutive swapped := by
    intro x
    by_cases ha : x = "a"
    · simp [swapped, ha]
    · by_cases hb : x = "b"
      · simp [swapped, hb]
      · simp [swapped, ha, hb]
  have htest : (tokenize "let int a = 2; let int b = a; let int a = b * a;").toOption.any (fun ts =>
      (tokenize "let tensor b=2;# b\n let float a = b; let int b = a*b;").toOption.any fun ts' =>
        decide (List.Forall₂ (Token.Renamed fun x x' => swapped x = x') ts ts')) = true := by
    decide +kernel
  obtain ⟨ts, hts, htest⟩ := exists_ok_of_any htest
  obtain ⟨ts', hts', htest⟩ := exists_ok_of_any htest
  have hrenamed := of_decide_eq_true htest
  have hinjOn : Set.InjOn swapped (namesOf ts) := hswapped.injective.injOn
  obtain ⟨code, hcode, -⟩ := exists_ok_of_any (p := fun _ => true)
    (x := compile "let int a = 2; let int b = a; let int a = b * a;") (by decide +kernel)
  exact ⟨ts, ts', code, hts, hts', hinjOn, hrenamed, hcode,
    ((compile_of_renamed hts hts' hinjOn hrenamed).1 code).mp hcode⟩

end TensorLet
