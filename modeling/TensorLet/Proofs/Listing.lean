import TensorLet.Proofs.Listing.Rows
import TensorLet.Proofs.Tensor.Literals

/-!
# What the listing of a program tells

The listing of an accepted source leaves out no more than tokens, the forms of numbers
and the extents of tensor literals. What names resolve to is not written either, but it
follows from the declarations before them.

* `Grammar.Statements.writable`: what an accepted source declares can be written.
* `Grammar.Statements.rows_append_inj`: the rows of two blocks tell their declarations
  apart.
* `Program.erased_eq_of_listing_eq`: the same for whole programs.
* `listing_determines_program`: what a listing tells, and how it is written.
-/

namespace TensorLet

open Outline (IsRow)
open Outline.Step (rows)

/-! ## Accepted sources -/

/-- A token as it is scanned from an accepted source. -/
structure Token.IsScanned (t : Token) : Prop where
  finite : t.FiniteNumber
  name : t.kind = .identifier → Lexeme .identifier t.lexeme.toList

namespace Grammar

variable {scope : String → Option Storage} {phrase : Phrase} {n h : Nat} {ts : List Token}
  {names : List String}

/-- Trees of scanned tokens can be written. -/
theorem Derives.writable {e : Expr} (H : Derives scope phrase n h ts e)
    (hts : ∀ t ∈ ts, t.IsScanned) : e.Writable := by
  induction H with
  | expression _ ih => exact ih hts
  | term _ ih => exact ih hts
  | first _ ih => exact ih hts
  | primary _ ih => exact ih hts
  | next _ _ _ _ _ ihleft ihright =>
    exact ⟨ihleft fun t ht => hts t (by simp [ht]), ihright fun t ht => hts t (by simp [ht])⟩
  | parentheses _ _ _ _ ih => exact ih fun t ht => hts t (by simp [ht])
  | number ht hs =>
    refine ⟨isFinite_of_finiteNumber (hts _ List.mem_cons_self).finite ht hs, ?_⟩
    obtain ⟨d, -, rfl⟩ := Option.map_eq_some_iff.mp hs
    rfl
  | name ht => exact (hts _ List.mem_cons_self).name ht
  | tensor hliteral =>
    obtain ⟨_, -, -, hsparse, -⟩ := hliteral.exists_row fun t ht => (hts t ht).finite
    cases hliteral with
    | empty => exact hsparse
    | filled => exact hsparse
  | sign _ _ _ ih => exact ih fun t ht => hts t (by simp [ht])

theorem Declares.writable {d : Declaration} (H : Declares names ts d)
    (hts : ∀ t ∈ ts, t.IsScanned) : d.Writable := by
  cases H with
  | intro _ _ hname _ hrhs _ =>
    exact ⟨rfl, (hts _ (by simp)).name hname, hrhs.writable fun t ht => hts t (by simp [ht])⟩

theorem Declares.resolved {d : Declaration} (H : Declares names ts d) :
    ∀ node ∈ d.rhs.nodes, node.Resolved (visible names) := by
  cases H with
  | intro _ _ _ _ hrhs _ => exact fun node hnode => (hrhs.nodes node hnode).2

theorem Statements.writable {ds : List Declaration} (H : Statements names ts ds)
    (hts : ∀ t ∈ ts, t.IsScanned) : ∀ d ∈ ds, d.Writable := by
  induction H with
  | nil => exact nofun
  | cons hd _ ih =>
    rw [List.forall_mem_cons]
    exact ⟨hd.writable fun t ht => hts t (by simp [ht]), ih fun t ht => hts t (by simp [ht])⟩

/-- The rows of two blocks tell their declarations apart. What was told so far is the
scope of what follows, so names are resolved to the same storage in both. -/
theorem Statements.rows_append_inj {ts' : List Token} {ds ds' : List Declaration}
    {r r' : List String} (H : Statements names ts ds) (H' : Statements names ts' ds')
    (hds : ∀ d ∈ ds, d.Writable) (hds' : ∀ d ∈ ds', d.Writable)
    (h : ds.flatMap (fun d => rows d.steps) ++ "</statements>" :: r =
      ds'.flatMap (fun d => rows d.steps) ++ "</statements>" :: r') :
    ds.map Declaration.erased = ds'.map Declaration.erased := by
  induction H generalizing ts' ds' with
  | nil =>
    cases H' with
    | nil => rfl
    | cons _ _ => simp [Declaration.rows_steps] at h
  | @cons names _ _ d ds hd _ ih =>
    cases H' with
    | nil => simp [Declaration.rows_steps] at h
    | @cons _ _ _ d' ds' hd' hrest' =>
      rw [List.forall_mem_cons] at hds hds'
      rw [List.flatMap_cons, List.flatMap_cons, List.append_assoc, List.append_assoc] at h
      obtain ⟨hfirst, hrows⟩ :=
        Declaration.rows_append_inj hds.1 hds'.1 hd.resolved hd'.resolved h
      have hname : d.name = d'.name := (Declaration.mk.inj hfirst).2.1
      rw [← hname] at hrest'
      rw [List.map_cons, List.map_cons, hfirst, ih hrest' hds.2 hds'.2 hrows]

theorem isScanned_of_mem_tokenize {source : String} {ts : List Token} {theEnd : Token}
    (h : tokenize source = .ok (ts ++ [theEnd])) (hfinite : ∀ t ∈ ts, t.FiniteNumber) :
    ∀ t ∈ ts, t.IsScanned := by
  intro t ht
  refine ⟨hfinite t ht, fun hkind => ?_⟩
  have hend : t.isEnd = false := by
    rw [Token.isEnd, hkind]
    rfl
  have hlexeme := lexeme_of_mem_tokenize h (List.mem_append_left _ ht) hend
  rwa [hkind] at hlexeme

/-- An accepted source is one block of declarations that can be written. -/
theorem exists_block_of_parse {source : String} {program : Program} {table : SymbolTable}
    (h : TensorLet.parse source = .ok (program, table)) : ∃ ts token ds,
      program = ⟨unitLabel, token, [⟨token, ds⟩]⟩ ∧ Statements [] ts ds ∧
        ∀ d ∈ ds, d.Writable := by
  obtain ⟨ts, htokens, hfinite, ⟨ds, hstatements, hprogram⟩, -⟩ := CompilationUnit.of_parse h
  refine ⟨ts, _, ds, hprogram, hstatements, ?_⟩
  exact hstatements.writable (isScanned_of_mem_tokenize htokens hfinite)

end Grammar

/-! ## Whole programs -/

theorem Program.rows_block (token : Token) (ds : List Declaration) :
    rows (Program.mk unitLabel token [⟨token, ds⟩]).steps =
      "<compilation_unit>" :: "<statements>" ::
        (ds.flatMap (fun d => rows d.steps) ++ ["</statements>", "</compilation_unit>"]) := by
  simp [steps, Block.steps, unitLabel]

/-- Every row of a block of declarations fills one line. -/
theorem Program.isRow_of_mem_rows {token : Token} {ds : List Declaration}
    (h : ∀ d ∈ ds, d.Writable) :
    ∀ row ∈ rows (Program.mk unitLabel token [⟨token, ds⟩]).steps, IsRow row := by
  intro row hrow
  rw [rows_block, List.mem_cons, List.mem_cons, List.mem_append, List.mem_flatMap] at hrow
  rcases hrow with rfl | rfl | ⟨d, hd, hrow⟩ | hrow
  · decide
  · decide
  · exact Declaration.isRow_of_mem_rows (h d hd) row hrow
  · revert row
    decide

/-- Equal listings of accepted sources are of the same rows, so nothing but what is
erased can differ. -/
theorem Program.erased_eq_of_listing_eq {source source' : String} {program program' : Program}
    {table table' : SymbolTable} (h : parse source = .ok (program, table))
    (h' : parse source' = .ok (program', table')) (heq : program.listing = program'.listing) :
    program.erased = program'.erased := by
  obtain ⟨ts, token, ds, rfl, hstatements, hds⟩ := Grammar.exists_block_of_parse h
  obtain ⟨ts', token', ds', rfl, hstatements', hds'⟩ := Grammar.exists_block_of_parse h'
  have hrows : ∀ {token : Token} {ds : List Declaration}, (∀ d ∈ ds, d.Writable) →
      ∀ row ∈ ((Program.mk unitLabel token [⟨token, ds⟩]).list .empty).rows, IsRow row := by
    intro token ds hds
    rw [rows_list]
    exact isRow_of_mem_rows hds
  have hblocks := Outline.rows_eq_of_text_eq (hrows hds) (hrows hds') heq
  rw [rows_list, rows_list, rows_block, rows_block] at hblocks
  have hdeclarations := hstatements.rows_append_inj hstatements' hds hds'
    (List.cons.inj (List.cons.inj hblocks).2).2
  simp only [erased, Block.erased, List.map_cons, List.map_nil, hdeclarations]

theorem Program.listing_eq_of_erased_eq {program program' : Program}
    (h : program.erased = program'.erased) : program.listing = program'.listing := by
  rw [listing, listing, list_eq, list_eq, ← steps_erased, h, steps_erased]

/-- The listings of accepted sources are equal exactly when their programs are, up to
tokens, the forms of numbers and the extents of tensor literals. And the listing of
any program, accepted or not, is written in steps that never go back from the outermost
level and that end there. -/
theorem listing_determines_program :
    (∀ {source source' : String} {program program' : Program} {table table' : SymbolTable},
      parse source = .ok (program, table) → parse source' = .ok (program', table') →
      (program.listing = program'.listing ↔ program.erased = program'.erased)) ∧
    ∀ program : Program,
      (∀ o, program.list o = program.steps.foldl Outline.step o) ∧
      program.steps.foldlM Outline.step? .empty = some (program.list .empty) ∧
      (program.list .empty).depth = 0 := by
  refine ⟨fun h h' => ?_, fun program => ⟨program.list_eq, ?_⟩⟩
  · exact ⟨Program.erased_eq_of_listing_eq h h', Program.listing_eq_of_erased_eq⟩
  · obtain ⟨hrun, hdepth⟩ := program.balanced_steps.foldlM_step? .empty
    rw [program.list_eq]
    exact ⟨hrun, hdepth⟩

/-- A program in two spellings. In both, one minus sign is an operator before its
operand, one stands between operands, and one belongs to a number. -/
theorem listing_determines_program_respelled : ∃ program table program' table',
    parse "let int a = 1; let tensor b = -a - \x7b0, -1\x7d;" = .ok (program, table) ∧
      parse "let int a = 1.; let tensor b = ((-a) - \x7b0.0, -1, 0\x7d);" = .ok (program', table') ∧
      program.tensors ≠ program'.tensors ∧ program.listing = program'.listing ∧
      program.erased = program'.erased := by
  obtain ⟨program, table, hparse, htest⟩ := exists_of_parse_any
    (s := "let int a = 1; let tensor b = -a - \x7b0, -1\x7d;")
    (p := fun r =>
      (parse "let int a = 1.; let tensor b = ((-a) - \x7b0.0, -1, 0\x7d);").toOption.any fun r' =>
        r.1.tensors ≠ r'.1.tensors ∧ (r.1.list .empty).lines = (r'.1.list .empty).lines)
    (by decide +kernel)
  obtain ⟨program', table', hparse', htest'⟩ := exists_of_parse_any htest
  obtain ⟨htensors, hlines⟩ := of_decide_eq_true htest'
  have hlisting : program.listing = program'.listing := by
    rw [Program.listing, Program.listing, Outline.text, Outline.text, hlines]
  exact ⟨program, table, program', table', hparse, hparse', htensors, hlisting,
    (listing_determines_program.1 hparse hparse').mp hlisting⟩

end TensorLet
