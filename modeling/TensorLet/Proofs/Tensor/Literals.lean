import TensorLet.Proofs.Tensor.Dense
import Mathlib.Data.List.Forall2

/-!
# What a tensor literal writes

The tokens of a source write nested lists of numbers, one for each outermost pair
of braces. The tensor literals of an accepted source are these lists without
their zeros.

* `Dense.Row`, `Dense.Literals`: the nested lists that tokens write.
* `Dense.Literals.unique`: tokens write no other lists.
* `Grammar.Literal.exists_row`: filled in, a literal of the grammar is what its
  tokens write.
* `tensors_exact`: the same for every tensor literal of an accepted source.
-/

namespace TensorLet

namespace Dense

/-! ## The nested lists that tokens write -/

mutual
/-- `'{' [element (',' element)*] '}'` writes its elements. -/
inductive Row : List Token → List Dense → Prop
  | empty {l r : Token} : l.isSymbol '\x7b' = true → r.isSymbol '\x7d' = true → Row [l, r] []
  | filled {l r : Token} {ts : List Token} {ds : List Dense} : l.isSymbol '\x7b' = true →
      Elements ts ds → r.isSymbol '\x7d' = true → Row (l :: (ts ++ [r])) ds
/-- `element (',' element)*` -/
inductive Elements : List Token → List Dense → Prop
  | last {ts : List Token} {d : Dense} : Element ts d → Elements ts [d]
  | more {ts us : List Token} {comma : Token} {d : Dense} {ds : List Dense} : Element ts d →
      comma.isSymbol ',' = true → Elements us ds → Elements (ts ++ comma :: us) (d :: ds)
/-- An element is a pair of braces, or a number that a `-` may negate. -/
inductive Element : List Token → Dense → Prop
  | braces {ts : List Token} {ds : List Dense} : Row ts ds → Element ts (.row ds)
  | number {t : Token} {s : Scalar} : t.isNumber = true → t.number? = some s →
      Element [t] (ofNumber s.value)
  | negative {minus t : Token} {s : Scalar} : minus.isSymbol '-' = true → t.isNumber = true →
      t.number? = some s → Element [minus, t] (ofNumber s.value.negate)
end

/-- True of both braces. -/
def isBrace (t : Token) : Bool := t.isSymbol '\x7b' || t.isSymbol '\x7d'

/-- The tensor literals among some tokens in order: outside of them there is no
brace. -/
inductive Literals : List Token → List Dense → Prop
  | nil : Literals [] []
  | other {t : Token} {ts : List Token} {ds : List Dense} : isBrace t = false →
      Literals ts ds → Literals (t :: ts) ds
  | literal {us ts : List Token} {elements : List Dense} {ds : List Dense} : Row us elements →
      Literals ts ds → Literals (us ++ ts) (.row elements :: ds)

theorem Literals.append {ts us : List Token} {ds es : List Dense} (h : Literals ts ds)
    (h' : Literals us es) : Literals (ts ++ us) (ds ++ es) := by
  induction h with
  | nil => exact h'
  | other ht _ ih => exact .other ht ih
  | literal hrow _ ih =>
    rw [List.append_assoc]
    exact .literal hrow ih

theorem Literals.singleton {t : Token} (ht : isBrace t = false) : Literals [t] [] := .other ht .nil

theorem isBrace_of_isSymbol {t : Token} {c : Char} (ht : t.isSymbol c = true) (hl : c ≠ '\x7b')
    (hr : c ≠ '\x7d') : isBrace t = false := by
  rw [isBrace, Token.isSymbol_eq_false ht hl.symm, Token.isSymbol_eq_false ht hr.symm]
  rfl

theorem isBrace_of_kind {t : Token} {k : TokenKind} (ht : t.kind = k) (hk : k ≠ .symbol) :
    isBrace t = false := by
  rw [isBrace, Token.isSymbol_eq_false_of_kind ht hk, Token.isSymbol_eq_false_of_kind ht hk]
  rfl

theorem isBrace_of_isNumber {t : Token} (ht : t.isNumber = true) : isBrace t = false := by
  rw [isBrace, Token.isSymbol_eq_false_of_isNumber ht, Token.isSymbol_eq_false_of_isNumber ht]
  rfl

/-! ## Tokens write one nested list -/

theorem Row.exists_cons {ts : List Token} {ds : List Dense} (h : Row ts ds) :
    ∃ l us, ts = l :: us ∧ l.isSymbol '\x7b' = true := by
  cases h with
  | empty hl _ => exact ⟨_, _, rfl, hl⟩
  | filled hl _ _ => exact ⟨_, _, rfl, hl⟩

/-- An element does not start with the brace that ends a row. -/
theorem Element.exists_cons {ts : List Token} {d : Dense} (h : Element ts d) :
    ∃ t us, ts = t :: us ∧ t.isSymbol '\x7d' = false := by
  cases h with
  | braces hrow =>
    obtain ⟨l, us, rfl, hl⟩ := hrow.exists_cons
    exact ⟨l, us, rfl, Token.isSymbol_eq_false hl (by decide)⟩
  | number ht _ => exact ⟨_, _, rfl, Token.isSymbol_eq_false_of_isNumber ht _⟩
  | negative hminus _ _ => exact ⟨_, _, rfl, Token.isSymbol_eq_false hminus (by decide)⟩

theorem Elements.exists_cons {ts : List Token} {ds : List Dense} (h : Elements ts ds) :
    ∃ t us, ts = t :: us ∧ t.isSymbol '\x7d' = false := by
  cases h with
  | last h => exact h.exists_cons
  | more h _ _ =>
    obtain ⟨t, us, rfl, ht⟩ := h.exists_cons
    exact ⟨t, _, rfl, ht⟩

-- Two rows in front of more tokens are compared from their first brace on. The
-- one cannot end before the other, since what ends an element is no part of it.
mutual
theorem Row.unique {ts us vs ws : List Token} {ds es : List Dense} :
    Row ts ds → Row us es → ts ++ vs = us ++ ws → ds = es ∧ vs = ws
  | .empty _ _, .empty _ _, h => by
    cases h
    exact ⟨rfl, rfl⟩
  | .empty _ hr, .filled _ hes _, h => by
    obtain ⟨t, us, rfl, ht⟩ := hes.exists_cons
    cases h
    rw [hr] at ht
    cases ht
  | .filled _ hds _, .empty _ hr, h => by
    obtain ⟨t, us, rfl, ht⟩ := hds.exists_cons
    cases h
    rw [hr] at ht
    cases ht
  | .filled _ hds hr, .filled _ hes hr', h => by
    simp only [List.cons_append, List.append_assoc, List.nil_append, List.cons.injEq] at h
    exact hds.unique hes hr hr' h.2
theorem Elements.unique {ts us vs ws : List Token} {r r' : Token} {ds es : List Dense} :
    Elements ts ds → Elements us es → r.isSymbol '\x7d' = true → r'.isSymbol '\x7d' = true →
      ts ++ r :: vs = us ++ r' :: ws → ds = es ∧ vs = ws
  | .last hd, .last he, hr, hr', h => by
    obtain ⟨rfl, h⟩ := hd.unique he h
    cases h
    exact ⟨rfl, rfl⟩
  | .last hd, .more he hcomma _, hr, hr', h => by
    rw [List.append_assoc] at h
    obtain ⟨rfl, h⟩ := hd.unique he h
    cases h
    rw [Token.isSymbol_eq_false hcomma (by decide)] at hr
    cases hr
  | .more hd hcomma _, .last he, hr, hr', h => by
    rw [List.append_assoc] at h
    obtain ⟨rfl, h⟩ := hd.unique he h
    cases h
    rw [Token.isSymbol_eq_false hcomma (by decide)] at hr'
    cases hr'
  | .more hd _ hds, .more he _ hes, hr, hr', h => by
    rw [List.append_assoc, List.append_assoc] at h
    obtain ⟨rfl, h⟩ := hd.unique he h
    obtain ⟨rfl, hrest⟩ := hds.unique hes hr hr' (List.cons.inj h).2
    exact ⟨rfl, hrest⟩
theorem Element.unique {ts us vs ws : List Token} {d e : Dense} :
    Element ts d → Element us e → ts ++ vs = us ++ ws → d = e ∧ vs = ws
  | .braces hds, .braces hes, h => by
    obtain ⟨rfl, hrest⟩ := hds.unique hes h
    exact ⟨rfl, hrest⟩
  | .number _ hs, .number _ hs', h => by
    cases h
    rw [hs] at hs'
    cases hs'
    exact ⟨rfl, rfl⟩
  | .negative _ _ hs, .negative _ _ hs', h => by
    cases h
    rw [hs] at hs'
    cases hs'
    exact ⟨rfl, rfl⟩
  | .braces hds, .number ht _, h => by
    obtain ⟨l, ts, rfl, hl⟩ := hds.exists_cons
    cases h
    rw [Token.isSymbol_eq_false_of_isNumber ht] at hl
    cases hl
  | .number ht _, .braces hes, h => by
    obtain ⟨l, us, rfl, hl⟩ := hes.exists_cons
    cases h
    rw [Token.isSymbol_eq_false_of_isNumber ht] at hl
    cases hl
  | .braces hds, .negative hminus _ _, h => by
    obtain ⟨l, ts, rfl, hl⟩ := hds.exists_cons
    obtain ⟨rfl, -⟩ := List.cons.inj h
    rw [Token.isSymbol_eq_false hminus (by decide)] at hl
    cases hl
  | .negative hminus _ _, .braces hes, h => by
    obtain ⟨l, us, rfl, hl⟩ := hes.exists_cons
    obtain ⟨rfl, -⟩ := List.cons.inj h
    rw [Token.isSymbol_eq_false hminus (by decide)] at hl
    cases hl
  | .number ht _, .negative hminus _ _, h => by
    cases h
    rw [Token.isSymbol_eq_false_of_isNumber ht] at hminus
    cases hminus
  | .negative hminus _ _, .number ht _, h => by
    cases h
    rw [Token.isSymbol_eq_false_of_isNumber ht] at hminus
    cases hminus
end

/-- The tokens determine the literals that they write. -/
theorem Literals.unique {ts : List Token} {ds es : List Dense} (h : Literals ts ds)
    (h' : Literals ts es) : ds = es := by
  induction h generalizing es with
  | nil =>
    generalize hts : ([] : List Token) = ts at h'
    cases h' with
    | nil => rfl
    | other => cases hts
    | literal hrow _ =>
      obtain ⟨l, us, rfl, -⟩ := hrow.exists_cons
      cases hts
  | @other t ts ds ht _ ih =>
    generalize hts : t :: ts = us at h'
    cases h' with
    | nil => cases hts
    | other _ hrest =>
      cases hts
      exact ih hrest
    | literal hrow _ =>
      obtain ⟨l, us, rfl, hl⟩ := hrow.exists_cons
      cases hts
      rw [isBrace, hl] at ht
      cases ht
  | @literal us ts elements ds hrow _ ih =>
    generalize hts : us ++ ts = vs at h'
    cases h' with
    | nil =>
      obtain ⟨l, us, rfl, -⟩ := hrow.exists_cons
      cases hts
    | other ht _ =>
      obtain ⟨l, us, rfl, hl⟩ := hrow.exists_cons
      cases hts
      rw [isBrace, hl] at ht
      cases ht
    | literal hrow' hrest =>
      obtain ⟨rfl, rfl⟩ := hrow.unique hrow' hts
      rw [ih hrest]

end Dense

/-! ## Literals of the grammar -/

namespace Grammar

open Tensor (dense areSparse)

/-- What an element that may be stored stands for. -/
def filled (e : Option Tensor) : Dense := (e.map dense).getD .zero

/-- Behind the position of an element stand the others. -/
theorem lookup_entries_of_lt {i : Nat} : ∀ (es : List (Option Tensor)) (low : Nat), i < low →
    (entries low es).lookup i = none := by
  intro es
  induction es with
  | nil => exact fun _ _ => rfl
  | cons e es ih =>
    intro low hi
    have hrest := ih (low + 1) (by omega)
    cases e with
    | none => exact hrest
    | some t =>
      show ((low, t) :: entries (low + 1) es).lookup i = none
      rw [List.lookup_cons, beq_false_of_ne (by omega)]
      exact hrest

/-- Every element is stored at its position, if at all. -/
theorem lookup_entries : ∀ (es : List (Option Tensor)) (low i : Nat),
    (entries low es).lookup (low + i) = es[i]?.join := by
  intro es
  induction es with
  | nil => exact fun _ _ => rfl
  | cons e es ih =>
    intro low i
    cases i with
    | zero =>
      cases e with
      | none => exact lookup_entries_of_lt es (low + 1) (Nat.lt_succ_self low)
      | some t =>
        show ((low, t) :: entries (low + 1) es).lookup low = some t
        rw [List.lookup_cons, beq_self_eq_true]
    | succ i =>
      have hrest := ih (low + 1) i
      rw [Nat.add_assoc, Nat.add_comm 1] at hrest
      rw [List.getElem?_cons_succ, ← hrest]
      cases e with
      | none => rfl
      | some t =>
        show ((low, t) :: entries (low + 1) es).lookup (low + (i + 1)) = _
        rw [List.lookup_cons, beq_false_of_ne (by omega)]

/-- Filling in the zeros gives back all elements. -/
theorem dense_node_entries (es : List (Option Tensor)) :
    dense (.node es.length (entries 0 es)) = .row (es.map filled) := by
  rw [dense]
  congr 1
  refine List.ext_getElem? fun i => ?_
  have hlookup := lookup_entries es 0 i
  rw [Nat.zero_add] at hlookup
  rw [Tensor.getElem?_dense_node, List.getElem?_map, hlookup]
  by_cases hi : i < es.length
  · rw [if_pos hi, List.getElem?_eq_getElem hi]
    rfl
  · rw [if_neg hi, List.getElem?_eq_none (by omega)]
    rfl

/-- The stored elements of a literal stand in order. -/
theorem areSparse_entries {extent : Nat} : ∀ (es : List (Option Tensor)) (low low' : Nat),
    low' ≤ low → low + es.length ≤ extent → (∀ e ∈ es, ∀ t ∈ e, t.isSparse = true) →
    areSparse extent low' (entries low es) = true := by
  intro es
  induction es with
  | nil => exact fun _ _ _ _ _ => rfl
  | cons e es ih =>
    intro low low' hle hextent hes
    rw [List.length_cons] at hextent
    have hrest : ∀ e ∈ es, ∀ t ∈ e, t.isSparse = true :=
      fun e he => hes e (List.mem_cons_of_mem _ he)
    cases e with
    | none => exact ih (low + 1) low' (by omega) (by omega) hrest
    | some t =>
      exact Tensor.areSparse_cons.mpr ⟨hle, by omega, hes _ List.mem_cons_self t rfl,
        ih (low + 1) (low + 1) (Nat.le_refl _) (by omega) hrest⟩

/-- The greatest depth of what is stored is that of one of the elements. -/
theorem maxDepth_entries_le {k : Nat} : ∀ (es : List (Option Tensor)) (low : Nat),
    (∀ e ∈ es, ∀ t ∈ e, t.depth ≤ k) → Tensor.maxDepth (entries low es) ≤ k := by
  intro es
  induction es with
  | nil => exact fun _ _ => Nat.zero_le k
  | cons e es ih =>
    intro low hes
    have hrest := ih (low + 1) fun e he => hes e (List.mem_cons_of_mem _ he)
    cases e with
    | none => exact hrest
    | some t => exact Nat.max_le.mpr ⟨hes _ List.mem_cons_self t rfl, hrest⟩

/-- A finite number is stored unless it is zero. -/
theorem stored_exact {n : Nat} {s : Scalar} (hn : n ≤ maxNesting)
    (hfinite : s.value.isFinite = true) :
    Dense.ofNumber s.value = filled (stored s) ∧
      ∀ t ∈ stored s, t.isSparse = true ∧ n + t.depth ≤ maxNesting := by
  by_cases hzero : s.value.isZero = true
  · simp [Dense.ofNumber, filled, stored, hzero]
  · simp [Dense.ofNumber, filled, stored, hzero, dense, Tensor.isSparse, hfinite, Tensor.depth, hn]

theorem isFinite_of_finiteNumber {t : Token} {s : Scalar} (hfinite : t.FiniteNumber)
    (ht : t.isNumber = true) (hs : t.number? = some s) : s.value.isFinite = true := by
  obtain ⟨s', hs', hvalue⟩ := hfinite ht
  rw [hs] at hs'
  cases hs'
  exact hvalue

mutual
/-- A literal of the grammar is what its tokens write, with the zeros left out. -/
theorem Literal.exists_row {n h : Nat} {ts : List Token} {t : Tensor} :
    Literal n h ts t → (∀ u ∈ ts, u.FiniteNumber) →
      ∃ ds, Dense.Row ts ds ∧ t.dense = .row ds ∧ t.isSparse = true ∧ n + t.depth ≤ maxNesting
  | .empty hopens hl hr => fun _ => ⟨[], .empty hl hr, rfl, rfl, hopens.1⟩
  | @Literal.filled _ _ _ _ _ es hopens hl hes hr => by
    intro hfinite
    obtain ⟨helements, hsparse⟩ := hes.exists_elements hopens.1 fun u hu =>
      hfinite u (List.mem_cons_of_mem _ (List.mem_append_left _ hu))
    refine ⟨es.map Grammar.filled, .filled hl helements hr, dense_node_entries es, ?_, ?_⟩
    · refine areSparse_entries es 0 0 (Nat.le_refl 0) (by omega) fun e he t ht => ?_
      exact (hsparse e he t ht).1
    · have hopen := hopens.1
      have hdepth : Tensor.maxDepth (entries 0 es) ≤ maxNesting - (n + 1) := by
        refine maxDepth_entries_le es 0 fun e he t ht => ?_
        have := (hsparse e he t ht).2
        omega
      rw [Tensor.depth]
      omega
theorem Elements.exists_elements {n h : Nat} {ts : List Token} {es : List (Option Tensor)} :
    Elements n h ts es → n ≤ maxNesting → (∀ u ∈ ts, u.FiniteNumber) →
      Dense.Elements ts (es.map filled) ∧
        ∀ e ∈ es, ∀ t ∈ e, t.isSparse = true ∧ n + t.depth ≤ maxNesting
  | .last he => by
    intro hn hfinite
    obtain ⟨helement, hsparse⟩ := he.exists_element hn hfinite
    refine ⟨.last helement, fun e' he' => ?_⟩
    rw [List.mem_singleton.mp he']
    exact hsparse
  | .more he hcomma hes => by
    intro hn hfinite
    obtain ⟨helement, hsparse⟩ := he.exists_element hn fun u hu =>
      hfinite u (List.mem_append_left _ hu)
    obtain ⟨helements, hsparses⟩ := hes.exists_elements hn fun u hu =>
      hfinite u (List.mem_append_right _ (List.mem_cons_of_mem _ hu))
    refine ⟨.more helement hcomma helements, fun e' he' => ?_⟩
    rcases List.mem_cons.mp he' with rfl | he'
    · exact hsparse
    · exact hsparses e' he'
theorem Element.exists_element {n h : Nat} {ts : List Token} {e : Option Tensor} :
    Element n h ts e → n ≤ maxNesting → (∀ u ∈ ts, u.FiniteNumber) →
      Dense.Element ts (filled e) ∧ ∀ t ∈ e, t.isSparse = true ∧ n + t.depth ≤ maxNesting
  | .literal hliteral => by
    intro _ hfinite
    obtain ⟨ds, hrow, hdense, hsparse⟩ := hliteral.exists_row hfinite
    refine ⟨?_, fun t ht => ?_⟩
    · show Dense.Element _ (dense _)
      rw [hdense]
      exact .braces hrow
    · cases ht
      exact hsparse
  | .number ht hs => by
    intro hn hfinite
    have hvalue := isFinite_of_finiteNumber (hfinite _ List.mem_cons_self) ht hs
    obtain ⟨hnumber, hsparse⟩ := stored_exact hn hvalue
    rw [← hnumber]
    exact ⟨.number ht hs, hsparse⟩
  | .negative (s := s) hminus ht hs => by
    intro hn hfinite
    have hvalue := isFinite_of_finiteNumber (hfinite _ (by simp)) ht hs
    obtain ⟨hnumber, hsparse⟩ :=
      stored_exact (s := { s with value := s.value.negate }) hn (by simpa using hvalue)
    rw [← hnumber]
    exact ⟨.negative hminus ht hs, hsparse⟩
end

/-- The tensor literals of an expression are those that its tokens write. -/
theorem Derives.exists_literals {scope : String → Option Storage} {phrase : Phrase} {n h : Nat}
    {ts : List Token} {e : Expr} (H : Derives scope phrase n h ts e) :
    (∀ u ∈ ts, u.FiniteNumber) →
      ∃ ds, Dense.Literals ts ds ∧ List.Forall₂ Tensor.IsExact e.tensors ds := by
  induction H with
  | expression _ ih => exact ih
  | term _ ih => exact ih
  | first _ ih => exact ih
  | @next _ _ _ _ _ _ _ _ op _ _ _ hop _ _ ihl ihr =>
    intro hfinite
    obtain ⟨ls, hl, hexact⟩ := ihl fun u hu => hfinite u (List.mem_append_left _ hu)
    obtain ⟨rs, hr, hexact'⟩ := ihr fun u hu =>
      hfinite u (List.mem_append_right _ (List.mem_cons_of_mem _ hu))
    have hbrace := Dense.isBrace_of_isSymbol hop (by cases op <;> decide) (by cases op <;> decide)
    exact ⟨ls ++ rs, hl.append (.other hbrace hr), List.rel_append hexact hexact'⟩
  | parentheses _ hl _ hr ih =>
    intro hfinite
    obtain ⟨ds, hds, hexact⟩ := ih fun u hu =>
      hfinite u (List.mem_cons_of_mem _ (List.mem_append_left _ hu))
    have hlbrace := Dense.isBrace_of_isSymbol hl (by decide) (by decide)
    have hrbrace := Dense.isBrace_of_isSymbol hr (by decide) (by decide)
    refine ⟨ds, .other hlbrace ?_, hexact⟩
    simpa using hds.append (.singleton hrbrace)
  | primary _ ih => exact ih
  | number ht _ => exact fun _ => ⟨[], .singleton (Dense.isBrace_of_isNumber ht), .nil⟩
  | name ht => exact fun _ => ⟨[], .singleton (Dense.isBrace_of_kind ht (by decide)), .nil⟩
  | tensor hliteral =>
    intro hfinite
    obtain ⟨ds, hrow, hdense, hsparse, hdepth⟩ := hliteral.exists_row hfinite
    refine ⟨[.row ds], ?_, .cons (.of_dense hsparse hdense (by omega)) .nil⟩
    simpa using Dense.Literals.literal hrow .nil
  | @sign _ _ op _ _ _ _ ht _ ih =>
    intro hfinite
    obtain ⟨ds, hds, hexact⟩ := ih fun u hu => hfinite u (List.mem_cons_of_mem _ hu)
    have hbrace := Dense.isBrace_of_isSymbol ht (by cases op <;> decide) (by cases op <;> decide)
    exact ⟨ds, .other hbrace hds, hexact⟩

/-- The same for the initializer of a declaration. -/
theorem Declares.exists_literals {names : List String} {ts : List Token} {d : Declaration}
    (H : Declares names ts d) (hfinite : ∀ u ∈ ts, u.FiniteNumber) :
    ∃ ds, Dense.Literals ts ds ∧ List.Forall₂ Tensor.IsExact d.rhs.tensors ds := by
  cases H with
  | intro hword htype hname hequals hrhs hsemicolon =>
    obtain ⟨ds, hds, hexact⟩ := hrhs.exists_literals fun u hu => hfinite u (by simp [hu])
    have hfirst := Dense.isBrace_of_isSymbol hequals (by decide) (by decide)
    have hlast := Dense.isBrace_of_isSymbol hsemicolon (by decide) (by decide)
    refine ⟨ds, .other ?_ (.other ?_ (.other ?_ (.other hfirst ?_))), hexact⟩
    · exact Dense.isBrace_of_kind (Token.kind_of_isKeyword hword) (by decide)
    · exact Dense.isBrace_of_kind (Token.kind_of_valueType? htype) (by decide)
    · exact Dense.isBrace_of_kind hname (by decide)
    · simpa using hds.append (.singleton hlast)

/-- The same for all declarations of a block. -/
theorem Statements.exists_literals {names : List String} {ts : List Token}
    {ds : List Declaration} (H : Statements names ts ds) : (∀ u ∈ ts, u.FiniteNumber) →
      ∃ es, Dense.Literals ts es ∧
        List.Forall₂ Tensor.IsExact (ds.flatMap (·.rhs.tensors)) es := by
  induction H with
  | nil => exact fun _ => ⟨[], .nil, .nil⟩
  | cons hd _ ih =>
    intro hfinite
    obtain ⟨es, hes, hexact⟩ := hd.exists_literals fun u hu =>
      hfinite u (List.mem_append_left _ hu)
    obtain ⟨fs, hfs, hexact'⟩ := ih fun u hu => hfinite u (List.mem_append_right _ hu)
    exact ⟨es ++ fs, hes.append hfs, List.rel_append hexact hexact'⟩

end Grammar

/-- The tensor literals of an accepted source are exactly what its tokens write,
and its tokens write nothing else. -/
theorem tensors_exact {source : String} {program : Program} {table : SymbolTable}
    (h : parse source = .ok (program, table)) : ∃ ts ds,
      tokenize source = .ok (ts ++ [.endOfInput (byteLength source.toList)]) ∧
      (∀ es, Dense.Literals ts es ↔ es = ds) ∧
      List.Forall₂ Tensor.IsExact program.tensors ds := by
  obtain ⟨ts, htokens, hfinite, hunit, -⟩ := Grammar.CompilationUnit.of_parse h
  obtain ⟨ds, hds, hexact⟩ := hunit.statements.exists_literals hfinite
  refine ⟨ts, ds, htokens, fun es => ?_, hexact⟩
  constructor
  · exact fun hes => hes.unique hds
  · rintro rfl
    exact hds

/-- Zeros of both signs are left out of a ragged literal, and are found again. -/
theorem tensors_exact_ragged : ∃ program table ts,
    parse "let tensor t = \x7b0, \x7b1, -0.0\x7d, \x7b\x7d, -3\x7d;" = .ok (program, table) ∧
    tokenize "let tensor t = \x7b0, \x7b1, -0.0\x7d, \x7b\x7d, -3\x7d;" =
      .ok (ts ++ [.endOfInput 38]) ∧
    program.tensors = [.node 4 [(1, .node 2 [(0, .leaf ⟨.ofNat 1, .int⟩)]), (2, .node 0 []),
      (3, .leaf ⟨(Binary64.ofNat 3).negate, .int⟩)]] ∧
    Dense.Literals ts [.row [.zero, .row [.number (.ofNat 1), .zero], .row [],
      .number (Binary64.ofNat 3).negate]] := by
  obtain ⟨program, table, hparse, htest⟩ := exists_of_parse_any
    (s := "let tensor t = \x7b0, \x7b1, -0.0\x7d, \x7b\x7d, -3\x7d;")
    (p := fun r => r.1.tensors = [.node 4 [(1, .node 2 [(0, .leaf ⟨.ofNat 1, .int⟩)]),
      (2, .node 0 []), (3, .leaf ⟨(Binary64.ofNat 3).negate, .int⟩)]])
    (by decide +kernel)
  have htensors := of_decide_eq_true htest
  obtain ⟨ts, ds, htokens, hds, hexact⟩ := tensors_exact hparse
  rw [htensors] at hexact
  obtain ⟨d, _, hd, hnil, rfl⟩ := List.forall₂_cons_left_iff.mp hexact
  cases hnil
  refine ⟨program, table, ts, hparse, htokens, htensors, (hds _).mpr ?_⟩
  rw [← hd.dense]
  rfl

end TensorLet
