import TensorLet.Proofs.Evaluation
import TensorLet.Proofs.SymbolTable.Definitions
import TensorLet.Proofs.Token.Joining

/-!
# Sources written one below the other

Two sources that compile also compile when the second is written on the lines
below the first. The code is that of the first and behind it that of the second,
its slots counted on from those of the first; it does not matter which names the
two have in common.

Three things carry over to the second source when it stands behind the first. Its
tokens are the same further back (`items_ofText_newline`). Its derivation is one
in the larger scope, since every name of it is resolved by its own declarations.
And its look-ups find the symbols they found before, so many slots further on.

* `Statements.append`, `Statements.shift`: derivations behind declarations.
* `lookupBefore?_append_right`: what a name finds in the second of two blocks.
* `Expr.code_shift`, `declarationsCode_shift`: code behind declarations.
* `compile_newline`: the statement about sources.
-/

namespace TensorLet

open Machine (Code Instr)

/-! ## Trees further back -/

/-- The instruction with local slots counted from `m`. -/
def Machine.Instr.shift (m : Nat) : Instr → Instr
  | .push .locals index => .push .locals (index + m)
  | .pop .locals index => .pop .locals (index + m)
  | instr => instr

/-- The symbol `m` slots further on. -/
def Symbol.shift (m : Nat) (s : Symbol) : Symbol := { s with index := s.index + m }

/-- The tree with its tokens `k` bytes further back. -/
def Expr.shift (k : Nat) : Expr → Expr
  | .binary op left right token => .binary op (left.shift k) (right.shift k) (token.shift k)
  | .unary op operand token => .unary op (operand.shift k) (token.shift k)
  | .scalar value token => .scalar value (token.shift k)
  | .name n resolved token => .name n resolved (token.shift k)
  | .tensor literal token => .tensor literal (token.shift k)

/-- The declaration with its tokens `k` bytes further back. -/
def Declaration.shift (k : Nat) (d : Declaration) : Declaration :=
  { d with token := d.token.shift k, rhs := d.rhs.shift k }

/-- True of trees in which every name is resolved. -/
def Expr.isResolved : Expr → Bool
  | .binary _ left right _ => left.isResolved && right.isResolved
  | .unary _ operand _ => operand.isResolved
  | .scalar _ _ => true
  | .name _ resolved _ => resolved.isSome
  | .tensor _ _ => true

/-! ## Derivations behind declarations -/

namespace Grammar

mutual
/-- A tensor literal does not depend on where its tokens stand. -/
theorem Literal.shift (k : Nat) {n h : Nat} {ts : List Token} {t : Tensor} :
    Literal n h ts t → Literal n h (ts.map (Token.shift k)) t
  | .empty hopens hl hr => .empty hopens hl hr
  | .filled hopens hl hes hr => by
    rw [List.map_cons, List.map_append]
    exact .filled hopens hl (hes.shift k) hr
theorem Elements.shift (k : Nat) {n h : Nat} {ts : List Token} {es : List (Option Tensor)} :
    Elements n h ts es → Elements n h (ts.map (Token.shift k)) es
  | .last he => .last (he.shift k)
  | .more he hcomma hes => by
    rw [List.map_append, List.map_cons]
    exact .more (he.shift k) hcomma (hes.shift k)
theorem Element.shift (k : Nat) {n h : Nat} {ts : List Token} {e : Option Tensor} :
    Element n h ts e → Element n h (ts.map (Token.shift k)) e
  | .literal hliteral => .literal (hliteral.shift k)
  | .number ht hs => .number ht hs
  | .negative hminus ht hs => .negative hminus ht hs
end

/-- A derivation in which every name is resolved is one in any larger scope, and
further back in the source. -/
theorem Derives.shift {scope scope' : String → Option Storage} {phrase : Phrase} {n h : Nat}
    {ts : List Token} {e : Expr} (k : Nat)
    (hscope : ∀ x storage, scope x = some storage → scope' x = some storage)
    (H : Derives scope phrase n h ts e) :
    e.isResolved = true → Derives scope' phrase n h (ts.map (Token.shift k)) (e.shift k) := by
  induction H with
  | expression _ ih => exact fun he => .expression (ih he)
  | term _ ih => exact fun he => .term (ih he)
  | first _ ih => exact fun he => .first (ih he)
  | next _ hop ht hheight _ ihleft ihright =>
    intro he
    obtain ⟨hleft, hright⟩ := Bool.and_eq_true_iff.mp he
    rw [List.map_append, List.map_cons]
    exact .next (ihleft hleft) hop ht hheight (ihright hright)
  | parentheses hopens hl _ hr ih =>
    intro he
    rw [List.map_cons, List.map_append]
    exact .parentheses hopens hl (ih he) hr
  | primary _ ih => exact fun he => .primary (ih he)
  | number ht hs => exact fun _ => .number ht hs
  | @name n h t ht =>
    intro he
    obtain ⟨storage, hstorage⟩ := Option.isSome_iff_exists.mp he
    have hname : Derives scope' .primary n h [t.shift k] _ := .name ht
    rw [show (t.shift k).lexeme = t.lexeme from rfl, hscope _ _ hstorage, ← hstorage] at hname
    exact hname
  | tensor hliteral => exact fun _ => .tensor (hliteral.shift k)
  | sign hopens ht _ ih => exact fun he => .sign hopens ht (ih he)

/-- More names are visible behind more declarations. -/
theorem visible_append {names : List String} (outer : List String) {x : String}
    {storage : Storage} (h : visible names x = some storage) :
    visible (names ++ outer) x = some storage := by
  unfold visible at h ⊢
  by_cases hx : x ∈ names
  · rw [if_pos hx] at h
    rwa [if_pos (List.mem_append_left _ hx)]
  · rw [if_neg hx] at h
    cases h

theorem Declares.shift {names : List String} {ts : List Token} {d : Declaration} (k : Nat)
    (outer : List String) (H : Declares names ts d) (hd : d.rhs.isResolved = true) :
    Declares (names ++ outer) (ts.map (Token.shift k)) (d.shift k) := by
  cases H with
  | intro hword htype hname hequals hrhs hsemicolon =>
    have hrhs' := hrhs.shift k (fun _ _ => visible_append outer) hd
    simp only [List.map_cons, List.map_append]
    exact .intro hword htype hname hequals hrhs' hsemicolon

/-- A block in which every name is resolved is one behind other declarations, and
further back in the source. -/
theorem Statements.shift {names : List String} {ts : List Token} {ds : List Declaration} (k : Nat)
    (outer : List String) (H : Statements names ts ds) :
    (∀ d ∈ ds, d.rhs.isResolved = true) →
      Statements (names ++ outer) (ts.map (Token.shift k)) (ds.map (Declaration.shift k)) := by
  induction H with
  | nil => exact fun _ => .nil
  | cons hd _ ih =>
    intro hds
    rw [List.map_append, List.map_cons]
    exact .cons (hd.shift k outer (hds _ List.mem_cons_self))
      (ih fun d' hd' => hds d' (List.mem_cons_of_mem _ hd'))

/-- A block can be continued where its declarations are visible. -/
theorem Statements.append {names : List String} {ts us : List Token} {ds es : List Declaration}
    (H : Statements names ts ds) :
    Statements ((ds.map (·.name)).reverse ++ names) us es →
      Statements names (ts ++ us) (ds ++ es) := by
  induction H with
  | nil => exact id
  | @cons names ts ts' d ds hd _ ih =>
    intro h
    rw [List.map_cons, List.reverse_cons, List.append_assoc, List.singleton_append] at h
    rw [List.append_assoc, List.cons_append]
    exact .cons hd (ih h)

end Grammar

/-! ## Look-ups behind declarations -/

namespace SymbolTable

/-- Where tokens stand is not recorded. -/
theorem ofDeclarations_shift (k : Nat) (ds es : List Declaration) :
    ofDeclarations (ds ++ es.map (Declaration.shift k)) = ofDeclarations (ds ++ es) := by
  simp only [ofDeclarations, List.map_append, List.map_map]
  rfl

/-- Up to its end a block is searched as if nothing followed. -/
theorem lookupBefore?_append_left {ds : List Declaration} (es : List Declaration) (x : String)
    {n : Nat} (h : n ≤ ds.length) :
    (ofDeclarations (ds ++ es)).lookupBefore? x n = (ofDeclarations ds).lookupBefore? x n := by
  rw [ofDeclarations, ofDeclarations, lookupBefore?_defineAll, lookupBefore?_defineAll,
    List.map_append, List.take_append_of_le_length (by rwa [List.length_map])]

/-- The symbols of a second block are those it has on its own, so many slots
further on. -/
theorem history_append (ds es : List Declaration) :
    (ofDeclarations (ds ++ es)).history.toList = (ofDeclarations ds).history.toList ++
      (ofDeclarations es).history.toList.map (Symbol.shift ds.length) := by
  rw [history_ofDeclarations, history_ofDeclarations, history_ofDeclarations, List.zipIdx_append,
    List.map_append, List.zipIdx_eq_map_add (l := es), List.map_map, List.map_map]
  congr 2
  funext d
  simp [localSymbol, Symbol.shift, Nat.add_comm]

/-- What a second block finds on its own is found behind the first one too,
whatever the first one declares. -/
theorem lookupBefore?_append_right (ds : List Declaration) {es : List Declaration} {x : String}
    {n : Nat} {s : Symbol} (h : (ofDeclarations es).lookupBefore? x n = some s) :
    (ofDeclarations (ds ++ es)).lookupBefore? x (ds.length + n) = some (s.shift ds.length) := by
  have hlength : ds.length = (ofDeclarations ds).history.toList.length := by
    rw [Array.length_toList]
    exact (size_ofDeclarations ds).symm
  have htake : ∀ more : List Symbol,
      ((ofDeclarations ds).history.toList ++ more).take (ds.length + n) =
        (ofDeclarations ds).history.toList ++ more.take n := by
    intro more
    rw [hlength]
    exact List.take_length_add_append n
  have hfind : List.find? ((fun s : Symbol => decide (s.name = x)) ∘ Symbol.shift ds.length)
      ((ofDeclarations es).history.toList.take n).reverse = some s := h
  unfold lookupBefore?
  rw [history_append, htake, List.reverse_append, List.find?_append, ← List.map_take,
    ← List.map_reverse, List.find?_map, hfind]
  rfl

/-- In a block of local variables every symbol is local. -/
theorem storage_of_lookupBefore? {ds : List Declaration} {x : String} {n : Nat} {s : Symbol}
    (h : (ofDeclarations ds).lookupBefore? x n = some s) : s.storage = .localVar := by
  obtain ⟨i, -, hi⟩ := exists_declaration?_of_lookupBefore? h
  rw [declaration?_ofDeclarations] at hi
  obtain ⟨d, -, rfl⟩ := Option.map_eq_some_iff.mp hi
  rfl

/-- A use is resolved by what is found, if that is stored where the parse resolved
it to. -/
theorem resolveUse_eq_ok_iff {t : SymbolTable} {n : Nat} {x : String} {resolved : Option Storage}
    {s : Symbol} :
    t.resolveUse n x resolved = .ok s ↔
      t.lookupBefore? x n = some s ∧ resolved = some s.storage := by
  unfold resolveUse
  cases resolved with
  | none => simp
  | some storage =>
    cases t.lookupBefore? x n with
    | none => simp
    | some found =>
      by_cases hstorage : found.storage = storage
      · simp only [Option.filter_some, hstorage, decide_true, if_true, Except.ok.injEq,
          Option.some.injEq]
        constructor
        · rintro rfl
          exact ⟨rfl, hstorage.symm⟩
        · exact fun h => h.1
      · simp only [Option.filter_some, hstorage, decide_false, Bool.false_eq_true, if_false,
          reduceCtorEq, Option.some.injEq, false_iff, not_and]
        rintro rfl heq
        exact hstorage heq.symm

end SymbolTable

/-! ## Code behind declarations -/

mutual
/-- The constants of a tensor literal address no slot. -/
theorem Tensor.map_shift_code (m : Nat) (t : Tensor) :
    t.code.map (Instr.shift m) = t.code := by
  match t with
  | .leaf scalar => rfl
  | .node extent entries =>
    simp only [Tensor.code, List.map_cons, Tensor.map_shift_entriesCode m entries]
    rfl
theorem Tensor.map_shift_entriesCode (m : Nat) (entries : List (Nat × Tensor)) :
    (Tensor.entriesCode entries).map (Instr.shift m) = Tensor.entriesCode entries := by
  match entries with
  | [] => rfl
  | (index, t) :: rest =>
    simp only [Tensor.entriesCode, List.map_cons, List.map_append, Tensor.map_shift_code m t,
      Tensor.map_shift_entriesCode m rest]
    rfl
end

/-- A tree with code has no name that is not resolved. -/
theorem Expr.isResolved_of_code {T : SymbolTable} {n : Nat} (e : Expr) :
    ∀ code, e.code T n = .ok code → e.isResolved = true := by
  induction e with
  | binary op left right token ihleft ihright =>
    intro code hcode
    obtain ⟨l, hl, hcode⟩ := except_bind_eq_ok.mp hcode
    obtain ⟨r, hr, hcode⟩ := except_bind_eq_ok.mp hcode
    rw [isResolved, ihleft l hl, ihright r hr]
    rfl
  | unary op operand token ih =>
    intro code hcode
    rw [Expr.code] at hcode
    split at hcode
    · cases hcode
    · obtain ⟨c, hc, hcode⟩ := except_bind_eq_ok.mp hcode
      exact ih c hc
  | scalar value token => exact fun _ _ => rfl
  | name x resolved token =>
    intro code hcode
    rw [Expr.code] at hcode
    split at hcode
    · cases hcode
    next s hs => rw [isResolved, (SymbolTable.resolveUse_eq_ok_iff.mp hs).2]; rfl
  | tensor literal token => exact fun _ _ => rfl

/-- The code of a tree of the second block is the same behind the first one, with
the slots counted on. -/
theorem Expr.code_shift (k : Nat) (ds : List Declaration) {es : List Declaration} {n : Nat}
    (e : Expr) : ∀ code, e.code (.ofDeclarations es) n = .ok code →
      (e.shift k).code (.ofDeclarations (ds ++ es)) (ds.length + n) =
        .ok (code.map (Instr.shift ds.length)) := by
  induction e with
  | binary op left right token ihleft ihright =>
    intro code hcode
    obtain ⟨l, hl, hcode⟩ := except_bind_eq_ok.mp hcode
    obtain ⟨r, hr, hcode⟩ := except_bind_eq_ok.mp hcode
    cases hcode
    rw [Expr.shift, Expr.code, ihleft l hl, ihright r hr, List.map_append, List.map_append]
    rfl
  | unary op operand token ih =>
    intro code hcode
    rw [Expr.shift, Expr.code]
    rw [Expr.code] at hcode
    cases harith : op.arith? with
    | none =>
      rw [harith] at hcode
      cases hcode
    | some arith =>
      rw [harith] at hcode
      obtain ⟨c, hc, hcode⟩ := except_bind_eq_ok.mp hcode
      cases hcode
      simp only [ih c hc, List.map_append]
      rfl
  | scalar value token =>
    intro code hcode
    cases hcode
    rfl
  | name x resolved token =>
    intro code hcode
    rw [Expr.code] at hcode
    split at hcode
    · cases hcode
    next s hs =>
      cases hcode
      obtain ⟨hfound, hresolved⟩ := SymbolTable.resolveUse_eq_ok_iff.mp hs
      have hs' : (SymbolTable.ofDeclarations (ds ++ es)).resolveUse (ds.length + n) x resolved =
          .ok (s.shift ds.length) :=
        SymbolTable.resolveUse_eq_ok_iff.mpr
          ⟨SymbolTable.lookupBefore?_append_right ds hfound, hresolved⟩
      rw [Expr.shift, Expr.code, hs', SymbolTable.storage_of_lookupBefore? hfound]
      simp only [Symbol.shift, SymbolTable.storage_of_lookupBefore? hfound]
      rfl
  | tensor literal token =>
    intro code hcode
    cases hcode
    rw [Tensor.map_shift_code]
    rfl

/-- The code of a declaration of the second block stores `ds.length` slots further
on. -/
theorem Declaration.code_shift (k : Nat) (ds : List Declaration) {es : List Declaration} {n : Nat}
    {d : Declaration} {code : Code} (hd : es[n]? = some d) (hstorage : d.storage = .localVar)
    (hcode : d.code (.ofDeclarations es) n = .ok code) :
    (d.shift k).code (.ofDeclarations (ds ++ es.map (Declaration.shift k))) (ds.length + n) =
      .ok (code.map (Instr.shift ds.length)) := by
  obtain ⟨c, hc, hcode⟩ := except_bind_eq_ok.mp hcode
  have hshift : (ds ++ es.map (Declaration.shift k))[ds.length + n]? = some (d.shift k) := by
    rw [List.getElem?_append_right (Nat.le_add_right _ _), Nat.add_sub_cancel_left,
      List.getElem?_map, hd]
    rfl
  rw [SymbolTable.recorded_ofDeclarations hd hstorage] at hcode
  cases hcode
  rw [Declaration.code, SymbolTable.recorded_ofDeclarations hshift hstorage,
    SymbolTable.ofDeclarations_shift]
  show (do let c ← (d.rhs.shift k).code _ _; _) = _
  rw [Expr.code_shift k ds d.rhs c hc, List.map_append, Nat.add_comm ds.length]
  rfl

/-- The code of the second block behind the first one. -/
theorem declarationsCode_shift (k : Nat) (ds : List Declaration) : ∀ (rest before : List Declaration)
    (code : Code), (∀ d ∈ rest, d.storage = .localVar) →
    declarationsCode (.ofDeclarations (before ++ rest)) before.length rest = .ok code →
    declarationsCode (.ofDeclarations (ds ++ (before ++ rest).map (Declaration.shift k)))
        (ds.length + before.length) (rest.map (Declaration.shift k)) =
      .ok (code.map (Instr.shift ds.length)) := by
  intro rest
  induction rest with
  | nil =>
    intro before code _ hcode
    cases hcode
    rfl
  | cons d rest ih =>
    intro before code hstorage hcode
    have hd : (before ++ d :: rest)[before.length]? = some d := by simp
    obtain ⟨c, hc, hcode⟩ := except_bind_eq_ok.mp hcode
    obtain ⟨more, hmore, hcode⟩ := except_bind_eq_ok.mp hcode
    cases hcode
    have hfirst := Declaration.code_shift k ds hd (hstorage d List.mem_cons_self) hc
    have hsplit : before ++ d :: rest = (before ++ [d]) ++ rest := by simp
    have hlength : before.length + 1 = (before ++ [d]).length := by simp
    have hrest := ih (before ++ [d]) more (fun d' hd' => hstorage d' (List.mem_cons_of_mem _ hd'))
      (by rwa [← hsplit, ← hlength])
    rw [← hsplit, ← hlength, ← Nat.add_assoc] at hrest
    rw [List.map_cons, declarationsCode, hfirst, hrest, List.map_append]
    rfl

/-- The code of a tree depends on what its look-ups find. -/
theorem Expr.code_congr {T T' : SymbolTable} {n : Nat}
    (h : ∀ x, T.lookupBefore? x n = T'.lookupBefore? x n) (e : Expr) :
    e.code T n = e.code T' n := by
  induction e with
  | binary op left right token ihleft ihright =>
    rw [Expr.code, Expr.code, ihleft, ihright]
  | unary op operand token ih => rw [Expr.code, Expr.code, ih]
  | scalar value token => rfl
  | name x resolved token =>
    have hresolve : T.resolveUse n x resolved = T'.resolveUse n x resolved := by
      unfold SymbolTable.resolveUse
      rw [h]
    rw [Expr.code, Expr.code, hresolve]
  | tensor literal token => rfl

/-- What follows a block does not change its code. -/
theorem declarationsCode_append_left (es : List Declaration) : ∀ rest before : List Declaration,
    declarationsCode (.ofDeclarations (before ++ rest ++ es)) before.length rest =
      declarationsCode (.ofDeclarations (before ++ rest)) before.length rest := by
  intro rest
  induction rest with
  | nil => exact fun _ => rfl
  | cons d rest ih =>
    intro before
    have hlookup : ∀ x,
        (SymbolTable.ofDeclarations (before ++ d :: rest ++ es)).lookupBefore? x before.length =
          (SymbolTable.ofDeclarations (before ++ d :: rest)).lookupBefore? x before.length := by
      intro x
      exact SymbolTable.lookupBefore?_append_left es x (by simp)
    have hrecorded :
        (SymbolTable.ofDeclarations (before ++ d :: rest ++ es)).recorded before.length d =
          (SymbolTable.ofDeclarations (before ++ d :: rest)).recorded before.length d := by
      unfold SymbolTable.recorded
      rw [SymbolTable.declaration?_ofDeclarations, SymbolTable.declaration?_ofDeclarations,
        List.getElem?_append_left (by simp)]
    have hsplit : before ++ d :: rest = (before ++ [d]) ++ rest := by simp
    have hlength : before.length + 1 = (before ++ [d]).length := by simp
    have hrest := ih (before ++ [d])
    rw [← hsplit, ← hlength] at hrest
    rw [declarationsCode, declarationsCode, hrest, Declaration.code, Declaration.code, hrecorded,
      Expr.code_congr hlookup]

/-- The code of two lists of declarations is the code of both. -/
theorem declarationsCode_append {T : SymbolTable} {es : List Declaration} {code' : Code} :
    ∀ (ds : List Declaration) (n : Nat) (code : Code), declarationsCode T n ds = .ok code →
      declarationsCode T (n + ds.length) es = .ok code' →
      declarationsCode T n (ds ++ es) = .ok (code ++ code') := by
  intro ds
  induction ds with
  | nil =>
    intro n code hcode hcode'
    cases hcode
    exact hcode'
  | cons d ds ih =>
    intro n code hcode hcode'
    obtain ⟨c, hc, hcode⟩ := except_bind_eq_ok.mp hcode
    obtain ⟨more, hmore, hcode⟩ := except_bind_eq_ok.mp hcode
    cases hcode
    have hrest := ih (n + 1) more hmore (by rwa [Nat.add_assoc, Nat.add_comm 1])
    rw [List.cons_append, declarationsCode, hc, hrest]
    show Except.ok (c ++ (more ++ code')) = _
    rw [List.append_assoc]

/-! ## Sources -/

/-- Declarations with code have no name that is not resolved. -/
theorem isResolved_of_declarationsCode {T : SymbolTable} : ∀ (ds : List Declaration) (n : Nat)
    (code : Code), declarationsCode T n ds = .ok code → ∀ d ∈ ds, d.rhs.isResolved = true := by
  intro ds
  induction ds with
  | nil => simp
  | cons d ds ih =>
    intro n code hcode d' hd'
    obtain ⟨c, hc, hcode⟩ := except_bind_eq_ok.mp hcode
    obtain ⟨more, hmore, -⟩ := except_bind_eq_ok.mp hcode
    rcases List.mem_cons.mp hd' with rfl | hd'
    · obtain ⟨c', hc', -⟩ := except_bind_eq_ok.mp hc
      exact d'.rhs.isResolved_of_code c' hc'
    · exact ih (n + 1) more hmore d' hd'

/-- The tokens of a source that compiles are a block whose declarations have its
code. -/
theorem exists_statements_of_compile {source : String} {code : Code}
    (h : compile source = .ok code) : ∃ program table ts, parse source = .ok (program, table) ∧
      (Scan.ofText source).items = ts.map .ok ∧ (∀ t ∈ ts, t.FiniteNumber) ∧
      Grammar.Statements [] ts program.declarations ∧
      declarationsCode (.ofDeclarations program.declarations) 0 program.declarations =
        .ok code := by
  obtain ⟨program, table, hparse, hcode⟩ := compile_eq_ok_iff.mp h
  obtain ⟨ts, htokens, hfinite, hunit, rfl⟩ := Grammar.CompilationUnit.of_parse hparse
  obtain ⟨c, hc, hcode⟩ := except_bind_eq_ok.mp hcode
  rw [if_pos (SymbolTable.size_ofDeclarations _)] at hcode
  cases hcode
  exact ⟨program, _, ts, hparse, (tokenize_eq_ok_iff source ts).mp htokens, hfinite,
    hunit.statements, hc⟩

/-- A source whose tokens are a block compiles to the code of its declarations. -/
theorem compile_of_statements {source : String} {ts : List Token} {ds : List Declaration}
    {code : Code} (hitems : (Scan.ofText source).items = ts.map .ok)
    (hfinite : ∀ t ∈ ts, t.FiniteNumber) (hstatements : Grammar.Statements [] ts ds)
    (hcode : declarationsCode (.ofDeclarations ds) 0 ds = .ok code) :
    compile source = .ok code := by
  have hparse := Grammar.CompilationUnit.parse ((tokenize_eq_ok_iff source ts).mpr hitems)
    hfinite ⟨ds, hstatements, rfl⟩
  refine compile_eq_ok_iff.mpr ⟨_, _, hparse, ?_⟩
  simp only [Program.code, Program.declarations, List.flatMap_cons, List.flatMap_nil,
    List.append_nil, hcode, SymbolTable.size_ofDeclarations, if_true]
  rfl

/-- Compiling is a homomorphism. Where two sources compile, the second written on
the lines below the first compiles with it, to the code of the first and behind it
that of the second, whose slots are counted on from the declarations of the
first. -/
theorem compile_newline {source source' : String} {code code' : Code}
    (h : compile source = .ok code) (h' : compile source' = .ok code') :
    ∃ program table, parse source = .ok (program, table) ∧
      compile (source ++ "\n" ++ source') =
        .ok (code ++ code'.map (Instr.shift program.declarations.length)) := by
  obtain ⟨program, table, ts, hparse, hitems, hfinite, hstatements, hcode⟩ :=
    exists_statements_of_compile h
  obtain ⟨program', -, ts', -, hitems', hfinite', hstatements', hcode'⟩ :=
    exists_statements_of_compile h'
  refine ⟨program, table, hparse, ?_⟩
  generalize program.declarations = ds at hstatements hcode ⊢
  generalize program'.declarations = es at hstatements' hcode'
  have hresolved := isResolved_of_declarationsCode es 0 code' hcode'
  let k := byteLength source.toList + 1
  have hjoined : (Scan.ofText (source ++ "\n" ++ source')).items =
      (ts ++ ts'.map (Token.shift k)).map .ok := by
    rw [items_ofText_newline, hitems, hitems', List.map_append, List.map_map, List.map_map]
    rfl
  -- The second block stands behind the declarations of the first.
  have hblock : Grammar.Statements [] (ts ++ ts'.map (Token.shift k))
      (ds ++ es.map (Declaration.shift k)) :=
    hstatements.append (hstatements'.shift k _ hresolved)
  refine compile_of_statements hjoined ?_ hblock ?_
  · intro t ht
    rcases List.mem_append.mp ht with ht | ht
    · exact hfinite t ht
    · obtain ⟨t', ht', rfl⟩ := List.mem_map.mp ht
      exact hfinite' t' ht'
  · refine declarationsCode_append ds 0 code ?_ ?_
    · have hfirst := declarationsCode_append_left (es.map (Declaration.shift k)) ds []
      exact hfirst.trans hcode
    · have hsecond := declarationsCode_shift k ds es [] code' hstatements'.storage hcode'
      rw [Nat.zero_add]
      exact hsecond

/-- A comment at the end of the first source, and a name that both declare. -/
theorem compile_newline_redeclared : ∃ code code',
    compile "let int x = 2; let int y = x; # x" = .ok code ∧
    compile "let int x = 3; let int x = x * x;" = .ok code' ∧
    code' = [.pushConstant (.ofNat 3), .pop .locals 0, .push .locals 0, .push .locals 0,
      .arith .mul, .pop .locals 1] ∧
    compile ("let int x = 2; let int y = x; # x" ++ "\n" ++ "let int x = 3; let int x = x * x;") =
      .ok (code ++ [.pushConstant (.ofNat 3), .pop .locals 2, .push .locals 2, .push .locals 2,
        .arith .mul, .pop .locals 3]) := by
  obtain ⟨program₁, table₁, hparse₁, htwo⟩ := exists_of_parse_any
    (s := "let int x = 2; let int y = x; # x") (p := fun r => r.1.declarations.length = 2)
    (by decide +kernel)
  obtain ⟨code, hcode, -⟩ := exists_ok_of_any (p := fun _ => true)
    (x := compile "let int x = 2; let int y = x; # x") (by decide +kernel)
  obtain ⟨code', hcode', htest⟩ := exists_ok_of_any
    (x := compile "let int x = 3; let int x = x * x;")
    (p := fun code => code = [.pushConstant (.ofNat 3), .pop .locals 0, .push .locals 0,
      .push .locals 0, .arith .mul, .pop .locals 1]) (by decide +kernel)
  have hcode'_eq := of_decide_eq_true htest
  obtain ⟨program, table, hparse, hjoined⟩ := compile_newline hcode hcode'
  rw [hparse₁] at hparse
  cases hparse
  rw [of_decide_eq_true htwo, hcode'_eq] at hjoined
  exact ⟨code, code', hcode, hcode', hcode'_eq, hjoined⟩

end TensorLet
