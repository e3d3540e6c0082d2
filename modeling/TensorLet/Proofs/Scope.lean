import TensorLet.Compiler
import TensorLet.Proofs.Parser.Acceptance

/-!
# Scopes of parser and code

A name is resolved twice: by the parser, through the bindings at its use, and
again for its code, among the declarations that the finished table records
before it. Both see the names of the declarations before the one they are in, so
the code of an accepted source fails for what is wrong with the source alone:
an operator without instruction or a name without declaration.

* `Derives.nodes`: what a derivation says about the nodes of its tree.
* `Expr.failure?_code`, `Statements.failure?_code`: code fails at the first
  node that offends.
* `code_fails_at_firstOffense`: the same for accepted sources, with the
  condition under which they have code.
-/

namespace TensorLet

/-! ## Offending nodes -/

/-- The nodes of a tree, each before its operands. -/
def Expr.nodes : Expr → List Expr
  | .binary op left right token => .binary op left right token :: (left.nodes ++ right.nodes)
  | .unary op operand token => .unary op operand token :: operand.nodes
  | .scalar value token => [.scalar value token]
  | .name n resolved token => [.name n resolved token]
  | .tensor literal token => [.tensor literal token]

/-- What is wrong with a node itself where `names` are declared: its operator has
no instruction, or it is a name that is not declared. -/
def Expr.offense? (names : List String) : Expr → Option Error
  | .unary op _ token => if op = .neg then none else some ⟨.noInstruction op.symbol, token.span⟩
  | .name n _ token => if n ∈ names then none else some ⟨.undeclared n, token.span⟩
  | _ => none

/-- The names that the first `n` declarations declare. -/
def namesBefore (ds : List Declaration) (n : Nat) : List String := (ds.take n).map (·.name)

/-- What is wrong with the first node that offends, declaration by
declaration. -/
def Program.firstOffense? (p : Program) : Option Error :=
  p.declarations.zipIdx.findSome? fun d =>
    d.1.rhs.nodes.findSome? (·.offense? (namesBefore p.declarations d.2))

/-! ## Nodes of derived trees -/

/-- The node's token is among `ts`, and it is the operator or the name of the
node. -/
def Expr.ReadFrom (ts : List Token) (e : Expr) : Prop :=
  e.token ∈ ts ∧
    match e with
    | .unary op _ token => token.isSymbol op.symbol = true
    | .name n _ token => token.kind = .identifier ∧ token.lexeme = n
    | _ => True

/-- The node is no name, or a name that `scope` resolves as the node says. -/
def Expr.Resolved (scope : String → Option Storage) : Expr → Prop
  | .name n resolved _ => resolved = scope n
  | _ => True

theorem Expr.ReadFrom.mono {ts us : List Token} {e : Expr} (h : e.ReadFrom ts) (hsub : ts ⊆ us) :
    e.ReadFrom us := ⟨hsub h.1, h.2⟩

namespace Grammar

/-- Every node of a derived tree is read from the tokens of the derivation and
resolved in its scope. -/
theorem Derives.nodes {scope : String → Option Storage} {phrase : Phrase} {n h : Nat}
    {ts : List Token} {e : Expr} (H : Derives scope phrase n h ts e) :
    ∀ node ∈ e.nodes, node.ReadFrom ts ∧ node.Resolved scope := by
  induction H with
  | expression _ ih => exact ih
  | term _ ih => exact ih
  | first _ ih => exact ih
  | @next _ _ _ _ ts us left right op t _ _ _ _ _ ihleft ihright =>
    intro node hnode
    rcases List.mem_cons.mp hnode with rfl | hnode
    · exact ⟨⟨List.mem_append_right _ List.mem_cons_self, trivial⟩, trivial⟩
    · rcases List.mem_append.mp hnode with hnode | hnode
      · obtain ⟨hread, hresolved⟩ := ihleft node hnode
        exact ⟨hread.mono (List.subset_append_left _ _), hresolved⟩
      · obtain ⟨hread, hresolved⟩ := ihright node hnode
        refine ⟨hread.mono ?_, hresolved⟩
        intro u hu
        exact List.mem_append_right _ (List.mem_cons_of_mem _ hu)
  | parentheses _ _ _ _ ih =>
    intro node hnode
    obtain ⟨hread, hresolved⟩ := ih node hnode
    refine ⟨hread.mono ?_, hresolved⟩
    intro u hu
    exact List.mem_cons_of_mem _ (List.mem_append_left _ hu)
  | primary _ ih => exact ih
  | number _ _ =>
    intro node hnode
    rw [List.mem_singleton.mp hnode]
    exact ⟨⟨List.mem_cons_self, trivial⟩, trivial⟩
  | name hkind =>
    intro node hnode
    rw [List.mem_singleton.mp hnode]
    exact ⟨⟨List.mem_cons_self, hkind, rfl⟩, rfl⟩
  | tensor _ =>
    intro node hnode
    rw [List.mem_singleton.mp hnode]
    exact ⟨⟨List.mem_cons_self, trivial⟩, trivial⟩
  | sign _ hop _ ih =>
    intro node hnode
    rcases List.mem_cons.mp hnode with rfl | hnode
    · exact ⟨⟨List.mem_cons_self, hop⟩, trivial⟩
    · obtain ⟨hread, hresolved⟩ := ih node hnode
      exact ⟨hread.mono (List.subset_cons_self _ _), hresolved⟩

end Grammar

/-! ## Failures -/

/-- The error of a result that is one. -/
def failure? {α : Type} : Except Error α → Option Error
  | .ok _ => none
  | .error e => some e

section

variable {α β : Type}

theorem failure?_eq_some_iff {x : Except Error α} {e : Error} :
    failure? x = some e ↔ x = .error e := by
  cases x <;> simp [failure?]

theorem failure?_eq_none_iff {x : Except Error α} : failure? x = none ↔ ∃ a, x = .ok a := by
  cases x <;> simp [failure?]

theorem failure?_map (x : Except Error α) (f : α → β) :
    failure? (x >>= fun a => pure (f a)) = failure? x := by
  cases x <;> rfl

/-- Of two results the first that fails decides. -/
theorem failure?_seq {γ : Type} (x : Except Error α) (y : Except Error β) (f : α → β → γ) :
    failure? (x >>= fun a => y >>= fun b => pure (f a b)) = (failure? x).or (failure? y) := by
  cases x with
  | error e => rfl
  | ok a => exact failure?_map y (f a)

theorem findSome?_cons_eq_or (f : α → Option β) (a : α) (as : List α) :
    (a :: as).findSome? f = (f a).or (as.findSome? f) := by
  rw [List.findSome?_cons]
  cases f a <;> rfl

end

namespace SymbolTable

/-- A use resolved by the names before it finds its symbol, or is undeclared. -/
theorem failure_resolveUse {ds : List Declaration} {n : Nat} {names : List String}
    (hnames : ∀ x, x ∈ names ↔ x ∈ namesBefore ds n) (x : String) :
    if x ∈ names then
      ∃ s, (ofDeclarations ds).resolveUse n x (Grammar.visible names x) = .ok s
    else (ofDeclarations ds).resolveUse n x (Grammar.visible names x) = .error (.undeclared x) := by
  by_cases hx : x ∈ names
  · rw [if_pos hx, Grammar.visible, if_pos hx]
    cases hs : (ofDeclarations ds).lookupBefore? x n with
    | none => exact absurd ((hnames x).mp hx) ((lookupBefore?_ofDeclarations_eq_none_iff ds x n).mp hs)
    | some s =>
      obtain ⟨i, -, hi⟩ := exists_declaration?_of_lookupBefore? hs
      rw [declaration?_ofDeclarations] at hi
      obtain ⟨d, -, rfl⟩ := Option.map_eq_some_iff.mp hi
      refine ⟨localSymbol i d, ?_⟩
      unfold resolveUse
      rw [hs]
      rfl
  · rw [if_neg hx, Grammar.visible, if_neg hx]
    rfl

/-- The table of a block records each of its declarations. -/
theorem recorded_ofDeclarations {ds : List Declaration} {n : Nat} {d : Declaration}
    (hd : ds[n]? = some d) (hstorage : d.storage = .localVar) :
    (ofDeclarations ds).recorded n d = .ok (localSymbol n d) := by
  unfold recorded
  rw [declaration?_ofDeclarations, hd, Option.map_some]
  simp [Symbol.records, localSymbol, hstorage]

end SymbolTable

/-- The code of a resolved tree fails at the first node that offends. -/
theorem Expr.failure?_code {ds : List Declaration} {n : Nat} {names : List String}
    (hnames : ∀ x, x ∈ names ↔ x ∈ namesBefore ds n) (e : Expr)
    (he : ∀ node ∈ e.nodes, node.Resolved (Grammar.visible names)) :
    failure? (e.code (.ofDeclarations ds) n) =
      e.nodes.findSome? (·.offense? (namesBefore ds n)) := by
  induction e with
  | binary op left right token ihleft ihright =>
    have hleft := ihleft fun node hnode => he node
      (List.mem_cons_of_mem _ (List.mem_append_left _ hnode))
    have hright := ihright fun node hnode => he node
      (List.mem_cons_of_mem _ (List.mem_append_right _ hnode))
    rw [Expr.nodes, findSome?_cons_eq_or, List.findSome?_append, ← hleft, ← hright]
    exact failure?_seq _ _ _
  | unary op operand token ih =>
    have hoperand := ih fun node hnode => he node (List.mem_cons_of_mem _ hnode)
    rw [Expr.nodes, findSome?_cons_eq_or, ← hoperand]
    cases op with
    | neg => exact failure?_map _ _
    | tilde => rfl
    | prime => rfl
  | scalar value token => rfl
  | name x resolved token =>
    have hresolved : resolved = Grammar.visible names x := he _ List.mem_cons_self
    have huse := SymbolTable.failure_resolveUse hnames x
    rw [Expr.nodes, findSome?_cons_eq_or, List.findSome?_nil, Option.or_none, Expr.code,
      Expr.offense?, hresolved]
    by_cases hx : x ∈ names
    · rw [if_pos hx] at huse
      obtain ⟨s, hs⟩ := huse
      rw [hs, if_pos ((hnames x).mp hx)]
      rfl
    · rw [if_neg hx] at huse
      rw [huse, if_neg fun h => hx ((hnames x).mpr h)]
      rfl
  | tensor literal token => rfl

namespace Grammar

/-- A declaration in its place fails only by its initializer. -/
theorem Declares.failure?_code {names : List String} {ts : List Token} {d : Declaration}
    {ds : List Declaration} {n : Nat} (H : Declares names ts d) (hd : ds[n]? = some d)
    (hnames : ∀ x, x ∈ names ↔ x ∈ namesBefore ds n) :
    failure? (d.code (.ofDeclarations ds) n) =
      d.rhs.nodes.findSome? (·.offense? (namesBefore ds n)) := by
  cases H with
  | intro _ _ _ _ hrhs _ =>
    rw [← Expr.failure?_code hnames _ fun node hnode => (hrhs.nodes node hnode).2]
    unfold Declaration.code
    rw [SymbolTable.recorded_ofDeclarations hd rfl]
    exact failure?_map _ _

/-- The code of a block fails at the first node that offends. -/
theorem Statements.failure?_code {names : List String} {ts : List Token}
    {rest : List Declaration} (H : Statements names ts rest) : ∀ before : List Declaration,
    (∀ x, x ∈ names ↔ x ∈ before.map (·.name)) →
    failure? (declarationsCode (.ofDeclarations (before ++ rest)) before.length rest) =
      (rest.zipIdx before.length).findSome? fun d =>
        d.1.rhs.nodes.findSome? (·.offense? (namesBefore (before ++ rest) d.2)) := by
  induction H with
  | nil =>
    intro before _
    rfl
  | @cons names ts us d rest hd hrest ih =>
    intro before hnames
    have hplace : (before ++ d :: rest)[before.length]? = some d := by simp
    have hfirst := hd.failure?_code hplace (by
      intro x
      rw [hnames, namesBefore, List.take_left])
    have hthen := ih (before ++ [d]) (by
      intro x
      simp only [List.map_append, List.mem_append, List.map_cons, List.map_nil, List.mem_cons,
        List.not_mem_nil, or_false, ← hnames x]
      exact or_comm)
    rw [List.append_assoc, List.singleton_append, List.length_append, List.length_singleton]
      at hthen
    rw [List.zipIdx_cons, findSome?_cons_eq_or, ← hthen, ← hfirst]
    exact failure?_seq _ _ _

end Grammar

/-! ## Accepted sources -/

/-- A name is among the first `n` declared exactly when a declaration before the
`n`-th declares it. -/
theorem mem_namesBefore_iff {ds : List Declaration} {n : Nat} {x : String} :
    x ∈ namesBefore ds n ↔ ∃ (i : Nat) (d : Declaration), i < n ∧ ds[i]? = some d ∧ d.name = x := by
  unfold namesBefore
  rw [List.mem_map]
  constructor
  · rintro ⟨d, hd, rfl⟩
    obtain ⟨i, hi⟩ := List.mem_iff_getElem?.mp hd
    rw [List.getElem?_take] at hi
    split at hi
    next hlt => exact ⟨i, d, hlt, hi, rfl⟩
    next => cases hi
  · rintro ⟨i, d, hlt, hi, rfl⟩
    refine ⟨d, List.mem_iff_getElem?.mpr ⟨i, ?_⟩, rfl⟩
    rw [List.getElem?_take, if_pos hlt, hi]

/-- No fault of a node is about the symbol table. -/
theorem Expr.kind_of_offense? {names : List String} {node : Expr} {e : Error}
    (h : node.offense? names = some e) : e.fault.kind ≠ .logical := by
  unfold Expr.offense? at h
  split at h
  · split at h
    · cases h
    · cases h
      exact ErrorKind.noConfusion
  · split at h
    · cases h
    · cases h
      exact ErrorKind.noConfusion
  · cases h

/-- A node offends unless it is neither a `~` or `'` nor a name out of scope. -/
theorem Expr.offense?_eq_none_iff {names : List String} {node : Expr} :
    node.offense? names = none ↔ (∀ op operand token, node = .unary op operand token → op = .neg) ∧
      ∀ x resolved token, node = .name x resolved token → x ∈ names := by
  cases node <;> simp [Expr.offense?]

/-- Nothing offends exactly when there is no `~` and no `'`, and every name is
declared before the declaration it is used in. -/
theorem Program.firstOffense?_eq_none_iff (p : Program) :
    p.firstOffense? = none ↔
      (∀ d ∈ p.declarations, ∀ op operand token,
        .unary op operand token ∈ d.rhs.nodes → op ≠ .tilde ∧ op ≠ .prime) ∧
      ∀ (j : Nat) (d : Declaration), p.declarations[j]? = some d → ∀ x resolved token,
        .name x resolved token ∈ d.rhs.nodes →
          ∃ (i : Nat) (d' : Declaration), i < j ∧ p.declarations[i]? = some d' ∧ d'.name = x := by
  unfold firstOffense?
  simp only [List.findSome?_eq_none_iff, Prod.forall, List.mk_mem_zipIdx_iff_getElem?,
    Expr.offense?_eq_none_iff, ← mem_namesBefore_iff]
  constructor
  · intro hnone
    refine ⟨?_, ?_⟩
    · intro d hd op operand token hnode
      obtain ⟨j, hj⟩ := List.mem_iff_getElem?.mp hd
      rw [(hnone d j hj _ hnode).1 op operand token rfl]
      exact ⟨UnaryOp.noConfusion, UnaryOp.noConfusion⟩
    · intro j d hd x resolved token hnode
      exact (hnone d j hd _ hnode).2 x resolved token rfl
  · rintro ⟨hsigns, hnames⟩ d j hd node hnode
    refine ⟨?_, ?_⟩
    · rintro op operand token rfl
      obtain ⟨htilde, hprime⟩ := hsigns d (List.mem_of_getElem? hd) op operand token hnode
      cases op with
      | neg => rfl
      | tilde => exact absurd rfl htilde
      | prime => exact absurd rfl hprime
    · rintro x resolved token rfl
      exact hnames j d hd x resolved token hnode

/-- The error of the code of an accepted source is its first offense. -/
theorem failure?_code_of_parse {source : String} {program : Program} {table : SymbolTable}
    (h : parse source = .ok (program, table)) :
    failure? (program.code table) = program.firstOffense? := by
  obtain ⟨ts, -, -, hunit, rfl⟩ := Grammar.CompilationUnit.of_parse h
  have hcode := hunit.statements.failure?_code [] (by simp)
  unfold Program.code
  simp only [SymbolTable.size_ofDeclarations, if_true]
  rw [failure?_map]
  exact hcode

/-- Parser and code agree on scopes: the code of an accepted source never finds
the symbol table wrong, exists exactly when no initializer has a `~` or `'` or a
name without a declaration before its own, and otherwise fails with the first of
these, at its token. -/
theorem code_fails_at_firstOffense {source : String} {program : Program}
    {table : SymbolTable} (h : parse source = .ok (program, table)) :
    (∀ e, program.code table = .error e → e.diagnostic.kind ≠ .logical) ∧
    ((∃ code, program.code table = .ok code) ↔
      (∀ d ∈ program.declarations, ∀ op operand token,
        .unary op operand token ∈ d.rhs.nodes → op ≠ .tilde ∧ op ≠ .prime) ∧
      ∀ (j : Nat) (d : Declaration), program.declarations[j]? = some d → ∀ x resolved token,
        .name x resolved token ∈ d.rhs.nodes →
          ∃ (i : Nat) (d' : Declaration), i < j ∧ program.declarations[i]? = some d' ∧ d'.name = x) ∧
    (∀ e, program.code table = .error e ↔ program.firstOffense? = some e) ∧
    ∃ ts, tokenize source = .ok (ts ++ [.endOfInput (byteLength source.toList)]) ∧
      ∀ d ∈ program.declarations, ∀ node ∈ d.rhs.nodes, node.ReadFrom ts := by
  have hfailure := failure?_code_of_parse h
  have herror : ∀ e, program.code table = .error e ↔ program.firstOffense? = some e := by
    intro e
    rw [← failure?_eq_some_iff, hfailure]
  refine ⟨?_, ?_, herror, ?_⟩
  · intro e he
    obtain ⟨d, -, hd⟩ := List.exists_of_findSome?_eq_some ((herror e).mp he)
    obtain ⟨node, -, hnode⟩ := List.exists_of_findSome?_eq_some hd
    exact Expr.kind_of_offense? hnode
  · rw [← failure?_eq_none_iff, hfailure]
    exact program.firstOffense?_eq_none_iff
  · obtain ⟨ts, htokens, -, hunit, -⟩ := Grammar.CompilationUnit.of_parse h
    refine ⟨ts, htokens, fun d hd node hnode => ?_⟩
    obtain ⟨names, us, hsub, hrhs⟩ := hunit.statements.exists_derives d hd
    exact (hrhs.nodes node hnode).1.mono hsub

/-- `c` is used before the `~`, and neither is in the first declaration. -/
theorem code_fails_at_firstOffense_undeclared : ∃ program table,
    parse "let int a = 1; let int b = a * (c - ~a); let int c = b;" = .ok (program, table) ∧
      program.code table = .error ⟨.undeclared "c", ⟨32, 33⟩⟩ := by
  obtain ⟨program, table, hparse, hfirst⟩ := exists_of_parse_any
    (s := "let int a = 1; let int b = a * (c - ~a); let int c = b;")
    (p := fun r => r.1.firstOffense? = some ⟨.undeclared "c", ⟨32, 33⟩⟩) (by decide +kernel)
  refine ⟨program, table, hparse, ?_⟩
  exact ((code_fails_at_firstOffense hparse).2.2.1 _).mpr (of_decide_eq_true hfirst)

end TensorLet
