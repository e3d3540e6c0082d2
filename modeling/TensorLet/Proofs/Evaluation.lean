import TensorLet.Proofs.Execution
import TensorLet.Proofs.Scope

/-!
# The values of declarations

What a source without tensors means: declarations are evaluated in order, each
initializer in the environment of the declarations before it, and the nearest
declaration of a name is the one that counts. The code of a source stores these
values, each in the slot of its declaration.

* `Expr.eval`, `evalDeclarations`: the values of trees and declarations.
* `Expr.run_code`: the code of a tree pushes its value and changes nothing else.
* `run_declarationsCode`: the code of declarations stores their values.
* `run_compile`: the same for whole sources.
-/

namespace TensorLet

open Machine (Arithmetic Code run step store)

variable {V : Type}

/-! ## Evaluation -/

/-- The value of an operator between two operands. -/
def BinOp.eval (A : Arithmetic V) : BinOp → V → V → V
  | .add => A.add
  | .sub => A.sub
  | .mul => A.mul
  | .div => A.div

/-- The value of a tree where `env` gives the values of the names, the nearest
declaration first. There is none for a name without value, for `~` and `'`, and
for tensors. -/
def Expr.eval (A : Arithmetic V) (env : List (String × V)) : Expr → Option V
  | .binary op left right _ => do
    let l ← left.eval A env
    let r ← right.eval A env
    return op.eval A l r
  | .unary .neg operand _ => (operand.eval A env).map A.neg
  | .unary .tilde _ _ => none
  | .unary .prime _ _ => none
  | .scalar s _ => some (A.constant s.value)
  | .name n _ _ => env.lookup n
  | .tensor _ _ => none

/-- The values of declarations in order. Each of them is visible in those that
follow and hides those of its name. -/
def evalDeclarations (A : Arithmetic V) : List (String × V) → List Declaration → Option (List V)
  | _, [] => some []
  | env, d :: ds => do
    let v ← d.rhs.eval A env
    let vs ← evalDeclarations A ((d.name, v) :: env) ds
    return v :: vs

/-! ## Environments and slots -/

/-- After `n` declarations of a block the environment and the slots agree: what
the table finds for a name is a local variable, and its slot holds the value of
the name. -/
def Agrees (table : SymbolTable) (n : Nat) (env : List (String × V)) (slots : Nat → Option V) :
    Prop :=
  ∀ x s, table.lookupBefore? x n = some s →
    s.storage = .localVar ∧ ∃ v, env.lookup x = some v ∧ slots s.index = some v

theorem agrees_zero (table : SymbolTable) (slots : Nat → Option V) :
    Agrees table 0 [] slots := by
  intro x s h
  simp [SymbolTable.lookupBefore?] at h

/-- Storing the value of the next declaration in its slot keeps environment and
slots in agreement. -/
theorem Agrees.store {ds : List Declaration} {n : Nat} {d : Declaration}
    {env : List (String × V)} {slots : Nat → Option V} (hd : ds[n]? = some d)
    (h : Agrees (.ofDeclarations ds) n env slots) (v : V) :
    Agrees (.ofDeclarations ds) (n + 1) ((d.name, v) :: env) (store slots n v) := by
  intro x s hs
  have hdeclared : (SymbolTable.ofDeclarations ds).declaration? n =
      some (SymbolTable.localSymbol n d) := by
    rw [SymbolTable.declaration?_ofDeclarations, hd, Option.map_some]
  rw [SymbolTable.lookupBefore?_succ _ x hdeclared] at hs
  by_cases hx : (SymbolTable.localSymbol n d).name = x
  · rw [if_pos hx] at hs
    cases hs
    refine ⟨rfl, v, ?_, Machine.store_self slots n v⟩
    have hname : x = d.name := hx.symm
    rw [hname, List.lookup_cons_self]
  · rw [if_neg hx] at hs
    obtain ⟨hstorage, w, hw, hslot⟩ := h x s hs
    -- An older declaration has a smaller slot, so it is not stored over.
    obtain ⟨i, hi, hsymbol⟩ := SymbolTable.exists_declaration?_of_lookupBefore? hs
    rw [SymbolTable.declaration?_ofDeclarations] at hsymbol
    obtain ⟨d', -, rfl⟩ := Option.map_eq_some_iff.mp hsymbol
    have hne : x ≠ d.name := fun heq => hx heq.symm
    refine ⟨hstorage, w, ?_, ?_⟩
    · rw [List.lookup_cons, beq_false_of_ne hne]
      exact hw
    · show Machine.store slots n v i = some w
      rw [Machine.store_of_ne slots v (show i ≠ n by omega)]
      exact hslot

/-! ## Simulation -/

/-- What a use resolves to is what the table finds. -/
theorem SymbolTable.lookupBefore?_of_resolveUse {t : SymbolTable} {n : Nat} {x : String}
    {resolved : Option Storage} {s : Symbol} (h : t.resolveUse n x resolved = .ok s) :
    t.lookupBefore? x n = some s := by
  unfold SymbolTable.resolveUse at h
  split at h
  · cases h
  · split at h
    · cases h
    next symbol hsymbol =>
      cases h
      exact (Option.filter_eq_some_iff.mp hsymbol).1

theorem Machine.step_arith_binary (A : Arithmetic V) (op : BinOp) (l r : V) (stack : List V)
    (slots : Nat → Option V) :
    step A (.arith op.arith) ⟨r :: l :: stack, slots⟩ = some ⟨op.eval A l r :: stack, slots⟩ := by
  cases op <;> rfl

/-- The code of a tree without tensors pushes its value. -/
theorem Expr.run_code (A : Arithmetic V) {table : SymbolTable} {n : Nat}
    {env : List (String × V)} {slots : Nat → Option V} (hagrees : Agrees table n env slots)
    (e : Expr) : ∀ code, e.code table n = .ok code → e.tensors = [] →
      ∃ v, e.eval A env = some v ∧
        ∀ stack, run A code ⟨stack, slots⟩ = some ⟨v :: stack, slots⟩ := by
  induction e with
  | binary op left right token ihleft ihright =>
    intro code hcode htensors
    obtain ⟨l, hl, hcode⟩ := except_bind_eq_ok.mp hcode
    obtain ⟨r, hr, hcode⟩ := except_bind_eq_ok.mp hcode
    cases hcode
    obtain ⟨htl, htr⟩ := List.append_eq_nil_iff.mp htensors
    obtain ⟨v, hv, hrunl⟩ := ihleft l hl htl
    obtain ⟨w, hw, hrunr⟩ := ihright r hr htr
    refine ⟨op.eval A v w, ?_, fun stack => ?_⟩
    · simp [Expr.eval, hv, hw]
    · have hoperands : run A (l ++ r) ⟨stack, slots⟩ = some ⟨w :: v :: stack, slots⟩ := by
        rw [Machine.run_append, hrunl, Option.bind_some, hrunr]
      rw [Machine.run_concat A hoperands, Machine.step_arith_binary]
  | unary op operand token ih =>
    intro code hcode htensors
    cases op with
    | neg =>
      obtain ⟨c, hc, hcode⟩ := except_bind_eq_ok.mp hcode
      cases hcode
      obtain ⟨v, hv, hrun⟩ := ih c hc htensors
      refine ⟨A.neg v, ?_, fun stack => ?_⟩
      · simp [Expr.eval, hv]
      · rw [Machine.run_concat A (hrun stack)]
        rfl
    | tilde => cases hcode
    | prime => cases hcode
  | scalar s token =>
    intro code hcode _
    cases hcode
    exact ⟨A.constant s.value, rfl, fun stack => rfl⟩
  | name x resolved token =>
    intro code hcode _
    rw [Expr.code] at hcode
    split at hcode
    · cases hcode
    next s hs =>
      cases hcode
      obtain ⟨hstorage, v, hv, hslot⟩ :=
        hagrees x s (SymbolTable.lookupBefore?_of_resolveUse hs)
      refine ⟨v, hv, fun stack => ?_⟩
      rw [Machine.run_singleton, hstorage]
      show (slots s.index).map _ = _
      rw [hslot, Option.map_some]
  | tensor literal token =>
    intro code _ htensors
    cases htensors

/-- The code of a declaration stores the value of its initializer in the slot of
its position. -/
theorem Declaration.run_code (A : Arithmetic V) {ds : List Declaration} {n : Nat}
    {d : Declaration} {env : List (String × V)} {slots : Nat → Option V} {code : Code}
    (hd : ds[n]? = some d) (hagrees : Agrees (.ofDeclarations ds) n env slots)
    (hcode : d.code (.ofDeclarations ds) n = .ok code) (htensors : d.rhs.tensors = []) :
    ∃ v, d.rhs.eval A env = some v ∧
      run A code ⟨[], slots⟩ = some ⟨[], store slots n v⟩ := by
  obtain ⟨c, hc, hcode⟩ := except_bind_eq_ok.mp hcode
  obtain ⟨v, hv, hrun⟩ := d.rhs.run_code A hagrees c hc htensors
  refine ⟨v, hv, ?_⟩
  unfold SymbolTable.recorded at hcode
  rw [SymbolTable.declaration?_ofDeclarations, hd, Option.map_some] at hcode
  by_cases hrecords : (SymbolTable.localSymbol n d).records d = true
  · simp only [if_pos hrecords] at hcode
    cases hcode
    rw [Machine.run_concat A (hrun [])]
    rfl
  · simp only [if_neg hrecords] at hcode
    cases hcode

/-- The code of the declarations behind `before` stores their values behind the
slots of `before`, which it leaves as they are. -/
theorem run_declarationsCode (A : Arithmetic V) : ∀ (rest before : List Declaration)
    (env : List (String × V)) (slots : Nat → Option V) (code : Code),
    Agrees (.ofDeclarations (before ++ rest)) before.length env slots →
    declarationsCode (.ofDeclarations (before ++ rest)) before.length rest = .ok code →
    (∀ d ∈ rest, d.rhs.tensors = []) →
    ∃ values slots', evalDeclarations A env rest = some values ∧
      values.length = rest.length ∧ run A code ⟨[], slots⟩ = some ⟨[], slots'⟩ ∧
      (∀ k v, values[k]? = some v → slots' (before.length + k) = some v) ∧
      ∀ k, k < before.length → slots' k = slots k := by
  intro rest
  induction rest with
  | nil =>
    intro before env slots code _ hcode _
    cases hcode
    exact ⟨[], slots, rfl, rfl, rfl, by simp, fun k _ => rfl⟩
  | cons d rest ih =>
    intro before env slots code hagrees hcode htensors
    have hd : (before ++ d :: rest)[before.length]? = some d := by simp
    obtain ⟨c, hc, hcode⟩ := except_bind_eq_ok.mp hcode
    obtain ⟨more, hmore, hcode⟩ := except_bind_eq_ok.mp hcode
    cases hcode
    obtain ⟨v, hv, hrun⟩ := Declaration.run_code A hd hagrees hc
      (htensors d List.mem_cons_self)
    have hnext := hagrees.store hd v
    have hsplit : before ++ d :: rest = (before ++ [d]) ++ rest := by simp
    have hlength : before.length + 1 = (before ++ [d]).length := by simp
    rw [hsplit, hlength] at hnext hmore
    obtain ⟨values, slots', hvalues, hlen, hrest, hstored, hkept⟩ := ih (before ++ [d])
      ((d.name, v) :: env) (store slots before.length v) more hnext hmore
      fun d' hd' => htensors d' (List.mem_cons_of_mem _ hd')
    rw [← hlength] at hstored hkept
    refine ⟨v :: values, slots', ?_, ?_, ?_, ?_, ?_⟩
    · simp [evalDeclarations, hv, hvalues]
    · rw [List.length_cons, List.length_cons, hlen]
    · rw [Machine.run_append, hrun, Option.bind_some, hrest]
    · intro k w hw
      cases k with
      | zero =>
        cases hw
        rw [Nat.add_zero, hkept before.length (Nat.lt_succ_self _), Machine.store_self]
      | succ k =>
        rw [show before.length + (k + 1) = before.length + 1 + k by omega]
        exact hstored k w hw
    · intro k hk
      rw [hkept k (by omega), Machine.store_of_ne slots v (show k ≠ before.length by omega)]

/-! ## Sources -/

/-- The code of a source is the code of its program. -/
theorem compile_eq_ok_iff {source : String} {code : Code} : compile source = .ok code ↔
    ∃ program table, parse source = .ok (program, table) ∧ program.code table = .ok code := by
  unfold compile
  rw [except_bind_eq_ok]
  constructor
  · rintro ⟨⟨program, table⟩, hparse, hcode⟩
    exact ⟨program, table, hparse, hcode⟩
  · rintro ⟨program, table, hparse, hcode⟩
    exact ⟨(program, table), hparse, hcode⟩

/-- Code preserves meaning. Whatever the values and the operations are, the code
of a source without tensors runs from an empty stack to an empty stack, and
leaves in slot `k` the value that the `k`-th declaration has in the program that
the tokens of the source write. -/
theorem run_compile (A : Arithmetic V) {source : String} {program : Program}
    {table : SymbolTable} {code : Code} (hparse : parse source = .ok (program, table))
    (hcompile : compile source = .ok code) (htensors : program.tensors = [])
    (slots : Nat → Option V) :
    (∃ ts, tokenize source = .ok (ts ++ [.endOfInput (byteLength source.toList)]) ∧
      Grammar.CompilationUnit ts (.endOfInput (byteLength source.toList)) program) ∧
    ∃ values slots', evalDeclarations A [] program.declarations = some values ∧
      values.length = program.declarations.length ∧
      run A code ⟨[], slots⟩ = some ⟨[], slots'⟩ ∧
      ∀ k v, values[k]? = some v → slots' k = some v := by
  obtain ⟨ts, htokens, -, hunit, rfl⟩ := Grammar.CompilationUnit.of_parse hparse
  refine ⟨⟨ts, htokens, hunit⟩, ?_⟩
  obtain ⟨program', table, hparse', hcode⟩ := compile_eq_ok_iff.mp hcompile
  rw [hparse] at hparse'
  cases hparse'
  obtain ⟨code', hdeclarations, hcode⟩ := except_bind_eq_ok.mp hcode
  rw [if_pos (SymbolTable.size_ofDeclarations _)] at hcode
  cases hcode
  have hnone : ∀ d ∈ program.declarations, d.rhs.tensors = [] :=
    List.flatMap_eq_nil_iff.mp htensors
  obtain ⟨values, slots', hvalues, hlength, hrun, hstored, -⟩ := run_declarationsCode A
    program.declarations [] [] slots code (agrees_zero _ slots) hdeclarations hnone
  refine ⟨values, slots', hvalues, hlength, hrun, ?_⟩
  intro k v hv
  have := hstored k v hv
  rwa [List.length_nil, Nat.zero_add] at this

/-- Whole numbers, with division rounded down. -/
def wholeNumbers : Arithmetic Int where
  constant value := (Binary64.units value.magnitude / Binary64.unitsPerOne : Nat)
  add := (· + ·)
  sub := (· - ·)
  mul := (· * ·)
  div := (· / ·)
  neg := (- ·)

/-- A name declared again by its older value, in whole numbers. -/
theorem run_compile_wholeNumbers : ∃ program table code slots,
    parse "let int x = 20; let int x = x - 2 * 3; let int y = x - 4 / 2 - -x;" =
      .ok (program, table) ∧
    compile "let int x = 20; let int x = x - 2 * 3; let int y = x - 4 / 2 - -x;" = .ok code ∧
    program.tensors = [] ∧ run wholeNumbers code ⟨[], fun _ => none⟩ = some ⟨[], slots⟩ ∧
    slots 0 = some 20 ∧ slots 1 = some 14 ∧ slots 2 = some 26 := by
  obtain ⟨program, table, hparse, htest⟩ := exists_of_parse_any
    (s := "let int x = 20; let int x = x - 2 * 3; let int y = x - 4 / 2 - -x;")
    (p := fun r => r.1.tensors = [] ∧ (r.1.code r.2).isOk = true ∧
      evalDeclarations wholeNumbers [] r.1.declarations = some [20, 14, 26]) (by decide +kernel)
  obtain ⟨htensors, hok, hvalues⟩ := of_decide_eq_true htest
  obtain ⟨code, hcode⟩ : ∃ code, program.code table = .ok code := by
    cases h : program.code table with
    | error e => rw [h] at hok; cases hok
    | ok code => exact ⟨code, rfl⟩
  have hcompile := compile_eq_ok_iff.mpr ⟨program, table, hparse, hcode⟩
  obtain ⟨-, values, slots, heval, -, hrun, hstored⟩ :=
    run_compile wholeNumbers hparse hcompile htensors fun _ => none
  rw [hvalues] at heval
  cases heval
  exact ⟨program, table, code, slots, hparse, hcompile, htensors, hrun, hstored 0 20 rfl,
    hstored 1 14 rfl, hstored 2 26 rfl⟩

end TensorLet
