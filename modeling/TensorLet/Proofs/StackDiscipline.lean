import TensorLet.Proofs.Concatenation

/-!
# Slots and stack of compiled code

What code does to slots and stack can be read off its instructions. A push puts
one cell on the stack, a pop takes one away, and an operation takes its operands
and puts its result. Every declaration takes the next slot and stores one cell
there. A tensor literal is pushed in several cells of which only the last one is
ever taken, so the others stay below what follows.

* `Code.height?`: the height of the stack behind code, counted.
* `Code.Computes`: code that puts a value on the stack, and what stays below it.
* `Expr.computes_code`: the code of a tree does this.
* `Code.Stores`: such code with a pop behind each part, and its reading.
* `code_keeps_discipline`: what this says about the code of a source.
-/

namespace TensorLet

namespace Machine

/-! ## Counting cells -/

/-- How many cells an instruction takes from the stack. -/
def Instr.takes : Instr → Nat
  | .pushConstant _ => 0
  | .push _ _ => 0
  | .pop _ _ => 1
  | .call _ arguments => arguments
  | .arith .neg => 1
  | .arith _ => 2

/-- How many cells an instruction puts on the stack. -/
def Instr.puts : Instr → Nat
  | .pop _ _ => 0
  | _ => 1

/-- True of the instructions that put a cell on the stack and take none. -/
def Instr.isPush : Instr → Bool
  | .pushConstant _ => true
  | .push _ _ => true
  | _ => false

/-- True of the instructions that store a cell. -/
def Instr.isPop : Instr → Bool
  | .pop _ _ => true
  | _ => false

/-- True of the instructions on constants, local slots and numbers. -/
def Instr.isLocal : Instr → Bool
  | .pushConstant _ => true
  | .push segment _ => segment = .locals
  | .pop segment _ => segment = .locals
  | .call _ _ => false
  | .arith _ => true

/-- The height of the stack behind an instruction, unless it finds fewer cells
than it takes. -/
def Instr.height? (height : Nat) (instr : Instr) : Option Nat :=
  if instr.takes ≤ height then some (height - instr.takes + instr.puts) else none

/-- The height of the stack behind code, unless some instruction of it finds fewer
cells than it takes. -/
def Code.height? (height : Nat) (code : Code) : Option Nat := code.foldlM Instr.height? height

namespace Code

theorem height?_append (height : Nat) (code more : Code) :
    height? height (code ++ more) = (height? height code).bind (height? · more) :=
  List.foldlM_append

theorem height?_singleton (height : Nat) (instr : Instr) :
    height? height [instr] = instr.height? height := by
  simp [height?]

/-- Code goes on where the code before it ends. -/
theorem height?_of_append {height middle : Nat} {code : Code}
    (h : height? height code = some middle) (more : Code) :
    height? height (code ++ more) = height? middle more := by
  rw [height?_append, h, Option.bind_some]

/-- One more instruction finds the cells that the code before it has left. -/
theorem height?_concat {height middle result : Nat} {code : Code} {instr : Instr}
    (h : height? height code = some middle) (htakes : instr.takes ≤ middle)
    (hresult : middle - instr.takes + instr.puts = result) :
    height? height (code ++ [instr]) = some result := by
  rw [height?_of_append h, height?_singleton, Instr.height?, if_pos htakes, hresult]

/-- Where there are cells enough for code, there are for its first part. -/
theorem exists_height?_of_isPrefix {height result : Nat} {code before : Code}
    (h : height? height code = some result) (hbefore : before <+: code) :
    ∃ middle, height? height before = some middle := by
  obtain ⟨after, rfl⟩ := hbefore
  rw [height?_append] at h
  obtain ⟨middle, hmiddle, -⟩ := Option.bind_eq_some_iff.mp h
  exact ⟨middle, hmiddle⟩

/-- Constants take nothing, and each puts its cell. -/
theorem height?_constants {code : Code} (h : ∀ instr ∈ code, ∃ value, instr = .pushConstant value)
    (height : Nat) : height? height code = some (height + code.length) := by
  induction code generalizing height with
  | nil => rfl
  | cons instr code ih =>
    obtain ⟨value, rfl⟩ := h instr List.mem_cons_self
    have hrest := ih (fun i hi => h i (List.mem_cons_of_mem _ hi)) (height + 1)
    rw [List.length_cons, Nat.add_comm code.length, ← Nat.add_assoc, ← hrest]
    rfl

end Code

/-! ## Code of values -/

/-- The instructions that compute a value where `n` slots are stored. -/
inductive Instr.IsOperand (n : Nat) : Instr → Prop
  | constant {value : Binary64} : IsOperand n (.pushConstant value)
  | slot {index : Nat} : index < n → IsOperand n (.push .locals index)
  | arith {op : ArithOp} : IsOperand n (.arith op)

theorem Instr.IsOperand.isPop_eq_false {n : Nat} {instr : Instr} (h : instr.IsOperand n) :
    instr.isPop = false := by
  cases h <;> rfl

/-- Where `n` slots are stored, the code puts a value on the stack and `surplus`
cells below it. -/
structure Code.Computes (n surplus : Nat) (code : Code) : Prop where
  operands : ∀ instr ∈ code, instr.IsOperand n
  height : ∀ h, code.height? h = some (h + 1 + surplus)

namespace Code.Computes

variable {n j k : Nat} {code more : Code}

theorem push {instr : Instr} (hoperand : instr.IsOperand n) (hpush : instr.isPush = true) :
    Computes n 0 [instr] := by
  refine ⟨by simpa using hoperand, fun h => ?_⟩
  rw [height?_singleton]
  cases hoperand with
  | constant => rfl
  | slot _ => rfl
  | arith => cases hpush

/-- Constants leave all but the last of them below. -/
theorem constants (h : ∀ instr ∈ code, ∃ value, instr = .pushConstant value) (hne : code ≠ []) :
    Computes n (code.length - 1) code := by
  refine ⟨fun instr hinstr => ?_, fun height => ?_⟩
  · obtain ⟨value, rfl⟩ := h instr hinstr
    exact .constant
  · have hpos := List.length_pos_iff.mpr hne
    rw [height?_constants h height]
    congr 1
    omega

theorem neg (h : Computes n k code) : Computes n k (code ++ [.arith .neg]) := by
  refine ⟨fun instr hinstr => ?_, fun height => ?_⟩
  · rcases List.mem_append.mp hinstr with hinstr | hinstr
    · exact h.operands instr hinstr
    · rw [List.mem_singleton.mp hinstr]
      exact .arith
  · refine height?_concat (h.height height) (show 1 ≤ _ by omega) ?_
    show height + 1 + k - 1 + 1 = height + 1 + k
    omega

/-- An operation on two values leaves below its result what is below each of
them. -/
theorem binary (h : Computes n j code) (h' : Computes n k more) (op : BinOp) :
    Computes n (j + k) (code ++ more ++ [.arith op.arith]) := by
  have htakes : (Instr.arith op.arith).takes = 2 := by cases op <;> rfl
  refine ⟨fun instr hinstr => ?_, fun height => ?_⟩
  · rcases List.mem_append.mp hinstr with hinstr | hinstr
    · rcases List.mem_append.mp hinstr with hinstr | hinstr
      · exact h.operands instr hinstr
      · exact h'.operands instr hinstr
    · rw [List.mem_singleton.mp hinstr]
      exact .arith
  · have hoperands : height? height (code ++ more) = some (height + 1 + j + 1 + k) := by
      rw [height?_of_append (h.height height), h'.height]
    refine height?_concat hoperands (by omega) ?_
    show height + 1 + j + 1 + k - (Instr.arith op.arith).takes + 1 = height + 1 + (j + k)
    omega

end Code.Computes

/-! ## Code of declarations -/

/-- Code that computes values and stores each of them behind its code, in the slots
from `n` on. The list says what each value leaves below it. -/
inductive Code.Stores : Nat → List Nat → Code → Prop
  | nil {n : Nat} : Stores n [] []
  | cons {n surplus : Nat} {surpluses : List Nat} {value code : Code} :
      value.Computes n surplus → Stores (n + 1) surpluses code →
      Stores n (surplus :: surpluses) (value ++ .pop .locals n :: code)

/-- Where an instruction of `value ++ y :: code` stands: in `value`, at `y`, or in
`code`. -/
theorem Code.place_cases {value code before after : Code} {x y : Instr}
    (h : value ++ y :: code = before ++ x :: after) :
    x ∈ value ∨ before = value ∧ x = y ∨
      ∃ more, before = value ++ y :: more ∧ code = more ++ x :: after := by
  rcases List.append_eq_append_iff.mp h with ⟨more, rfl, hmore⟩ | ⟨more, rfl, hmore⟩
  · cases more with
    | nil =>
      cases hmore
      exact .inr (.inl ⟨List.append_nil _, rfl⟩)
    | cons z more =>
      cases hmore
      exact .inr (.inr ⟨more, rfl, rfl⟩)
  · cases more with
    | nil =>
      cases hmore
      exact .inr (.inl ⟨(List.append_nil _).symm, rfl⟩)
    | cons z more =>
      cases hmore
      exact .inl (List.mem_append_right _ List.mem_cons_self)

namespace Code.Stores

variable {n : Nat} {surpluses : List Nat} {code : Code}

/-- A value is stored. -/
theorem height?_pop {surplus : Nat} {value : Code} (h : value.Computes n surplus) (height : Nat) :
    height? height (value ++ [.pop .locals n]) = some (height + surplus) := by
  refine height?_concat (h.height height) (show 1 ≤ _ by omega) ?_
  show height + 1 + surplus - 1 + 0 = height + surplus
  omega

/-- All that the values leave below them adds up. -/
theorem height (h : Stores n surpluses code) : ∀ height,
    code.height? height = some (height + surpluses.sum) := by
  induction h with
  | nil => exact fun _ => rfl
  | @cons n surplus surpluses value code hvalue _ ih =>
    intro height
    rw [List.append_cons, height?_of_append (height?_pop hvalue height), ih, List.sum_cons,
      Nat.add_assoc]

theorem isLocal (h : Stores n surpluses code) : ∀ instr ∈ code, instr.isLocal = true := by
  induction h with
  | nil => simp
  | @cons n surplus surpluses value code hvalue _ ih =>
    intro instr hinstr
    rcases List.mem_append.mp hinstr with hinstr | hinstr
    · cases hvalue.operands instr hinstr <;> rfl
    · rcases List.mem_cons.mp hinstr with rfl | hinstr
      · rfl
      · exact ih instr hinstr

/-- The slots are stored in order, each once. -/
theorem pops (h : Stores n surpluses code) :
    code.filter Instr.isPop = (List.range' n surpluses.length).map (.pop .locals) := by
  induction h with
  | nil => rfl
  | @cons n surplus surpluses value code hvalue _ ih =>
    have hnone : value.filter Instr.isPop = [] := by
      rw [List.filter_eq_nil_iff]
      intro instr hinstr
      rw [(hvalue.operands instr hinstr).isPop_eq_false]
      exact Bool.false_ne_true
    rw [List.filter_append, hnone, List.nil_append, List.filter_cons_of_pos rfl, ih,
      List.length_cons, List.range'_succ, List.map_cons]

/-- A slot that is read has been stored before, by this code or in front of it. -/
theorem reads (h : Stores n surpluses code) : ∀ before i after,
    code = before ++ .push .locals i :: after → i < n ∨ .pop .locals i ∈ before := by
  induction h with
  | nil => simp
  | @cons n surplus surpluses value code hvalue _ ih =>
    intro before i after hcode
    rcases place_cases hcode with hmem | ⟨-, hne⟩ | ⟨more, rfl, hmore⟩
    · cases hvalue.operands _ hmem with
      | slot hlt => exact .inl hlt
    · cases hne
    · rcases ih more i after hmore with hlt | hmem
      · rcases Nat.lt_or_eq_of_le (Nat.le_of_lt_succ hlt) with hlt | rfl
        · exact .inl hlt
        · exact .inr (List.mem_append_right _ List.mem_cons_self)
      · exact .inr (List.mem_append_right _ (List.mem_cons_of_mem _ hmem))

/-- Where a value has been stored, the stack holds what it and the values before it
have left below them. -/
theorem height_at (h : Stores n surpluses code) : ∀ before k after,
    code = before ++ .pop .locals k :: after → ∃ j, k = n + j ∧ ∀ height,
      height? height (before ++ [.pop .locals k]) =
        some (height + (surpluses.take (j + 1)).sum) := by
  induction h with
  | nil => simp
  | @cons n surplus surpluses value code hvalue _ ih =>
    intro before k after hcode
    rcases place_cases hcode with hmem | ⟨rfl, heq⟩ | ⟨more, rfl, hmore⟩
    · have hpop := (hvalue.operands _ hmem).isPop_eq_false
      cases hpop
    · cases heq
      refine ⟨0, rfl, fun height => ?_⟩
      rw [height?_pop hvalue, List.take_succ_cons, List.take_zero, List.sum_singleton]
    · obtain ⟨j, rfl, hheight⟩ := ih more k after hmore
      refine ⟨j + 1, by omega, fun height => ?_⟩
      rw [List.append_assoc, List.cons_append, List.append_cons,
        height?_of_append (height?_pop hvalue height), hheight, List.take_succ_cons, List.sum_cons,
        Nat.add_assoc]

end Code.Stores

end Machine

open Machine (Code Instr)

/-! ## Trees and declarations -/

mutual
/-- Tensor literals are written in constants. -/
theorem Tensor.exists_pushConstant_of_mem_code (t : Tensor) :
    ∀ instr ∈ t.code, ∃ value, instr = .pushConstant value := by
  match t with
  | .leaf scalar => simp [Tensor.code]
  | .node extent entries =>
    simpa [Tensor.code] using Tensor.exists_pushConstant_of_mem_entriesCode entries
theorem Tensor.exists_pushConstant_of_mem_entriesCode (entries : List (Nat × Tensor)) :
    ∀ instr ∈ Tensor.entriesCode entries, ∃ value, instr = .pushConstant value := by
  match entries with
  | [] => simp [Tensor.entriesCode]
  | (index, t) :: rest =>
    intro instr hinstr
    rw [Tensor.entriesCode, List.mem_cons, List.mem_append] at hinstr
    rcases hinstr with rfl | hinstr | hinstr
    · exact ⟨_, rfl⟩
    · exact Tensor.exists_pushConstant_of_mem_code t instr hinstr
    · exact Tensor.exists_pushConstant_of_mem_entriesCode rest instr hinstr
end

/-- The cells that a tensor literal leaves on the stack when one is taken: all that
are pushed for it but one. -/
def Tensor.surplus (t : Tensor) : Nat := t.code.countP Instr.isPush - 1

/-- The cells that the tensor literals of a tree leave on the stack. -/
def Expr.surplus (e : Expr) : Nat := (e.tensors.map Tensor.surplus).sum

theorem Tensor.computes_code (t : Tensor) (n : Nat) : t.code.Computes n t.surplus := by
  have hconstants := t.exists_pushConstant_of_mem_code
  have hcount : t.code.countP Instr.isPush = t.code.length := by
    rw [List.countP_eq_length]
    intro instr hinstr
    obtain ⟨value, rfl⟩ := hconstants instr hinstr
    rfl
  rw [surplus, hcount]
  refine .constants hconstants ?_
  cases t <;> simp [Tensor.code]

/-- The code of a tree puts its value on the stack, above what its tensor literals
leave there, and reads the slots of the declarations before it. -/
theorem Expr.computes_code {ds : List Declaration} {n : Nat} (e : Expr) : ∀ code,
    e.code (.ofDeclarations ds) n = .ok code → code.Computes n e.surplus := by
  induction e with
  | binary op left right token ihleft ihright =>
    intro code hcode
    obtain ⟨l, hl, hcode⟩ := except_bind_eq_ok.mp hcode
    obtain ⟨r, hr, hcode⟩ := except_bind_eq_ok.mp hcode
    cases hcode
    have hsurplus : (Expr.binary op left right token).surplus = left.surplus + right.surplus := by
      simp [surplus, tensors]
    rw [hsurplus]
    exact (ihleft l hl).binary (ihright r hr) op
  | unary op operand token ih =>
    intro code hcode
    cases op with
    | neg =>
      obtain ⟨c, hc, hcode⟩ := except_bind_eq_ok.mp hcode
      cases hcode
      exact (ih c hc).neg
    | tilde => cases hcode
    | prime => cases hcode
  | scalar s token =>
    intro code hcode
    cases hcode
    exact .push .constant rfl
  | name x resolved token =>
    intro code hcode
    rw [Expr.code] at hcode
    split at hcode
    · cases hcode
    next s hs =>
      cases hcode
      have hfound := SymbolTable.lookupBefore?_of_resolveUse hs
      obtain ⟨i, hi, hsymbol⟩ := SymbolTable.exists_declaration?_of_lookupBefore? hfound
      rw [SymbolTable.declaration?_ofDeclarations] at hsymbol
      obtain ⟨d, -, rfl⟩ := Option.map_eq_some_iff.mp hsymbol
      exact .push (.slot hi) rfl
  | tensor literal token =>
    intro code hcode
    cases hcode
    have hsurplus : (Expr.tensor literal token).surplus = literal.surplus := by
      simp [surplus, tensors]
    rw [hsurplus]
    exact literal.computes_code n

/-- The code of the declarations behind `before` stores their values behind the
slots of `before`. -/
theorem declarationsCode_stores : ∀ (rest before : List Declaration) (code : Code),
    (∀ d ∈ rest, d.storage = .localVar) →
    declarationsCode (.ofDeclarations (before ++ rest)) before.length rest = .ok code →
    code.Stores before.length (rest.map (·.rhs.surplus)) := by
  intro rest
  induction rest with
  | nil =>
    intro before code _ hcode
    cases hcode
    exact .nil
  | cons d rest ih =>
    intro before code hstorage hcode
    have hd : (before ++ d :: rest)[before.length]? = some d := by simp
    obtain ⟨c, hc, hcode⟩ := except_bind_eq_ok.mp hcode
    obtain ⟨more, hmore, hcode⟩ := except_bind_eq_ok.mp hcode
    cases hcode
    obtain ⟨value, hvalue, hc⟩ := except_bind_eq_ok.mp hc
    rw [SymbolTable.recorded_ofDeclarations hd (hstorage d List.mem_cons_self)] at hc
    cases hc
    have hsplit : before ++ d :: rest = (before ++ [d]) ++ rest := by simp
    have hlength : before.length + 1 = (before ++ [d]).length := by simp
    have hrest := ih (before ++ [d]) more (fun d' hd' => hstorage d' (List.mem_cons_of_mem _ hd'))
      (by rwa [← hsplit, ← hlength])
    rw [← hlength] at hrest
    rw [List.append_assoc]
    exact .cons (d.rhs.computes_code value hvalue) hrest

/-! ## Sources -/

/-- Code that stores the values of declarations in order and keeps its stack. -/
structure KeepsDiscipline (ds : List Declaration) (code : Code) : Prop where
  /-- Constants, local slots and arithmetic are all that it uses. -/
  isLocal : ∀ instr ∈ code, instr.isLocal = true
  /-- The slot of each declaration is stored once, in order. -/
  pops : code.filter Instr.isPop = (List.range ds.length).map (.pop .locals)
  /-- A slot is read behind the instruction that stores it. -/
  reads : ∀ before i after, code = before ++ .push .locals i :: after → .pop .locals i ∈ before
  /-- No instruction finds fewer cells than it takes. -/
  height : ∀ before, before <+: code → ∃ height, Code.height? 0 before = some height
  /-- Where a declaration has been stored, the stack holds what the tensor literals up
  to there have left, all cells but one of each. -/
  height_at : ∀ before k after, code = before ++ .pop .locals k :: after →
    Code.height? 0 (before ++ [.pop .locals k]) =
      some (((ds.take (k + 1)).flatMap (·.rhs.tensors)).map Tensor.surplus).sum

/-- The surplus of declarations is that of all their tensor literals. -/
theorem sum_surplus (ds : List Declaration) : (ds.map (·.rhs.surplus)).sum =
    ((ds.flatMap (·.rhs.tensors)).map Tensor.surplus).sum := by
  induction ds with
  | nil => rfl
  | cons d ds ih =>
    rw [List.map_cons, List.sum_cons, ih, List.flatMap_cons, List.map_append, List.sum_append]
    rfl

/-- The code of a source uses its slots in order and never finds too few cells on
its stack, with tensor literals as well, and the stack grows by what these leave
there and nothing else. -/
theorem code_keeps_discipline {source : String} {code : Code} (h : compile source = .ok code) :
    ∃ program table, parse source = .ok (program, table) ∧
      KeepsDiscipline program.declarations code := by
  obtain ⟨program, table, ts, hparse, -, -, hstatements, hcode⟩ := exists_statements_of_compile h
  refine ⟨program, table, hparse, ?_⟩
  have hstores := declarationsCode_stores program.declarations [] code hstatements.storage hcode
  refine ⟨hstores.isLocal, ?_, ?_, ?_, ?_⟩
  · rw [hstores.pops, List.length_map, List.range_eq_range']
    rfl
  · intro before i after hplace
    exact (hstores.reads before i after hplace).resolve_left (Nat.not_lt_zero i)
  · intro before hbefore
    exact Code.exists_height?_of_isPrefix (hstores.height 0) hbefore
  · intro before k after hplace
    obtain ⟨j, hj, hheight⟩ := hstores.height_at before k after hplace
    obtain rfl : k = j := by simpa using hj
    rw [hheight 0, Nat.zero_add, ← List.map_take, sum_surplus]

/-- Two tensor literals under operators, and a name declared again: eight cells of
the first literal and three of the second stay on the stack. -/
theorem code_keeps_discipline_surplus : ∃ code before,
    compile "let tensor t = \x7b1, 0, \x7b2\x7d\x7d * -\x7b3\x7d; let tensor t = t + 4;" =
      .ok code ∧ code = before ++ [.pop .locals 1] ∧ Code.height? 0 code = some (8 + 3) := by
  obtain ⟨code, hcode, htest⟩ := exists_ok_of_any
    (x := compile "let tensor t = \x7b1, 0, \x7b2\x7d\x7d * -\x7b3\x7d; let tensor t = t + 4;")
    (p := fun code => code = code.take 19 ++ [.pop .locals 1]) (by decide +kernel)
  have hplace := of_decide_eq_true htest
  obtain ⟨program, table, hparse, hdiscipline⟩ := code_keeps_discipline hcode
  obtain ⟨_, _, hparse', htensors⟩ := exists_of_parse_any
    (s := "let tensor t = \x7b1, 0, \x7b2\x7d\x7d * -\x7b3\x7d; let tensor t = t + 4;")
    (p := fun r => (((r.1.declarations.take 2).flatMap (·.rhs.tensors)).map Tensor.surplus).sum =
      8 + 3) (by decide +kernel)
  rw [hparse] at hparse'
  cases hparse'
  have hheight := hdiscipline.height_at (code.take 19) 1 [] hplace
  rw [of_decide_eq_true htensors, ← hplace] at hheight
  exact ⟨code, code.take 19, hcode, hplace, hheight⟩

end TensorLet
