import Mathlib.Data.List.Basic
import TensorLet.Proofs.Listing.Steps
import TensorLet.Proofs.Scope
import TensorLet.Proofs.Unparse

/-!
# Reading trees off their rows

Rows of tags, names, numbers and operators follow each other in a listing. The row
that a tree starts with says what it is: both kinds of operations have the same tag,
but only a unary one goes on with an operator, since a minus sign alone is an operator
and one before digits belongs to a number. So trees can be read off the rows one behind
the other. What cannot be read are tokens, the forms of numbers and the extents of
tensor literals.

* `Program.erased`: a program without what its listing leaves out.
* `Binary64.text_inj`: different finite numbers have different texts.
* `rowKind`: what the first row of a tree tells.
* `Tensor.rows_append_inj`, `Expr.rows_append_inj`, `Declaration.rows_append_inj`:
  behind the rows of two trees the listing goes on at the same place.
* `Declaration.isRow_of_mem_rows`: every row fills one line.
-/

namespace TensorLet

open Outline (IsRow)
open Outline.Step (rows)

/-! ## Programs without what a listing leaves out -/

mutual
/-- The literal without extents and forms of numbers. -/
def Tensor.erased : Tensor → Tensor
  | .leaf scalar => .leaf { scalar with form := .float }
  | .node _ entries => .node 0 (Tensor.erasedEntries entries)
/-- Stored elements without extents and forms of numbers. -/
def Tensor.erasedEntries : List (Nat × Tensor) → List (Nat × Tensor)
  | [] => []
  | (index, t) :: rest => (index, t.erased) :: Tensor.erasedEntries rest
end

/-- The tree without tokens, forms of numbers and extents. -/
def Expr.erased : Expr → Expr
  | .binary op left right _ => .binary op left.erased right.erased (.endOfInput 0)
  | .unary op operand _ => .unary op operand.erased (.endOfInput 0)
  | .scalar s _ => .scalar { s with form := .float } (.endOfInput 0)
  | .name x resolved _ => .name x resolved (.endOfInput 0)
  | .tensor literal _ => .tensor literal.erased (.endOfInput 0)

/-- The declaration without tokens, forms of numbers and extents. -/
def Declaration.erased (d : Declaration) : Declaration :=
  { d with token := .endOfInput 0, rhs := d.rhs.erased }

/-- The block without tokens, forms of numbers and extents. -/
def Block.erased (b : Block) : Block :=
  { token := .endOfInput 0, declarations := b.declarations.map Declaration.erased }

/-- The program without tokens, forms of numbers and extents. -/
def Program.erased (p : Program) : Program :=
  { p with token := .endOfInput 0, blocks := p.blocks.map Block.erased }

mutual
theorem Tensor.steps_erased (t : Tensor) : t.erased.steps = t.steps := by
  match t with
  | .leaf scalar => rfl
  | .node _ entries => rw [erased, steps, steps, Tensor.entrySteps_erased entries]
theorem Tensor.entrySteps_erased (entries : List (Nat × Tensor)) :
    entrySteps (erasedEntries entries) = entrySteps entries := by
  match entries with
  | [] => rfl
  | (index, t) :: rest =>
    rw [erasedEntries, entrySteps, entrySteps, Tensor.steps_erased t,
      Tensor.entrySteps_erased rest]
end

theorem Expr.steps_erased (e : Expr) : e.erased.steps = e.steps := by
  induction e with
  | binary op left right _ ihleft ihright => rw [erased, steps, steps, ihleft, ihright]
  | unary op operand _ ih => rw [erased, steps, steps, ih]
  | scalar s _ => rfl
  | name x resolved _ => rfl
  | tensor literal _ => exact literal.steps_erased

theorem Declaration.steps_erased (d : Declaration) : d.erased.steps = d.steps := by
  rw [steps, steps, erased, Expr.steps_erased]
  rfl

theorem Block.steps_erased (b : Block) : b.erased.steps = b.steps := by
  rw [steps, steps, erased, List.flatMap_map]
  simp only [Declaration.steps_erased]

/-- A listing leaves out what is erased. -/
theorem Program.steps_erased (p : Program) : p.erased.steps = p.steps := by
  rw [steps, steps, erased, List.flatMap_map]
  simp only [Block.steps_erased]

/-! ## Numbers as rows -/

/-- The text of a decimal starts with a digit. -/
theorem Decimal.toChars_eq_cons (d : Decimal) : ∃ c cs, d.toChars = c :: cs ∧
    c.isDigit = true ∧ ∀ e ∈ cs, e.isDigit = true ∨ e = '.' := by
  rcases d.toChars_cases with ⟨hne, hdigits⟩ | ⟨whole, fraction, heq, hne, hwhole, hfraction⟩
  · obtain ⟨c, cs, heq⟩ := List.exists_cons_of_ne_nil hne
    rw [heq] at hdigits
    exact ⟨c, cs, heq, hdigits c List.mem_cons_self,
      fun e he => .inl (hdigits e (List.mem_cons_of_mem _ he))⟩
  · obtain ⟨c, cs, rfl⟩ := List.exists_cons_of_ne_nil hne
    refine ⟨c, cs ++ '.' :: fraction, heq, hwhole c List.mem_cons_self, fun e he => ?_⟩
    rw [List.mem_append, List.mem_cons] at he
    rcases he with he | he | he
    · exact .inl (hwhole e (List.mem_cons_of_mem _ he))
    · exact .inr he
    · exact .inl (hfraction e he)

theorem Decimal.toChars_inj {d d' : Decimal} (h : d.toChars = d'.toChars) : d = d' := by
  have hread := d.ofChars?_toChars
  rw [h, d'.ofChars?_toChars] at hread
  exact (Option.some.inj hread).symm

namespace Binary64

variable {x y : Binary64}

/-- The text of a finite number is a decimal, behind a sign when it is negative. -/
theorem textChars_of_isFinite (h : x.isFinite = true) :
    x.textChars = if x.negative then '-' :: (shortest x.magnitude).toChars
      else (shortest x.magnitude).toChars := by
  simp only [isFinite, decide_eq_true_eq] at h
  rw [textChars, if_neg (by omega), if_neg (Nat.ne_of_lt h)]

/-- The text of a finite number starts with a digit, or with a sign and a digit. -/
theorem textChars_eq_cons (h : x.isFinite = true) : ∃ c cs, c.isDigit = true ∧
    (∀ e ∈ cs, e.isDigit = true ∨ e = '.') ∧
      (x.textChars = c :: cs ∨ x.textChars = '-' :: c :: cs) := by
  obtain ⟨c, cs, heq, hc, hcs⟩ := (shortest x.magnitude).toChars_eq_cons
  refine ⟨c, cs, hc, hcs, ?_⟩
  rw [textChars_of_isFinite h, heq]
  cases x.negative with
  | true => exact .inr rfl
  | false => exact .inl rfl

/-- Different finite numbers have different texts. -/
theorem text_inj (hx : x.isFinite = true) (hy : y.isFinite = true) (h : x.text = y.text) :
    x = y := by
  have hchars : x.textChars = y.textChars := String.ofList_inj.mp h
  rw [textChars_of_isFinite hx, textChars_of_isFinite hy] at hchars
  -- A decimal does not start with a sign, so the signs are equal.
  have hsign : ∀ d d' : Decimal, '-' :: d.toChars ≠ d'.toChars := by
    intro d d' heq
    obtain ⟨c, cs, hd', hc, -⟩ := d'.toChars_eq_cons
    rw [hd'] at heq
    cases heq
    exact absurd hc (by decide)
  have hmagnitude : (shortest x.magnitude).toChars = (shortest y.magnitude).toChars →
      x.magnitude = y.magnitude := by
    intro heq
    rw [← magnitude_shortest (of_decide_eq_true hx), Decimal.toChars_inj heq,
      magnitude_shortest (of_decide_eq_true hy)]
  obtain ⟨negative, magnitude, hlt⟩ := x
  obtain ⟨negative', magnitude', hlt'⟩ := y
  cases negative with
  | true =>
    cases negative' with
    | true =>
      cases hmagnitude (List.cons.inj hchars).2
      rfl
    | false => exact absurd hchars (hsign _ _)
  | false =>
    cases negative' with
    | true => exact absurd hchars.symm (hsign _ _)
    | false =>
      cases hmagnitude hchars
      rfl

end Binary64

/-! ## First rows -/

/-- The kinds of trees that a row can start. -/
inductive RowKind where
  | operation
  | literal
  | number
  | name
  | other
deriving DecidableEq

/-- The kind of tree that a row starts: an operation or a literal by its tag, and a
name or a number by its characters. An operator starts none. -/
def rowKind (row : String) : RowKind :=
  if row = "<expr_node>" then .operation
  else if row = "<tensor>" then .literal
  else if row.toList.head?.any isWordStart then .name
  else if row.toList.any Char.isDigit then .number
  else .other

/-- A row that is no tag is told by its characters. -/
theorem rowKind_of_cons {row : String} {c : Char} {cs : List Char} (hrow : row.toList = c :: cs)
    (hc : c ≠ '<') : rowKind row =
      if isWordStart c then .name else if (c :: cs).any Char.isDigit then .number else .other := by
  have htag : ∀ tag : String, tag.toList.head? = some '<' → row ≠ tag := by
    rintro _ htag rfl
    rw [hrow] at htag
    exact hc (Option.some.inj htag)
  rw [rowKind, if_neg (htag _ (by decide)), if_neg (htag _ (by decide)), hrow]
  rfl

theorem rowKind_number {x : Binary64} (h : x.isFinite = true) : rowKind x.text = .number := by
  obtain ⟨c, cs, hc, -, htext⟩ := Binary64.textChars_eq_cons h
  have hlist : x.text.toList = x.textChars := String.toList_ofList
  have hword : isWordStart c = false :=
    Bool.eq_false_iff.mpr fun hstart => not_numeric_of_isWordStart hstart (.inl hc)
  have hne : c ≠ '<' := by
    rintro rfl
    exact absurd hc (by decide)
  rcases htext with htext | htext
  · rw [rowKind_of_cons (hlist.trans htext) hne, hword]
    simp [hc]
  · rw [rowKind_of_cons (hlist.trans htext) (by decide)]
    simp [hc, isWordStart]

theorem Lexeme.isWordChar_of_identifier {chars : List Char} (h : Lexeme .identifier chars) :
    ∀ c ∈ chars, isWordChar c = true := by
  cases h with
  | identifier hc hcs _ =>
    rw [List.forall_mem_cons]
    exact ⟨isWordChar_of_isWordStart hc, hcs⟩

theorem rowKind_name {x : String} (h : Lexeme .identifier x.toList) : rowKind x = .name := by
  generalize hchars : x.toList = chars at h
  cases h with
  | @identifier c cs hc _ _ =>
    have hne : c ≠ '<' := by
      rintro rfl
      exact absurd hc (by decide)
    rw [rowKind_of_cons hchars hne, if_pos hc]

theorem BinOp.symbol_inj {op op' : BinOp} (h : op.symbol.toString = op'.symbol.toString) :
    op = op' := by
  cases op <;> cases op' <;> revert h <;> decide

theorem UnaryOp.symbol_inj {op op' : UnaryOp} (h : op.symbol.toString = op'.symbol.toString) :
    op = op' := by
  cases op <;> cases op' <;> revert h <;> decide

theorem rowKind_unaryOp (op : UnaryOp) : rowKind op.symbol.toString = .other := by
  cases op <;> decide

/-! ## Rows of tensor literals -/

namespace Tensor

/-- What the first row of a literal tells. -/
def kind : Tensor → RowKind
  | leaf _ => .number
  | node _ _ => .literal

theorem rows_node (extent : Nat) (entries : List (Nat × Tensor)) :
    rows (node extent entries).steps =
      "<tensor>" :: (rows (entrySteps entries) ++ ["</tensor>"]) := by
  simp [steps]

theorem rows_entrySteps_cons (index : Nat) (t : Tensor) (rest : List (Nat × Tensor)) :
    rows (entrySteps ((index, t) :: rest)) =
      ("[" ++ index.repr ++ "]") :: (rows t.steps ++ rows (entrySteps rest)) := by
  simp [entrySteps, Outline.Item.text]

theorem rowKind_head {t : Tensor} (h : t.isSparse = true) (r : List String) :
    (rows t.steps ++ r).head?.map rowKind = some t.kind := by
  cases t with
  | leaf scalar =>
    rw [isSparse, Bool.and_eq_true] at h
    exact congrArg some (rowKind_number h.1)
  | node extent entries =>
    rw [rows_node]
    rfl

/-- Positions are told by their rows. -/
theorem position_inj {i j : Nat} (h : "[" ++ i.repr ++ "]" = "[" ++ j.repr ++ "]") : i = j := by
  simp only [String.append_assoc, String.append_right_inj, String.append_left_inj] at h
  have hdigits : Nat.toDigits 10 i = Nat.toDigits 10 j := String.ofList_inj.mp h
  calc
    i = Nat.ofDigitChars 10 (Nat.toDigits 10 i) 0 := Nat.ofDigitChars_ten_toDigits.symm
    _ = Nat.ofDigitChars 10 (Nat.toDigits 10 j) 0 := by rw [hdigits]
    _ = j := Nat.ofDigitChars_ten_toDigits

/-- No position looks like the end of a literal. -/
theorem position_ne_closing (i : Nat) : "[" ++ i.repr ++ "]" ≠ "</tensor>" := by
  intro h
  have hhead := congrArg (·.toList.head?) h
  simp at hhead

mutual
/-- The rows of two literals tell them apart and end at the same place. -/
theorem rows_append_inj {t u : Tensor} {r r' : List String} (ht : t.isSparse = true)
    (hu : u.isSparse = true) (h : rows t.steps ++ r = rows u.steps ++ r') :
    t.erased = u.erased ∧ r = r' := by
  have hkind : t.kind = u.kind := by
    have hhead := rowKind_head ht r
    rw [h, rowKind_head hu r'] at hhead
    exact (Option.some.inj hhead).symm
  match t, u with
  | leaf s, leaf s' =>
    rw [isSparse, Bool.and_eq_true] at ht hu
    have hrow := List.cons.inj h
    rw [erased, erased, Binary64.text_inj ht.1 hu.1 hrow.1]
    exact ⟨rfl, hrow.2⟩
  | node m es, node n fs =>
    simp only [rows_node, List.cons_append, List.append_assoc, List.nil_append,
      List.cons.injEq, true_and] at h
    obtain ⟨hentries, hr⟩ := entryRows_append_inj ht hu h
    rw [erased, erased, hentries]
    exact ⟨rfl, hr⟩
  | leaf _, node _ _ => cases hkind
  | node _ _, leaf _ => cases hkind
/-- The same for stored elements up to the end of their literal. -/
theorem entryRows_append_inj {es fs : List (Nat × Tensor)} {m n low low' : Nat}
    {r r' : List String} (hes : areSparse m low es = true) (hfs : areSparse n low' fs = true)
    (h : rows (entrySteps es) ++ "</tensor>" :: r = rows (entrySteps fs) ++ "</tensor>" :: r') :
    erasedEntries es = erasedEntries fs ∧ r = r' := by
  match es, fs with
  | [], [] => exact ⟨rfl, (List.cons.inj h).2⟩
  | (i, t) :: es, (j, u) :: fs =>
    rw [areSparse, Bool.and_eq_true, Bool.and_eq_true] at hes hfs
    simp only [rows_entrySteps_cons, List.cons_append, List.append_assoc, List.cons.injEq] at h
    obtain ⟨hfirst, hrows⟩ := rows_append_inj hes.1.2 hfs.1.2 h.2
    obtain ⟨hrest, hr⟩ := entryRows_append_inj hes.2 hfs.2 hrows
    rw [erasedEntries, erasedEntries, position_inj h.1, hfirst, hrest]
    exact ⟨rfl, hr⟩
  | [], (j, u) :: fs =>
    rw [rows_entrySteps_cons] at h
    exact absurd (List.cons.inj h).1.symm (position_ne_closing j)
  | (i, t) :: es, [] =>
    rw [rows_entrySteps_cons] at h
    exact absurd (List.cons.inj h).1 (position_ne_closing i)
end

end Tensor

/-! ## Rows of expressions -/

namespace Expr

/-- A literal that can be written has braces. -/
theorem Writable.exists_node {literal : Tensor} {token : Token}
    (h : (tensor literal token).Writable) : ∃ extent entries, literal = .node extent entries := by
  cases literal with
  | leaf scalar => exact h.elim
  | node extent entries => exact ⟨extent, entries, rfl⟩

/-- What the first row of a tree tells. -/
def kind : Expr → RowKind
  | binary _ _ _ _ => .operation
  | unary _ _ _ => .operation
  | scalar _ _ => .number
  | name _ _ _ => .name
  | tensor _ _ => .literal

theorem rows_binary (op : BinOp) (left right : Expr) (token : Token) :
    rows (binary op left right token).steps = "<expr_node>" ::
      (rows left.steps ++ op.symbol.toString :: (rows right.steps ++ ["</expr_node>"])) := by
  simp [steps, Outline.Item.text]

theorem rows_unary (op : UnaryOp) (operand : Expr) (token : Token) :
    rows (unary op operand token).steps = "<expr_node>" ::
      op.symbol.toString :: (rows operand.steps ++ ["</expr_node>"]) := by
  simp [steps, Outline.Item.text]

theorem rowKind_head {e : Expr} (h : e.Writable) (r : List String) :
    (rows e.steps ++ r).head?.map rowKind = some e.kind := by
  cases e with
  | binary op left right _ =>
    rw [rows_binary]
    rfl
  | unary op operand _ =>
    rw [rows_unary]
    rfl
  | scalar s _ => exact congrArg some (rowKind_number h.1)
  | name x resolved _ => exact congrArg some (rowKind_name h)
  | tensor literal _ =>
    obtain ⟨extent, entries, rfl⟩ := h.exists_node
    exact Tensor.rowKind_head (t := .node extent entries) h r

/-- No tree starts with an operator. -/
theorem kind_ne_other (e : Expr) : e.kind ≠ .other := by
  cases e <;> exact nofun

/-- Both kinds of operations have the same tag. Behind it, a tree is no operator. -/
theorem rows_binary_ne_unary {op : BinOp} {op' : UnaryOp} {left right operand : Expr}
    {token token' : Token} {r r' : List String} (h : left.Writable) :
    rows (binary op left right token).steps ++ r ≠ rows (unary op' operand token').steps ++ r' := by
  rw [rows_binary, rows_unary, List.cons_append, List.cons_append, List.append_assoc]
  intro heq
  have hhead := rowKind_head h (op.symbol.toString :: (rows right.steps ++ ["</expr_node>"]) ++ r)
  rw [(List.cons.inj heq).2, List.cons_append, List.head?_cons, Option.map_some,
    rowKind_unaryOp] at hhead
  exact left.kind_ne_other (Option.some.inj hhead).symm

theorem kind_eq {e e' : Expr} {r r' : List String} (he : e.Writable) (he' : e'.Writable)
    (h : rows e.steps ++ r = rows e'.steps ++ r') : e.kind = e'.kind := by
  have hhead := rowKind_head he r
  rw [h, rowKind_head he' r'] at hhead
  exact (Option.some.inj hhead).symm

/-- The rows of two trees tell them apart and end at the same place. -/
theorem rows_append_inj {scope : String → Option Storage} {e e' : Expr} {r r' : List String}
    (he : e.Writable) (he' : e'.Writable) (hscope : ∀ node ∈ e.nodes, node.Resolved scope)
    (hscope' : ∀ node ∈ e'.nodes, node.Resolved scope)
    (h : rows e.steps ++ r = rows e'.steps ++ r') : e.erased = e'.erased ∧ r = r' := by
  induction e generalizing e' r r' with
  | binary op left right _ ihleft ihright =>
    cases e' with
    | binary op' left' right' _ =>
      simp only [rows_binary, List.cons_append, List.append_assoc, List.cons.injEq,
        true_and] at h
      rw [nodes, List.forall_mem_cons, List.forall_mem_append] at hscope hscope'
      obtain ⟨hleft, hrest⟩ := ihleft he.1 he'.1 hscope.2.1 hscope'.2.1 h
      obtain ⟨hop, hrest⟩ := List.cons.inj hrest
      obtain ⟨hright, hrest⟩ := ihright he.2 he'.2 hscope.2.2 hscope'.2.2 hrest
      rw [erased, erased, hleft, BinOp.symbol_inj hop, hright]
      exact ⟨rfl, (List.cons.inj hrest).2⟩
    | unary op' operand' _ =>
      exact absurd h (rows_binary_ne_unary he.1)
    | _ => cases kind_eq he he' h
  | unary op operand _ ih =>
    cases e' with
    | binary op' left' right' _ =>
      exact absurd h.symm (rows_binary_ne_unary he'.1)
    | unary op' operand' _ =>
      simp only [rows_unary, List.cons_append, List.append_assoc, List.cons.injEq,
        true_and] at h
      rw [nodes, List.forall_mem_cons] at hscope hscope'
      have hwritable : operand'.Writable := he'
      obtain ⟨hoperand, hrest⟩ := ih he hwritable hscope.2 hscope'.2 h.2
      rw [erased, erased, UnaryOp.symbol_inj h.1, hoperand]
      exact ⟨rfl, (List.cons.inj hrest).2⟩
    | _ => cases kind_eq he he' h
  | scalar s _ =>
    cases e' with
    | scalar s' _ =>
      obtain ⟨htext, hrest⟩ := List.cons.inj h
      rw [erased, erased, Binary64.text_inj he.1 he'.1 htext]
      exact ⟨rfl, hrest⟩
    | _ => cases kind_eq he he' h
  | name x resolved _ =>
    cases e' with
    | name x' resolved' _ =>
      obtain ⟨hname, hrest⟩ := List.cons.inj h
      have hname : x = x' := hname
      have hresolved : resolved = scope x := hscope _ List.mem_cons_self
      have hresolved' : resolved' = scope x' := hscope' _ List.mem_cons_self
      rw [erased, erased, hresolved, hresolved', hname]
      exact ⟨rfl, hrest⟩
    | _ => cases kind_eq he he' h
  | tensor literal _ =>
    obtain ⟨m, es, rfl⟩ := he.exists_node
    cases e' with
    | tensor literal' _ =>
      obtain ⟨n, fs, rfl⟩ := he'.exists_node
      obtain ⟨hliteral, hrest⟩ :=
        Tensor.rows_append_inj (t := .node m es) (u := .node n fs) he he' h
      rw [erased, erased, hliteral]
      exact ⟨rfl, hrest⟩
    | _ => cases kind_eq he he' h

end Expr

/-! ## Rows of declarations -/

namespace Declaration

variable {d d' : Declaration}

theorem rows_steps (d : Declaration) :
    rows d.steps = "<var_dec>" :: d.head :: (rows d.rhs.steps ++ ["</var_dec>"]) := by
  simp [steps, Outline.Item.text]

/-- A name has no brace in it, so it ends where the type starts. -/
theorem head_inj (hname : Lexeme .identifier d.name.toList) (h : d.head = d'.head) :
    d.name = d'.name ∧ d.type = d'.type := by
  have hsplit : ∀ d : Declaration, d.head.toList =
      d.name.toList ++ '\x7b' :: (d.type.text ++ "\x7d:").toList := by
    intro d
    simp [head]
  have hbrace : '\x7b' ∉ d.name.toList := by
    intro hmem
    exact absurd (hname.isWordChar_of_identifier _ hmem) (by decide)
  have htype : '\x7b' ∉ (d.type.text ++ "\x7d:").toList := by
    cases d.type <;> decide
  have hchars := congrArg String.toList h
  rw [hsplit d, hsplit d'] at hchars
  obtain ⟨hnames, -, htypes⟩ := (List.append_cons_inj_of_notMem hbrace htype).mp hchars
  refine ⟨String.toList_inj.mp hnames, ?_⟩
  revert htypes
  cases d.type <;> cases d'.type <;> decide

/-- The rows of two declarations tell them apart and end at the same place. -/
theorem rows_append_inj {scope : String → Option Storage} {r r' : List String} (hd : d.Writable)
    (hd' : d'.Writable) (hscope : ∀ node ∈ d.rhs.nodes, node.Resolved scope)
    (hscope' : ∀ node ∈ d'.rhs.nodes, node.Resolved scope)
    (h : rows d.steps ++ r = rows d'.steps ++ r') : d.erased = d'.erased ∧ r = r' := by
  simp only [rows_steps, List.cons_append, List.append_assoc, List.cons.injEq, true_and] at h
  obtain ⟨hname, htype⟩ := head_inj hd.name h.1
  obtain ⟨hrhs, hrest⟩ := Expr.rows_append_inj hd.rhs hd'.rhs hscope hscope' h.2
  refine ⟨?_, (List.cons.inj hrest).2⟩
  rw [erased, erased, hname, htype, hd.storage, hd'.storage, hrhs]

end Declaration

/-! ## Rows fill one line -/

/-- Rows of characters of a class without newlines and tabs. -/
theorem isRow_of_forall {row : String} (p : Char → Bool) (h : ∀ c ∈ row.toList, p c = true)
    (hnewline : p '\n' = false) (htab : p '\t' = false) : IsRow row := by
  intro c hc
  have hpc := h c hc
  refine ⟨?_, ?_⟩
  · rintro rfl
    exact absurd hpc (Bool.eq_false_iff.mp hnewline)
  · rintro rfl
    exact absurd hpc (Bool.eq_false_iff.mp htab)

theorem isRow_number {x : Binary64} (h : x.isFinite = true) : IsRow x.text := by
  obtain ⟨c, cs, hc, hcs, htext⟩ := Binary64.textChars_eq_cons h
  have hlist : x.text.toList = x.textChars := String.toList_ofList
  refine isRow_of_forall (fun e => e.isDigit || e == '.' || e == '-') (fun e he => ?_) rfl rfl
  have hmem : e = '-' ∨ e ∈ c :: cs := by
    rw [hlist] at he
    rcases htext with htext | htext
    · exact .inr (htext ▸ he)
    · exact List.mem_cons.mp (htext ▸ he)
  rcases hmem with rfl | hmem
  · rfl
  · rcases List.mem_cons.mp hmem with rfl | hmem
    · simp [hc]
    · rcases hcs e hmem with hdigit | rfl
      · simp [hdigit]
      · rfl

theorem isRow_name {x : String} (h : Lexeme .identifier x.toList) : IsRow x :=
  isRow_of_forall isWordChar h.isWordChar_of_identifier rfl rfl

theorem isRow_position (i : Nat) : IsRow ("[" ++ i.repr ++ "]") := by
  have hdigits : IsRow i.repr := by
    refine isRow_of_forall Char.isDigit (fun c hc => ?_) rfl rfl
    rw [Nat.toList_repr] at hc
    exact Nat.isDigit_of_mem_toDigits (by decide) (by decide) hc
  exact (IsRow.append (by decide) hdigits).append (by decide)

mutual
theorem Tensor.isRow_of_mem_rows (t : Tensor) (h : t.isSparse = true) :
    ∀ row ∈ rows t.steps, IsRow row := by
  match t with
  | .leaf scalar =>
    rw [isSparse, Bool.and_eq_true] at h
    intro row hrow
    rw [List.mem_singleton.mp hrow]
    exact isRow_number h.1
  | .node extent entries =>
    have hentries := Tensor.isRow_of_mem_entryRows entries h
    intro row hrow
    rw [rows_node, List.mem_cons, List.mem_append, List.mem_singleton] at hrow
    rcases hrow with rfl | hrow | rfl
    · decide
    · exact hentries row hrow
    · decide
theorem Tensor.isRow_of_mem_entryRows {extent low : Nat} (entries : List (Nat × Tensor))
    (h : areSparse extent low entries = true) : ∀ row ∈ rows (entrySteps entries), IsRow row := by
  match entries with
  | [] => exact nofun
  | (index, t) :: rest =>
    rw [areSparse, Bool.and_eq_true, Bool.and_eq_true] at h
    have ht := Tensor.isRow_of_mem_rows t h.1.2
    have hrest := Tensor.isRow_of_mem_entryRows rest h.2
    intro row hrow
    rw [rows_entrySteps_cons, List.mem_cons, List.mem_append] at hrow
    rcases hrow with rfl | hrow | hrow
    · exact isRow_position index
    · exact ht row hrow
    · exact hrest row hrow
end

theorem Expr.isRow_of_mem_rows (e : Expr) (h : e.Writable) : ∀ row ∈ rows e.steps, IsRow row := by
  induction e with
  | binary op left right _ ihleft ihright =>
    intro row hrow
    rw [rows_binary, List.mem_cons, List.mem_append, List.mem_cons, List.mem_append,
      List.mem_singleton] at hrow
    rcases hrow with rfl | hrow | rfl | hrow | rfl
    · decide
    · exact ihleft h.1 row hrow
    · cases op <;> decide
    · exact ihright h.2 row hrow
    · decide
  | unary op operand _ ih =>
    intro row hrow
    rw [rows_unary, List.mem_cons, List.mem_cons, List.mem_append, List.mem_singleton] at hrow
    rcases hrow with rfl | rfl | hrow | rfl
    · decide
    · cases op <;> decide
    · exact ih h row hrow
    · decide
  | scalar s _ =>
    intro row hrow
    rw [List.mem_singleton.mp hrow]
    exact isRow_number h.1
  | name x resolved _ =>
    intro row hrow
    rw [List.mem_singleton.mp hrow]
    exact isRow_name h
  | tensor literal _ =>
    obtain ⟨extent, entries, rfl⟩ := h.exists_node
    exact Tensor.isRow_of_mem_rows (.node extent entries) h

theorem Declaration.isRow_of_mem_rows {d : Declaration} (h : d.Writable) :
    ∀ row ∈ rows d.steps, IsRow row := by
  intro row hrow
  rw [rows_steps, List.mem_cons, List.mem_cons, List.mem_append, List.mem_singleton] at hrow
  rcases hrow with rfl | rfl | hrow | rfl
  · decide
  · have htype : IsRow d.type.text := by
      cases d.type <;> decide
    exact (((isRow_name h.name).append (by decide)).append htype).append (by decide)
  · exact d.rhs.isRow_of_mem_rows h.rhs row hrow
  · decide

end TensorLet
