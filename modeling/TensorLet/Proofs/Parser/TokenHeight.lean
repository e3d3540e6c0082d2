import TensorLet.Proofs.Parser.Height

/-!
# Heights read off tokens

The height of a tree can be found in one pass over the tokens it is written
with, when the height of what has been read is kept until the operators behind
it are known. For each open parenthesis the pass holds the sum and the product
before the factor it is in, and the signs before that factor (`Frame`). An
operator joins what is before it to the operand behind it and is one level
taller than the taller of the two.

An accepted source keeps the limit on heights exactly when this pass stays within
it.

* `Derives.runs`: over the tokens of a phrase the pass finds the height of its
  tree.
* `Statements.initializerHeights_eq`: over a source it finds the heights of all
  initializers.
* `height_le_maxHeight_iff`: which accepted sources keep the limit.
-/

namespace TensorLet

/-! ## The pass -/

/-- What stands before the factor that is read: how many signs, the height of
the product they belong to, and the height of the sum before that. -/
structure Frame where
  signs : Nat
  product : Option Nat
  sum : Option Nat
deriving DecidableEq

/-- The height of an operand with what an operator joins it to. -/
def joined : Option Nat → Nat → Nat
  | none, k => k
  | some left, k => max left k + 1

/-- A pass over the tokens of an initializer: the innermost frame and those
around it, the height of the product read so far unless an operand has to
follow, and the number of open braces. -/
structure Pass where
  frame : Frame
  outer : List Frame
  height : Option Nat
  braces : Nat
deriving DecidableEq

namespace Pass

/-- At the front of an initializer. -/
def start : Pass := ⟨⟨0, none, none⟩, [], none, 0⟩

/-- Behind an operand of height `k`, which the signs before it belong to. -/
def operand (p : Pass) (k : Nat) : Pass :=
  { p with
    frame := { p.frame with signs := 0 }
    height := some (joined p.frame.product (k + p.frame.signs)) }

/-- Behind one more token where an operand has to follow. -/
def first (p : Pass) (t : Token) : Pass :=
  if t.isSymbol '\x7b' then { p.operand 0 with braces := 1 }
  else if t.isSymbol '(' then ⟨⟨0, none, none⟩, p.frame :: p.outer, none, 0⟩
  else if t.kind = .symbol then { p with frame := { p.frame with signs := p.frame.signs + 1 } }
  else p.operand 0

/-- Behind one more token that follows a product of height `k`. -/
def next (p : Pass) (k : Nat) (t : Token) : Pass :=
  if t.isSymbol '*' || t.isSymbol '/' then
    { p with frame := ⟨0, some k, p.frame.sum⟩, height := none }
  else if t.isSymbol '+' || t.isSymbol '-' then
    { p with frame := ⟨0, none, some (joined p.frame.sum k)⟩, height := none }
  else
    match p.outer with
    | [] => p
    | f :: outer => operand ⟨f, outer, none, 0⟩ (joined p.frame.sum k)

/-- Behind one more token. What is between braces counts as one operand. -/
def step (p : Pass) (t : Token) : Pass :=
  if p.braces = 0 then
    match p.height with
    | none => p.first t
    | some k => p.next k t
  else if t.isSymbol '\x7b' then { p with braces := p.braces + 1 }
  else if t.isSymbol '\x7d' then { p with braces := p.braces - 1 }
  else p

/-- The height of the whole expression that has been read. -/
def total (p : Pass) : Nat := joined p.frame.sum (p.height.getD 0)

end Pass

/-- The heights of the initializers of a source, each of them between its `=` and
its `;`. -/
def initializerHeights : Option Pass → List Token → List Nat
  | _, [] => []
  | none, t :: ts => initializerHeights (if t.isSymbol '=' then some .start else none) ts
  | some p, t :: ts =>
    if t.isSymbol ';' then p.total :: initializerHeights none ts
    else initializerHeights (some (p.step t)) ts

namespace Grammar

/-! ## Tensor literals -/

/-- A token that does not end an initializer. -/
def Inner (t : Token) : Prop := t.isSymbol ';' = false

theorem inner_of_isSymbol {t : Token} {c : Char} (ht : t.isSymbol c = true) (hc : ';' ≠ c) :
    Inner t := Token.isSymbol_eq_false ht hc

theorem inner_of_isNumber {t : Token} (ht : t.isNumber = true) : Inner t :=
  Token.isSymbol_eq_false_of_isNumber ht _

/-- Tokens that the pass skips inside braces: none ends the initializer, and
behind them it is where it was. -/
structure Skipped (ts : List Token) : Prop where
  inner : ∀ t ∈ ts, Inner t
  back : ∀ p : Pass, p.braces ≠ 0 → ts.foldl Pass.step p = p

theorem skipped_nil : Skipped [] := ⟨by simp, fun _ _ => rfl⟩

theorem Skipped.append {ts us : List Token} (hts : Skipped ts) (hus : Skipped us) :
    Skipped (ts ++ us) := by
  refine ⟨?_, fun p hp => ?_⟩
  · intro t ht
    rcases List.mem_append.mp ht with ht | ht
    · exact hts.inner t ht
    · exact hus.inner t ht
  · rw [List.foldl_append, hts.back p hp, hus.back p hp]

theorem skipped_singleton {t : Token} (ht : ∀ c ∈ ['\x7b', '\x7d', ';'], t.isSymbol c = false) :
    Skipped [t] := by
  refine ⟨fun u hu => ?_, fun p hp => ?_⟩
  · rw [List.mem_singleton.mp hu]
    exact ht ';' (by decide)
  · rw [List.foldl_cons, List.foldl_nil, Pass.step, if_neg hp, ht _ (by decide), ht _ (by decide)]
    simp

theorem skipped_of_isSymbol {t : Token} {c : Char} (ht : t.isSymbol c = true)
    (hc : c ∉ ['\x7b', '\x7d', ';']) : Skipped [t] :=
  skipped_singleton fun _ hd => Token.isSymbol_eq_false ht fun h => hc (h ▸ hd)

theorem skipped_of_isNumber {t : Token} (ht : t.isNumber = true) : Skipped [t] :=
  skipped_singleton fun _ _ => Token.isSymbol_eq_false_of_isNumber ht _

/-- The brace that closes what a step has opened. -/
theorem step_closeBrace {p : Pass} {r : Token} (hr : r.isSymbol '\x7d' = true)
    (hp : p.braces ≠ 0) : p.step r = { p with braces := p.braces - 1 } := by
  rw [Pass.step, if_neg hp, Token.isSymbol_eq_false hr (by decide), if_neg (by simp), if_pos hr]

/-- A pair of braces around tokens that are skipped. -/
theorem Skipped.braces {l r : Token} {ts : List Token} (hts : Skipped ts)
    (hl : l.isSymbol '\x7b' = true) (hr : r.isSymbol '\x7d' = true) :
    Skipped (l :: (ts ++ [r])) := by
  refine ⟨?_, fun p hp => ?_⟩
  · intro t ht
    simp only [List.mem_cons, List.mem_append, List.not_mem_nil, or_false] at ht
    rcases ht with rfl | ht | rfl
    · exact inner_of_isSymbol hl (by decide)
    · exact hts.inner t ht
    · exact inner_of_isSymbol hr (by decide)
  · have hopen : p.step l = { p with braces := p.braces + 1 } := by
      rw [Pass.step, if_neg hp, if_pos hl]
    rw [List.foldl_cons, hopen, List.foldl_append, hts.back _ (Nat.succ_ne_zero _),
      List.foldl_cons, List.foldl_nil, step_closeBrace hr (Nat.succ_ne_zero _)]
    rfl

mutual
theorem Literal.skipped {n h : Nat} {ts : List Token} {t : Tensor} :
    Literal n h ts t → Skipped ts
  | .empty _ hl hr => skipped_nil.braces hl hr
  | .filled _ hl hes hr => hes.skipped.braces hl hr
theorem Elements.skipped {n h : Nat} {ts : List Token} {es : List (Option Tensor)} :
    Elements n h ts es → Skipped ts
  | .last he => he.skipped
  | .more he hcomma hes => by
    have hskip := skipped_of_isSymbol hcomma (by decide)
    exact he.skipped.append (hskip.append hes.skipped)
theorem Element.skipped {n h : Nat} {ts : List Token} {e : Option Tensor} :
    Element n h ts e → Skipped ts
  | .literal hliteral => hliteral.skipped
  | .number ht _ => skipped_of_isNumber ht
  | .negative hminus ht _ => by
    have hskip := skipped_of_isSymbol hminus (by decide)
    exact hskip.append (skipped_of_isNumber ht)
end

/-- A literal is what is between its outermost braces. -/
theorem Literal.exists_inside {n h : Nat} {ts : List Token} {t : Tensor} :
    Literal n h ts t → ∃ l us r, ts = l :: (us ++ [r]) ∧ l.isSymbol '\x7b' = true ∧
      r.isSymbol '\x7d' = true ∧ Skipped us
  | .empty _ hl hr => ⟨_, [], _, rfl, hl, hr, skipped_nil⟩
  | .filled _ hl hes hr => ⟨_, _, _, rfl, hl, hr, hes.skipped⟩

section

variable {f : Frame} {outer : List Frame} {t : Token}

/-- A literal counts as an operand of height 0. -/
theorem Literal.foldl_step {n h : Nat} {ts : List Token} {literal : Tensor}
    (H : Literal n h ts literal) :
    ts.foldl Pass.step ⟨f, outer, none, 0⟩ = Pass.operand ⟨f, outer, none, 0⟩ 0 := by
  obtain ⟨l, us, r, rfl, hl, hr, hus⟩ := H.exists_inside
  have hopen : Pass.step ⟨f, outer, none, 0⟩ l =
      { Pass.operand ⟨f, outer, none, 0⟩ 0 with braces := 1 } := if_pos hl
  rw [List.foldl_cons, hopen, List.foldl_append, hus.back _ Nat.one_ne_zero, List.foldl_cons,
    List.foldl_nil, step_closeBrace hr Nat.one_ne_zero]
  rfl

/-! ## Expressions -/

/-- A token that is no symbol is an operand. -/
theorem step_operand (ht : t.kind ≠ .symbol) :
    Pass.step ⟨f, outer, none, 0⟩ t = Pass.operand ⟨f, outer, none, 0⟩ 0 := by
  have hsymbol : ∀ c, t.isSymbol c = false := fun c => Token.isSymbol_eq_false_of_kind rfl ht c
  show Pass.first _ t = _
  rw [Pass.first, hsymbol, hsymbol, if_neg (by simp), if_neg (by simp), if_neg ht]

theorem step_sign {op : UnaryOp} (ht : t.isSymbol op.symbol = true) :
    Pass.step ⟨f, outer, none, 0⟩ t = ⟨⟨f.signs + 1, f.product, f.sum⟩, outer, none, 0⟩ := by
  have hbrace : t.isSymbol '\x7b' = false := Token.isSymbol_eq_false ht (by cases op <;> decide)
  have hparen : t.isSymbol '(' = false := Token.isSymbol_eq_false ht (by cases op <;> decide)
  show Pass.first _ t = _
  rw [Pass.first, hbrace, hparen, if_neg (by simp), if_neg (by simp),
    if_pos (Token.kind_of_isSymbol ht)]

theorem step_open (ht : t.isSymbol '(' = true) :
    Pass.step ⟨f, outer, none, 0⟩ t = ⟨⟨0, none, none⟩, f :: outer, none, 0⟩ := by
  show Pass.first _ t = _
  rw [Pass.first, Token.isSymbol_eq_false ht (by decide), if_neg (by simp), if_pos ht]

/-- A closing parenthesis makes what is inside an operand of what is around. -/
theorem step_close {g : Frame} {k : Nat} (ht : t.isSymbol ')' = true) :
    Pass.step ⟨f, g :: outer, some k, 0⟩ t =
      Pass.operand ⟨g, outer, none, 0⟩ (joined f.sum k) := by
  have hne : ∀ c, c ≠ ')' → t.isSymbol c = false := fun c hc => Token.isSymbol_eq_false ht hc
  show Pass.next _ k t = _
  rw [Pass.next, hne '*' (by decide), hne '/' (by decide), hne '+' (by decide),
    hne '-' (by decide), if_neg (by simp), if_neg (by simp)]

theorem step_product {k : Nat} {op : BinOp} (hop : op ∈ Level.product.ops)
    (ht : t.isSymbol op.symbol = true) :
    Pass.step ⟨f, outer, some k, 0⟩ t = ⟨⟨0, some k, f.sum⟩, outer, none, 0⟩ := by
  show Pass.next _ k t = _
  rw [Pass.next, if_pos]
  simp only [Level.ops, List.mem_cons, List.not_mem_nil, or_false] at hop
  rcases hop with rfl | rfl
  · rw [show t.isSymbol '*' = true from ht, Bool.true_or]
  · rw [show t.isSymbol '/' = true from ht, Bool.or_true]

theorem step_sum {k : Nat} {op : BinOp} (hop : op ∈ Level.sum.ops)
    (ht : t.isSymbol op.symbol = true) :
    Pass.step ⟨f, outer, some k, 0⟩ t =
      ⟨⟨0, none, some (joined f.sum k)⟩, outer, none, 0⟩ := by
  have hne : ∀ c, c ≠ op.symbol → t.isSymbol c = false :=
    fun c hc => Token.isSymbol_eq_false ht hc
  simp only [Level.ops, List.mem_cons, List.not_mem_nil, or_false] at hop
  show Pass.next _ k t = _
  rw [Pass.next, if_neg, if_pos]
  · rcases hop with rfl | rfl
    · rw [show t.isSymbol '+' = true from ht, Bool.true_or]
    · rw [show t.isSymbol '-' = true from ht, Bool.or_true]
  · rcases hop with rfl | rfl
    · rw [hne '*' (by decide), hne '/' (by decide)]
      simp
    · rw [hne '*' (by decide), hne '/' (by decide)]
      simp

end

/-- What the pass does over the tokens of a phrase whose tree has height `k`. A
factor becomes an operand; a chain of products leaves the sum before it as it
was; a chain of sums is what has been joined so far. -/
def Phrase.Runs (ts : List Token) (k : Nat) : Phrase → Prop
  | .primary | .factor => ∀ (f : Frame) (outer : List Frame),
      ts.foldl Pass.step ⟨f, outer, none, 0⟩ = Pass.operand ⟨f, outer, none, 0⟩ k
  | .term | .chain .product _ => ∀ (sum : Option Nat) (outer : List Frame), ∃ f : Frame,
      f.sum = sum ∧
        ts.foldl Pass.step ⟨⟨0, none, sum⟩, outer, none, 0⟩ = ⟨f, outer, some k, 0⟩
  | .expression | .chain .sum _ => ∀ outer : List Frame, ∃ (f : Frame) (v : Nat),
      joined f.sum v = k ∧
        ts.foldl Pass.step ⟨⟨0, none, none⟩, outer, none, 0⟩ = ⟨f, outer, some v, 0⟩

/-- Over the tokens of a phrase the pass finds the height of its tree. -/
theorem Derives.runs {scope : String → Option Storage} {phrase : Phrase} {n h : Nat}
    {ts : List Token} {e : Expr} (H : Derives scope phrase n h ts e) :
    phrase.Runs ts e.height := by
  induction H with
  | expression _ ih => exact ih
  | term _ ih => exact ih
  | @first level _ _ ts e _ ih =>
    cases level with
    | sum =>
      intro outer
      obtain ⟨f, hsum, hrun⟩ := ih none outer
      refine ⟨f, e.height, ?_, hrun⟩
      rw [hsum]
      rfl
    | product =>
      intro sum outer
      exact ⟨⟨0, none, sum⟩, rfl, ih ⟨0, none, sum⟩ outer⟩
  | @next level _ _ _ ts us left right op t _ hop ht _ _ ihleft ihright =>
    cases level with
    | sum =>
      intro outer
      obtain ⟨f, v, hv, hrun⟩ := ihleft outer
      -- The sum so far is joined before the term behind the operator is read.
      obtain ⟨f', hsum, hrun'⟩ := ihright (some left.height) outer
      refine ⟨f', right.height, ?_, ?_⟩
      · rw [hsum]
        rfl
      · rw [List.foldl_append, hrun, List.foldl_cons, step_sum hop ht, hv, hrun']
    | product =>
      intro sum outer
      obtain ⟨f, hsum, hrun⟩ := ihleft sum outer
      refine ⟨⟨0, some left.height, f.sum⟩, hsum, ?_⟩
      rw [List.foldl_append, hrun, List.foldl_cons, step_product hop ht, ihright]
      rfl
  | parentheses _ hl _ hr ih =>
    intro f outer
    obtain ⟨g, v, hv, hrun⟩ := ih (f :: outer)
    rw [List.foldl_cons, step_open hl, List.foldl_append, hrun, List.foldl_cons,
      List.foldl_nil, step_close hr, hv]
  | primary _ ih => exact ih
  | number hnumber _ =>
    intro f outer
    refine step_operand ?_
    intro hkind
    simp [Token.isNumber, hkind] at hnumber
  | name hkind =>
    intro f outer
    exact step_operand (by rw [hkind]; decide)
  | tensor hliteral =>
    intro f outer
    exact hliteral.foldl_step
  | @sign _ _ op t ts e _ ht _ ih =>
    intro f outer
    rw [List.foldl_cons, step_sign ht, ih]
    -- The sign is counted before its operand or on top of it.
    simp only [Pass.operand, Expr.height]
    rw [show e.height + (f.signs + 1) = e.height + 1 + f.signs by omega]

/-- The pass over an initializer ends with the height of its tree. -/
theorem Derives.total_eq {scope : String → Option Storage} {n h : Nat} {ts : List Token}
    {e : Expr} (H : Derives scope .expression n h ts e) :
    (ts.foldl Pass.step .start).total = e.height := by
  obtain ⟨f, v, hv, hrun⟩ := H.runs []
  rw [Pass.start, hrun]
  exact hv

/-! ## Sources -/

theorem Derives.inner {scope : String → Option Storage} {phrase : Phrase} {n h : Nat}
    {ts : List Token} {e : Expr} (H : Derives scope phrase n h ts e) : ∀ u ∈ ts, Inner u := by
  induction H with
  | expression _ ih => exact ih
  | term _ ih => exact ih
  | first _ ih => exact ih
  | @next _ _ _ _ _ _ _ _ op _ _ _ ht _ _ ihleft ihright =>
    intro u hu
    simp only [List.mem_append, List.mem_cons] at hu
    rcases hu with hu | rfl | hu
    · exact ihleft u hu
    · exact inner_of_isSymbol ht (by cases op <;> decide)
    · exact ihright u hu
  | parentheses _ hl _ hr ih =>
    intro u hu
    simp only [List.mem_cons, List.mem_append, List.not_mem_nil, or_false] at hu
    rcases hu with rfl | hu | rfl
    · exact inner_of_isSymbol hl (by decide)
    · exact ih u hu
    · exact inner_of_isSymbol hr (by decide)
  | primary _ ih => exact ih
  | number hnumber _ => simp [inner_of_isNumber hnumber]
  | name hkind => simp [Inner, Token.isSymbol_eq_false_of_kind hkind (by decide)]
  | tensor hliteral => exact hliteral.skipped.inner
  | @sign _ _ op _ _ _ _ ht _ ih =>
    intro u hu
    rcases List.mem_cons.mp hu with rfl | hu
    · exact inner_of_isSymbol ht (by cases op <;> decide)
    · exact ih u hu

/-- Up to the semicolon an initializer is passed token by token. -/
theorem initializerHeights_append (us : List Token) : ∀ (ts : List Token) (p : Pass),
    (∀ t ∈ ts, Inner t) →
    initializerHeights (some p) (ts ++ us) = initializerHeights (some (ts.foldl Pass.step p)) us := by
  intro ts
  induction ts with
  | nil => intro p _; rfl
  | cons t ts ih =>
    intro p hts
    have ht : t.isSymbol ';' = false := hts t List.mem_cons_self
    rw [List.cons_append, initializerHeights, ht, if_neg (by simp), List.foldl_cons]
    exact ih (p.step t) fun u hu => hts u (List.mem_cons_of_mem _ hu)

/-- Over a source the pass finds the heights of all initializers. -/
theorem Statements.initializerHeights_eq {names : List String} {ts : List Token}
    {ds : List Declaration} (H : Statements names ts ds) :
    initializerHeights none ts = ds.map (·.rhs.height) := by
  induction H with
  | nil => rfl
  | @cons names ts us d ds hd hds ih =>
    cases hd with
    | @intro word type name equals semicolon ts valueType rhs hword htype hname hequals hrhs
        hsemicolon =>
      have hskip : ∀ (t : Token) (ts : List Token), t.kind ≠ .symbol →
          initializerHeights none (t :: ts) = initializerHeights none ts := by
        intro t ts ht
        rw [initializerHeights, Token.isSymbol_eq_false_of_kind rfl ht, if_neg (by simp)]
      simp only [List.cons_append, List.append_assoc, List.nil_append]
      rw [hskip word _ (by rw [Token.kind_of_isKeyword hword]; decide),
        hskip type _ (by rw [Token.kind_of_valueType? htype]; decide),
        hskip name _ (by rw [hname]; decide), initializerHeights, if_pos hequals,
        initializerHeights_append _ ts .start hrhs.inner, initializerHeights, if_pos hsemicolon,
        hrhs.total_eq, ih, List.map_cons]

end Grammar

/-- An accepted source keeps the limit on heights exactly when its initializers,
passed token by token, stay within it. No initializer is taller than 247680. -/
theorem height_le_maxHeight_iff {source : String} {program : Program} {table : SymbolTable}
    (h : parse source = .ok (program, table)) :
    (∃ ts, tokenize source = .ok (ts ++ [.endOfInput (byteLength source.toList)]) ∧
      ((∀ d ∈ program.declarations, d.rhs.height ≤ maxHeight) ↔
        ∀ k ∈ initializerHeights none ts, k ≤ maxHeight)) ∧
    ∀ d ∈ program.declarations, d.rhs.height ≤ 247680 := by
  obtain ⟨ts, htokens, -, hunit, -⟩ := Grammar.CompilationUnit.of_parse h
  refine ⟨⟨ts, htokens, ?_⟩, Grammar.height_le_of_parse h⟩
  rw [hunit.statements.initializerHeights_eq]
  simp only [List.mem_map, forall_exists_index, and_imp, forall_apply_eq_imp_iff₂]

/-- A sign and a product over a sum in parentheses, three levels in all. -/
theorem height_le_maxHeight_iff_of_signed_product : ∃ program table,
    parse "let int x = -(1 + 2) * 3; let int y = x;" = .ok (program, table) ∧
      ∀ d ∈ program.declarations, d.rhs.height ≤ maxHeight := by
  obtain ⟨program, table, hparse, -⟩ := exists_of_parse_any
    (s := "let int x = -(1 + 2) * 3; let int y = x;") (p := fun _ => true) (by decide +kernel)
  obtain ⟨⟨ts, htokens, hiff⟩, -⟩ := height_le_maxHeight_iff hparse
  have hheights : ((tokenize "let int x = -(1 + 2) * 3; let int y = x;").toOption.any
      fun us => initializerHeights none us.dropLast = [3, 0]) = true := by decide +kernel
  rw [htokens, Except.toOption, Option.any_some, List.dropLast_concat,
    decide_eq_true_eq] at hheights
  refine ⟨program, table, hparse, hiff.mpr ?_⟩
  rw [hheights]
  decide

/-- One sum behind a product that is as long as it may be: the tree is taller
than `maxHeight`, and the source is accepted. -/
theorem height_of_sum_behind_product : ∃ program table,
    parse (String.ofList (Word.spaced (Grammar.Tower.declaration
      (Grammar.Tower.story maxHeight 1 [Grammar.Tower.one])))) = .ok (program, table) ∧
      ∃ d ∈ program.declarations, d.rhs.height = maxHeight + 1 := by
  refine Grammar.Tower.accepted (Grammar.Tower.plain_story ?_) fun offset => ?_
  · intro w hw
    rw [List.mem_singleton.mp hw]
    exact Grammar.Tower.plain_one
  · obtain ⟨e, he, hzero⟩ := Grammar.Tower.one_derives_factor offset
    obtain ⟨e', he', hheight⟩ := Grammar.Tower.story_derives (Nat.le_refl maxHeight)
      (show 1 ≤ maxHeight - 0 by decide) he
    refine ⟨e', he', ?_⟩
    rw [hheight, hzero, Nat.zero_add]

end TensorLet
