import TensorLet.Program.Listing
import TensorLet.Proofs.Trace

/-!
# How a listing is written

A listing is written in steps: a row at the current level, one level deeper, one
level back. Going back is checked nowhere, and at the outermost level it would be
lost. No listing takes such a step.

* `Program.steps`: the steps of a program's listing, and `Program.list_eq` that they
  are what it does to any outline.
* `Balanced.foldlM_step?`: balanced steps never go back behind the level that they
  start at, and they end there.
* `rows_eq_of_text_eq`: the rows of an outline can be read off its text.
-/

namespace TensorLet

namespace Outline

/-! ## Steps -/

/-- A step of writing. -/
inductive Step where
  | write (item : Item)
  | indent
  | dedent

/-- The outline behind a step. -/
def step (o : Outline) : Step → Outline
  | .write item => o.write item
  | .indent => o.indent
  | .dedent => o.dedent

/-- The outline behind a step, where going back from the outermost level is a
failure. -/
def step? (o : Outline) : Step → Option Outline
  | .write item => some (o.write item)
  | .indent => some o.indent
  | .dedent => if 0 < o.depth then some o.dedent else none

/-- Steps inside a tag, which is opened before and closed behind them. -/
def Step.tagged (tag : String) (steps : List Step) : List Step :=
  .write (.opening tag) :: .indent :: (steps ++ [.dedent, .write (.closing tag)])

@[simp] theorem foldl_tagged (tag : String) (steps : List Step) (o : Outline) :
    (Step.tagged tag steps).foldl step o =
      (steps.foldl step (o.openTag tag)).closeTag tag := by
  simp [Step.tagged, step, openTag, closeTag]

/-- Steps that go back as often as they go deeper, and never before that. -/
inductive Balanced : List Step → Prop
  | nil : Balanced []
  | write {item : Item} {steps : List Step} : Balanced steps → Balanced (.write item :: steps)
  | deeper {inner steps : List Step} : Balanced inner → Balanced steps →
      Balanced (.indent :: (inner ++ .dedent :: steps))

namespace Balanced

variable {steps : List Step}

theorem append {more : List Step} (h : Balanced steps) (hmore : Balanced more) :
    Balanced (steps ++ more) := by
  induction h with
  | nil => exact hmore
  | write _ ih => exact .write ih
  | deeper hinner _ _ ih =>
    rw [List.cons_append, List.append_assoc, List.cons_append]
    exact .deeper hinner ih

theorem flatMap {α : Type} {f : α → List Step} {as : List α} (h : ∀ a ∈ as, Balanced (f a)) :
    Balanced (as.flatMap f) := by
  induction as with
  | nil => exact .nil
  | cons a as ih =>
    rw [List.flatMap_cons]
    exact (h a List.mem_cons_self).append (ih fun a ha => h a (List.mem_cons_of_mem _ ha))

theorem tagged (h : Balanced steps) (tag : String) : Balanced (Step.tagged tag steps) :=
  .write (.deeper h (.write .nil))

/-- Balanced steps do not go back from the outermost level, and they end at the level
where they start. -/
theorem foldlM_step? (h : Balanced steps) : ∀ o : Outline,
    steps.foldlM step? o = some (steps.foldl step o) ∧ (steps.foldl step o).depth = o.depth := by
  induction h with
  | nil => exact fun o => ⟨rfl, rfl⟩
  | @write item steps _ ih =>
    intro o
    obtain ⟨hrun, hdepth⟩ := ih (o.write item)
    exact ⟨hrun, hdepth.trans (depth_write o item)⟩
  | @deeper inner steps _ _ ihinner ih =>
    intro o
    obtain ⟨hrun, hdepth⟩ := ihinner o.indent
    obtain ⟨hmore, hback⟩ := ih (inner.foldl step o.indent).dedent
    -- Inside, the level is at least one, so that there is a level to go back to.
    have hpos : 0 < (inner.foldl step o.indent).depth := by
      rw [hdepth]
      exact Nat.succ_pos o.depth
    have hsplit : (Step.indent :: (inner ++ .dedent :: steps)).foldl step o =
        steps.foldl step (inner.foldl step o.indent).dedent := by
      rw [List.foldl_cons, List.foldl_append]
      rfl
    rw [hsplit]
    refine ⟨?_, ?_⟩
    · have hindent : o.step? .indent = some o.indent := rfl
      have hdedent : (inner.foldl step o.indent).step? .dedent =
          some (inner.foldl step o.indent).dedent := if_pos hpos
      simp only [List.foldlM_cons, List.foldlM_append, hindent, hrun, hdedent, hmore,
        Option.bind_eq_bind, Option.bind_some]
    · rw [hback, dedent, hdepth]
      exact Nat.add_sub_cancel o.depth 1

end Balanced

/-! ## Rows -/

/-- The row that a step writes. -/
def Step.row? : Step → Option String
  | .write item => some item.text
  | .indent => none
  | .dedent => none

/-- The rows that some steps write. -/
def Step.rows (steps : List Step) : List String := steps.filterMap Step.row?

/-- The lines without their indentation. -/
def rows (o : Outline) : List String := o.lines.toList.map (·.item.text)

namespace Step

@[simp] theorem rows_nil : rows [] = [] := rfl

@[simp] theorem rows_write (item : Item) (steps : List Step) :
    rows (.write item :: steps) = item.text :: rows steps := rfl

@[simp] theorem rows_indent (steps : List Step) : rows (.indent :: steps) = rows steps := rfl

@[simp] theorem rows_dedent (steps : List Step) : rows (.dedent :: steps) = rows steps := rfl

@[simp] theorem rows_append (steps more : List Step) :
    rows (steps ++ more) = rows steps ++ rows more :=
  List.filterMap_append

@[simp] theorem rows_flatMap {α : Type} (f : α → List Step) (as : List α) :
    rows (as.flatMap f) = as.flatMap fun a => rows (f a) :=
  List.filterMap_flatMap

@[simp] theorem rows_tagged (tag : String) (steps : List Step) :
    rows (tagged tag steps) = ("<" ++ tag ++ ">") :: (rows steps ++ ["</" ++ tag ++ ">"]) := by
  simp [tagged, Item.text]

end Step

theorem rows_foldl (steps : List Step) : ∀ o : Outline, o.recording = true →
    (steps.foldl step o).rows = o.rows ++ Step.rows steps := by
  induction steps with
  | nil => simp
  | cons s steps ih =>
    intro o ho
    rw [List.foldl_cons]
    cases s with
    | write item =>
      have hrows : (o.step (.write item)).rows = o.rows ++ [item.text] := by
        simp [rows, step, lines_write, ho]
      have hmore := ih (o.step (.write item)) ((recording_write o item).trans ho)
      rw [hmore, hrows, Step.rows_write, List.append_assoc, List.singleton_append]
    | indent => exact ih o.indent ho
    | dedent => exact ih o.dedent ho

/-- A row without newlines and tabs. -/
def IsRow (row : String) : Prop := ∀ c ∈ row.toList, c ≠ '\n' ∧ c ≠ '\t'

instance (row : String) : Decidable (IsRow row) :=
  List.decidableBAll (fun c => c ≠ '\n' ∧ c ≠ '\t') row.toList

theorem IsRow.append {row row' : String} (h : IsRow row) (h' : IsRow row') :
    IsRow (row ++ row') := by
  intro c hc
  rw [String.toList_append, List.mem_append] at hc
  exact hc.elim (h c) (h' c)

/-- The rows are what stands between the newlines of a text, behind the tabs. -/
theorem splitOn_text_rows {o : Outline} (h : ∀ row ∈ o.rows, IsRow row) :
    (o.text.toList.splitOn '\n').map (·.dropWhile (· == '\t')) =
      o.rows.map String.toList ++ [[]] := by
  have hitem : ∀ l ∈ o.lines.toList, IsRow l.item.text :=
    fun l hl => h _ (List.mem_map_of_mem hl)
  rw [splitOn_text fun l hl hnewline => (hitem l hl '\n' hnewline).1 rfl, rows, List.map_append,
    List.map_map, List.map_map]
  congr 1
  refine List.map_congr_left fun l hl => ?_
  have htabs : ∀ c ∈ List.replicate l.depth '\t', (c == '\t') = true :=
    fun c hc => beq_iff_eq.mpr (List.eq_of_mem_replicate hc)
  show (List.replicate l.depth '\t' ++ l.item.text.toList).dropWhile (· == '\t') =
    l.item.text.toList
  rw [List.dropWhile_append_of_pos htabs, List.dropWhile_eq_self_iff]
  intro hlength
  simpa using (hitem l hl _ (List.getElem_mem hlength)).2

theorem rows_eq_of_text_eq {o o' : Outline} (h : ∀ row ∈ o.rows, IsRow row)
    (h' : ∀ row ∈ o'.rows, IsRow row) (heq : o.text = o'.text) : o.rows = o'.rows := by
  have hsplit := splitOn_text_rows h
  rw [heq, splitOn_text_rows h'] at hsplit
  have hrows := List.append_cancel_right hsplit
  exact (List.map_inj_right fun _ _ => String.toList_inj.mp).mp hrows.symm

end Outline

/-! ## The steps of a listing -/

open Outline (Step Balanced step)

mutual
/-- The steps of a tensor literal. -/
def Tensor.steps : Tensor → List Step
  | .leaf scalar => [.write (.plain scalar.value.text)]
  | .node _ entries => Step.tagged "tensor" (Tensor.entrySteps entries)
/-- The steps of stored elements. -/
def Tensor.entrySteps : List (Nat × Tensor) → List Step
  | [] => []
  | (index, t) :: rest =>
    .write (.plain ("[" ++ index.repr ++ "]")) :: .indent ::
      (t.steps ++ .dedent :: Tensor.entrySteps rest)
end

/-- The steps of an expression tree. -/
def Expr.steps : Expr → List Step
  | .binary op left right _ => Step.tagged "expr_node"
      (left.steps ++ .write (.plain op.symbol.toString) :: right.steps)
  | .unary op operand _ => Step.tagged "expr_node"
      (.write (.plain op.symbol.toString) :: operand.steps)
  | .scalar s _ => [.write (.plain s.value.text)]
  | .name x _ _ => [.write (.plain x)]
  | .tensor literal _ => literal.steps

/-- The row of a declaration's name and type. -/
def Declaration.head (d : Declaration) : String := d.name ++ "\x7b" ++ d.type.text ++ "\x7d:"

/-- The steps of a declaration. -/
def Declaration.steps (d : Declaration) : List Step :=
  Step.tagged "var_dec" (.write (.plain d.head) :: d.rhs.steps)

/-- The steps of a block. -/
def Block.steps (b : Block) : List Step :=
  Step.tagged "statements" (b.declarations.flatMap Declaration.steps)

/-- The steps of a program. -/
def Program.steps (p : Program) : List Step := Step.tagged p.label (p.blocks.flatMap Block.steps)

mutual
theorem Tensor.list_eq (t : Tensor) (o : Outline) : t.list o = t.steps.foldl step o := by
  match t with
  | .leaf scalar => rfl
  | .node _ entries => rw [list, steps, Outline.foldl_tagged, Tensor.listEntries_eq entries]
theorem Tensor.listEntries_eq (entries : List (Nat × Tensor)) (o : Outline) :
    listEntries entries o = (entrySteps entries).foldl step o := by
  match entries with
  | [] => rfl
  | (index, t) :: rest =>
    rw [listEntries, entrySteps, List.foldl_cons, List.foldl_cons, List.foldl_append,
      List.foldl_cons, Tensor.list_eq t, Tensor.listEntries_eq rest]
    rfl
end

theorem Expr.list_eq (e : Expr) : ∀ o : Outline, e.list o = e.steps.foldl step o := by
  induction e with
  | binary op left right _ ihleft ihright =>
    intro o
    rw [list, steps, Outline.foldl_tagged, List.foldl_append, List.foldl_cons, ihright, ihleft]
    rfl
  | unary op operand _ ih =>
    intro o
    rw [list, steps, Outline.foldl_tagged, List.foldl_cons, ih]
    rfl
  | scalar s _ => exact fun _ => rfl
  | name x resolved _ => exact fun _ => rfl
  | tensor literal _ => exact literal.list_eq

theorem Declaration.list_eq (d : Declaration) (o : Outline) :
    d.list o = d.steps.foldl step o := by
  rw [list, steps, Outline.foldl_tagged, List.foldl_cons, Expr.list_eq]
  rfl

theorem Block.list_eq (b : Block) (o : Outline) : b.list o = b.steps.foldl step o := by
  rw [list, steps, Outline.foldl_tagged, List.foldl_flatMap]
  simp only [Declaration.list_eq]

/-- Listing a program is taking its steps. -/
theorem Program.list_eq (p : Program) (o : Outline) : p.list o = p.steps.foldl step o := by
  rw [list, steps, Outline.foldl_tagged, List.foldl_flatMap]
  simp only [Block.list_eq]

/-! ## Levels -/

mutual
theorem Tensor.balanced_steps (t : Tensor) : Balanced t.steps := by
  match t with
  | .leaf scalar => exact .write .nil
  | .node _ entries => exact (Tensor.balanced_entrySteps entries).tagged "tensor"
theorem Tensor.balanced_entrySteps (entries : List (Nat × Tensor)) :
    Balanced (entrySteps entries) := by
  match entries with
  | [] => exact .nil
  | (index, t) :: rest =>
    exact .write (.deeper (Tensor.balanced_steps t) (Tensor.balanced_entrySteps rest))
end

theorem Expr.balanced_steps (e : Expr) : Balanced e.steps := by
  induction e with
  | binary op left right _ ihleft ihright => exact (ihleft.append (.write ihright)).tagged _
  | unary op operand _ ih => exact (Balanced.write ih).tagged _
  | scalar s _ => exact .write .nil
  | name x resolved _ => exact .write .nil
  | tensor literal _ => exact literal.balanced_steps

theorem Declaration.balanced_steps (d : Declaration) : Balanced d.steps :=
  (Balanced.write d.rhs.balanced_steps).tagged _

theorem Block.balanced_steps (b : Block) : Balanced b.steps :=
  (Balanced.flatMap fun d _ => d.balanced_steps).tagged _

/-- The steps of a program are balanced. -/
theorem Program.balanced_steps (p : Program) : Balanced p.steps :=
  (Balanced.flatMap fun b _ => b.balanced_steps).tagged p.label

/-- The rows of a program's listing are those of its steps. -/
theorem Program.rows_list (p : Program) : (p.list .empty).rows = Step.rows p.steps := by
  rw [p.list_eq, Outline.rows_foldl _ _ rfl]
  rfl

end TensorLet
