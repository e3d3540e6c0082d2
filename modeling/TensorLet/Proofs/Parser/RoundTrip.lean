import TensorLet.Proofs.Parser.Acceptance
import TensorLet.Proofs.Tensor.RoundTrip

/-!
# Parsing undoes writing

What `unparse` writes is read back as the declarations it was written from, up to
what a source does not say: tokens, the forms of numbers and what names resolve
to. The parser stops only where brackets nest too deeply or a tree grows too high
(`Expr.Fits`).

An expression is written at a rank: operators of this rank and above stand in it
without parentheses.

* `Unparses k e`: the words of `e` at rank `k` are read as `e` by the step of that
  rank.
* `Chains level e`: the words of `e` start a chain of operators of the level, and
  the chain goes on with `e` on its left.
* `parse_unparse`: parsing undoes writing.
-/

namespace TensorLet

/-! ## Trees without what a source does not say -/

/-- The tree without tokens, forms of numbers and what names resolve to. -/
def Expr.bare : Expr → Expr
  | .binary op left right _ => .binary op left.bare right.bare (.endOfInput 0)
  | .unary op operand _ => .unary op operand.bare (.endOfInput 0)
  | .scalar s _ => .scalar { s with form := .float } (.endOfInput 0)
  | .name x _ _ => .name x none (.endOfInput 0)
  | .tensor literal _ => .tensor literal.formless (.endOfInput 0)

/-- The declaration without tokens, forms of numbers and what names resolve to. -/
def Declaration.bare (d : Declaration) : Declaration :=
  { d with token := .endOfInput 0, rhs := d.rhs.bare }

/-! ## Trees that the limits allow -/

/-- How many operators of rank `k` there are on the way down to the left, where
they stand without parentheses. -/
def Expr.operators : Expr → Nat → Nat
  | .binary op left _ _, k => if op.rank = k then left.operators k + 1 else 0
  | _, _ => 0

/-- The limits allow the words of the tree at rank `k`, where nesting is `n` and
height `h` already. Each bracket or sign holds what is one deeper and higher, and
the operand behind the `i`-th operator of a chain is `i` higher. -/
def Expr.Fits : Expr → Nat → Nat → Nat → Prop
  | .binary op left right _, k, n, h =>
    let inside := fun n h =>
      left.Fits op.rank n h ∧ h + left.operators op.rank < maxHeight ∧
        right.Fits (op.rank + 1) n (h + left.operators op.rank + 1)
    if op.rank < k then Grammar.Opens n h ∧ inside (n + 1) (h + 1) else inside n h
  | .unary _ operand _, _, n, h => Grammar.Opens n h ∧ operand.Fits 2 (n + 1) (h + 1)
  | .scalar _ _, _, _, _ => True
  | .name _ _ _, _, _, _ => True
  | .tensor literal _, _, n, h => literal.Fits n h

instance Expr.decidableFits : (e : Expr) → (k n h : Nat) → Decidable (e.Fits k n h)
  | .binary op left right _, k, _, _ =>
    have := left.decidableFits
    have := right.decidableFits
    inferInstanceAs (Decidable (if op.rank < k then _ ∧ _ ∧ _ ∧ _ else _ ∧ _ ∧ _))
  | .unary _ operand _, _, _, _ =>
    have := operand.decidableFits
    inferInstanceAs (Decidable (_ ∧ _))
  | .scalar _ _, _, _, _ => inferInstanceAs (Decidable True)
  | .name _ _ _, _, _, _ => inferInstanceAs (Decidable True)
  | .tensor literal _, _, n, h => inferInstanceAs (Decidable (literal.Fits n h))

/-! ## Ranks -/

/-- The rank of the operators of a level. -/
def Grammar.Level.rank : Level → Nat
  | sum => 0
  | product => 1

theorem Grammar.Level.mem_ops_iff {level : Level} {op : BinOp} :
    op ∈ level.ops ↔ op.rank = level.rank := by
  cases level <;> cases op <;> decide

theorem BinOp.rank_eq (op : BinOp) : op.rank = 0 ∨ op.rank = 1 := by
  cases op <;> decide

theorem BinOp.rank_lt (op : BinOp) : op.rank < 2 := by
  cases op <;> decide

namespace Expr

variable {op : BinOp} {left right : Expr} {token : Token} {k n h : Nat}

theorem words_binary_of_le (hle : k ≤ op.rank) : (binary op left right token).words k =
    left.words op.rank ++ .symbol op.symbol :: right.words (op.rank + 1) := by
  rw [words, if_neg (Nat.not_lt.mpr hle)]

theorem words_binary_of_lt (hlt : op.rank < k) : (binary op left right token).words k =
    .symbol '(' :: ((binary op left right token).words 0 ++ [.symbol ')']) := by
  rw [words_binary_of_le (Nat.zero_le _), words, if_pos hlt]

theorem fits_binary_of_le (hle : k ≤ op.rank) : (binary op left right token).Fits k n h ↔
    left.Fits op.rank n h ∧ h + left.operators op.rank < maxHeight ∧
      right.Fits (op.rank + 1) n (h + left.operators op.rank + 1) := by
  rw [Fits, if_neg (Nat.not_lt.mpr hle)]

theorem fits_binary_of_lt (hlt : op.rank < k) : (binary op left right token).Fits k n h ↔
    Grammar.Opens n h ∧ (binary op left right token).Fits 0 (n + 1) (h + 1) := by
  rw [fits_binary_of_le (Nat.zero_le _), Fits, if_pos hlt]

end Expr

namespace Parse

open Grammar

/-- The step that reads operators of rank `k` and above. -/
def atRank (room : Nat) : Nat → Parse Expr
  | 0 => expression (factor room)
  | 1 => term (factor room)
  | _ => factor room

/-- A token that continues no chain of operators of rank `k` or above. -/
def Ends (k : Nat) (t : Token) : Prop :=
  ∀ op : BinOp, k ≤ op.rank → t.isSymbol op.symbol = false

/-- The words of `e` at rank `k` are read as `e`, unless the token behind them
continues a chain. -/
def Unparses (k : Nat) (e : Expr) : Prop :=
  ∀ (n h : Nat) (c c' : Cursor), c.Spells (e.words k) c' → Ends k c'.current →
    (atRank (maxNesting - n) k).Settles ⟨c, n, h⟩ ⟨c', n, h⟩ (e.Fits k n h) fun e' =>
      e'.bare = e.bare

/-- The words of `e` start a chain of the level: where the rest of the chain, with
`e` on its left and its operators counted, reads what is behind them, the whole
chain does. -/
def Chains (level : Level) (e : Expr) : Prop :=
  ∀ (n h : Nat) (c c₁ c' : Cursor) (F : Prop) (R : Expr → Prop),
    c.Spells (e.words level.rank) c₁ → Ends (level.rank + 1) c₁.current →
    (∀ e', e'.bare = e.bare →
      (chain level.ops (atRank (maxNesting - n) (level.rank + 1))
        (maxHeight - (h + e.operators level.rank)) e').Settles
          ⟨c₁, n, h + e.operators level.rank⟩ ⟨c', n, h + e.operators level.rank⟩ F R) →
    (chainStep level (atRank (maxNesting - n) (level.rank + 1))).Settles ⟨c, n, h⟩ ⟨c', n, h⟩
      (e.Fits level.rank n h ∧ F) R

section

variable {k n h : Nat} {t : Token} {op : BinOp} {level : Level} {e left right : Expr}
  {token : Token} {c c₁ c₂ c' : Cursor}

/-! ## Ends of chains -/

theorem ends_two (t : Token) : Ends 2 t :=
  fun op hop => absurd op.rank_lt (Nat.not_lt.mpr hop)

/-- Operators that bind less tightly end a chain. -/
theorem ends_of_op (ht : t.word = .symbol op.symbol) (hlt : op.rank < k) : Ends k t := by
  intro op' hop'
  refine Token.isSymbol_eq_false (Token.isSymbol_of_word ht) fun heq => ?_
  obtain rfl : op' = op := by cases op <;> cases op' <;> first | rfl | cases heq
  exact Nat.not_lt.mpr hop' hlt

/-- Symbols that are no operators end a chain. -/
theorem ends_of_symbol {d : Char} (ht : t.word = .symbol d) (hd : ∀ op : BinOp, op.symbol ≠ d) :
    Ends k t :=
  fun op _ => Token.isSymbol_eq_false (Token.isSymbol_of_word ht) (hd op)

theorem Ends.binaryOp? (hends : Ends level.rank t) : t.binaryOp? level.ops = none := by
  refine List.find?_eq_none.mpr fun op hop => ?_
  rw [hends op (Level.mem_ops_iff.mp hop).ge]
  simp

/-! ## Chains -/

theorem chain_settles_done {ops : List BinOp} {operand : Parse Expr} {m : Nat} {s : Standing}
    {R : Expr → Prop} (hnone : s.cursor.current.binaryOp? ops = none) (he : R e) :
    (chain ops operand m e).Settles s s True R := by
  unfold chain
  refine .current ?_
  rw [hnone]
  exact .pure he

/-- A chain goes on with an operator and an operand, if the tree may grow. -/
theorem chain_settles_next {ops : List BinOp} {operand : Parse Expr} {F G : Prop}
    {Q R : Expr → Prop} (ht : c.Reads [t] c₁) (hop : t.binaryOp? ops = some op)
    (hright : operand.Settles ⟨c₁, n, h + 1⟩ ⟨c₂, n, h + 1⟩ F Q)
    (hrest : ∀ right, Q right →
      (chain ops operand (maxHeight - (h + 1)) (.binary op left right t)).Settles
        ⟨c₂, n, h + 1⟩ ⟨c', n, h + 1⟩ G R) :
    (chain ops operand (maxHeight - h) left).Settles ⟨c, n, h⟩ ⟨c', n, h⟩
      (h < maxHeight ∧ F ∧ G) R := by
  unfold chain
  refine .current ?_
  rw [ht.1, hop]
  refine .after (.advance ht) ?_
  rintro _ rfl
  -- The chain counts down the height that is left, which is what `h < maxHeight` asks for.
  cases hroom : maxHeight - h with
  | zero =>
    refine Settles.of_iff (.throw (.inr rfl)) ⟨False.elim, fun hfits => ?_⟩
    have := hfits.1
    omega
  | succ room =>
    have hlt : h < maxHeight := by omega
    rw [show maxHeight - (h + 1) = room by omega] at hrest
    refine Settles.of_iff (F := F ∧ G) ?_ (by simp [hlt])
    refine .grow (.bind hright fun right hright => ?_)
    exact .before (hrest right hright) fun e he => .shrink (.pure he)

/-- A chain may consist of one operand. -/
theorem Chains.of_operand (hwords : e.words level.rank = e.words (level.rank + 1))
    (hfits : ∀ n h, e.Fits level.rank n h ↔ e.Fits (level.rank + 1) n h)
    (hoperators : e.operators level.rank = 0) (he : Unparses (level.rank + 1) e) :
    Chains level e := by
  intro n h c c₁ c' F R hspells hends hrest
  rw [hwords] at hspells
  rw [hoperators] at hrest
  rw [hfits]
  refine .bind (he n h c c₁ hspells hends) fun e' he' => .get fun p hp => ?_
  obtain ⟨-, -, hheight⟩ := Standing.mk.inj hp
  rw [Parser.headroom, hheight]
  exact hrest e' he'

/-- A chain that ends is read by the step of its level. -/
theorem Chains.unparses (he : Chains level e) : Unparses level.rank e := by
  intro n h c c' hspells hends
  have hstep : ∃ tag, atRank (maxNesting - n) level.rank =
      tagged tag (chainStep level (atRank (maxNesting - n) (level.rank + 1))) := by
    cases level <;> exact ⟨_, rfl⟩
  obtain ⟨tag, hstep⟩ := hstep
  rw [hstep]
  have hsettles := he n h c c' c' True (·.bare = e.bare) hspells
    (fun op hop => hends op (Nat.le_of_succ_le hop))
    (fun e' he' => chain_settles_done hends.binaryOp? he')
  exact .tagged (hsettles.of_iff (iff_of_eq (and_true _)))

/-- Operators lean to the left: a chain and one more operand are a chain. -/
theorem Chains.binary (hop : op.rank = level.rank) (hleft : Chains level left)
    (hright : Unparses (level.rank + 1) right) : Chains level (.binary op left right token) := by
  intro n h c c₃ c' F R hspells hends hrest
  rw [Expr.words_binary_of_le hop.ge, hop] at hspells
  obtain ⟨c₁, h₁, hspells⟩ := Cursor.spells_append.mp hspells
  obtain ⟨t, c₂, h₂, ht, h₃⟩ := Cursor.spells_cons.mp hspells
  have hends₁ : Ends (level.rank + 1) c₁.current := by
    rw [h₂.1]
    exact ends_of_op ht (by omega)
  have hread := Token.binaryOp?_eq_some (Token.isSymbol_of_word ht) (Level.mem_ops_iff.mpr hop)
  rw [Expr.operators, if_pos hop, ← Nat.add_assoc] at hrest
  rw [Expr.fits_binary_of_le hop.ge, hop, and_assoc, and_assoc]
  -- The operator and the right operand are how the chain of `left` goes on.
  refine hleft n h c c₁ c' _ R h₁ hends₁ fun left' hleft' => ?_
  refine chain_settles_next h₂ hread (hright n _ c₂ c₃ h₃ hends) fun right' hright' => ?_
  refine hrest _ ?_
  rw [Expr.bare, Expr.bare, hleft', hright']

/-! ## Factors -/

theorem inner_eq_none_iff : inner (maxNesting - n) = none ↔ maxNesting ≤ n := by
  cases hroom : maxNesting - n with
  | zero => exact iff_of_true rfl (by omega)
  | succ room => exact iff_of_false (fun h => nomatch h) (by omega)

theorem eq_of_inner_eq_some {step : Parse Expr} (hstep : inner (maxNesting - n) = some step) :
    step = factor (maxNesting - (n + 1)) := by
  cases hroom : maxNesting - n with
  | zero =>
    rw [hroom] at hstep
    cases hstep
  | succ room =>
    rw [hroom] at hstep
    cases hstep
    rw [show maxNesting - (n + 1) = room by omega]

/-- Parentheses make a factor of any expression. -/
theorem Unparses.parentheses (hwords : e.words 2 = .symbol '(' :: (e.words 0 ++ [.symbol ')']))
    (hfits : ∀ n h, e.Fits 2 n h ↔ Opens n h ∧ e.Fits 0 (n + 1) (h + 1)) (he : Unparses 0 e) :
    Unparses 2 e := by
  intro n h c c' hspells _
  rw [hwords] at hspells
  obtain ⟨paren, c₁, h₁, hparen, hspells⟩ := Cursor.spells_cons.mp hspells
  obtain ⟨c₂, h₂, hspells⟩ := Cursor.spells_append.mp hspells
  obtain ⟨close, h₃, hclose⟩ := Cursor.spells_singleton.mp hspells
  have hends : Ends 0 c₂.current := by
    rw [h₃.1]
    exact ends_of_symbol hclose fun op => by cases op <;> decide
  rw [hfits]
  show (factor _).Settles _ _ _ _
  rw [factor_eq]
  refine .tagged (.current ?_)
  rw [h₁.1, Token.isSymbol_of_word hparen, if_pos rfl]
  refine .after (.advance h₁) fun _ _ => .descend ?_ ?_
  · rw [Option.map_eq_none_iff, inner_eq_none_iff]
  · intro step hstep
    obtain ⟨_, hinner, rfl⟩ := Option.map_eq_some_iff.mp hstep
    rw [eq_of_inner_eq_some hinner]
    refine .before (he (n + 1) (h + 1) c₁ c₂ h₂ hends) fun e' he' => ?_
    exact .after (.expectSymbol h₃ hclose) fun _ _ => .pure he'

/-- A factor that does not start with a parenthesis is a primary. -/
theorem atRank_settles_primary {room : Nat} {F : Prop} {R : Expr → Prop}
    (hparen : c.current.isSymbol '(' = false)
    (hprimary : (primary (inner room) (Parse.tensor room)).Settles ⟨c, n, h⟩ ⟨c', n, h⟩ F R) :
    (atRank room 2).Settles ⟨c, n, h⟩ ⟨c', n, h⟩ F R := by
  show (factor room).Settles _ _ _ _
  rw [factor_eq]
  refine .tagged (.current ?_)
  rw [hparen, if_neg (by simp)]
  exact hprimary

theorem unparses_scalar {s : Scalar} (hfinite : s.value.isFinite = true)
    (hsign : s.value.negative = false) : Unparses 2 (.scalar s token) := by
  intro n h c c' hspells _
  obtain ⟨t, h₁, ht⟩ := Cursor.spells_singleton.mp hspells
  have hnumber := Token.isNumber_of_word ht
  obtain ⟨form, hform⟩ := Token.number?_of_word ht hfinite hsign
  refine atRank_settles_primary ?_ (.of_gives fun p hp => ?_)
  · rw [h₁.1]
    exact Token.isSymbol_eq_false_of_isNumber hnumber _
  · exact ⟨_, primary_gives_number (by rwa [hp]) hnumber hform, rfl⟩

theorem unparses_name {x : String} {resolved : Option Storage} :
    Unparses 2 (.name x resolved token) := by
  intro n h c c' hspells _
  obtain ⟨t, h₁, ht⟩ := Cursor.spells_singleton.mp hspells
  obtain ⟨hkind, rfl⟩ := Token.kind_of_word ht
  refine atRank_settles_primary ?_ (.of_gives fun p hp => ?_)
  · rw [h₁.1]
    exact Token.isSymbol_eq_false_of_kind hkind (by decide) _
  · exact ⟨_, primary_gives_name (by rwa [hp]) hkind, rfl⟩

theorem unparses_tensor {extent : Nat} {stored : List (Nat × Tensor)}
    (hsparse : Tensor.areSparse extent 0 stored = true) :
    Unparses 2 (.tensor (.node extent stored) token) := by
  intro n h c c' hspells _
  rw [Expr.words] at hspells
  have hsettles := tensor_settles (n := n) (h := h) hsparse hspells
  rw [Tensor.words] at hspells
  obtain ⟨brace, c₁, h₁, hbrace, -⟩ := Cursor.spells_cons.mp hspells
  have hsymbol := Token.isSymbol_of_word hbrace
  refine atRank_settles_primary ?_ (.tagged (.current ?_))
  · rw [h₁.1]
    exact Token.isSymbol_eq_false hsymbol (by decide)
  · rw [h₁.1, Token.kind_of_isSymbol hsymbol]
    simp only [hsymbol, if_true]
    refine .before hsettles fun t ht => .pure ?_
    rw [Expr.bare, Expr.bare, ht]

theorem Unparses.unary {op : UnaryOp} (he : Unparses 2 e) : Unparses 2 (.unary op e token) := by
  intro n h c c' hspells _
  obtain ⟨t, c₁, h₁, ht, h₂⟩ := Cursor.spells_cons.mp hspells
  have hsymbol := Token.isSymbol_of_word ht
  have hkind := Token.kind_of_isSymbol hsymbol
  have hbrace : t.isSymbol '\x7b' = false :=
    Token.isSymbol_eq_false hsymbol (by cases op <;> decide)
  refine atRank_settles_primary ?_ (.tagged (.current ?_))
  · rw [h₁.1]
    exact Token.isSymbol_eq_false hsymbol (by cases op <;> decide)
  · rw [h₁.1, hkind]
    simp only [hbrace, Bool.false_eq_true, if_false, (Token.unaryOp?_eq_some hkind).mpr hsymbol]
    have hoperand : (descend t.span (inner (maxNesting - n))).Settles ⟨c₁, n, h⟩ ⟨c', n, h⟩
        (Opens n h ∧ e.Fits 2 (n + 1) (h + 1)) (·.bare = e.bare) := by
      refine .descend inner_eq_none_iff fun step hstep => ?_
      rw [eq_of_inner_eq_some hstep]
      exact he (n + 1) (h + 1) c₁ c' h₂ (ends_two _)
    refine .after (.advance h₁) ?_
    rintro _ rfl
    refine .before hoperand fun e' he' => .pure ?_
    rw [Expr.bare, Expr.bare, he']

end

/-! ## Expressions -/

/-- An expression is read back at every rank. -/
structure ReadBack (e : Expr) : Prop where
  sum : Chains .sum e
  product : Chains .product e
  factor : Unparses 2 e

/-- An expression that needs no parentheses anywhere is read back. -/
theorem ReadBack.of_factor {e : Expr} (hwords : ∀ j k, e.words j = e.words k)
    (hfits : ∀ j k n h, e.Fits j n h ↔ e.Fits k n h) (hoperators : ∀ k, e.operators k = 0)
    (he : Unparses 2 e) : ReadBack e := by
  have hproduct : Chains .product e := .of_operand (hwords _ _) (hfits _ _) (hoperators _) he
  have hsum : Chains .sum e :=
    .of_operand (hwords _ _) (hfits _ _) (hoperators _) hproduct.unparses
  exact ⟨hsum, hproduct, he⟩

/-- Two operands with an operator between them are read back. Up to its rank the
operator stands without parentheses, above it with them. -/
theorem ReadBack.binary {op : BinOp} {left right : Expr} {token : Token} (hleft : ReadBack left)
    (hright : ReadBack right) : ReadBack (.binary op left right token) := by
  have hparentheses : Unparses 0 (.binary op left right token) →
      Unparses 2 (.binary op left right token) :=
    .parentheses (Expr.words_binary_of_lt op.rank_lt)
      (fun _ _ => Expr.fits_binary_of_lt op.rank_lt)
  rcases op.rank_eq with hop | hop
  -- A sum stands in parentheses wherever a product or a factor is read.
  · have hsum : Chains .sum (.binary op left right token) :=
      hleft.sum.binary hop hright.product.unparses
    have hlt : op.rank < 1 := by omega
    refine ⟨hsum, .of_operand ?_ (fun n h => ?_) ?_ (hparentheses hsum.unparses),
      hparentheses hsum.unparses⟩
    · exact (Expr.words_binary_of_lt hlt).trans (Expr.words_binary_of_lt op.rank_lt).symm
    · exact (Expr.fits_binary_of_lt hlt).trans (Expr.fits_binary_of_lt op.rank_lt).symm
    · rw [Expr.operators, hop]
      rfl
  -- A product is an operand of a sum as it stands.
  · have hproduct : Chains .product (.binary op left right token) :=
      hleft.product.binary hop hright.factor
    have hsum : Chains .sum (.binary op left right token) := by
      refine .of_operand ?_ (fun n h => ?_) ?_ hproduct.unparses
      · exact (Expr.words_binary_of_le (Nat.zero_le _)).trans (Expr.words_binary_of_le hop.ge).symm
      · exact (Expr.fits_binary_of_le (Nat.zero_le _)).trans (Expr.fits_binary_of_le hop.ge).symm
      · rw [Expr.operators, hop]
        rfl
    exact ⟨hsum, hproduct, hparentheses hsum.unparses⟩

/-- Every expression that can be written is read back. -/
theorem readBack (e : Expr) (he : e.Writable) : ReadBack e := by
  -- All ranks at once: a left operand starts a chain of its operator's level, and a
  -- right one is read by the step of the next rank.
  induction e with
  | binary op left right token ihleft ihright => exact (ihleft he.1).binary (ihright he.2)
  | unary op operand token ih =>
    exact .of_factor (fun _ _ => rfl) (fun _ _ _ _ => Iff.rfl) (fun _ => rfl) (ih he).factor.unary
  | scalar s token =>
    exact .of_factor (fun _ _ => rfl) (fun _ _ _ _ => Iff.rfl) (fun _ => rfl)
      (unparses_scalar he.1 he.2)
  | name x resolved token =>
    exact .of_factor (fun _ _ => rfl) (fun _ _ _ _ => Iff.rfl) (fun _ => rfl) unparses_name
  | tensor literal token =>
    cases literal with
    | leaf scalar => exact he.elim
    | node extent stored =>
      exact .of_factor (fun _ _ => rfl) (fun _ _ _ _ => Iff.rfl) (fun _ => rfl) (unparses_tensor he)

/-! ## Declarations -/

variable {c c' : Cursor}

theorem declaration_settles {d : Declaration} (hd : d.Writable) (hspells : c.Spells d.words c') :
    declaration.Settles ⟨c, 0, 0⟩ ⟨c', 0, 0⟩ (d.rhs.Fits 0 0 0) fun d' => d'.bare = d.bare := by
  obtain ⟨word, c₁, h₁, hword, hspells⟩ := Cursor.spells_cons.mp hspells
  obtain ⟨type, c₂, h₂, htype, hspells⟩ := Cursor.spells_cons.mp hspells
  obtain ⟨name, c₃, h₃, hname, hspells⟩ := Cursor.spells_cons.mp hspells
  obtain ⟨equals, c₄, h₄, hequals, hspells⟩ := Cursor.spells_cons.mp hspells
  obtain ⟨c₅, h₅, hspells⟩ := Cursor.spells_append.mp hspells
  obtain ⟨semicolon, h₆, hsemicolon⟩ := Cursor.spells_singleton.mp hspells
  obtain ⟨hkind, hlexeme⟩ := Token.kind_of_word hname
  have hends : Ends 0 c₅.current := by
    rw [h₆.1]
    exact ends_of_symbol hsemicolon fun op => by cases op <;> decide
  have hlet : (expectKeyword .letWord).Settles ⟨c, 0, 0⟩ ⟨c₁, 0, 0⟩ True fun _ => True :=
    .of_gives fun p hp =>
      ⟨word, Gives.expectKeyword (by rwa [hp]) (Token.isKeyword_of_word hword), trivial⟩
  have hvalueType : valueType.Settles ⟨c₁, 0, 0⟩ ⟨c₂, 0, 0⟩ True (· = d.type) :=
    .of_gives fun p hp =>
      ⟨d.type, valueType_gives (by rwa [hp]) (Token.valueType?_of_word htype), rfl⟩
  have hidentifier : expectIdentifier.Settles ⟨c₂, 0, 0⟩ ⟨c₃, 0, 0⟩ True (· = name) :=
    .of_gives fun p hp => ⟨name, Gives.expectIdentifier (by rwa [hp]) hkind, rfl⟩
  have hinitializer : initializer.Settles ⟨c₄, 0, 0⟩ ⟨c₅, 0, 0⟩ (d.rhs.Fits 0 0 0)
      (·.bare = d.rhs.bare) := by
    refine .get fun p hp => ?_
    rw [Parser.nestingRoom, show p.nesting = 0 from congrArg Standing.nesting hp]
    exact (readBack d.rhs hd.rhs).sum.unparses 0 0 c₄ c₅ h₅ hends
  refine .tagged (.after hlet fun token _ => .after hvalueType ?_)
  rintro _ rfl
  refine .after hidentifier ?_
  rintro _ rfl
  refine .after (.expectSymbol h₄ hequals) fun _ _ => .before hinitializer fun rhs hrhs => ?_
  refine .skip (fun p hp => ⟨_, rfl, hp⟩) (.after (.expectSymbol h₆ hsemicolon) fun _ _ => ?_)
  refine .pure ?_
  simp only [Declaration.bare, hlexeme, hrhs, hd.storage]

/-- Declarations are read back up to a token that starts none. -/
theorem declarations_settle (ds : List Declaration) (hds : ∀ d ∈ ds, d.Writable)
    (hend : c'.current.isKeyword .letWord = false) : ∀ (bound : Nat) (c : Cursor),
      ds.length ≤ bound → c.Spells (ds.flatMap Declaration.words) c' →
      (declarations bound).Settles ⟨c, 0, 0⟩ ⟨c', 0, 0⟩ (∀ d ∈ ds, d.rhs.Fits 0 0 0) fun ds' =>
        ds'.map Declaration.bare = ds.map Declaration.bare := by
  induction ds with
  | nil =>
    intro bound c _ hspells
    obtain rfl := Cursor.spells_nil.mp hspells
    refine Settles.of_iff (F := True) ?_ (by simp)
    cases bound with
    | zero => exact .pure rfl
    | succ bound =>
      refine .current ?_
      rw [hend, if_neg (by simp)]
      exact .pure rfl
  | cons d ds ih =>
    obtain ⟨hd, hds⟩ := List.forall_mem_cons.mp hds
    intro bound c hbound hspells
    obtain ⟨c₁, h₁, h₂⟩ := Cursor.spells_append.mp hspells
    have hlet : c.current.isKeyword .letWord = true := by
      obtain ⟨word, c₂, h₃, hword, -⟩ := Cursor.spells_cons.mp h₁
      rw [h₃.1]
      exact Token.isKeyword_of_word hword
    cases bound with
    | zero => simp at hbound
    | succ bound =>
      refine Settles.of_iff (.current ?_) List.forall_mem_cons.symm
      rw [hlet, if_pos rfl]
      refine .bind (declaration_settles hd h₁) fun d' hd' => ?_
      refine .before (ih hds bound c₁ (Nat.le_of_succ_le_succ hbound) h₂) fun ds' hds' => ?_
      refine .pure ?_
      rw [List.map_cons, List.map_cons, hd', hds']

/-- Every declaration has a word of its own. -/
theorem length_le_length_words (ds : List Declaration) :
    ds.length ≤ (ds.flatMap Declaration.words).length := by
  induction ds with
  | nil => exact Nat.zero_le _
  | cons d ds ih =>
    rw [List.flatMap_cons, List.length_append, Declaration.words]
    simp only [List.length_cons]
    omega

/-- A whole source is read back. -/
theorem unit_settles {ds : List Declaration} (hds : ∀ d ∈ ds, d.Writable)
    (hspells : c.Spells (ds.flatMap Declaration.words) c') (hend : c'.current.isEnd = true) :
    Parse.unit.Settles ⟨c, 0, 0⟩ ⟨c', 0, 0⟩ (∀ d ∈ ds, d.rhs.Fits 0 0 0) fun program =>
      program.declarations.map Declaration.bare = ds.map Declaration.bare := by
  have hword : c'.current.isKeyword .letWord = false := by
    simp only [Token.isEnd, decide_eq_true_eq] at hend
    simp [Token.isKeyword, hend]
  have hblock : block.Settles ⟨c, 0, 0⟩ ⟨c', 0, 0⟩ (∀ d ∈ ds, d.rhs.Fits 0 0 0) fun b =>
      b.declarations.map Declaration.bare = ds.map Declaration.bare := by
    refine .current (.tagged (.skip (fun p hp => ⟨_, rfl, hp⟩) (.get fun p hp => ?_)))
    have hlength := length_le_length_words ds
    have hpending := hspells.length_le
    rw [show p.cursor = c from congrArg Standing.cursor hp]
    exact .before (declarations_settle ds hds hword _ c (by omega) hspells)
      fun ds' hds' => .pure hds'
  refine .current (.tagged (.before hblock fun b hb => .current ?_))
  rw [hend, if_pos rfl]
  refine .pure ?_
  simpa [Program.declarations] using hb

end Parse

/-! ## Whole sources -/

/-- Parsing undoes writing. The source text of declarations is parsed as these
declarations, up to tokens, forms of numbers and what names resolve to; only
initializers that the limits do not allow are refused, for being nested too deeply
or too high. -/
theorem parse_unparse (ds : List Declaration) (hds : ∀ d ∈ ds, d.Writable) :
    ((∀ d ∈ ds, d.rhs.Fits 0 0 0) ∧ ∃ program table, parse (unparse ds) = .ok (program, table) ∧
      program.declarations.map Declaration.bare = ds.map Declaration.bare) ∨
    (¬∀ d ∈ ds, d.rhs.Fits 0 0 0) ∧ ∃ e, parse (unparse ds) = .error e ∧
      (e.fault = .nestingTooDeep ∨ e.fault = .expressionTooDeep) := by
  obtain ⟨ts, htokens, hfinite, hwords⟩ := tokenize_unparse hds
  obtain ⟨c, c', hc, -, hreads, hend⟩ := (Cursor.ofText_reads_iff (unparse ds) ts _).mpr
    ⟨htokens, hfinite, rfl⟩
  have hsettles := Parse.unit_settles hds ⟨ts, hreads, hwords⟩ hend
  rcases hsettles ⟨c, .empty, .silent, 0, 0⟩ rfl with ⟨hfits, program, p', hunit, -, hprogram⟩ |
    ⟨hfits, e, p', hunit, he⟩
  · exact .inl ⟨hfits, program, p'.symbols, parse_eq_ok.mpr ⟨c, p', hc, hunit, rfl⟩, hprogram⟩
  · exact .inr ⟨hfits, e, parse_eq_error.mpr (.inr ⟨c, p', hc, hunit⟩), he⟩

/-- A product of a difference and a signed quotient, each of which would group in
another way without its parentheses. -/
def groupedDeclaration : Declaration :=
  let t := Token.endOfInput 0
  let difference := Expr.binary .sub (.name "a" none t)
    (.binary .sub (.name "b" none t) (.scalar ⟨.ofBits 0x3fb999999999999a, .int⟩ t) t) t
  let literal := Tensor.node 3 [(1, .leaf ⟨.ofBits 0xc004000000000000, .int⟩), (2, .node 2 [])]
  let quotient := Expr.binary .div (.tensor literal t) (.unary .prime (.name "a" none t) t) t
  ⟨t, "t", .tensor, .localVar, .binary .mul difference (.unary .neg quotient t) t⟩

theorem parse_unparse_grouped :
    unparse [groupedDeclaration] =
      "let tensor t = ( a - ( b - 0.1 ) ) * - ( \x7b 0 , - 2.5 , \x7b 0 , 0 \x7d \x7d / ' a ) ;" ∧
    (∀ d ∈ [groupedDeclaration], d.Writable) ∧
    ∃ program table, parse (unparse [groupedDeclaration]) = .ok (program, table) ∧
      program.declarations.map Declaration.bare = [groupedDeclaration.bare] := by
  have hname : ∀ c : Char, isWordStart c = true → String.ofList [c] ∉ keywordTexts →
      Lexeme .identifier [c] := fun c hstart hkeyword => .identifier hstart (by simp) hkeyword
  have ha : Lexeme .identifier "a".toList := hname 'a' (by decide) (by decide)
  have hwritable : ∀ d ∈ [groupedDeclaration], d.Writable := by
    rw [List.forall_mem_singleton]
    refine ⟨rfl, hname 't' (by decide) (by decide), ?_⟩
    refine ⟨⟨ha, hname 'b' (by decide) (by decide), by decide, by decide⟩, ?_, ha⟩
    show Tensor.areSparse _ _ _ = true
    decide
  have hfits : ∀ d ∈ [groupedDeclaration], d.rhs.Fits 0 0 0 := by decide
  refine ⟨congrArg String.ofList (by decide +kernel), hwritable, ?_⟩
  rcases parse_unparse [groupedDeclaration] hwritable with ⟨-, hparse⟩ | ⟨hnot, -⟩
  · exact hparse
  · exact absurd hfits hnot

end TensorLet
