import TensorLet.Proofs.Parser.Acceptance
import TensorLet.Proofs.Token.Places

/-!
# The tokens that trees carry

Every node of a program carries a token, so that a diagnostic can show it in the
source. The token is the right one: it stands in the source, it is what the node was
read from, and going through the nodes from left to right is going through the source.
Parentheses leave no node behind, so the tokens of the nodes are some of the tokens of
the source and not all.

* `Expr.inOrder`: the nodes of a tree from left to right.
* `Expr.TakenFrom`: the token of a node is what the node was read from.
* `Derives.takenFrom`, `Derives.tokens_sublist`: this holds of every tree of the
  grammar, and the tokens of its nodes stand in the order of the source.
* `nodes_carry_source_tokens`: the same of every accepted source.
-/

namespace TensorLet

/-! ## Nodes from left to right -/

/-- The nodes of a tree from left to right, a sign before its operand and an operator
between its operands. -/
def Expr.inOrder : Expr → List Expr
  | .binary op left right token => left.inOrder ++ .binary op left right token :: right.inOrder
  | .unary op operand token => .unary op operand token :: operand.inOrder
  | .scalar s token => [.scalar s token]
  | .name x resolved token => [.name x resolved token]
  | .tensor literal token => [.tensor literal token]

/-- The tokens of the nodes from left to right. -/
def Expr.tokens (e : Expr) : List Token := e.inOrder.map Expr.token

/-- The token of a declaration and those of its initializer. -/
def Declaration.tokens (d : Declaration) : List Token := d.token :: d.rhs.tokens

/-- The tokens of all declarations in order. -/
def Program.tokens (p : Program) : List Token := p.declarations.flatMap Declaration.tokens

/-! ## What a node was read from -/

/-- The tokens are a phrase with this tree. -/
def Grammar.Writes (ts : List Token) (e : Expr) : Prop :=
  ∃ scope phrase n h, Derives scope phrase n h ts e

/-- Among the tokens `ts`, the token of the node is what it was read from: the operator
between or before the phrases of its operands, the number, the name, or the brace that
opens the literal. -/
inductive Expr.TakenFrom (ts : List Token) : Expr → Prop
  | binary {op : BinOp} {left right : Expr} {t : Token} {us vs : List Token} :
      t.isSymbol op.symbol = true → Grammar.Writes us left → Grammar.Writes vs right →
      us ++ t :: vs <:+: ts → TakenFrom ts (.binary op left right t)
  | unary {op : UnaryOp} {operand : Expr} {t : Token} {us : List Token} :
      t.isSymbol op.symbol = true → Grammar.Writes us operand → t :: us <:+: ts →
      TakenFrom ts (.unary op operand t)
  | scalar {s : Scalar} {t : Token} : t.isNumber = true → t.number? = some s → t ∈ ts →
      TakenFrom ts (.scalar s t)
  | name {resolved : Option Storage} {t : Token} : t.kind = .identifier → t ∈ ts →
      TakenFrom ts (.name t.lexeme resolved t)
  | tensor {literal : Tensor} {t : Token} {us : List Token} {n h : Nat} :
      t.isSymbol '\x7b' = true → Grammar.Literal n h (t :: us) literal → t :: us <:+: ts →
      TakenFrom ts (.tensor literal t)

/-- Among the tokens `ts`, the declaration carries the word that it starts with, and the
nodes of its initializer what they were read from. -/
structure Declaration.TakenFrom (ts : List Token) (d : Declaration) : Prop where
  letWord : d.token.isKeyword .letWord = true
  phrase : ∃ names us, Grammar.Declares names (d.token :: us) d ∧ d.token :: us <:+: ts
  nodes : ∀ e ∈ d.rhs.inOrder, e.TakenFrom ts

/-- What was read from some tokens was read from all tokens around them. -/
theorem Expr.TakenFrom.mono {ts ts' : List Token} {e : Expr} (h : e.TakenFrom ts)
    (hts : ts <:+: ts') : e.TakenFrom ts' := by
  cases h with
  | binary ht hleft hright hpart => exact .binary ht hleft hright (hpart.trans hts)
  | unary ht hoperand hpart => exact .unary ht hoperand (hpart.trans hts)
  | scalar ht hs hmem => exact .scalar ht hs (hts.subset hmem)
  | name ht hmem => exact .name ht (hts.subset hmem)
  | tensor ht hliteral hpart => exact .tensor ht hliteral (hpart.trans hts)

theorem Declaration.TakenFrom.mono {ts ts' : List Token} {d : Declaration} (h : d.TakenFrom ts)
    (hts : ts <:+: ts') : d.TakenFrom ts' := by
  obtain ⟨hlet, ⟨names, us, hdeclares, hpart⟩, hnodes⟩ := h
  exact ⟨hlet, ⟨names, us, hdeclares, hpart.trans hts⟩, fun e he => (hnodes e he).mono hts⟩

namespace Grammar

variable {scope : String → Option Storage} {phrase : Phrase} {n h : Nat} {ts : List Token}

/-- A literal starts with the brace that opens it. -/
theorem Literal.isSymbol_head {t : Token} {literal : Tensor} (H : Literal n h (t :: ts) literal) :
    t.isSymbol '\x7b' = true := by
  cases H with
  | empty _ hl _ => exact hl
  | filled _ hl _ _ => exact hl

/-- Every node of a phrase was read from its token. -/
theorem Derives.takenFrom {e : Expr} (H : Derives scope phrase n h ts e) :
    ∀ x ∈ e.inOrder, x.TakenFrom ts := by
  induction H with
  | expression _ ih => exact ih
  | term _ ih => exact ih
  | first _ ih => exact ih
  | primary _ ih => exact ih
  | @next level n h k ts us left right op t hleft hop ht hheight hright ihleft ihright =>
    intro x hx
    rcases List.mem_append.mp hx with hx | hx
    · exact (ihleft x hx).mono (List.prefix_append _ _).isInfix
    · rcases List.mem_cons.mp hx with rfl | hx
      · exact .binary ht ⟨_, _, _, _, hleft⟩ ⟨_, _, _, _, hright⟩ (List.infix_refl _)
      · exact (ihright x hx).mono ⟨ts ++ [t], [], by simp⟩
  | @parentheses n h l r ts e _ _ _ _ ih =>
    intro x hx
    exact (ih x hx).mono ⟨[l], [r], by simp⟩
  | number ht hs =>
    rintro x hx
    cases List.mem_singleton.mp hx
    exact .scalar ht hs List.mem_cons_self
  | name ht =>
    intro x hx
    cases List.mem_singleton.mp hx
    exact .name ht List.mem_cons_self
  | tensor hliteral =>
    intro x hx
    cases List.mem_singleton.mp hx
    exact .tensor hliteral.isSymbol_head hliteral (List.infix_refl _)
  | @sign n h op t ts e _ ht hoperand ih =>
    intro x hx
    rcases List.mem_cons.mp hx with rfl | hx
    · exact .unary ht ⟨_, _, _, _, hoperand⟩ (List.infix_refl _)
    · exact (ih x hx).mono (List.suffix_cons _ _).isInfix

/-- The tokens of the nodes stand in a phrase in this order. -/
theorem Derives.tokens_sublist {e : Expr} (H : Derives scope phrase n h ts e) :
    e.tokens.Sublist ts := by
  unfold Expr.tokens
  induction H with
  | expression _ ih => exact ih
  | term _ ih => exact ih
  | first _ ih => exact ih
  | primary _ ih => exact ih
  | next _ _ _ _ _ ihleft ihright =>
    rw [Expr.inOrder, List.map_append, List.map_cons]
    exact ihleft.append (ihright.cons_cons _)
  | parentheses _ _ _ _ ih => exact (ih.trans (List.sublist_append_left _ _)).cons _
  | number => exact List.Sublist.refl _
  | name => exact List.Sublist.refl _
  | tensor => exact (List.nil_sublist _).cons_cons _
  | sign _ _ _ ih => exact ih.cons_cons _

theorem Writes.tokens_sublist {e : Expr} (H : Writes ts e) : e.tokens.Sublist ts := by
  obtain ⟨scope, phrase, n, h, hderives⟩ := H
  exact hderives.tokens_sublist

/-- A declaration starts with its token, and its initializer stands behind it. -/
theorem Declares.takenFrom {names : List String} {d : Declaration} (H : Declares names ts d) :
    d.TakenFrom ts ∧ d.tokens.Sublist ts := by
  have hdeclares := H
  cases H with
  | @intro word type name equals semicolon us valueType rhs hword _ _ _ hrhs _ =>
    refine ⟨⟨hword, ⟨names, _, hdeclares, List.infix_refl _⟩, fun e he => ?_⟩, ?_⟩
    · exact (hrhs.takenFrom e he).mono ⟨[word, type, name, equals], [semicolon], by simp⟩
    · refine List.Sublist.cons_cons _ (.cons _ (.cons _ (.cons _ ?_)))
      exact hrhs.tokens_sublist.trans (List.sublist_append_left _ _)

/-- So it is for all declarations of a block. -/
theorem Statements.takenFrom {names : List String} {ds : List Declaration}
    (H : Statements names ts ds) :
    (∀ d ∈ ds, d.TakenFrom ts) ∧ (ds.flatMap Declaration.tokens).Sublist ts := by
  induction H with
  | nil => exact ⟨by simp, List.Sublist.refl _⟩
  | @cons names ts us d ds hd _ ih =>
    obtain ⟨hread, htokens⟩ := hd.takenFrom
    refine ⟨fun d' hd' => ?_, ?_⟩
    · rcases List.mem_cons.mp hd' with rfl | hd'
      · exact hread.mono (List.prefix_append _ _).isInfix
      · exact (ih.1 d' hd').mono (List.suffix_append _ _).isInfix
    · rw [List.flatMap_cons]
      exact htokens.append ih.2

end Grammar

/-! ## Order -/

/-- The tokens of a source stand one after the other. -/
theorem pairwise_of_tokenize {source : String} {ts : List Token} (h : tokenize source = .ok ts) :
    ts.Pairwise fun t u => t.span.Precedes u.span := by
  have hpieces := pieces_pairwise source
  rw [pieces_eq_of_tokenize h, List.pairwise_map] at hpieces
  exact hpieces

/-- Tokens that stand one after the other are different. -/
theorem nodup_of_pairwise {ts : List Token}
    (h : ts.Pairwise fun t u => t.span.Precedes u.span) : ts.Nodup := by
  refine h.imp ?_
  rintro t u ⟨hlt, hle⟩ rfl
  exact Nat.not_lt.mpr hle hlt

/-- What stands in the middle is behind what stands before it and before what stands
behind it. -/
theorem precedes_of_isInfix {ts us vs : List Token} {t : Token}
    (h : ts.Pairwise fun t u => t.span.Precedes u.span) (hpart : us ++ t :: vs <:+: ts) :
    (∀ u ∈ us, u.span.Precedes t.span) ∧ ∀ v ∈ vs, t.span.Precedes v.span := by
  obtain ⟨-, hcons, hbefore⟩ := List.pairwise_append.mp (h.sublist hpart.sublist)
  exact ⟨fun u hu => hbefore u hu t List.mem_cons_self, (List.pairwise_cons.mp hcons).1⟩

/-- The nodes of an accepted source carry the tokens that they were read from. Through
all declarations and from left to right in each initializer, these tokens stand one
behind the other in the source, so that no two nodes share one, and the token of an
operator stands behind the whole phrase of its left operand and before that of its
right one. -/
theorem nodes_carry_source_tokens {source : String} {program : Program} {table : SymbolTable}
    (h : parse source = .ok (program, table)) :
    ∃ ts, tokenize source = .ok ts ∧
      (∀ d ∈ program.declarations, d.TakenFrom ts) ∧
      program.tokens.Sublist ts ∧
      (program.tokens.Pairwise fun t u => t.span.Precedes u.span) ∧
      program.tokens.Nodup ∧
      ∀ d ∈ program.declarations, ∀ op left right t, Expr.binary op left right t ∈ d.rhs.inOrder →
        ∃ us vs, Grammar.Writes us left ∧ Grammar.Writes vs right ∧ us ++ t :: vs <:+: ts ∧
          left.tokens.Sublist us ∧ right.tokens.Sublist vs ∧
          (∀ u ∈ us, u.span.Precedes t.span) ∧ ∀ v ∈ vs, t.span.Precedes v.span := by
  obtain ⟨ts, htokenize, -, hunit, -⟩ := Grammar.CompilationUnit.of_parse h
  obtain ⟨hread, hsublist⟩ := hunit.statements.takenFrom
  have hpairwise := pairwise_of_tokenize htokenize
  have hall := (List.prefix_append ts [.endOfInput (byteLength source.toList)])
  have hread : ∀ d ∈ program.declarations, d.TakenFrom _ :=
    fun d hd => (hread d hd).mono hall.isInfix
  have hsublist : program.tokens.Sublist _ := hsublist.trans hall.sublist
  have hordered := hpairwise.sublist hsublist
  refine ⟨_, htokenize, hread, hsublist, hordered, nodup_of_pairwise hordered, ?_⟩
  intro d hd op left right t hnode
  cases (hread d hd).nodes _ hnode with
  | @binary _ _ _ _ us vs _ hleft hright hpart =>
    obtain ⟨hbefore, hbehind⟩ := precedes_of_isInfix hpairwise hpart
    exact ⟨us, vs, hleft, hright, hpart, hleft.tokens_sublist, hright.tokens_sublist, hbefore,
      hbehind⟩

/-- Signs, parentheses and braces in two declarations. -/
theorem nodes_carry_source_tokens_grouped : ∃ program table ts,
    parse "let int a = -(1 + 2) * \x7b3, \x7b4\x7d\x7d; let float b = a / 2.5;" =
        .ok (program, table) ∧
      program.tokens.map Token.lexeme =
        ["let", "-", "1", "+", "2", "*", "\x7b", "let", "a", "/", "2.5"] ∧
      tokenize "let int a = -(1 + 2) * \x7b3, \x7b4\x7d\x7d; let float b = a / 2.5;" = .ok ts ∧
      (∀ d ∈ program.declarations, d.TakenFrom ts) ∧
      program.tokens.Pairwise fun t u => t.span.Precedes u.span := by
  obtain ⟨program, table, hparse, hlexemes⟩ := exists_of_parse_any
    (s := "let int a = -(1 + 2) * \x7b3, \x7b4\x7d\x7d; let float b = a / 2.5;")
    (p := fun r => r.1.tokens.map Token.lexeme =
      ["let", "-", "1", "+", "2", "*", "\x7b", "let", "a", "/", "2.5"]) (by decide +kernel)
  obtain ⟨ts, htokenize, hread, -, hordered, -⟩ := nodes_carry_source_tokens hparse
  exact ⟨program, table, ts, hparse, of_decide_eq_true hlexemes, htokenize, hread, hordered⟩

end TensorLet
