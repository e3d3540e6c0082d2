import Mathlib.Data.List.Forall2
import Mathlib.Logic.Relator
import TensorLet.Proofs.Parser.Steps

/-!
# What a change of names and layout leaves the same

Tokens, symbol tables and trees of two sources that differ in their layout, in
the names they use and in the types that their declarations write. Names
correspond by a relation `N`; where two of them are compared, it has to be
one-to-one.

* `Token.Renamed`: corresponding tokens pass the same tests of the grammar.
* `SymbolTable.Renamed`: corresponding tables give corresponding answers, and
  stay so when corresponding names are declared.
* `Expr.Renamed`, `Declaration.Renamed`, `Program.Renamed`: trees of one shape.
-/

namespace TensorLet

variable {N : String → String → Prop}

/-! ## Tokens -/

/-- Tokens of one class whose lexemes are corresponding names, two names of types
or the same. -/
structure Token.Renamed (N : String → String → Prop) (t t' : Token) : Prop where
  kind : t.kind = t'.kind
  name : t.kind = .identifier → N t.lexeme t'.lexeme
  lexeme : t.kind ≠ .identifier →
    t.lexeme = t'.lexeme ∨ t.valueType?.isSome = true ∧ t'.valueType?.isSome = true

instance [DecidableRel N] (t t' : Token) : Decidable (t.Renamed N t') :=
  decidable_of_iff (t.kind = t'.kind ∧ (t.kind = .identifier → N t.lexeme t'.lexeme) ∧
      (t.kind ≠ .identifier →
        t.lexeme = t'.lexeme ∨ t.valueType?.isSome = true ∧ t'.valueType?.isSome = true))
    ⟨fun h => ⟨h.1, h.2.1, h.2.2⟩, fun h => ⟨h.kind, h.name, h.lexeme⟩⟩

namespace Token.Renamed

variable {t t' : Token} (h : t.Renamed N t')
include h

theorem lexeme_eq (hname : t.kind ≠ .identifier) (hkeyword : t.kind ≠ .keyword) :
    t.lexeme = t'.lexeme := by
  rcases h.lexeme hname with heq | ⟨htype, -⟩
  · exact heq
  · obtain ⟨type, htype⟩ := Option.isSome_iff_exists.mp htype
    exact absurd (Token.kind_of_valueType? htype) hkeyword

theorem isEnd : t.isEnd = t'.isEnd := by
  rw [Token.isEnd, Token.isEnd, h.kind]

theorem isNumber : t.isNumber = t'.isNumber := by
  rw [Token.isNumber, Token.isNumber, h.kind]

theorem isSymbol (c : Char) : t.isSymbol c = t'.isSymbol c := by
  by_cases hk : t.kind = .symbol
  · rw [Token.isSymbol, Token.isSymbol, ← h.kind, h.lexeme_eq (by simp [hk]) (by simp [hk])]
  · simp [Token.isSymbol, ← h.kind, hk]

theorem binaryOp? (ops : List BinOp) : t.binaryOp? ops = t'.binaryOp? ops := by
  simp only [Token.binaryOp?, h.isSymbol]

theorem unaryOp? (hk : t.kind = .symbol) : t.unaryOp? = t'.unaryOp? := by
  rw [Token.unaryOp?, Token.unaryOp?, h.lexeme_eq (by simp [hk]) (by simp [hk])]

theorem isSome_valueType? : t.valueType?.isSome = t'.valueType?.isSome := by
  by_cases hk : t.kind = .keyword
  · rcases h.lexeme (by simp [hk]) with heq | ⟨ht, ht'⟩
    · rw [Token.valueType?, Token.valueType?, Token.keyword?, Token.keyword?, heq, h.kind]
    · rw [ht, ht']
  · simp [Token.valueType?, Token.keyword?, ← h.kind, hk]

/-- The word that starts a declaration is no name of a type. -/
theorem isKeyword_letWord : t.isKeyword .letWord = t'.isKeyword .letWord := by
  have hlet : ∀ u : Token, u.valueType?.isSome = true → u.isKeyword .letWord = false := by
    intro u hu
    by_contra hne
    simp only [Token.isKeyword, Bool.not_eq_false, Bool.and_eq_true, decide_eq_true_eq] at hne
    simp [Token.valueType?, Token.keyword?, hne.1, Keyword.ofText?_eq_some_iff.mpr hne.2] at hu
  by_cases hk : t.kind = .keyword
  · rcases h.lexeme (by simp [hk]) with heq | ⟨ht, ht'⟩
    · rw [Token.isKeyword, Token.isKeyword, heq, h.kind]
    · rw [hlet t ht, hlet t' ht']
  · simp [Token.isKeyword, ← h.kind, hk]

/-- Numeric tokens write the same number, or are wrong in the same way. -/
theorem scalar (hnumber : t.isNumber = true) :
    (∃ s, t.scalar = .ok s ∧ t'.scalar = .ok s) ∨
      ∃ e e', t.scalar = .error e ∧ t'.scalar = .error e' ∧ e.fault = e'.fault := by
  have hlexeme : t.lexeme = t'.lexeme := by
    simp only [Token.isNumber, Bool.or_eq_true, decide_eq_true_eq] at hnumber
    refine h.lexeme_eq ?_ ?_ <;> rcases hnumber with hk | hk <;> simp [hk]
  rw [Token.scalar, Token.scalar, hlexeme, h.kind]
  cases Decimal.ofChars? t'.lexeme.toList with
  | none => exact .inr ⟨_, _, rfl, rfl, rfl⟩
  | some d =>
    by_cases hd : d.toBinary64.isFinite = true
    · exact .inl ⟨_, if_pos hd, if_pos hd⟩
    · exact .inr ⟨_, _, if_neg hd, if_neg hd, rfl⟩

end Token.Renamed

/-! ## Symbol tables -/

/-- Symbols of corresponding names in the same slot. -/
structure Symbol.Renamed (N : String → String → Prop) (s s' : Symbol) : Prop where
  name : N s.name s'.name
  storage : s.storage = s'.storage
  index : s.index = s'.index

/-- Tables of corresponding declarations, in which corresponding names are bound
to the same one. -/
structure SymbolTable.Renamed (N : String → String → Prop) (T T' : SymbolTable) : Prop where
  history : List.Forall₂ (Symbol.Renamed N) T.history.toList T'.history.toList
  bindings : ∀ x x', N x x' → T.bindings[x]? = T'.bindings[x']?
  taken : T.taken = T'.taken

/-- In a one-to-one correspondence, equal names correspond to equal names. -/
theorem eq_iff_of_biUnique (hN : Relator.BiUnique N) {x x' y y' : String} (hx : N x x')
    (hy : N y y') : x = y ↔ x' = y' := by
  constructor
  · rintro rfl
    exact hN.2 hx hy
  · rintro rfl
    exact hN.1 hx hy

namespace SymbolTable.Renamed

theorem empty : SymbolTable.empty.Renamed N SymbolTable.empty :=
  ⟨.nil, fun x x' _ => by simp [SymbolTable.empty], rfl⟩

variable {T T' : SymbolTable} (h : T.Renamed N T')
include h

theorem size : T.history.size = T'.history.size := by
  have := h.history.length_eq
  rwa [Array.length_toList, Array.length_toList] at this

theorem storageOf? {x x' : String} (hx : N x x') : T.storageOf? x = T'.storageOf? x' := by
  have hstorage : T.history.toList.map (·.storage) = T'.history.toList.map (·.storage) := by
    rw [← List.forall₂_eq_eq_eq, List.forall₂_map_left_iff, List.forall₂_map_right_iff]
    exact h.history.imp fun _ _ hs => hs.storage
  rw [SymbolTable.storageOf?, SymbolTable.storageOf?, SymbolTable.get?, SymbolTable.get?,
    h.bindings x x' hx]
  cases T'.bindings[x']? with
  | none => rfl
  | some i =>
    simp only [Option.bind_some, ← Array.getElem?_toList, ← List.getElem?_map, hstorage]

/-- Corresponding names declared in corresponding tables take the same slot. -/
theorem define (hN : Relator.BiUnique N) {x x' : String} (hx : N x x') (type type' : ValueType)
    (storage : Storage) : (T.define x type storage).Renamed N (T'.define x' type' storage) := by
  refine ⟨?_, ?_, ?_⟩
  · simp only [SymbolTable.define, Array.toList_push]
    refine List.rel_append h.history (.cons ⟨hx, rfl, ?_⟩ .nil)
    simp only [SymbolTable.fresh, h.taken]
  · intro y y' hy
    simp only [SymbolTable.define, Std.TreeMap.getElem?_insert, h.size, h.bindings y y' hy,
      Std.LawfulEqCmp.compare_eq_iff_eq, eq_iff_of_biUnique hN hx hy]
  · simp only [SymbolTable.define, h.taken]

end SymbolTable.Renamed

/-! ## Trees -/

/-- Trees of one shape with the same constants and corresponding names, resolved
to the same storage. Their tokens may differ. -/
inductive Expr.Renamed (N : String → String → Prop) : Expr → Expr → Prop
  | binary {op : BinOp} {l l' r r' : Expr} {t t' : Token} : Renamed N l l' → Renamed N r r' →
      Renamed N (.binary op l r t) (.binary op l' r' t')
  | unary {op : UnaryOp} {e e' : Expr} {t t' : Token} : Renamed N e e' →
      Renamed N (.unary op e t) (.unary op e' t')
  | scalar {s : Scalar} {t t' : Token} : Renamed N (.scalar s t) (.scalar s t')
  | name {x x' : String} {resolved : Option Storage} {t t' : Token} : N x x' →
      Renamed N (.name x resolved t) (.name x' resolved t')
  | tensor {literal : Tensor} {t t' : Token} : Renamed N (.tensor literal t) (.tensor literal t')

/-- Declarations of corresponding names with corresponding initializers. -/
structure Declaration.Renamed (N : String → String → Prop) (d d' : Declaration) : Prop where
  name : N d.name d'.name
  rhs : d.rhs.Renamed N d'.rhs

/-- Programs of corresponding declarations. -/
def Program.Renamed (N : String → String → Prop) (p p' : Program) : Prop :=
  List.Forall₂ (Declaration.Renamed N) p.declarations p'.declarations

end TensorLet
