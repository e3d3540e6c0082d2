import TensorLet.Proofs.Evaluation
import TensorLet.Proofs.Listing

/-!
# Reading code back from its text

Code is written one line for each instruction, and a line is a few words with a blank
between them. Not all instructions can be read back. A number that is pushed looks like
a push from the segment of constants, and all not-a-numbers look alike. Compiled code
has neither, so its text tells its instructions.

* `Binary64.ofTextChars?_textChars`: numbers are read back, infinities among them.
* `Instr.ofWords?_words`: so are the instructions that `Instr.isReadable` is true of.
* `Code.splitOn_text`: their lines are what stands between the newlines.
* `isReadable_of_compile`: compiled code has no other instructions.
* `text_determines_code`: what the text of a compiled source tells.
-/

namespace TensorLet

/-! ## Numbers -/

namespace Binary64

/-- True of all but the not-a-numbers. -/
def isNumber (x : Binary64) : Bool := x.magnitude ≤ infinity

/-- The number that a decimal or `inf` writes. -/
def ofSizeChars? (cs : List Char) : Option Binary64 :=
  if cs = ['i', 'n', 'f'] then some ⟨false, infinity, by decide⟩
  else (Decimal.ofChars? cs).map Decimal.toBinary64

/-- The number that a text writes, with a sign in front when it is negative. -/
def ofTextChars? : List Char → Option Binary64
  | '-' :: cs => (ofSizeChars? cs).map negate
  | cs => ofSizeChars? cs

variable {x : Binary64}

/-- Counts are numbers, however large. -/
theorem isNumber_ofNat (n : Nat) : (ofNat n).isNumber = true :=
  decide_eq_true (nearest_le_infinity n 1)

theorem isNumber_of_isFinite (h : x.isFinite = true) : x.isNumber = true :=
  decide_eq_true (Nat.le_of_lt (of_decide_eq_true h))

/-- A number that is not finite is written as one word. -/
theorem textChars_of_not_isFinite (h : x.isNumber = true) (hfinite : ¬ x.isFinite = true) :
    x.magnitude = infinity ∧
      x.textChars = if x.negative then ['-', 'i', 'n', 'f'] else ['i', 'n', 'f'] := by
  simp only [isNumber, isFinite, decide_eq_true_eq] at h hfinite
  have hmagnitude : x.magnitude = infinity := by omega
  refine ⟨hmagnitude, ?_⟩
  rw [textChars, if_neg (by omega), if_pos hmagnitude]

/-- The text of a negative number is that of its size behind a sign. -/
theorem textChars_of_negative (h : x.isNumber = true) (hsign : x.negative = true) :
    x.textChars = '-' :: x.negate.textChars := by
  have hnumber : ¬ infinity < x.magnitude := Nat.not_lt.mpr (of_decide_eq_true h)
  unfold textChars negate
  simp only [hsign, Bool.not_true, Bool.false_eq_true, if_true, if_false, if_neg hnumber]

/-- The text of a number that is not negative is a decimal or `inf`, and starts with no
sign. -/
theorem ofSizeChars?_textChars (h : x.isNumber = true) (hsign : x.negative = false) :
    ofSizeChars? x.textChars = some x ∧ x.textChars.head? ≠ some '-' := by
  by_cases hfinite : x.isFinite = true
  · obtain ⟨c, cs, hcons, hc, -⟩ := (shortest x.magnitude).toChars_eq_cons
    have hchars := textChars_eq hfinite hsign
    have hne : ∀ d : Char, d.isDigit = false → c ≠ d := by
      rintro d hd rfl
      exact absurd hc (Bool.eq_false_iff.mp hd)
    refine ⟨?_, ?_⟩
    · have hword : (shortest x.magnitude).toChars ≠ ['i', 'n', 'f'] := by
        rw [hcons]
        exact fun heq => hne 'i' (by decide) (List.cons.inj heq).1
      rw [ofSizeChars?, hchars, if_neg hword, Decimal.ofChars?_toChars, Option.map_some,
        toBinary64_shortest hfinite hsign]
    · rw [hchars, hcons]
      exact fun heq => hne '-' (by decide) (Option.some.inj heq)
  · obtain ⟨hmagnitude, hchars⟩ := textChars_of_not_isFinite h hfinite
    rw [hchars, hsign]
    refine ⟨?_, by decide⟩
    obtain ⟨negative, magnitude, hlt⟩ := x
    cases hmagnitude
    cases hsign
    exact if_pos rfl

/-- Numbers are read back from their texts. -/
theorem ofTextChars?_textChars (h : x.isNumber = true) : ofTextChars? x.textChars = some x := by
  cases hsign : x.negative with
  | true =>
    have hnegate : x.negate.negative = false := by rw [negate, hsign]; rfl
    rw [textChars_of_negative h hsign]
    show (ofSizeChars? x.negate.textChars).map negate = some x
    rw [(ofSizeChars?_textChars (x := x.negate) h hnegate).1, Option.map_some, negate_negate]
  | false =>
    obtain ⟨hread, hhead⟩ := ofSizeChars?_textChars h hsign
    rw [ofTextChars?.eq_def]
    split
    next hchars =>
      rw [hchars] at hhead
      exact absurd rfl hhead
    next => exact hread

end Binary64

namespace Machine

/-! ## Words of a line -/

/-- True of the characters that code is written with, blanks and newlines apart. -/
def isCodeChar (c : Char) : Bool := isWordChar c || c = '.' || c = '-'

/-- A word of code. -/
def IsWord (cs : List Char) : Prop := ∀ c ∈ cs, isCodeChar c = true

instance (cs : List Char) : Decidable (IsWord cs) :=
  List.decidableBAll (fun c => isCodeChar c = true) cs

theorem isCodeChar_of_isDigit {c : Char} (h : c.isDigit = true) : isCodeChar c = true := by
  simp [isCodeChar, isWordChar, Char.isAlphanum, h]

theorem IsWord.not_mem {cs : List Char} (h : IsWord cs) {c : Char} (hc : isCodeChar c = false) :
    c ∉ cs :=
  fun hmem => absurd (h c hmem) (Bool.eq_false_iff.mp hc)

/-- The segment with a given name. -/
def Segment.ofText? (cs : List Char) : Option Segment :=
  [constant, locals, arguments, globals, pointer, heap].find? (·.text.toList = cs)

/-- The operation with a given mnemonic. -/
def ArithOp.ofText? (cs : List Char) : Option ArithOp :=
  [add, sub, mul, div, neg].find? (·.text.toList = cs)

/-- The count that digits write. -/
def ofDigits? (cs : List Char) : Option Nat :=
  if cs ≠ [] ∧ cs.all Char.isDigit then some (Nat.ofDigitChars 10 cs 0) else none

theorem Segment.ofText?_text (s : Segment) : ofText? s.text.toList = some s := by
  cases s <;> decide

theorem ArithOp.ofText?_text (op : ArithOp) : ofText? op.text.toList = some op := by
  cases op <;> decide

theorem ofDigits?_toDigits (n : Nat) : ofDigits? (Nat.toDigits 10 n) = some n := by
  have hdigits : (Nat.toDigits 10 n).all Char.isDigit = true := by
    rw [List.all_eq_true]
    exact fun c hc => Nat.isDigit_of_mem_toDigits (by decide) (by decide) hc
  rw [ofDigits?, if_pos ⟨Nat.toDigits_ne_nil, hdigits⟩, Nat.ofDigitChars_ten_toDigits]

theorem isWord_toDigits (n : Nat) : IsWord (Nat.toDigits 10 n) :=
  fun _ hc => isCodeChar_of_isDigit (Nat.isDigit_of_mem_toDigits (by decide) (by decide) hc)

theorem isWord_textChars {x : Binary64} (h : x.isNumber = true) : IsWord x.textChars := by
  by_cases hfinite : x.isFinite = true
  · obtain ⟨c, cs, hc, hcs, hchars⟩ := Binary64.textChars_eq_cons hfinite
    have hsize : IsWord (c :: cs) := by
      intro e he
      rcases List.mem_cons.mp he with rfl | he
      · exact isCodeChar_of_isDigit hc
      · rcases hcs e he with hdigit | rfl
        · exact isCodeChar_of_isDigit hdigit
        · rfl
    rcases hchars with hchars | hchars
    · rw [hchars]
      exact hsize
    · rw [hchars]
      exact List.forall_mem_cons.mpr ⟨rfl, hsize⟩
  · rw [(Binary64.textChars_of_not_isFinite h hfinite).2]
    cases x.negative <;> decide

namespace Instr

/-- The words of an instruction's line. -/
def words : Instr → List (List Char)
  | pushConstant value => ["push".toList, Segment.constant.text.toList, value.textChars]
  | push segment index => ["push".toList, segment.text.toList, Nat.toDigits 10 index]
  | pop segment index => ["pop".toList, segment.text.toList, Nat.toDigits 10 index]
  | call name arguments => ["call".toList, name.toList, Nat.toDigits 10 arguments]
  | arith op => [op.text.toList]

/-- The instruction with given words. A push from the segment of constants is taken to
push the number itself. -/
def ofWords? : List (List Char) → Option Instr
  | [op] => (ArithOp.ofText? op).map arith
  | [verb, place, value] =>
    if verb = "push".toList then
      if place = Segment.constant.text.toList then
        (Binary64.ofTextChars? value).map pushConstant
      else do return push (← Segment.ofText? place) (← ofDigits? value)
    else if verb = "pop".toList then do return pop (← Segment.ofText? place) (← ofDigits? value)
    else if verb = "call".toList then (ofDigits? value).map (call (String.ofList place))
    else none
  | _ => none

/-- True of the instructions that can be read back: what is pushed as a constant is a
number, and the name of what is called is a word. -/
def isReadable : Instr → Bool
  | pushConstant value => value.isNumber
  | push segment _ => segment ≠ .constant
  | pop _ _ => true
  | call name _ => IsWord name.toList
  | arith _ => true

/-- Two instructions with one line. -/
example : (push .constant 2).text = (pushConstant (.ofNat 2)).text := by decide +kernel

variable {instr : Instr}

theorem toList_text (instr : Instr) : instr.text.toList = [' '].intercalate instr.words := by
  cases instr with
  | pushConstant value => simp [text, words, Binary64.text, Segment.text]
  | push segment index => simp [text, words, Nat.toList_repr]
  | pop segment index => simp [text, words, Nat.toList_repr]
  | call name arguments => simp [text, words, Nat.toList_repr]
  | arith op => simp [text, words]

theorem words_ne_nil (instr : Instr) : instr.words ≠ [] := by
  cases instr <;> exact List.cons_ne_nil _ _

theorem isWord_of_mem_words (h : instr.isReadable = true) : ∀ w ∈ instr.words, IsWord w := by
  have hsegment : ∀ s : Segment, IsWord s.text.toList := by
    intro s
    cases s <;> decide
  have hword : ∀ {verb place value : List Char}, IsWord verb → IsWord place → IsWord value →
      ∀ w ∈ [verb, place, value], IsWord w := by
    intro verb place value hverb hplace hvalue
    simp [hverb, hplace, hvalue]
  cases instr with
  | pushConstant value => exact hword (by decide) (hsegment _) (isWord_textChars h)
  | push segment index => exact hword (by decide) (hsegment _) (isWord_toDigits index)
  | pop segment index => exact hword (by decide) (hsegment _) (isWord_toDigits index)
  | call name arguments =>
    exact hword (by decide) (of_decide_eq_true h) (isWord_toDigits arguments)
  | arith op =>
    intro w hw
    rw [List.mem_singleton.mp hw]
    cases op <;> decide

/-- Instructions are read back from their words. -/
theorem ofWords?_words (h : instr.isReadable = true) : ofWords? instr.words = some instr := by
  cases instr with
  | pushConstant value =>
    rw [words, ofWords?, if_pos rfl, if_pos rfl, Binary64.ofTextChars?_textChars h]
    rfl
  | push segment index =>
    have hsegment : segment.text.toList ≠ Segment.constant.text.toList := by
      intro heq
      have hread := Segment.ofText?_text segment
      rw [heq, Segment.ofText?_text] at hread
      exact of_decide_eq_true h (Option.some.inj hread).symm
    rw [words, ofWords?, if_pos rfl, if_neg hsegment, Segment.ofText?_text, ofDigits?_toDigits]
    rfl
  | pop segment index =>
    rw [words, ofWords?, if_neg (by decide), if_pos rfl, Segment.ofText?_text, ofDigits?_toDigits]
    rfl
  | call name arguments =>
    rw [words, ofWords?, if_neg (by decide), if_neg (by decide), if_pos rfl, ofDigits?_toDigits,
      String.ofList_toList]
    rfl
  | arith op =>
    rw [words, ofWords?, ArithOp.ofText?_text]
    rfl

/-- The words of a line are what stands between its blanks. -/
theorem splitOn_text (h : instr.isReadable = true) :
    instr.text.toList.splitOn ' ' = instr.words := by
  rw [toList_text]
  exact List.splitOn_intercalate ' ' (fun w hw => (isWord_of_mem_words h w hw).not_mem rfl)
    instr.words_ne_nil

/-- Code characters and blanks are all that is in the line of an instruction. -/
theorem not_mem_text (h : instr.isReadable = true) {c : Char} (hc : isCodeChar c = false)
    (hblank : c ≠ ' ') : c ∉ instr.text.toList := by
  rw [toList_text]
  intro hmem
  rcases mem_intercalate hmem with hmem | ⟨w, hw, hmem⟩
  · exact hblank (List.mem_singleton.mp hmem)
  · exact (isWord_of_mem_words h w hw).not_mem hc hmem

end Instr

/-! ## Lines of code -/

namespace Code

/-- The code that a text writes, every line of it ended by a newline. -/
def ofText? (text : String) : Option Code :=
  (text.toList.splitOn '\n').dropLast.mapM fun line => Instr.ofWords? (line.splitOn ' ')

variable {code : Code}

theorem text_cons (instr : Instr) (code : Code) :
    (Code.text (instr :: code)).toList = instr.text.toList ++ '\n' :: code.text.toList := by
  simp [text]

/-- Code characters, blanks and newlines are all that is in the text of code. -/
theorem not_mem_text (h : ∀ instr ∈ code, instr.isReadable = true) {c : Char}
    (hc : isCodeChar c = false) (hblank : c ≠ ' ') (hnewline : c ≠ '\n') :
    c ∉ code.text.toList := by
  induction code with
  | nil => exact List.not_mem_nil
  | cons instr code ih =>
    rw [List.forall_mem_cons] at h
    rw [text_cons, List.mem_append, List.mem_cons, not_or, not_or]
    exact ⟨Instr.not_mem_text h.1 hc hblank, hnewline, ih h.2⟩

/-- The lines of a text are its instructions, each ended by a newline. -/
theorem splitOn_text (h : ∀ instr ∈ code, instr.isReadable = true) :
    code.text.toList.splitOn '\n' = code.map (·.text.toList) ++ [[]] := by
  induction code with
  | nil => rfl
  | cons instr code ih =>
    rw [List.forall_mem_cons] at h
    have hline : '\n' ∉ instr.text.toList := Instr.not_mem_text h.1 rfl (by decide)
    rw [text_cons, List.splitOn_append_cons_self_of_not_mem hline, ih h.2]
    rfl

/-- Code is read back from its text. -/
theorem ofText?_text (h : ∀ instr ∈ code, instr.isReadable = true) :
    ofText? code.text = some code := by
  rw [ofText?, splitOn_text h, List.dropLast_concat]
  induction code with
  | nil => rfl
  | cons instr code ih =>
    rw [List.forall_mem_cons] at h
    rw [List.map_cons, List.mapM_cons, ih h.2, Instr.splitOn_text h.1, Instr.ofWords?_words h.1]
    rfl

end Code

end Machine

open Machine (Code Instr)

/-! ## Compiled code -/

mutual
theorem Tensor.isReadable_of_mem_code (t : Tensor) (h : t.isSparse = true) :
    ∀ instr ∈ t.code, instr.isReadable = true := by
  match t with
  | .leaf scalar =>
    rw [isSparse, Bool.and_eq_true] at h
    intro instr hinstr
    rw [List.mem_singleton.mp hinstr]
    exact Binary64.isNumber_of_isFinite h.1
  | .node extent entries =>
    have hentries := Tensor.isReadable_of_mem_entriesCode entries h
    rw [Tensor.code, List.forall_mem_cons, List.forall_mem_cons]
    exact ⟨Binary64.isNumber_ofNat _, Binary64.isNumber_ofNat _, hentries⟩
theorem Tensor.isReadable_of_mem_entriesCode {extent low : Nat} (entries : List (Nat × Tensor))
    (h : areSparse extent low entries = true) :
    ∀ instr ∈ Tensor.entriesCode entries, instr.isReadable = true := by
  match entries with
  | [] => exact nofun
  | (index, t) :: rest =>
    rw [areSparse, Bool.and_eq_true, Bool.and_eq_true] at h
    have ht := Tensor.isReadable_of_mem_code t h.1.2
    have hrest := Tensor.isReadable_of_mem_entriesCode rest h.2
    rw [Tensor.entriesCode, List.forall_mem_cons, List.forall_mem_append]
    exact ⟨Binary64.isNumber_ofNat _, ht, hrest⟩
end

/-- Slots are in no segment of constants. -/
theorem Machine.Segment.ofStorage_ne_constant (s : Storage) : Segment.ofStorage s ≠ .constant := by
  cases s <;> exact nofun

theorem Expr.isReadable_of_mem_code {symbols : SymbolTable} {declared : Nat} (e : Expr) :
    ∀ code, e.Writable → e.code symbols declared = .ok code →
      ∀ instr ∈ code, instr.isReadable = true := by
  induction e with
  | binary op left right _ ihleft ihright =>
    intro code he hcode
    obtain ⟨l, hl, hcode⟩ := except_bind_eq_ok.mp hcode
    obtain ⟨r, hr, hcode⟩ := except_bind_eq_ok.mp hcode
    cases hcode
    rw [List.forall_mem_append, List.forall_mem_append, List.forall_mem_singleton]
    exact ⟨⟨ihleft l he.1 hl, ihright r he.2 hr⟩, rfl⟩
  | unary op operand _ ih =>
    intro code he hcode
    cases op with
    | neg =>
      obtain ⟨c, hc, hcode⟩ := except_bind_eq_ok.mp hcode
      cases hcode
      rw [List.forall_mem_append, List.forall_mem_singleton]
      exact ⟨ih c he hc, rfl⟩
    | tilde => cases hcode
    | prime => cases hcode
  | scalar s _ =>
    intro code he hcode
    cases hcode
    rw [List.forall_mem_singleton]
    exact Binary64.isNumber_of_isFinite he.1
  | name x resolved _ =>
    intro code _ hcode
    rw [Expr.code] at hcode
    split at hcode
    · cases hcode
    next symbol _ =>
      cases hcode
      rw [List.forall_mem_singleton]
      exact decide_eq_true (Machine.Segment.ofStorage_ne_constant symbol.storage)
  | tensor literal _ =>
    intro code he hcode
    cases hcode
    obtain ⟨extent, entries, rfl⟩ := he.exists_node
    exact Tensor.isReadable_of_mem_code (.node extent entries) he

theorem isReadable_of_mem_declarationsCode {symbols : SymbolTable} (ds : List Declaration) :
    ∀ declared code, (∀ d ∈ ds, d.Writable) → declarationsCode symbols declared ds = .ok code →
      ∀ instr ∈ code, instr.isReadable = true := by
  induction ds with
  | nil =>
    intro declared code _ hcode
    cases hcode
    exact nofun
  | cons d ds ih =>
    intro declared code hds hcode
    rw [List.forall_mem_cons] at hds
    obtain ⟨c, hc, hcode⟩ := except_bind_eq_ok.mp hcode
    obtain ⟨more, hmore, hcode⟩ := except_bind_eq_ok.mp hcode
    cases hcode
    obtain ⟨value, hvalue, hc⟩ := except_bind_eq_ok.mp hc
    split at hc
    · cases hc
    · cases hc
      rw [List.forall_mem_append, List.forall_mem_append, List.forall_mem_singleton]
      exact ⟨⟨d.rhs.isReadable_of_mem_code value hds.1.rhs hvalue, rfl⟩,
        ih (declared + 1) more hds.2 hmore⟩

/-- Compiled code can be read back: its constants are numbers, and nothing is pushed from
the segment of constants. -/
theorem isReadable_of_compile {source : String} {code : Code} (h : compile source = .ok code) :
    ∀ instr ∈ code, instr.isReadable = true := by
  obtain ⟨program, table, hparse, hcode⟩ := compile_eq_ok_iff.mp h
  obtain ⟨ts, token, ds, rfl, -, hds⟩ := Grammar.exists_block_of_parse hparse
  obtain ⟨c, hc, hcode⟩ := except_bind_eq_ok.mp hcode
  split at hcode
  · cases hcode
    refine isReadable_of_mem_declarationsCode _ 0 code ?_ hc
    simpa [Program.declarations] using hds
  · cases hcode

theorem compileToText_eq_ok {source : String} {code : Code} (h : compile source = .ok code) :
    compileToText source = .ok code.text := by
  rw [compileToText, h]
  rfl

/-- The text of compiled code tells its instructions: two sources have the same text
exactly when they have the same code. The text of each is one line for each instruction,
every line ended by a newline, and its code can be read back from there. -/
theorem text_determines_code {source source' : String} {code code' : Code}
    (h : compile source = .ok code) (h' : compile source' = .ok code') :
    (compileToText source = compileToText source' ↔ code = code') ∧
    ∃ text, compileToText source = .ok text ∧ Code.ofText? text = some code ∧
      text.toList.splitOn '\n' = code.map (·.text.toList) ++ [[]] := by
  have hread := Code.ofText?_text (isReadable_of_compile h)
  have hread' := Code.ofText?_text (isReadable_of_compile h')
  rw [compileToText_eq_ok h, compileToText_eq_ok h']
  refine ⟨⟨fun heq => ?_, fun heq => by rw [heq]⟩, code.text, rfl, hread, ?_⟩
  · have htext : code.text = code'.text := Except.ok.inj heq
    rw [htext, hread'] at hread
    exact (Option.some.inj hread).symm
  · exact Code.splitOn_text (isReadable_of_compile h)

/-- Two spellings of a source, with other names, types and layout. Of a tensor literal
nothing but constants is written, the last of them with a sign. -/
theorem text_determines_code_respelled : ∃ code code',
    compile "let tensor t = \x7b0, -2.50\x7d; let int x = t * 1;" = .ok code ∧
      compile "let float a = \x7b.0, -2.5\x7d; # a\nlet float b = (a * 1.0);" = .ok code' ∧
      code.length = 9 ∧
      compileToText "let tensor t = \x7b0, -2.50\x7d; let int x = t * 1;" =
        compileToText "let float a = \x7b.0, -2.5\x7d; # a\nlet float b = (a * 1.0);" ∧
      code = code' := by
  let text := "push constant 2\npush constant 1\npush constant 1\npush constant -2.5\n" ++
    "pop local 0\npush local 0\npush constant 1\nfmult\npop local 1\n"
  obtain ⟨code, hcode, hwritten⟩ := exists_ok_of_any
    (p := fun code => code.length = 9 && code.text = text)
    (x := compile "let tensor t = \x7b0, -2.50\x7d; let int x = t * 1;") (by decide +kernel)
  obtain ⟨code', hcode', htext'⟩ := exists_ok_of_any (p := fun code => code.text = text)
    (x := compile "let float a = \x7b.0, -2.5\x7d; # a\nlet float b = (a * 1.0);")
    (by decide +kernel)
  simp only [Bool.and_eq_true, decide_eq_true_eq] at hwritten htext'
  have hsame : compileToText "let tensor t = \x7b0, -2.50\x7d; let int x = t * 1;" =
      compileToText "let float a = \x7b.0, -2.5\x7d; # a\nlet float b = (a * 1.0);" := by
    rw [compileToText_eq_ok hcode, compileToText_eq_ok hcode', hwritten.2, htext']
  exact ⟨code, code', hcode, hcode', hwritten.1, hsame,
    (text_determines_code hcode hcode').1.mp hsame⟩

end TensorLet
