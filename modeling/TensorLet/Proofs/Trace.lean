import TensorLet.Proofs.Parser.Trace
import TensorLet.Proofs.Token.Joining

/-!
# The text of a parse trace

The trace of a parse is a text of indented lines. Tags and tokens have no newline
in them and start with a bracket, so the lines and their indentation can be read
off the text.

* `Outline.AreLinesOf`: the lines of a text with their depths.
* `Outline.areLinesOf_text`: the lines of an outline are those of its text.
* `Outline.Nests.isPrintable`: no tag and no token breaks its line.
* `trace_exact`: what the text of a parse says, for every source.
-/

namespace TensorLet

/-! ## Lines of a text -/

namespace Outline

/-- An item that fills one line and starts behind its tabs. -/
def Item.IsPrintable (item : Item) : Prop :=
  item.text.toList.head? = some '<' ∧ '\n' ∉ item.text.toList

/-- The lines of a text are these, with one tab per level before each of them. -/
structure AreLinesOf (lines : List Line) (text : String) : Prop where
  split : text.toList.splitOn '\n' =
    lines.map (fun l => List.replicate l.depth '\t' ++ l.item.text.toList) ++ [[]]
  printable : ∀ l ∈ lines, l.item.IsPrintable

/-- A text is split at the newlines that end its lines. -/
theorem splitOn_text {o : Outline} (h : ∀ l ∈ o.lines.toList, '\n' ∉ l.item.text.toList) :
    o.text.toList.splitOn '\n' =
      o.lines.toList.map (fun l => List.replicate l.depth '\t' ++ l.item.text.toList) ++ [[]] := by
  unfold text
  generalize o.lines.toList = lines at h
  induction lines with
  | nil => rfl
  | cons l lines ih =>
    have hline : '\n' ∉ List.replicate l.depth '\t' ++ l.item.text.toList := by
      rw [List.mem_append, not_or]
      exact ⟨by simp, h l List.mem_cons_self⟩
    have hrest := ih fun l hl => h l (List.mem_cons_of_mem _ hl)
    have htext : (String.join ((l :: lines).map Line.text)).toList =
        (List.replicate l.depth '\t' ++ l.item.text.toList) ++
          '\n' :: (String.join (lines.map Line.text)).toList := by
      simp [Line.text]
    rw [htext, List.splitOn_append_cons_self_of_not_mem hline, hrest]
    rfl

/-- Every line ends with a newline and has no other. -/
theorem areLinesOf_text {o : Outline} (h : ∀ l ∈ o.lines.toList, l.item.IsPrintable) :
    AreLinesOf o.lines.toList o.text :=
  ⟨splitOn_text fun l hl => (h l hl).2, h⟩

theorem Item.eq_plain_of_tag? {item : Item} (h : item.tag? = none) : ∃ text, item = .plain text := by
  cases item with
  | plain text => exact ⟨text, rfl⟩
  | opening tag => cases h
  | closing tag => cases h

/-- A tag fills one line when its name does. -/
theorem Item.isPrintable_of_tag? {item : Item} {tag : String} (htag : item.tag? = some tag)
    (h : '\n' ∉ tag.toList) : item.IsPrintable := by
  cases item with
  | plain text => cases htag
  | opening tag =>
    cases htag
    simp [IsPrintable, text, h]
  | closing tag =>
    cases htag
    simp [IsPrintable, text, h]

end Outline

/-! ## Lines of tokens -/

/-- Escaping adds no newline. -/
theorem newline_not_mem_escape {text : String} (h : '\n' ∉ text.toList) :
    '\n' ∉ (escape text).toList := by
  have hentity : ∀ c, '\n' ∈ entity c → c = '\n' := by
    intro c hc
    unfold entity at hc
    split at hc <;> simp at hc
    exact hc.symm
  simp only [toList_escape, escapeChars, List.mem_flatMap, not_exists, not_and]
  intro c hc hnewline
  rw [hentity c hnewline] at hc
  exact h hc

/-- A piece ends before the line does. -/
theorem Piece.newline_not_mem_text {c : Char} (hblank : isBlank c = false) (cs : List Char) :
    '\n' ∉ (first c cs).text := by
  have hc : c ≠ '\n' := by
    rintro rfl
    exact absurd hblank (by decide)
  intro hmem
  rcases List.mem_cons.mp ((first_isPrefix c cs).subset hmem) with heq | hcs
  · exact hc heq.symm
  · obtain ⟨line, more, rfl, hline⟩ := List.eq_append_cons_of_mem hcs
    rw [first_newline] at hmem
    rcases List.mem_cons.mp ((first_isPrefix c line).subset hmem) with heq | hmem
    · exact hc heq.symm
    · exact hline hmem

theorem newline_not_mem_lexeme {source : String} {t : Token}
    (h : .ok t ∈ (Scan.ofText source).items) : '\n' ∉ t.lexeme.toList := by
  obtain ⟨c, more, start, hblank, -, hitem⟩ := exists_piece_of_mem_scanFrom h
  rw [(Piece.item_eq_ok hitem).2, String.toList_ofList]
  exact Piece.newline_not_mem_text hblank more

theorem TokenKind.newline_not_mem_tag? {k : TokenKind} {tag : String} (h : k.tag? = some tag) :
    '\n' ∉ tag.toList := by
  cases k <;> cases h <;> decide

/-- No token breaks its line. -/
theorem Token.isPrintable_traceText? {t : Token} {text : String} (h : t.traceText? = some text)
    (hlexeme : '\n' ∉ t.lexeme.toList) : (Outline.Item.plain text).IsPrintable := by
  obtain ⟨tag, htag, rfl⟩ := Option.map_eq_some_iff.mp h
  have hname := TokenKind.newline_not_mem_tag? htag
  have hescape := newline_not_mem_escape hlexeme
  simp [Outline.Item.IsPrintable, Outline.Item.text, hescape, hname]

/-- Productions and tokens are all that a parser writes, and no line of them is
broken. -/
theorem Outline.Nests.isPrintable {o : Outline} {tags : List String} {ts : List Token}
    (h : o.Nests Parse.productions tags) (htexts : o.texts.map some = ts.map Token.traceText?)
    (hts : ∀ t ∈ ts, '\n' ∉ t.lexeme.toList) : ∀ l ∈ o.lines.toList, l.item.IsPrintable := by
  intro l hl
  cases htag : l.item.tag? with
  | some tag =>
    have hname : ∀ tag ∈ Parse.productions, '\n' ∉ tag.toList := by decide
    exact Item.isPrintable_of_tag? htag (hname tag (h.named l hl tag htag))
  | none =>
    obtain ⟨text, hitem⟩ := Item.eq_plain_of_tag? htag
    have hmem : some text ∈ ts.map Token.traceText? := by
      rw [← htexts]
      refine List.mem_map_of_mem (List.mem_filterMap.mpr ⟨l, hl, ?_⟩)
      rw [hitem]
      rfl
    obtain ⟨t, ht, htext⟩ := List.mem_map.mp hmem
    rw [hitem]
    exact Token.isPrintable_traceText? htext (hts t ht)

/-! ## Traces of sources -/

/-- `lines` are the lines of `text`. They open and close productions, which are
nested and leave `tags` open, and the other lines are the tokens `ts` from the
front of the source. -/
structure IsTraceOf (source text : String) (lines : List Outline.Line) (tags : List String)
    (ts : List Token) : Prop where
  printed : Outline.AreLinesOf lines text
  named : ∀ l ∈ lines, ∀ tag ∈ l.item.tag?, tag ∈ Parse.productions
  nested : lines.foldlM Outline.Line.after? [] = some tags
  tokens : (lines.filterMap (·.item.plain?)).map some = ts.map Token.traceText?
  initial : ts.map .ok <+: (Scan.ofText source).items

/-- A parser on the first token of a source. -/
theorem Parser.ofText_eq_ok {source : String} {p : Parser} (h : Parser.ofText source = .ok p) :
    Cursor.ofText source = .ok p.cursor ∧ p.trace = .empty := by
  obtain ⟨c, hc, hp⟩ := except_bind_eq_ok.mp h
  cases hp
  exact ⟨hc, rfl⟩

/-- Only at the end of the source does a whole parse succeed. -/
theorem Parse.isEnd_of_unit {p p' : Parser} {program : Program}
    (h : Parse.unit p = .ok program p') : p'.cursor.current.isEnd = true := by
  obtain ⟨q, hq, rfl⟩ := tagged_eq_ok.mp h
  obtain ⟨b, q', -, hq⟩ := bind_eq_ok.mp hq
  rw [current_bind] at hq
  split at hq
  next hend =>
    cases hq
    exact hend
  next => cases hq

/-- What a parser has written since the front of a source. -/
theorem Parser.Writes.isTraceOf {source : String} {p p' : Parser} {ts : List Token}
    {stop : Option Error} {tags : List String} (hp : Parser.ofText source = .ok p)
    (h : p.Writes ts stop p') (hnests : p'.trace.Nests Parse.productions tags) :
    IsTraceOf source p'.trace.text p'.trace.lines.toList tags ts ∧
      (stop = none → p'.cursor.current.isEnd = true →
        (Scan.ofText source).items = ts.map .ok) := by
  obtain ⟨hc, htrace⟩ := Parser.ofText_eq_ok hp
  obtain ⟨hitems, hends⟩ := Cursor.ofText_items hc
  have htexts : p'.trace.texts.map some = ts.map Token.traceText? := by
    rw [h.texts, htrace]
    rfl
  -- Every token that was taken has a line, so none of them is the end.
  have hend : ∀ t ∈ ts, t.isEnd = false := by
    intro t ht
    have hmem : t.traceText? ∈ p'.trace.texts.map some := by
      rw [htexts]
      exact List.mem_map_of_mem ht
    obtain ⟨text, -, htext⟩ := List.mem_map.mp hmem
    exact Token.isEnd_of_traceText? htext.symm
  obtain ⟨rest, hrest, hstop⟩ := h.takes.items_eq hends hend
  rw [hitems] at hrest
  have hlexeme : ∀ t ∈ ts, '\n' ∉ t.lexeme.toList := by
    intro t ht
    refine newline_not_mem_lexeme (?_ : .ok t ∈ (Scan.ofText source).items)
    rw [hrest]
    exact List.mem_append_left _ (List.mem_map_of_mem ht)
  refine ⟨⟨?_, hnests.named, hnests.lines, htexts, rest, hrest.symm⟩, ?_⟩
  · exact Outline.areLinesOf_text (hnests.isPrintable htexts hlexeme)
  · intro hnone hcurrent
    rw [hrest, hstop hnone, Cursor.items, if_pos hcurrent, List.append_nil]

/-- What a parse writes to its trace is a text of nested lines. Each line is
indented by one tab per open tag, a closing line by one less, and closes the
innermost tag. The other lines are tokens from the front of the source, none left
out. An accepted source has all tags closed and all its tokens in the trace.
Otherwise they are the tokens that the parser was advanced over, also the one
before a lexical error. -/
theorem trace_exact (source : String) : ∃ lines tags ts,
    IsTraceOf source (parseTraced source).2.text lines tags ts ∧
    (∀ result, (parseTraced source).1 = .ok result → tags = [] ∧
      tokenize source = .ok (ts ++ [.endOfInput (byteLength source.toList)])) ∧
    ∀ e, (parseTraced source).1 = .error e →
      Parser.ofText source = .error e ∧ ts = [] ∨
      ∃ p p' stop, Parser.ofText source = .ok p ∧ p.unit = (.error e, p') ∧
        p.cursor.Takes ts stop p'.cursor ∧ ∀ e' ∈ stop, e' = e := by
  unfold parseTraced
  cases hp : Parser.ofText source with
  | error e =>
    refine ⟨[], [], [], ⟨⟨rfl, by simp⟩, by simp, rfl, rfl, List.nil_prefix⟩, ?_, ?_⟩
    · rintro _ ⟨⟩
    · rintro _ ⟨⟩
      exact .inl ⟨rfl, rfl⟩
  | ok p =>
    have hstart : p.trace.Nests Parse.productions [] := by
      rw [(Parser.ofText_eq_ok hp).2]
      exact .empty
    obtain ⟨hok, herror⟩ := Parse.unit_traces p [] hstart
    simp only [Parser.unit, Parser.run]
    cases hunit : Parse.unit p with
    | ok program p' =>
      obtain ⟨hnests, ts, hts⟩ := hok program p' hunit
      obtain ⟨htrace, hall⟩ := hts.isTraceOf hp hnests
      refine ⟨_, [], ts, htrace, fun _ _ => ⟨rfl, ?_⟩, ?_⟩
      · exact (tokenize_eq_ok_iff source ts).mpr (hall rfl (Parse.isEnd_of_unit hunit))
      · rintro _ ⟨⟩
    | error e p' =>
      obtain ⟨⟨opened, hnests⟩, ts, stop, hts, hstop⟩ := herror e p' hunit
      refine ⟨_, opened ++ [], ts, (hts.isTraceOf hp hnests).1, ?_, ?_⟩
      · rintro _ ⟨⟩
      · rintro _ ⟨⟩
        exact .inr ⟨p, p', stop, rfl, by rw [hunit], hts.takes, hstop⟩

end TensorLet
