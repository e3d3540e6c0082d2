import TensorLet.Token

/-!
# Reading escaped text

Entities have no character that ends them, so each runs straight into what follows:
`&lt` before a `t` is `&ltt`. They can still be told apart. Every `&` of escaped text
starts an entity, and no entity is the beginning of another one.

* `unescape?`: a reader that takes entities and characters other than markup.
* `unescape?_eq_some_iff`: it accepts what escaping writes and nothing else.
* `Token.eq_of_traceText?`: the line of a token tells its class and its lexeme.
* `escape_is_reversible`: what escaping keeps and what it leaves out.
-/

namespace TensorLet

/-! ## The reader -/

/-- The characters that escaped ones stand for. A `&` has to start one of the entities,
and other markup does not stand in escaped text. -/
def unescapeChars? : List Char → Option (List Char)
  | [] => some []
  | '&' :: 'l' :: 't' :: cs => (unescapeChars? cs).map ('<' :: ·)
  | '&' :: 'g' :: 't' :: cs => (unescapeChars? cs).map ('>' :: ·)
  | '&' :: 'q' :: 'u' :: 'o' :: 't' :: cs => (unescapeChars? cs).map ('"' :: ·)
  | '&' :: 'a' :: 'm' :: 'p' :: cs => (unescapeChars? cs).map ('&' :: ·)
  | c :: cs => if isMarkup c then none else (unescapeChars? cs).map (c :: ·)

/-- The text that an escaped one stands for. -/
def unescape? (text : String) : Option String := (unescapeChars? text.toList).map String.ofList

theorem unescapeChars?_cons {c : Char} (h : isMarkup c = false) (cs : List Char) :
    unescapeChars? (c :: cs) = (unescapeChars? cs).map (c :: ·) := by
  have hc : c ≠ '&' := by
    rintro rfl
    exact absurd h (by decide)
  rw [unescapeChars?.eq_def]
  split <;> simp_all

/-- What a character is written as is read as this character, whatever follows. -/
theorem unescapeChars?_entity_append (c : Char) (cs : List Char) :
    unescapeChars? (entity c ++ cs) = (unescapeChars? cs).map (c :: ·) := by
  by_cases h : isMarkup c = true
  · simp only [isMarkup, Bool.or_eq_true, decide_eq_true_eq] at h
    rcases h with ((rfl | rfl) | rfl) | rfl
    · rfl
    · rfl
    · rfl
    · rfl
  · rw [entity_of_isMarkup_eq_false (by simpa using h), List.singleton_append]
    exact unescapeChars?_cons (by simpa using h) cs

theorem unescapeChars?_escapeChars (cs : List Char) :
    unescapeChars? (escapeChars cs) = some cs := by
  induction cs with
  | nil => rfl
  | cons c cs ih => rw [escapeChars_cons, unescapeChars?_entity_append, ih, Option.map_some]

/-- Whatever is read has been written. -/
theorem eq_escapeChars_of_unescapeChars? {cs ds : List Char} (h : unescapeChars? cs = some ds) :
    cs = escapeChars ds := by
  fun_induction unescapeChars? cs generalizing ds with
  | case1 =>
    cases h
    rfl
  | case2 cs ih | case3 cs ih | case4 cs ih | case5 cs ih =>
    obtain ⟨rest, hrest, rfl⟩ := Option.map_eq_some_iff.mp h
    rw [ih hrest]
    rfl
  | case6 c cs => cases h
  | case7 c cs _ _ _ _ hc ih =>
    obtain ⟨rest, hrest, rfl⟩ := Option.map_eq_some_iff.mp h
    rw [ih hrest, escapeChars_cons, entity_of_isMarkup_eq_false (by simpa using hc)]
    rfl

/-- The reader accepts escaped texts and no others. -/
theorem unescape?_eq_some_iff {text original : String} :
    unescape? text = some original ↔ text = escape original := by
  unfold unescape?
  rw [← String.toList_inj, toList_escape]
  constructor
  · intro h
    obtain ⟨cs, hcs, rfl⟩ := Option.map_eq_some_iff.mp h
    rw [eq_escapeChars_of_unescapeChars? hcs, String.toList_ofList]
  · intro h
    rw [h, unescapeChars?_escapeChars, Option.map_some, String.ofList_toList]

theorem escape_inj {text other : String} (h : escape text = escape other) : text = other := by
  have hread : unescape? (escape text) = some other := unescape?_eq_some_iff.mpr h
  rw [unescape?_eq_some_iff.mpr rfl] at hread
  exact Option.some.inj hread

/-! ## What is written -/

theorem escape_append (text more : String) :
    escape (text ++ more) = escape text ++ escape more := by
  rw [← String.toList_inj]
  simp [toList_escape, escapeChars_append]

/-- Only `&` is left of the markup. -/
theorem entity_eq_amp_of_isMarkup {c d : Char} (h : d ∈ entity c) (hd : isMarkup d = true) :
    d = '&' := by
  by_cases hc : isMarkup c = true
  · have hmarkup : (entity c).filter isMarkup = ['&'] := by
      simp only [isMarkup, Bool.or_eq_true, decide_eq_true_eq] at hc
      rcases hc with ((rfl | rfl) | rfl) | rfl
      · rfl
      · rfl
      · rfl
      · rfl
    have hmem := List.mem_filter.mpr ⟨h, hd⟩
    rw [hmarkup] at hmem
    exact List.mem_singleton.mp hmem
  · rw [entity_of_isMarkup_eq_false (by simpa using hc), List.mem_singleton] at h
    exact absurd (h ▸ hd) hc

theorem eq_amp_of_mem_escape {text : String} {c : Char} (h : c ∈ (escape text).toList)
    (hc : isMarkup c = true) : c = '&' := by
  rw [toList_escape, escapeChars, List.mem_flatMap] at h
  obtain ⟨d, -, hd⟩ := h
  exact entity_eq_amp_of_isMarkup hd hc

/-! ## Lines of tokens -/

/-- Tags have no bracket in them. -/
theorem TokenKind.bracket_not_mem_tag? {k : TokenKind} {tag : String} (h : k.tag? = some tag) :
    '>' ∉ tag.toList := by
  cases k <;> cases h <;> decide

theorem TokenKind.tag?_inj {k k' : TokenKind} {tag : String} (h : k.tag? = some tag)
    (h' : k'.tag? = some tag) : k = k' := by
  cases k <;> cases h <;> cases k' <;> first | rfl | exact absurd h' (by decide)

/-- The line of a token up to the first closing bracket. -/
theorem TokenKind.takeWhile_line {k : TokenKind} {tag : String} (h : k.tag? = some tag)
    (rest : String) :
    ("<" ++ tag ++ "> " ++ rest).toList.takeWhile (· != '>') = '<' :: tag.toList := by
  have hsplit : ("<" ++ tag ++ "> " ++ rest).toList =
      ('<' :: tag.toList) ++ '>' :: (' ' :: rest.toList) := by simp
  have hline : ∀ c ∈ '<' :: tag.toList, (c != '>') = true := by
    intro c hc
    rw [bne_iff_ne]
    rintro rfl
    rcases List.mem_cons.mp hc with heq | hc
    · exact absurd heq (by decide)
    · exact TokenKind.bracket_not_mem_tag? h hc
  rw [hsplit, List.takeWhile_append_of_pos hline, List.takeWhile_cons_of_neg (by simp),
    List.append_nil]

/-- The line of a token tells its class and its lexeme, also where the lexeme would not
be scanned as this class. -/
theorem Token.eq_of_traceText? {t t' : Token} {line : String} (h : t.traceText? = some line)
    (h' : t'.traceText? = some line) : t.kind = t'.kind ∧ t.lexeme = t'.lexeme := by
  obtain ⟨tag, htag, hline⟩ := Option.map_eq_some_iff.mp h
  obtain ⟨tag', htag', hline'⟩ := Option.map_eq_some_iff.mp h'
  simp only [String.append_assoc] at hline hline'
  have htags : tag = tag' := by
    have hfirst := TokenKind.takeWhile_line htag (escape t.lexeme ++ (" </" ++ (tag ++ ">")))
    have hfirst' := TokenKind.takeWhile_line htag' (escape t'.lexeme ++ (" </" ++ (tag' ++ ">")))
    simp only [String.append_assoc] at hfirst hfirst'
    rw [hline] at hfirst
    rw [hline', hfirst] at hfirst'
    exact String.toList_inj.mp (List.cons.inj hfirst').2
  subst htags
  refine ⟨TokenKind.tag?_inj htag htag', escape_inj ?_⟩
  rw [← hline'] at hline
  simpa only [String.append_right_inj, String.append_left_inj] using hline

/-- Escaping can be undone. A reader takes escaped text back to the text it was written
from, and accepts no other text. No markup but `&` is left in it. Text without markup is
kept as it is, which is what writing its characters one by one gives, and texts can be
escaped part by part. So the line of a token in a trace tells what the token is, whatever
its lexeme. -/
theorem escape_is_reversible :
    (∀ text original : String, unescape? text = some original ↔ text = escape original) ∧
    (∀ text : String, ∀ c ∈ (escape text).toList, c ≠ '<' ∧ c ≠ '>' ∧ c ≠ '"') ∧
    (∀ text : String, (text.toList.any isMarkup = false → escape text = text) ∧
      escape text = String.ofList (escapeChars text.toList)) ∧
    (∀ text more : String, escape (text ++ more) = escape text ++ escape more) ∧
    ∀ (t t' : Token) (line : String), t.traceText? = some line → t'.traceText? = some line →
      t.kind = t'.kind ∧ t.lexeme = t'.lexeme := by
  refine ⟨fun _ _ => unescape?_eq_some_iff, ?_, ?_, escape_append, ?_⟩
  · intro text c hc
    refine ⟨?_, ?_, ?_⟩ <;> rintro rfl <;> exact absurd (eq_amp_of_mem_escape hc rfl) (by decide)
  · intro text
    have hchars : escape text = String.ofList (escapeChars text.toList) := by
      rw [← toList_escape, String.ofList_toList]
    refine ⟨fun h => ?_, hchars⟩
    rw [hchars, escapeChars_of_any_isMarkup_eq_false h, String.ofList_toList]
  · exact fun t t' line h h' => Token.eq_of_traceText? h h'

/-- A lexeme that looks like the end of its own line, at two places of a source. -/
theorem escape_is_reversible_closing_tag :
    let t : Token := ⟨"&lt </symbol>", .symbol, ⟨0, 13⟩⟩
    let t' : Token := ⟨"&lt </symbol>", .symbol, ⟨20, 33⟩⟩
    t.traceText? = some "<symbol> &amplt &lt/symbol&gt </symbol>" ∧
      t'.traceText? = some "<symbol> &amplt &lt/symbol&gt </symbol>" ∧
      unescape? "&amplt &lt/symbol&gt" = some "&lt </symbol>" ∧
      t.kind = t'.kind ∧ t.lexeme = t'.lexeme := by
  intro t t'
  have hline : t.traceText? = some "<symbol> &amplt &lt/symbol&gt </symbol>" := by decide +kernel
  have hline' : t'.traceText? = some "<symbol> &amplt &lt/symbol&gt </symbol>" := by decide +kernel
  have hread := (escape_is_reversible.1 "&amplt &lt/symbol&gt" "&lt </symbol>").mpr
    (by decide +kernel)
  exact ⟨hline, hline', hread, escape_is_reversible.2.2.2.2 t t' _ hline hline'⟩

end TensorLet
