import TensorLet.Proofs.Parser.Blame
import TensorLet.Proofs.Scope

/-!
# Which error is reported, and where

The scanner, the parser and the code generator each report errors at byte offsets of
the source. A parser that scans as it goes fails with the first lexical error of the
source or with an error before it, and every error points at the text that it talks
about.

* `parse_fails_before_lexical_error`: scanning as the parser goes and scanning all of
  a source first agree.
* `Fault.IsAbout`: the text that a fault talks about.
* `diagnostic_points_at_text`: the errors of all stages point at such a text.
-/

namespace TensorLet

/-! ## The order of errors -/

/-- The error of a number stands where the number does. -/
theorem Token.span_of_scalar {t : Token} {e : Error} (h : t.scalar = .error e) :
    e.span = t.span := by
  unfold Token.scalar at h
  split at h
  · cases h
    rfl
  · split at h
    · cases h
    · cases h
      rfl

/-- An error about some tokens starts no later than one of them. -/
theorem Culprit.exists_start_le {ts : List Token} {t : Token} {e : Error} (h : Culprit ts t e) :
    ∃ u ∈ ts ++ [t], e.span.start ≤ u.span.start := by
  have hlast : t ∈ ts ++ [t] := List.mem_append_right _ List.mem_cons_self
  cases h with
  | number hu _ hscalar =>
    exact ⟨_, List.mem_append_left _ hu, by rw [Token.span_of_scalar hscalar]⟩
  | unexpected expected => exact ⟨t, hlast, Nat.le_refl _⟩
  | unclosed _ _ _ => exact ⟨t, hlast, Nat.min_le_right _ _⟩
  | nesting hu _ => exact ⟨_, hu, Nat.le_refl _⟩
  | height hu _ => exact ⟨_, hu, Nat.le_refl _⟩

/-- The tokens in front of the first error start before it. -/
theorem start_lt_of_mem {source : String} {ts us : List Token} {t : Token} {e : Error}
    (hus : us.map .ok <+: pieces source) (hts : ts.map .ok ++ [.error e] <+: pieces source)
    (ht : t ∈ us) : t.span.start < e.span.start := by
  have hmem := (isPrefix_of_isPrefix_pieces hus hts).subset (List.mem_map_of_mem ht)
  have hpairwise := (pieces_pairwise source).sublist hts.sublist
  obtain ⟨hlt, hle⟩ := (List.pairwise_append.mp hpairwise).2.2 _ hmem _ List.mem_cons_self
  exact Nat.lt_of_lt_of_le hlt hle

/-- All that can be wrong with a number of a source is that it is too large. -/
theorem eq_outOfRange_of_scalar {source : String} {t : Token} {e : Error}
    (hmem : .ok t ∈ pieces source) (ht : t.isNumber = true) (h : t.scalar = .error e) :
    e = ⟨.outOfRange t.lexeme, t.span⟩ := by
  obtain ⟨d, hd⟩ := exists_decimal_of_isNumber hmem ht
  unfold Token.scalar at h
  rw [hd] at h
  simp only at h
  split at h
  · cases h
  · cases h
    rfl

/-- A source with a lexical error is refused. -/
theorem exists_error_of_tokenize {source : String} {e : Error} (h : tokenize source = .error e) :
    ∃ e', parse source = .error e' := by
  cases hparse : parse source with
  | error e' => exact ⟨e', rfl⟩
  | ok result =>
    obtain ⟨ts, htokens, -⟩ := Grammar.CompilationUnit.of_parse hparse
    rw [htokens] at h
    cases h

/-- A source is refused for a lexical reason where its first lexical error is, or
where a number is out of range. -/
theorem lexical_of_parse {source : String} {e : Error} (h : parse source = .error e)
    (hkind : e.fault.kind = .lexical) :
    (∃ ts : List Token, ts.map .ok ++ [.error e] <+: pieces source) ∨
      ∃ t, .ok t ∈ pieces source ∧ t.isNumber = true ∧ e = ⟨.outOfRange t.lexeme, t.span⟩ := by
  rcases culprit_of_parse h with hfirst | ⟨ts, t, hts, hculprit⟩
  · exact .inl hfirst
  · cases hculprit with
    | @number u _ hu hnumber hscalar =>
      have hmem := hts.subset (List.mem_map_of_mem (List.mem_append_left [t] hu))
      exact .inr ⟨u, hmem, hnumber, eq_outOfRange_of_scalar hmem hnumber hscalar⟩
    | unexpected | unclosed | nesting | height => cases hkind

/-- Scanning as the parser goes and scanning all of a source first agree. A source
with a lexical error is refused, and what is reported is its first lexical error or
an error that starts before it. A source without one is refused for a lexical reason
only where a number is out of range. That a number cannot be read is never
reported. -/
theorem parse_fails_before_lexical_error (source : String) :
    (∀ e, tokenize source = .error e → ∃ e', parse source = .error e' ∧
      (e' = e ∨ e' ≠ e ∧ e'.diagnostic.span.start < e.diagnostic.span.start)) ∧
    (∀ ts, tokenize source = .ok ts → ∀ e, parse source = .error e →
      e.diagnostic.kind = .lexical →
        ∃ t ∈ ts, t.isNumber = true ∧ e = ⟨.outOfRange t.lexeme, t.span⟩) ∧
    ∀ e, parse source = .error e → ∀ lexeme, e.fault ≠ .malformedNumber lexeme := by
  refine ⟨fun e htokenize => ?_, fun ts htokenize e hparse hkind => ?_, fun e hparse lexeme => ?_⟩
  · obtain ⟨e', hparse⟩ := exists_error_of_tokenize htokenize
    obtain ⟨ts, hts⟩ := (tokenize_eq_error_iff source e).mp htokenize
    refine ⟨e', hparse, ?_⟩
    rcases culprit_of_parse hparse with ⟨us, hus⟩ | ⟨us, t, hus, hculprit⟩
    · exact .inl (first_error_unique hus hts)
    · obtain ⟨u, hu, hle⟩ := hculprit.exists_start_le
      have hlt := Nat.lt_of_le_of_lt hle (start_lt_of_mem hus hts hu)
      refine .inr ⟨?_, hlt⟩
      rintro rfl
      exact Nat.lt_irrefl _ hlt
  · rcases lexical_of_parse hparse hkind with ⟨us, hus⟩ | ⟨t, hmem, ht⟩
    · have hmem := hus.subset (List.mem_append_right _ List.mem_cons_self)
      rw [pieces_eq_of_tokenize htokenize] at hmem
      simp at hmem
    · rw [pieces_eq_of_tokenize htokenize] at hmem
      exact ⟨t, by simpa using hmem, ht⟩
  · intro hfault
    have hkind : e.fault.kind = .lexical := by
      rw [hfault]
      rfl
    rcases lexical_of_parse hparse hkind with ⟨us, hus⟩ | ⟨t, -, -, rfl⟩
    · have hmem := hus.subset (List.mem_append_right _ List.mem_cons_self)
      obtain ⟨_, text, _, -, -, hspelling⟩ := exists_place_of_error hmem
      rw [hfault] at hspelling
      cases hspelling
    · cases hfault

/-- A parenthesis out of place is reported before a character that starts no token. -/
theorem parse_fails_before_lexical_error_parenthesis : ∃ e e',
    tokenize "let int a = ); $" = .error e ∧ parse "let int a = ); $" = .error e' ∧
      e'.diagnostic.span.start < e.diagnostic.span.start := by
  obtain ⟨e, he, hlexical⟩ := exists_error_of_test (x := tokenize "let int a = ); $")
    (p := fun e => e.fault = .unexpectedCharacter '$') (by decide +kernel)
  obtain ⟨e', he', hgrammatical⟩ := exists_error_of_test (x := parse "let int a = ); $")
    (p := fun e => e.fault ≠ .unexpectedCharacter '$') (by decide +kernel)
  obtain ⟨e'', he'', hbefore⟩ := (parse_fails_before_lexical_error _).1 e he
  rw [he'] at he''
  cases he''
  refine ⟨e, e', he, he', ?_⟩
  rcases hbefore with rfl | ⟨-, hbefore⟩
  · exact absurd (of_decide_eq_true hlexical) (of_decide_eq_true hgrammatical)
  · exact hbefore

/-! ## The text of an error -/

/-- The text is that of the token. At the end of a source it is empty, and nothing is
behind it. -/
def Token.IsText (t : Token) (text after : List Char) : Prop :=
  if t.isEnd then text = [] ∧ after = [] else text = t.lexeme.toList

/-- The fault talks about `text`, which has `after` behind it in the source. No fault
of a source is a number that cannot be read, or a symbol table that does not fit. -/
def Fault.IsAbout (text after : List Char) : Fault → Prop
  | .unexpectedCharacter c => text = [c] ∧ startsToken c = false
  | .runsInto number c => text = number.toList ++ [c] ∧
      LongestNumeric number.toList (text ++ after) ∧ (∃ d ∈ number.toList, d.isDigit = true) ∧
      isWordStart c = true
  | .outOfRange lexeme => text = lexeme.toList
  | .unexpected _ found => found.IsText text after
  | .unclosedTensor found =>
      ∃ inside last, text = '\x7b' :: (inside ++ last) ∧ found.IsText last after
  | .nestingTooDeep => ∃ c ∈ nestingSymbols, text = [c]
  | .expressionTooDeep => ∃ c ∈ growingSymbols, text = [c]
  | .noInstruction operator => text = [operator]
  | .undeclared name => text = name.toList
  | .malformedNumber _ => False
  | .unrecordedUse _ _ => False
  | .mismatchedDeclaration _ _ => False
  | .unrecordedDeclaration _ => False
  | .declarationCount _ _ => False

/-- A literal of a source that is not closed: the brace that opens it, the tokens
inside, and the one that does not close it. -/
def Unclosed (source : String) (l : Token) (inside : List Token) (found : Token) : Prop :=
  ∃ before : List Token, (before ++ l :: (inside ++ [found])).map .ok <+: pieces source ∧
    l.isSymbol '\x7b' = true ∧ Matched inside

/-- The error points at a text of the source that it talks about, and at the whole of
a literal that is not closed. -/
structure Error.PointsInto (source : String) (e : Error) : Prop where
  text : ∃ before text after, source.toList = before ++ (text ++ after) ∧
    e.span = ⟨byteLength before, byteLength before + byteLength text⟩ ∧ e.fault.IsAbout text after
  literal : ∀ found, e.fault = .unclosedTensor found →
    ∃ l inside, Unclosed source l inside found ∧ e.span = ⟨l.span.start, found.span.stop⟩

section

variable {source : String}

/-- A lexical error points at its piece. -/
theorem pointsInto_of_error {e : Error} (h : .error e ∈ pieces source) : e.PointsInto source := by
  obtain ⟨before, text, after, htext, hspan, hspelling⟩ := exists_place_of_error h
  obtain ⟨fault, span⟩ := e
  generalize hcs : text ++ after = cs at hspelling
  cases hspelling with
  | character hc =>
    exact ⟨⟨before, _, after, htext, hspan, rfl, hc⟩, fun _ => Fault.noConfusion⟩
  | @runsInto run _ hlongest hdigit hc =>
    refine ⟨⟨before, _, after, htext, hspan, ?_⟩, fun _ => Fault.noConfusion⟩
    rw [Fault.IsAbout, String.toList_ofList, hcs]
    exact ⟨rfl, hlongest, hdigit, hc⟩

theorem Token.StandsIn.isText {t : Token} {before after : List Char}
    (h : t.StandsIn source before after) : t.IsText t.lexeme.toList after := by
  unfold Token.IsText
  split
  next hend => exact h.isEnd hend
  next => rfl

/-- An error at a token points at the text of the token. -/
theorem pointsInto_of_token {t : Token} {fault : Fault} (h : .ok t ∈ pieces source)
    (habout : ∀ after, t.IsText t.lexeme.toList after → fault.IsAbout t.lexeme.toList after)
    (hfault : ∀ found, fault ≠ .unclosedTensor found) :
    Error.PointsInto source ⟨fault, t.span⟩ := by
  obtain ⟨before, after, hstands⟩ := exists_standsIn h
  refine ⟨⟨before, _, after, hstands.text, hstands.span, habout after hstands.isText⟩, ?_⟩
  exact fun found hfound => absurd hfound (hfault found)

theorem exists_symbol_of_isAnySymbol {t : Token} {symbols : List Char} (h : .ok t ∈ pieces source)
    (ht : t.isAnySymbol symbols = true) : ∃ c ∈ symbols, t.lexeme.toList = [c] := by
  obtain ⟨c, hc, hsymbol⟩ := List.any_eq_true.mp ht
  exact ⟨c, hc, toList_lexeme_of_isSymbol h hsymbol⟩

/-- Of two texts from the front of a source, the one with fewer bytes is at the front
of the other. -/
theorem isPrefix_of_byteLength_le {cs ds es : List Char} (hcs : cs <+: es) (hds : ds <+: es)
    (h : byteLength cs ≤ byteLength ds) : cs <+: ds := by
  rcases List.prefix_or_prefix_of_prefix hcs hds with hle | ⟨rest, rfl⟩
  · exact hle
  · cases rest with
    | nil => exact ⟨[], by simp⟩
    | cons c rest =>
      have hpos := byteLength_pos (List.cons_ne_nil c rest)
      rw [byteLength_append] at h
      omega

/-- From a brace up to a token behind it runs a text that starts with the one and
ends with the other. -/
theorem exists_text_of_precedes {l t : Token} (hl : .ok l ∈ pieces source)
    (ht : .ok t ∈ pieces source) (hbrace : l.isSymbol '\x7b' = true)
    (hprecedes : l.span.Precedes t.span) : ∃ before inside after,
      source.toList = before ++ ('\x7b' :: (inside ++ t.lexeme.toList) ++ after) ∧
      l.span.start = byteLength before ∧ l.span.stop = byteLength before + 1 ∧
      t.span.stop = byteLength before + byteLength ('\x7b' :: (inside ++ t.lexeme.toList)) ∧
      t.IsText t.lexeme.toList after := by
  obtain ⟨before, after, hstands⟩ := exists_standsIn hl
  obtain ⟨before', after', hstands'⟩ := exists_standsIn ht
  have htext := hstands.text
  have hspan := hstands.span
  rw [toList_lexeme_of_isSymbol hl hbrace] at htext hspan
  have hbefore : before ++ ['\x7b'] <+: before' := by
    refine isPrefix_of_byteLength_le ⟨after, ?_⟩ ⟨_, hstands'.text.symm⟩ ?_
    · rw [htext, List.append_assoc]
    · have hle := hprecedes.2
      rw [hspan, hstands'.span] at hle
      rw [byteLength_append]
      exact hle
  obtain ⟨inside, rfl⟩ := hbefore
  refine ⟨before, inside, after', ?_, ?_, ?_, ?_, hstands'.isText⟩
  · rw [hstands'.text]
    simp
  · rw [hspan]
  · rw [hspan]
    rfl
  · rw [hstands'.span]
    simp only [byteLength_append, byteLength_cons, byteLength_nil]
    omega

/-- The error of a literal that is not closed points at the literal. -/
theorem pointsInto_of_unclosed {l t : Token} {inside : List Token}
    (h : Unclosed source l inside t) :
    Error.PointsInto source ⟨.unclosedTensor t, l.span.merge t.span⟩ := by
  obtain ⟨front, hpieces, hbrace, hmatched⟩ := h
  have hprecedes : l.span.Precedes t.span := by
    have hpairwise := (pieces_pairwise source).sublist hpieces.sublist
    rw [List.map_append, List.map_cons] at hpairwise
    have hbehind := (List.pairwise_cons.mp (List.pairwise_append.mp hpairwise).2.1).1
    exact hbehind (.ok t) (List.mem_map_of_mem (by simp))
  obtain ⟨before, chars, after, htext, hstart, hstop, hend, hfound⟩ := exists_text_of_precedes
    (hpieces.subset (List.mem_map_of_mem (by simp)))
    (hpieces.subset (List.mem_map_of_mem (by simp))) hbrace hprecedes
  have hmerge : l.span.merge t.span = ⟨l.span.start, t.span.stop⟩ := by
    have hle := hprecedes.2
    rw [Span.merge]
    rw [byteLength_cons] at hend
    have := Char.utf8Size_pos '\x7b'
    congr 1 <;> omega
  refine ⟨⟨before, _, after, htext, ?_, chars, _, rfl, hfound⟩, ?_⟩
  · show l.span.merge t.span = _
    rw [hmerge, hstart, hend]
  · rintro found ⟨⟩
    exact ⟨l, inside, ⟨front, hpieces, hbrace, hmatched⟩, hmerge⟩

/-- The errors of a parser point at texts. -/
theorem Culprit.pointsInto {ts : List Token} {t : Token} {e : Error} (h : Culprit ts t e)
    (hpieces : (ts ++ [t]).map .ok <+: pieces source) : e.PointsInto source := by
  have hmem : ∀ u ∈ ts ++ [t], .ok u ∈ pieces source :=
    fun u hu => hpieces.subset (List.mem_map_of_mem hu)
  cases h with
  | @number u _ hu hnumber hscalar =>
    have hu := hmem u (List.mem_append_left _ hu)
    rw [eq_outOfRange_of_scalar hu hnumber hscalar]
    exact pointsInto_of_token hu (fun _ _ => rfl) fun _ => Fault.noConfusion
  | unexpected expected =>
    have ht := hmem t (List.mem_append_right _ List.mem_cons_self)
    exact pointsInto_of_token ht (fun _ htext => htext) fun _ => Fault.noConfusion
  | @unclosed l before us hts hbrace hmatched =>
    rw [hts, List.append_assoc, List.cons_append] at hpieces
    exact pointsInto_of_unclosed ⟨before, hpieces, hbrace, hmatched⟩
  | nesting hu hsymbol =>
    have hc := exists_symbol_of_isAnySymbol (hmem _ hu) hsymbol
    exact pointsInto_of_token (hmem _ hu) (fun _ _ => hc) fun _ => Fault.noConfusion
  | height hu hsymbol =>
    have hc := exists_symbol_of_isAnySymbol (hmem _ hu) hsymbol
    exact pointsInto_of_token (hmem _ hu) (fun _ _ => hc) fun _ => Fault.noConfusion

/-- The error of a node points at its token. -/
theorem pointsInto_of_offense {ts : List Token} {node : Expr} {names : List String} {e : Error}
    (hts : ∀ t ∈ ts, .ok t ∈ pieces source) (hread : node.ReadFrom ts)
    (h : node.offense? names = some e) : e.PointsInto source := by
  obtain ⟨htoken, hnode⟩ := hread
  have hmem := hts _ htoken
  unfold Expr.offense? at h
  split at h
  next op operand token =>
    split at h
    next => cases h
    next =>
      cases h
      have hsymbol := toList_lexeme_of_isSymbol hmem hnode
      exact pointsInto_of_token hmem (fun _ _ => hsymbol) fun _ => Fault.noConfusion
  next n resolved token =>
    split at h
    next => cases h
    next =>
      cases h
      have hname := congrArg String.toList hnode.2
      exact pointsInto_of_token hmem (fun _ _ => hname) fun _ => Fault.noConfusion
  next => cases h

/-- The errors of code point at texts. -/
theorem pointsInto_of_code {program : Program} {table : SymbolTable} {e : Error}
    (hparse : parse source = .ok (program, table)) (h : program.code table = .error e) :
    e.PointsInto source := by
  have hfirst : program.firstOffense? = some e := by
    rw [← failure?_code_of_parse hparse, failure?_eq_some_iff]
    exact h
  obtain ⟨⟨d, n⟩, hd, hoffense⟩ := List.exists_of_findSome?_eq_some hfirst
  obtain ⟨node, hnode, hoffense⟩ := List.exists_of_findSome?_eq_some hoffense
  obtain ⟨ts, htokens, -, hunit, -⟩ := Grammar.CompilationUnit.of_parse hparse
  obtain ⟨names, us, hsub, hrhs⟩ :=
    hunit.statements.exists_derives d (List.fst_mem_of_mem_zipIdx hd)
  refine pointsInto_of_offense (fun t ht => ?_) ((hrhs.nodes node hnode).1.mono hsub) hoffense
  rw [pieces_eq_of_tokenize htokens]
  exact List.mem_map_of_mem (List.mem_append_left _ ht)

/-- The errors of all stages point at texts. -/
theorem pointsInto_of_compile {e : Error} (h : compile source = .error e) :
    e.PointsInto source := by
  rcases except_bind_eq_error.mp h with hparse | ⟨⟨program, table⟩, hparse, hcode⟩
  · rcases culprit_of_parse hparse with ⟨ts, hts⟩ | ⟨ts, t, hts, hculprit⟩
    · exact pointsInto_of_error (hts.subset (List.mem_append_right _ List.mem_cons_self))
    · exact hculprit.pointsInto hts
  · exact pointsInto_of_code hparse hcode

end

/-- Every diagnostic of a source points at the text it talks about: it stays inside
the source, starts and stops between characters, and the text between is what its
fault is about. A literal that is not closed is shown from its own brace on, and up
to the token found in place of the closing one. -/
theorem diagnostic_points_at_text {source : String} {e : Error} (h : compile source = .error e) :
    e.diagnostic.span.start + e.diagnostic.span.length ≤ byteLength source.toList ∧
    (∃ before text after, source.toList = before ++ (text ++ after) ∧
      e.diagnostic.span = ⟨byteLength before, byteLength before + byteLength text⟩ ∧
      e.diagnostic.span.slice? source.toList = some text ∧ e.fault.IsAbout text after) ∧
    ∀ found, e.fault = .unclosedTensor found → ∃ l inside, Unclosed source l inside found ∧
      e.diagnostic.span = ⟨l.span.start, found.span.stop⟩ := by
  obtain ⟨⟨before, text, after, htext, hspan, habout⟩, hliteral⟩ := pointsInto_of_compile h
  have hdiagnostic : e.diagnostic.span =
      ⟨byteLength before, byteLength before + byteLength text⟩ := hspan
  refine ⟨?_, ⟨before, text, after, htext, hspan, ?_, habout⟩, hliteral⟩
  · simp only [hdiagnostic, htext, Span.length, byteLength_append]
    omega
  · rw [hdiagnostic, htext]
    exact slice?_append before text after

/-- The outer literal is not closed, behind characters of more than one byte. -/
theorem diagnostic_points_at_text_unclosed : ∃ e l inside,
    compile "# é\nlet tensor t = \x7b1, \x7b2\x7d; # ü" = .error e ∧
    e.diagnostic.span = ⟨l.span.start, 28⟩ ∧
    Unclosed "# é\nlet tensor t = \x7b1, \x7b2\x7d; # ü" l inside ⟨";", .symbol, ⟨27, 28⟩⟩ := by
  obtain ⟨e, he, hfault⟩ := exists_error_of_test
    (x := compile "# é\nlet tensor t = \x7b1, \x7b2\x7d; # ü")
    (p := fun e => e.fault = .unclosedTensor ⟨";", .symbol, ⟨27, 28⟩⟩) (by decide +kernel)
  obtain ⟨l, inside, hunclosed, hspan⟩ :=
    (diagnostic_points_at_text he).2.2 _ (of_decide_eq_true hfault)
  exact ⟨e, l, inside, he, hspan, hunclosed⟩

end TensorLet
