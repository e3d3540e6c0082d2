import TensorLet.Proofs.CodeText
import TensorLet.Proofs.Command.Outcomes
import TensorLet.Proofs.Concatenation
import TensorLet.Proofs.Token.Places

/-!
# Sources that compiling keeps

Without a file for it, code goes next to the source: to the path of the source with the
extension `ir`. The source is read before the code is written, and nothing checks that
the two are different files. They are one file when the source has this extension itself,
or when a link leads from the one path to the file of the other. Then the code takes the
place of its source.

* `Path.withExtension_eq_self_iff`: the paths that keep their extension.
* `Directory.withExtension_eq_of_leadsTo?`: only these lead to the file that they are
  taken from, where there are no links.
* `eq_empty_of_compileToText_self`: no source but the empty one is its own code.
* `FileSystem.read_run_compile_ne_iff`: when compiling changes what its source reads.
* `compile_changes_source_iff`: the same for command lines, and in directories.
-/

namespace TensorLet

/-! ## Extensions -/

namespace Path

/-- True of a path whose last component ends with a point and the extension, behind at
least one character. -/
def hasExtension (path extension : String) : Bool :=
  ('.' :: extension.toList).isSuffixOf (lastPart path.toList) &&
    lastPart path.toList ≠ '.' :: extension.toList

theorem hasExtension_iff {path extension : String} : hasExtension path extension = true ↔
    ∃ before, before ≠ [] ∧ lastPart path.toList = before ++ '.' :: extension.toList := by
  rw [hasExtension, Bool.and_eq_true, List.isSuffixOf_iff_suffix, decide_eq_true_eq]
  constructor
  · rintro ⟨⟨before, hbefore⟩, hne⟩
    refine ⟨before, ?_, hbefore.symm⟩
    rintro rfl
    exact hne hbefore.symm
  · rintro ⟨before, hne, hbefore⟩
    rw [hbefore]
    exact ⟨List.suffix_append _ _, fun heq => hne (List.append_left_eq_self.mp heq)⟩

theorem bne_of_mem_reverse {c : Char} {cs : List Char} (h : c ∉ cs) :
    ∀ x ∈ cs.reverse, (x != c) = true := by
  intro x hx
  rw [bne_iff_ne]
  rintro rfl
  exact h (List.mem_reverse.mp hx)

theorem parentPart_append_lastPart (cs : List Char) : parentPart cs ++ lastPart cs = cs := by
  rw [parentPart, lastPart, ← List.reverse_append, List.takeWhile_append_dropWhile,
    List.reverse_reverse]

theorem slash_not_mem_lastPart (cs : List Char) : '/' ∉ lastPart cs := by
  rw [lastPart, List.mem_reverse]
  exact fun h => absurd (List.mem_takeWhile_imp h) (by decide)

/-- What stands before the last component is nothing, or it ends with a slash. -/
theorem parentPart_cases (cs : List Char) :
    parentPart cs = [] ∨ ∃ before, parentPart cs = before ++ ['/'] := by
  have hhead := List.head?_dropWhile_not (· != '/') cs.reverse
  rw [parentPart]
  cases hdrop : cs.reverse.dropWhile (· != '/') with
  | nil => exact .inl rfl
  | cons c rest =>
    rw [hdrop] at hhead
    obtain rfl : c = '/' := by simpa using hhead
    exact .inr ⟨rest.reverse, List.reverse_cons⟩

theorem lastPart_append {before name : List Char} (hname : '/' ∉ name)
    (hbefore : before = [] ∨ ∃ front, before = front ++ ['/']) :
    lastPart (before ++ name) = name := by
  rw [lastPart, List.reverse_append, List.takeWhile_append_of_pos (bne_of_mem_reverse hname)]
  rcases hbefore with rfl | ⟨front, rfl⟩
  · rw [List.reverse_nil, List.takeWhile_nil, List.append_nil, List.reverse_reverse]
  · rw [List.reverse_concat, List.takeWhile_cons_of_neg (by simp), List.append_nil,
      List.reverse_reverse]

/-- What stands before the last point, if that is not the first character. -/
theorem stem_append {before extension : List Char} (hne : before ≠ [])
    (hpoint : '.' ∉ extension) : stem (before ++ '.' :: extension) = before := by
  have hreverse : (before ++ '.' :: extension).reverse =
      extension.reverse ++ '.' :: before.reverse := by simp
  simp only [stem, hreverse, List.dropWhile_append_of_pos (bne_of_mem_reverse hpoint)]
  rw [List.dropWhile_cons_of_neg (by simp), List.drop_succ_cons, List.drop_zero,
    List.reverse_reverse, if_neg hne]

theorem stem_append_eq_self_iff {name extension : List Char} (hpoint : '.' ∉ extension) :
    stem name ++ '.' :: extension = name ↔
      ∃ before, before ≠ [] ∧ name = before ++ '.' :: extension := by
  constructor
  · intro h
    refine ⟨stem name, fun hnil => ?_, h.symm⟩
    -- A name is not empty for a point in front of it, so it would be its own stem.
    have hname : stem name = name := by
      unfold stem at hnil ⊢
      dsimp only at hnil ⊢
      split at hnil
      next hbefore => rw [if_pos hbefore]
      next hbefore => exact absurd hnil hbefore
    rw [hname] at h
    exact List.cons_ne_nil _ _ (List.append_right_eq_self.mp h)
  · rintro ⟨before, hne, rfl⟩
    rw [stem_append hne hpoint]

/-- Nothing stands behind a last component that names a file. -/
theorem trimmed_eq_self {cs : List Char} (hname : isNameless (lastPart cs) = false) :
    trimmed cs = cs := by
  rw [lastPart] at hname
  rw [trimmed]
  generalize hreversed : cs.reverse = reversed at hname
  have hkept : trimReversed reversed = reversed := by
    unfold trimReversed
    split
    · cases hname
    · cases hname
    · rfl
  rw [hkept, ← hreversed, List.reverse_reverse]

/-- The extension changes nothing but the last component. -/
theorem withExtension_eq {path extension : String}
    (hname : isNameless (lastPart path.toList) = false) : withExtension path extension =
      String.ofList (parentPart path.toList ++
        (stem (lastPart path.toList) ++ '.' :: extension.toList)) := by
  simp only [withExtension, trimmed_eq_self hname, hname, Bool.false_eq_true, if_false,
    List.append_assoc]

theorem mem_of_mem_stem {name : List Char} {c : Char} (h : c ∈ stem name) : c ∈ name := by
  unfold stem at h
  dsimp only at h
  split at h
  · exact h
  · have hdrop := List.mem_of_mem_drop (List.mem_reverse.mp h)
    exact List.mem_reverse.mp ((List.dropWhile_suffix _).subset hdrop)

theorem lastPart_withExtension {path extension : String} (hslash : '/' ∉ extension.toList)
    (hname : isNameless (lastPart path.toList) = false) :
    lastPart (withExtension path extension).toList =
      stem (lastPart path.toList) ++ '.' :: extension.toList := by
  rw [withExtension_eq hname, String.toList_ofList]
  refine lastPart_append ?_ (parentPart_cases _)
  rw [List.mem_append, List.mem_cons, not_or, not_or]
  exact ⟨fun h => slash_not_mem_lastPart _ (mem_of_mem_stem h), by decide, hslash⟩

/-- A path that names a file keeps its extension when it has it already. -/
theorem withExtension_eq_self_iff {path extension : String}
    (hname : isNameless (lastPart path.toList) = false) (hpoint : '.' ∉ extension.toList) :
    withExtension path extension = path ↔ hasExtension path extension = true := by
  have hpath := parentPart_append_lastPart path.toList
  rw [hasExtension_iff, ← stem_append_eq_self_iff hpoint, withExtension_eq hname,
    ← String.toList_inj, String.toList_ofList]
  constructor
  · intro h
    exact List.append_cancel_left (h.trans hpath.symm)
  · intro h
    rw [h, hpath]

/-! ## Components -/

theorem splitSlashes_eq_splitOn (cs : List Char) : splitSlashes cs = cs.splitOn '/' := by
  induction cs with
  | nil => rfl
  | cons c cs ih =>
    rw [splitSlashes, List.splitOn_cons_eq_if_modifyHead, ih]
    by_cases hc : c = '/'
    · rw [if_pos hc, if_pos (beq_iff_eq.mpr hc)]
    · rw [if_neg hc, if_neg (by simpa using hc)]
      cases hparts : cs.splitOn '/' with
      | nil => exact absurd hparts (List.splitOn_ne_nil _ _)
      | cons part parts => rfl

/-- The last of the components. -/
theorem exists_components (path : String) : ∃ front : List String,
    components path = front ++ [String.ofList (lastPart path.toList)] := by
  have hslash := slash_not_mem_lastPart path.toList
  rw [components, splitSlashes_eq_splitOn]
  rcases parentPart_cases path.toList with hparent | ⟨before, hparent⟩
  · refine ⟨[], ?_⟩
    have hpath := parentPart_append_lastPart path.toList
    rw [hparent, List.nil_append] at hpath
    rw [hpath] at hslash ⊢
    rw [List.splitOn_eq_singleton hslash]
    rfl
  · refine ⟨(before.splitOn '/').map String.ofList, ?_⟩
    conv_lhs => rw [← parentPart_append_lastPart path.toList, hparent]
    rw [List.append_assoc, List.singleton_append, List.splitOn_append_cons_self,
      List.splitOn_eq_singleton hslash, List.map_append]
    rfl

end Path

/-! ## Files of directories -/

namespace Directory

variable {d : Directory}

/-- The last component of a path is looked up in what the others lead to. -/
theorem exists_step_of_locate {path name : String} {front : List String} {place : Place}
    (hcomponents : Path.components path = front ++ [name]) (h : d.locate path = .ok place) :
    ∃ here, front.foldlM d.step (.folder []) = .ok here ∧ d.step here name = .ok place := by
  unfold locate at h
  split at h
  · cases h
  · rw [hcomponents, List.foldlM_append] at h
    obtain ⟨here, hhere, h⟩ := except_bind_eq_ok.mp h
    rw [List.foldlM_cons] at h
    obtain ⟨place', hstep, h⟩ := except_bind_eq_ok.mp h
    cases h
    exact ⟨here, hhere, hstep⟩

/-- Files are found in folders, under names. -/
theorem exists_folder_of_step {here place : Place} {name : String} {file : List String}
    (h : d.step here name = .ok place) (hspot : place.spot = .inr file) : ∃ folder,
      here = .folder folder ∧ place = d.child folder name ∧ file = folder ++ [name] ∧
        name ≠ "" ∧ name ≠ "." ∧ name ≠ ".." := by
  cases here with
  | file path bytes => cases h
  | free path => cases h
  | folder folder =>
    unfold step at h
    dsimp only at h
    split at h
    · cases h
      cases hspot
    next hsame =>
      split at h
      · cases h
        cases hspot
      next hparent =>
        cases h
        simp only [Bool.or_eq_true, decide_eq_true_eq, not_or] at hsame
        rw [spot_child] at hspot
        split at hspot
        · cases hspot
        · cases hspot
          exact ⟨folder, rfl, rfl, rfl, hsame.1, hsame.2, hparent⟩

/-- A path that leads to a file: the folder that it is in, with the name at the end of the
path. -/
theorem exists_folder_of_locate {path : String} {place : Place} {file : List String}
    (h : d.locate path = .ok place) (hspot : place.spot = .inr file) : ∃ folder,
      place = d.child folder (String.ofList (Path.lastPart path.toList)) ∧
        Path.isNameless (Path.lastPart path.toList) = false ∧
        file = folder ++ [String.ofList (Path.lastPart path.toList)] := by
  obtain ⟨front, hcomponents⟩ := Path.exists_components path
  obtain ⟨here, -, hstep⟩ := exists_step_of_locate hcomponents h
  obtain ⟨folder, -, hchild, hfile, hempty, hsame, hparent⟩ := exists_folder_of_step hstep hspot
  refine ⟨folder, hchild, ?_, hfile⟩
  have hname : ∀ name : String, String.ofList (Path.lastPart path.toList) ≠ name →
      Path.lastPart path.toList ≠ name.toList := by
    rintro name hne heq
    exact hne (by rw [heq, String.ofList_toList])
  simp only [Path.isNameless, Bool.or_eq_false_iff, decide_eq_false_iff_not]
  exact ⟨⟨hname _ hempty, hname _ hsame⟩, hname _ hparent⟩

theorem content_of_child_eq_file {folder file : List String} {name : String} {bytes : ByteArray}
    (h : d.child folder name = .file file bytes) : d.content file = some bytes := by
  unfold child at h
  dsimp only at h
  split at h
  next hlookup =>
    cases h
    exact hlookup
  next => split at h <;> cases h

theorem content_of_child_eq_free {folder file : List String} {name : String}
    (h : d.child folder name = .free file) : d.content file = none := by
  unfold child at h
  dsimp only at h
  split at h
  · cases h
  next hlookup =>
    split at h
    · cases h
    · cases h
      exact hlookup

/-- What is read at a path is what the file holds that it leads to. -/
theorem read_eq_ok_iff {path : String} {bytes : ByteArray} : d.read path = .ok bytes ↔
    ∃ file, d.leadsTo? path = some file ∧ d.content file = some bytes := by
  constructor
  · intro h
    obtain ⟨place, hlocate, h⟩ := except_bind_eq_ok.mp h
    cases place with
    | folder here => cases h
    | free there => cases h
    | file there content =>
      cases h
      obtain ⟨folder, hchild, hname, rfl⟩ := exists_folder_of_locate hlocate rfl
      refine ⟨_, ?_, content_of_child_eq_file hchild.symm⟩
      -- The name at the end is not empty, so the path does not end with a slash.
      have hlast : path.toList.getLast? ≠ some '/' := by
        rw [← Path.parentPart_append_lastPart path.toList]
        intro hslash
        have hne : Path.lastPart path.toList ≠ [] := by
          intro hnil
          rw [hnil] at hname
          cases hname
        rw [List.getLast?_append_of_ne_nil _ hne] at hslash
        exact Path.slash_not_mem_lastPart _ (List.mem_of_getLast? hslash)
      rw [leadsTo?, if_neg hlast, hlocate]
      rfl
  · rintro ⟨file, hleads, hcontent⟩
    obtain ⟨-, place, hlocate, hspot, -⟩ := leadsTo?_eq_some hleads
    obtain ⟨folder, hchild, -⟩ := exists_folder_of_locate hlocate hspot
    rw [read, hlocate]
    cases place with
    | folder here => cases hspot
    | free there =>
      cases hspot
      rw [content_of_child_eq_free hchild.symm] at hcontent
      cases hcontent
    | file there content =>
      cases hspot
      rw [content_of_child_eq_file hchild.symm] at hcontent
      cases hcontent
      rfl

/-- A path with another extension leads to the same file only when it is the same path. -/
theorem withExtension_eq_of_leadsTo? {path extension : String} {file : List String}
    (hslash : '/' ∉ extension.toList) (h : d.leadsTo? path = some file)
    (h' : d.leadsTo? (Path.withExtension path extension) = some file) :
    Path.withExtension path extension = path := by
  obtain ⟨-, place, hlocate, hspot, -⟩ := leadsTo?_eq_some h
  obtain ⟨-, place', hlocate', hspot', -⟩ := leadsTo?_eq_some h'
  obtain ⟨folder, -, hname, hfile⟩ := exists_folder_of_locate hlocate hspot
  obtain ⟨folder', -, -, hfile'⟩ := exists_folder_of_locate hlocate' hspot'
  have hlast := Path.lastPart_withExtension hslash hname
  -- The file has the names at the ends of both paths, so these are the same.
  obtain ⟨-, hnames⟩ := List.append_singleton_inj.mp (hfile.symm.trans hfile')
  rw [String.ofList_inj, hlast] at hnames
  rw [Path.withExtension_eq hname, ← hnames, Path.parentPart_append_lastPart,
    String.ofList_toList]

end Directory

variable {σ : Type} {fs : FileSystem σ}

/-! ## Reading behind a write -/

/-- Reading goes by the files too: a path that can be read gives what is written to its
file, and it gives the same as before when another file is written. -/
structure FileSystem.Files.Reads (v : fs.Files) : Prop where
  of_eq : ∀ {s s' : σ} {path other text : String} {bytes : ByteArray},
    fs.read s path = .ok bytes → fs.write s other text = .ok s' →
    v.leadsTo? s other = v.leadsTo? s path → fs.read s' path = .ok text.toUTF8
  of_ne : ∀ {s s' : σ} {path other text : String} {bytes : ByteArray},
    fs.read s path = .ok bytes → fs.write s other text = .ok s' →
    v.leadsTo? s other ≠ v.leadsTo? s path → fs.read s' path = .ok bytes

theorem Directory.filesView_reads : filesView.Reads where
  of_eq := by
    intro d d' path other text bytes hread hwrite heq
    obtain ⟨file, hfile, -⟩ := read_eq_ok_iff.mp hread
    obtain ⟨s', hwrite', hleads, hcontent, -⟩ := filesView.write_some (heq.trans hfile) text
    cases hwrite.symm.trans hwrite'
    exact read_eq_ok_iff.mpr ⟨file, (congrFun hleads path).trans hfile, hcontent⟩
  of_ne := by
    intro d d' path other text bytes hread hwrite hne
    obtain ⟨file, hfile, hcontent⟩ := read_eq_ok_iff.mp hread
    cases hother : d.leadsTo? other with
    | none =>
      obtain ⟨failure, hfails⟩ := write_eq_error hother text
      cases hwrite.symm.trans hfails
    | some there =>
      obtain ⟨s', hwrite', hleads, -, hkeeps⟩ := filesView.write_some hother text
      cases hwrite.symm.trans hwrite'
      refine read_eq_ok_iff.mpr ⟨file, (congrFun hleads path).trans hfile, ?_⟩
      refine (hkeeps file fun heq => hne ?_).trans hcontent
      rw [← heq] at hother
      exact hother.trans hfile.symm

theorem fromUTF8?_eq_some_iff {bytes : ByteArray} {text : String} :
    String.fromUTF8? bytes = some text ↔ bytes = text.toUTF8 := by
  unfold String.fromUTF8?
  split
  next =>
    rw [Option.some_inj]
    constructor
    · rintro rfl
      rfl
    · rintro rfl
      rfl
  next hinvalid =>
    constructor
    · nofun
    · rintro rfl
      exact absurd text.isValidUTF8 hinvalid

theorem FileSystem.readText_eq_ok_iff {s : σ} {path text : String} :
    fs.readText s path = .ok text ↔ fs.read s path = .ok text.toUTF8 := by
  rw [readText, except_bind_eq_ok]
  constructor
  · rintro ⟨bytes, hread, h⟩
    split at h
    next hbytes =>
      cases h
      rw [hread, fromUTF8?_eq_some_iff.mp hbytes]
    next => cases h
  · intro hread
    refine ⟨_, hread, ?_⟩
    rw [fromUTF8?_eq_some_iff.mpr rfl]
    rfl

/-! ## Compiling next to the source -/

/-- A symbol among the pieces is in the source. -/
theorem mem_of_isSymbol {source : String} {t : Token} {c : Char} (h : .ok t ∈ pieces source)
    (ht : t.isSymbol c = true) : c ∈ source.toList := by
  obtain ⟨before, after, hstands⟩ := exists_standsIn h
  rw [hstands.text, toList_lexeme_of_isSymbol h ht]
  exact List.mem_append_right _ List.mem_cons_self

theorem Grammar.Declares.exists_semicolon {names : List String} {ts : List Token}
    {d : Declaration} (h : Declares names ts d) : ∃ t ∈ ts, t.isSymbol ';' = true := by
  cases h with
  | @intro _ _ _ _ semicolon ts _ _ _ _ _ _ _ hsemicolon =>
    refine ⟨semicolon, ?_, hsemicolon⟩
    simp only [List.mem_cons, List.mem_append, List.not_mem_nil, or_false, or_true]

/-- No source but the empty one is its own code: the semicolon that ends a declaration is
no character of code. -/
theorem eq_empty_of_compileToText_self {source : String} (h : compileToText source = .ok source) :
    source = "" := by
  obtain ⟨code, hcode, htext⟩ := except_bind_eq_ok.mp h
  obtain rfl : code.text = source := Except.ok.inj htext
  obtain ⟨program, -, ts, -, hitems, -, hstatements, hds⟩ := exists_statements_of_compile hcode
  generalize program.declarations = ds at hstatements hds
  cases hstatements with
  | nil =>
    cases hds
    rfl
  | cons hd _ =>
    obtain ⟨t, ht, hsemicolon⟩ := hd.exists_semicolon
    have hpiece : .ok t ∈ pieces code.text := by
      rw [pieces, hitems]
      exact List.mem_append_left _ (List.mem_map_of_mem (List.mem_append_left _ ht))
    have hnot := Machine.Code.not_mem_text (c := ';') (isReadable_of_compile hcode) rfl
      (by decide) (by decide)
    exact absurd (mem_of_isSymbol hpiece hsemicolon) hnot

/-- Code can be made of the file at a path, and there is more in the file than nothing. -/
def FileSystem.HasCode (fs : FileSystem σ) (s : σ) (input : String) : Prop :=
  ∃ source code, fs.readText s input = .ok source ∧ compileToText source = .ok code ∧ source ≠ ""

/-- What is done for a source that can be read: its code is written, if it has any. -/
theorem run_compile_of_read {s : σ} {input source : String}
    (hread : fs.readText s input = .ok source) :
    (Command.compile input none none).run fs s =
      match compileToText source with
      | .ok code => (Plan.write (Path.withExtension input "ir") code (.done (.success
          ("Compiled to " ++ Path.withExtension input "ir" ++ "\n")))).run fs s
      | .error e => (.compileError "" e, s) := by
  rw [Command.run, Command.input, hread]
  dsimp only [Command.plan, Command.compilePlan, Option.getD_none]
  rw [codePlan_parseTraced]
  cases compileToText source with
  | ok code => rfl
  | error e => rfl

/-- Compiling changes nothing but by writing code. -/
theorem run_compile_cases (fs : FileSystem σ) (s : σ) (input : String) :
    ((Command.compile input none none).run fs s).2 = s ∨
      ∃ source code, fs.readText s input = .ok source ∧ compileToText source = .ok code ∧
        fs.write s (Path.withExtension input "ir") code =
          .ok ((Command.compile input none none).run fs s).2 := by
  cases hread : fs.readText s input with
  | error failure =>
    rw [Command.run, Command.input, hread]
    exact .inl rfl
  | ok source =>
    rw [run_compile_of_read hread]
    cases hcode : compileToText source with
    | error e => exact .inl rfl
    | ok code =>
      dsimp only
      rw [Plan.run]
      cases hwrite : fs.write s (Path.withExtension input "ir") code with
      | error failure => exact .inl rfl
      | ok s' => exact .inr ⟨source, code, rfl, hcode, hwrite⟩

/-- Compiling changes what its source reads exactly when code is made of it, and goes to
the very file that the source was read from. -/
theorem FileSystem.read_run_compile_ne_iff {v : fs.Files} (hv : v.Reads) (s : σ)
    (input : String) :
    fs.read ((Command.compile input none none).run fs s).2 input ≠ fs.read s input ↔
      fs.HasCode s input ∧ fs.CanWrite s (Path.withExtension input "ir") ∧
        v.leadsTo? s (Path.withExtension input "ir") = v.leadsTo? s input := by
  constructor
  · intro hne
    rcases run_compile_cases fs s input with hkept | ⟨source, code, hread, hcode, hwrite⟩
    · rw [hkept] at hne
      exact absurd rfl hne
    have hbytes := readText_eq_ok_iff.mp hread
    by_cases hfile : v.leadsTo? s (Path.withExtension input "ir") = v.leadsTo? s input
    · refine ⟨⟨source, code, hread, hcode, ?_⟩, ⟨code, _, hwrite⟩, hfile⟩
      rintro rfl
      have hempty : compileToText "" = .ok "" := eq_ok_of_toOption (by decide +kernel)
      cases hcode.symm.trans hempty
      exact hne ((hv.of_eq hbytes hwrite hfile).trans hbytes.symm)
    · exact absurd ((hv.of_ne hbytes hwrite hfile).trans hbytes.symm) hne
  · rintro ⟨⟨source, code, hread, hcode, hsource⟩, hcan, hfile⟩ hkept
    have hbytes := readText_eq_ok_iff.mp hread
    obtain ⟨file, hleads⟩ := Option.ne_none_iff_exists'.mp (v.canWrite_iff.mp hcan)
    obtain ⟨s', hwrite, -⟩ := v.write_some hleads code
    rw [run_compile_of_read hread, hcode] at hkept
    dsimp only at hkept
    rw [Plan.run, hwrite] at hkept
    have hsame : code.toUTF8 = source.toUTF8 :=
      Except.ok.inj ((hv.of_eq hbytes hwrite hfile).symm.trans (hkept.trans hbytes))
    cases String.toByteArray_inj.mp hsame
    exact hsource (eq_empty_of_compileToText_self hcode)

/-- In a directory without links a file with code is compiled to itself exactly when it has
the extension of code. -/
theorem Directory.compiles_to_itself_iff {d : Directory} {input : String}
    (h : fileSystem.HasCode d input) :
    fileSystem.CanWrite d (Path.withExtension input "ir") ∧
      filesView.leadsTo? d (Path.withExtension input "ir") = filesView.leadsTo? d input ↔
    Path.hasExtension input "ir" = true := by
  obtain ⟨source, -, hread, -⟩ := h
  obtain ⟨file, hleads, -⟩ := read_eq_ok_iff.mp (FileSystem.readText_eq_ok_iff.mp hread)
  obtain ⟨-, place, hlocate, hspot, -⟩ := leadsTo?_eq_some hleads
  obtain ⟨-, -, hname, -⟩ := exists_folder_of_locate hlocate hspot
  rw [← Path.withExtension_eq_self_iff hname (by decide)]
  constructor
  · rintro ⟨-, hfile⟩
    have hview : ∀ path, filesView.leadsTo? d path = d.leadsTo? path := fun _ => rfl
    rw [hview, hview, hleads] at hfile
    exact withExtension_eq_of_leadsTo? (by decide) hleads hfile
  · intro hsame
    have hcan : fileSystem.CanWrite d input := by
      refine filesView.canWrite_iff.mpr fun hnone => ?_
      cases hnone.symm.trans hleads
    rw [hsame]
    exact ⟨hcan, rfl⟩

/-- Compiling without a file for its code or its trace keeps the source, however it ends,
unless the code goes to the file of the source itself. It does so only by a link, or when
the source has the extension of code already; and then a source changes if it has code and
is not empty. -/
theorem compile_changes_source_iff {args : List String} {input : String}
    (h : Args.read args = .run (.compile input none none)) :
    (∀ {σ : Type} {fs : FileSystem σ} (v : fs.Files) (s : σ), v.Reads →
      (fs.read ((Args.read args).answerOn fs s).2 input ≠ fs.read s input ↔
        fs.HasCode s input ∧ fs.CanWrite s (Path.withExtension input "ir") ∧
          v.leadsTo? s (Path.withExtension input "ir") = v.leadsTo? s input)) ∧
    ∀ d : Directory, ((Args.read args).answer d).2.read input ≠ d.read input ↔
      Directory.fileSystem.HasCode d input ∧ Path.hasExtension input "ir" = true := by
  rw [h]
  refine ⟨fun v s hv => FileSystem.read_run_compile_ne_iff hv s input, fun d => ?_⟩
  rw [← and_congr_right fun hcode => Directory.compiles_to_itself_iff hcode]
  exact FileSystem.read_run_compile_ne_iff Directory.filesView_reads d input

/-- A folder with a source in it that is named like code. -/
def misnamedFolder : Directory := ⟨[], [(["a.b.ir"], "let int x = 1;".toUTF8)]⟩

/-- A source next to its code is kept, and one that is named like its code is not. -/
theorem compile_changes_source_iff_by_name :
    Args.read ["compile", "a.tac"] = .run (.compile "a.tac" none none) ∧
    Directory.filesView.Reads ∧ Directory.fileSystem.HasCode sourceFolder "a.tac" ∧
    Directory.fileSystem.CanWrite sourceFolder "a.ir" ∧
    ((Args.read ["compile", "a.tac"]).answer sourceFolder).2.read "a.tac" =
      sourceFolder.read "a.tac" ∧
    Args.read ["compile", "./a.b.ir"] = .run (.compile "./a.b.ir" none none) ∧
    Directory.fileSystem.HasCode misnamedFolder "./a.b.ir" ∧
    ((Args.read ["compile", "./a.b.ir"]).answer misnamedFolder).2.read "./a.b.ir" ≠
      misnamedFolder.read "./a.b.ir" := by
  have hargs : Args.read ["compile", "a.tac"] = .run (.compile "a.tac" none none) := by
    decide +kernel
  have hargs' : Args.read ["compile", "./a.b.ir"] = .run (.compile "./a.b.ir" none none) := by
    decide +kernel
  have hcode : compileToText "let int x = 1;" = .ok "push constant 1\npop local 0\n" :=
    eq_ok_of_toOption (by decide +kernel)
  have hsource : Directory.fileSystem.HasCode sourceFolder "a.tac" :=
    ⟨_, _, eq_ok_of_toOption (by decide +kernel), hcode, by decide⟩
  have hsource' : Directory.fileSystem.HasCode misnamedFolder "./a.b.ir" :=
    ⟨_, _, eq_ok_of_toOption (by decide +kernel), hcode, by decide⟩
  have hwrite : Directory.fileSystem.CanWrite sourceFolder "a.ir" :=
    Directory.filesView.canWrite_iff.mpr (by decide +kernel)
  refine ⟨hargs, Directory.filesView_reads, hsource, hwrite, ?_, hargs', hsource', ?_⟩
  · by_contra hne
    have hchanged := (compile_changes_source_iff hargs).1 Directory.filesView sourceFolder
      Directory.filesView_reads
    have hother : sourceFolder.leadsTo? (Path.withExtension "a.tac" "ir") ≠
        sourceFolder.leadsTo? "a.tac" := by decide +kernel
    exact hother (hchanged.mp hne).2.2
  · exact ((compile_changes_source_iff hargs').2 misnamedFolder).mpr ⟨hsource', by decide +kernel⟩

/-- Compiling with success can replace the source by its code. -/
theorem compile_replaces_source :
    let args := ["compile", "a.b.ir"]
    let (report, d) := (Args.read args).answer misnamedFolder
    Args.read args = .run (.compile "a.b.ir" none none) ∧ report.exit = 0 ∧
    misnamedFolder.read "a.b.ir" = .ok "let int x = 1;".toUTF8 ∧
    d.read "a.b.ir" = .ok "push constant 1\npop local 0\n".toUTF8 :=
  ⟨by decide +kernel, by decide +kernel, eq_ok_of_toOption (by decide +kernel),
    eq_ok_of_toOption (by decide +kernel)⟩

end TensorLet
