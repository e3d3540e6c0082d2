import TensorLet.Text.Outline

/-!
# Outlines whose tags match

Writing an outline keeps a depth and nothing else, so an outline can be written
in which tags are closed that were never opened. Here the tags that are open are
followed from line to line, which gives the depth that each line should have.

* `Line.after?`: the tags that are open behind a line, if it may stand there.
* `Outline.Nests`: all lines may stand where they are, and the outline goes on at
  the depth that they leave.
* `Nests.openTag`, `Nests.closeTag`, `Nests.line`: what each way of writing does to
  the open tags. Only the innermost tag may be closed.
-/

namespace TensorLet

namespace Outline

/-- The tag that an item opens or closes. -/
def Item.tag? : Item → Option String
  | .opening tag => some tag
  | .closing tag => some tag
  | .plain _ => none

/-- The text of an item without a tag. -/
def Item.plain? : Item → Option String
  | .plain text => some text
  | _ => none

/-- The tags that are open behind a line, given those that are open before it,
the innermost one first. A line is indented by one level for each open tag, a
closing one by one level less, and it closes the innermost tag. -/
def Line.after? (tags : List String) (l : Line) : Option (List String) :=
  match l.item with
  | .opening tag => if l.depth = tags.length then some (tag :: tags) else none
  | .closing tag =>
    if tags.head? = some tag ∧ l.depth + 1 = tags.length then some tags.tail else none
  | .plain _ => if l.depth = tags.length then some tags else none

/-- The lines without a tag. -/
def texts (o : Outline) : List String := o.lines.toList.filterMap (·.item.plain?)

/-- The lines written so far leave `tags` open, and writing goes on inside them.
All tags are among `names`. -/
structure Nests (names : List String) (o : Outline) (tags : List String) : Prop where
  recording : o.recording = true
  depth : o.depth = tags.length
  lines : o.lines.toList.foldlM Line.after? [] = some tags
  named : ∀ l ∈ o.lines.toList, ∀ tag ∈ l.item.tag?, tag ∈ names

namespace Nests

variable {names tags : List String} {o : Outline} {tag : String}

theorem empty : Outline.empty.Nests names [] := ⟨rfl, rfl, rfl, by simp [Outline.empty]⟩

/-- One more line leaves the tags open that are open behind it. -/
theorem push {o' : Outline} {l : Line} {tags' : List String} (h : o.Nests names tags)
    (hrecording : o'.recording = o.recording) (hlines : o'.lines = o.lines.push l)
    (hdepth : o'.depth = tags'.length) (hafter : l.after? tags = some tags')
    (hnamed : ∀ tag ∈ l.item.tag?, tag ∈ names) : o'.Nests names tags' := by
  refine ⟨hrecording.trans h.recording, hdepth, ?_, ?_⟩
  · rw [hlines, Array.toList_push, List.foldlM_append, h.lines]
    simpa using hafter
  · intro l' hl'
    rw [hlines, Array.toList_push, List.mem_append, List.mem_singleton] at hl'
    rcases hl' with hl' | rfl
    · exact h.named l' hl'
    · exact hnamed

/-- Opening a tag puts it in front of the open ones. -/
theorem openTag (h : o.Nests names tags) (htag : tag ∈ names) :
    (o.openTag tag).Nests names (tag :: tags) := by
  have hlines : (o.openTag tag).lines = o.lines.push ⟨o.depth, .opening tag⟩ := by
    rw [Outline.openTag, indent, lines_write, if_pos h.recording]
  refine h.push (recording_write o _) hlines ?_ ?_ ?_
  · rw [depth_openTag, h.depth, List.length_cons]
  · exact if_pos h.depth
  · rintro _ ⟨⟩
    exact htag

theorem line (h : o.Nests names tags) (text : String) : (o.line text).Nests names tags := by
  have hlines : (o.line text).lines = o.lines.push ⟨o.depth, .plain text⟩ := by
    rw [Outline.line, lines_write, if_pos h.recording]
  refine h.push (recording_write o _) hlines ?_ ?_ ?_
  · rw [depth_line, h.depth]
  · exact if_pos h.depth
  · rintro _ ⟨⟩

/-- Closing takes the innermost tag away. It is there, so that the depth can go
down. -/
theorem closeTag (h : o.Nests names (tag :: tags)) (htag : tag ∈ names) :
    (o.closeTag tag).Nests names tags := by
  have hdepth : o.depth = tags.length + 1 := h.depth
  have hlines : (o.closeTag tag).lines = o.lines.push ⟨tags.length, .closing tag⟩ := by
    rw [Outline.closeTag, dedent, lines_write, if_pos h.recording, hdepth, Nat.add_sub_cancel]
  refine h.push (recording_write o.dedent _) hlines ?_ ?_ ?_
  · rw [depth_closeTag, hdepth, Nat.add_sub_cancel]
  · exact if_pos ⟨rfl, rfl⟩
  · rintro _ ⟨⟩
    exact htag

end Nests

/-! ## Lines without a tag -/

section

variable {o : Outline} (h : o.recording = true)
include h

theorem texts_openTag (tag : String) : (o.openTag tag).texts = o.texts := by
  rw [texts, Outline.openTag, indent, lines_write, if_pos h]
  simp [texts, Item.plain?]

theorem texts_closeTag (tag : String) : (o.closeTag tag).texts = o.texts := by
  rw [texts, Outline.closeTag, lines_write, dedent, if_pos h]
  simp [texts, Item.plain?]

theorem texts_line (text : String) : (o.line text).texts = o.texts ++ [text] := by
  rw [texts, Outline.line, lines_write, if_pos h]
  simp [texts, Item.plain?]

end

end Outline

end TensorLet
