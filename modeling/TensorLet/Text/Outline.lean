/-!
# Outlines

An outline is a list of indented lines written from top to bottom. Opening a
tag writes a line and indents what follows, closing it goes back one level
first. Both the printed tree of a program and the trace of a parse are
outlines.

An outline that does not record keeps its depth and writes no line, so that the
same steps can be run with and without their text.

* `Outline.openTag`, `Outline.closeTag`, `Outline.line`: the three ways to write.
* `Outline.text`: one tab per level, the line, and a newline.
-/

namespace TensorLet

namespace Outline

/-- What stands on a line. -/
inductive Item where
  | opening (tag : String)
  | closing (tag : String)
  | plain (text : String)
deriving DecidableEq

/-- The item without its indentation. -/
def Item.text : Item → String
  | .opening tag => "<" ++ tag ++ ">"
  | .closing tag => "</" ++ tag ++ ">"
  | .plain text => text

/-- An item and the number of levels it is indented by. -/
structure Line where
  depth : Nat
  item : Item
deriving DecidableEq

/-- One tab per level, the item, and a newline. -/
def Line.text (l : Line) : String :=
  String.ofList (List.replicate l.depth '\t') ++ l.item.text ++ "\n"

end Outline

/-- The lines written so far and the depth of the next one. -/
structure Outline where
  recording : Bool
  depth : Nat
  lines : Array Outline.Line
deriving DecidableEq

namespace Outline

/-- No lines, and every line written from now on is recorded. -/
def empty : Outline := ⟨true, 0, #[]⟩

/-- No lines, now or later. -/
def silent : Outline := ⟨false, 0, #[]⟩

/-- One level deeper from here on. -/
def indent (o : Outline) : Outline := { o with depth := o.depth + 1 }

/-- One level back; at the outermost level the depth stays. -/
def dedent (o : Outline) : Outline := { o with depth := o.depth - 1 }

/-- Writes an item at the current depth. -/
def write (o : Outline) (item : Item) : Outline :=
  if o.recording then { o with lines := o.lines.push ⟨o.depth, item⟩ } else o

/-- Writes `<tag>` and indents what follows. -/
def openTag (o : Outline) (tag : String) : Outline := (o.write (.opening tag)).indent

/-- Goes back one level and writes `</tag>`. -/
def closeTag (o : Outline) (tag : String) : Outline := o.dedent.write (.closing tag)

/-- Writes a line of text. -/
def line (o : Outline) (text : String) : Outline := o.write (.plain text)

/-- All lines as text. -/
def text (o : Outline) : String := String.join (o.lines.toList.map Line.text)

/-! ## What writing changes -/

@[simp] theorem depth_write (o : Outline) (item : Item) : (o.write item).depth = o.depth := by
  unfold write; split <;> rfl

@[simp] theorem recording_write (o : Outline) (item : Item) :
    (o.write item).recording = o.recording := by
  unfold write; split <;> rfl

theorem lines_write (o : Outline) (item : Item) :
    (o.write item).lines = if o.recording then o.lines.push ⟨o.depth, item⟩ else o.lines := by
  unfold write; split <;> rfl

@[simp] theorem depth_openTag (o : Outline) (tag : String) :
    (o.openTag tag).depth = o.depth + 1 := by
  simp [openTag, indent]

@[simp] theorem depth_closeTag (o : Outline) (tag : String) :
    (o.closeTag tag).depth = o.depth - 1 := by
  simp [closeTag, dedent]

@[simp] theorem depth_line (o : Outline) (text : String) : (o.line text).depth = o.depth :=
  depth_write o _

end Outline

end TensorLet
