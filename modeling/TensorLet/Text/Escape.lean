/-!
# Escaped text

Inside a tag, the four characters that would read as markup are written as
entities: `&lt`, `&gt`, `&quot` and `&amp`, with no character that ends them.
Every other character stands for itself.

* `escape`: text with its characters escaped, as it is where it has no markup.
* `toList_escape`: in both cases these are the entities of its characters.
-/

namespace TensorLet

/-- True of the characters that would read as markup. -/
def isMarkup (c : Char) : Bool := c = '<' || c = '>' || c = '"' || c = '&'

/-- What a character is written as. -/
def entity (c : Char) : List Char :=
  match c with
  | '<' => ['&', 'l', 't']
  | '>' => ['&', 'g', 't']
  | '"' => ['&', 'q', 'u', 'o', 't']
  | '&' => ['&', 'a', 'm', 'p']
  | c => [c]

/-- Characters with each of them escaped. -/
def escapeChars (cs : List Char) : List Char := cs.flatMap entity

/-- Text with each of its characters escaped. Text without markup is not written
anew. -/
def escape (text : String) : String :=
  if text.toList.any isMarkup then String.ofList (escapeChars text.toList) else text

@[simp] theorem escapeChars_nil : escapeChars [] = [] := rfl

@[simp] theorem escapeChars_cons (c : Char) (cs : List Char) :
    escapeChars (c :: cs) = entity c ++ escapeChars cs := rfl

theorem escapeChars_append (cs ds : List Char) :
    escapeChars (cs ++ ds) = escapeChars cs ++ escapeChars ds := by
  simp [escapeChars]

/-- A character that is no markup stands for itself. -/
theorem entity_of_isMarkup_eq_false {c : Char} (h : isMarkup c = false) : entity c = [c] := by
  unfold entity
  split <;> first | rfl | exact absurd h (by decide)

theorem escapeChars_of_any_isMarkup_eq_false {cs : List Char} (h : cs.any isMarkup = false) :
    escapeChars cs = cs := by
  induction cs with
  | nil => rfl
  | cons c cs ih =>
    rw [List.any_cons, Bool.or_eq_false_iff] at h
    rw [escapeChars_cons, entity_of_isMarkup_eq_false h.1, ih h.2, List.singleton_append]

/-- Text that is not written anew is what writing it anew would give. -/
theorem toList_escape (text : String) : (escape text).toList = escapeChars text.toList := by
  unfold escape
  split
  · exact String.toList_ofList
  next h => rw [escapeChars_of_any_isMarkup_eq_false (by simpa using h)]

end TensorLet
