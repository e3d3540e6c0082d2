import Std.Data.TreeMap
import TensorLet.Symbol

/-!
# Symbol tables

One flat scope. The table keeps every declaration in the order it was made and
for each name the last one, so it can say both what a name means now and what
it meant when only some of the declarations had been made.

Slots are numbered per storage. Declaring a name again takes a fresh slot and
hides the older declaration from later look-ups.

* `SymbolTable.define`: declares a name at the next slot.
* `SymbolTable.get?`: what a name means now.
* `SymbolTable.lookupBefore?`: what it meant after a number of declarations.
-/

namespace TensorLet

/-- How many slots of each storage are taken. -/
structure SlotCounts where
  argument : Nat
  localVar : Nat
  globalVar : Nat
deriving DecidableEq

namespace SlotCounts

/-- The count of one storage. -/
def get (counts : SlotCounts) : Storage → Nat
  | .argument => counts.argument
  | .localVar => counts.localVar
  | .globalVar => counts.globalVar

/-- One more slot of a storage is taken. -/
def take (counts : SlotCounts) : Storage → SlotCounts
  | .argument => { counts with argument := counts.argument + 1 }
  | .localVar => { counts with localVar := counts.localVar + 1 }
  | .globalVar => { counts with globalVar := counts.globalVar + 1 }

theorem get_take (counts : SlotCounts) (s t : Storage) :
    (counts.take s).get t = counts.get t + if s = t then 1 else 0 := by
  cases s <;> cases t <;> simp [take, get]

end SlotCounts

/-- The declarations of a scope in order, the position of each name's last
declaration among them, and the slots taken. -/
structure SymbolTable where
  history : Array Symbol
  bindings : Std.TreeMap String Nat
  taken : SlotCounts

namespace SymbolTable

/-- The scope without declarations. -/
def empty : SymbolTable := ⟨#[], ∅, ⟨0, 0, 0⟩⟩

/-- The symbol that declaring `name` now would make. -/
def fresh (t : SymbolTable) (name : String) (type : ValueType) (storage : Storage) : Symbol :=
  ⟨name, type, storage, t.taken.get storage⟩

/-- Declares `name` at the next slot of its storage. A declaration of the same
name is hidden and keeps its slot. -/
def define (t : SymbolTable) (name : String) (type : ValueType) (storage : Storage) :
    SymbolTable where
  history := t.history.push (t.fresh name type storage)
  bindings := t.bindings.insert name t.history.size
  taken := t.taken.take storage

/-- The declaration that `name` refers to. -/
def get? (t : SymbolTable) (name : String) : Option Symbol :=
  t.bindings[name]?.bind fun ordinal => t.history[ordinal]?

/-- Where the variable that `name` refers to is stored. -/
def storageOf? (t : SymbolTable) (name : String) : Option Storage := (t.get? name).map (·.storage)

/-- The type of the variable that `name` refers to. -/
def typeOf? (t : SymbolTable) (name : String) : Option ValueType := (t.get? name).map (·.type)

/-- The slot of the variable that `name` refers to. -/
def indexOf? (t : SymbolTable) (name : String) : Option Nat := (t.get? name).map (·.index)

/-- The names declared so far, in increasing order, each once. -/
def names (t : SymbolTable) : List String := t.bindings.keys

/-- The symbols that names refer to, in increasing order of the names. -/
def bound (t : SymbolTable) : List Symbol := t.names.filterMap t.get?

/-- How many names refer to a variable in the given storage. -/
def boundCount (t : SymbolTable) (storage : Storage) : Nat :=
  t.bound.countP (·.storage = storage)

/-- The slot that the next declaration in a storage takes. -/
def nextIndex (t : SymbolTable) (storage : Storage) : Nat := t.taken.get storage

/-- The number of declarations, hidden ones included. -/
def size (t : SymbolTable) : Nat := t.history.size

/-- True when nothing is declared. -/
def isEmpty (t : SymbolTable) : Bool := t.history.isEmpty

/-- The declaration made after `ordinal` others. -/
def declaration? (t : SymbolTable) (ordinal : Nat) : Option Symbol := t.history[ordinal]?

/-- What `name` meant when only the first `ordinal` declarations had been
made. -/
def lookupBefore? (t : SymbolTable) (name : String) (ordinal : Nat) : Option Symbol :=
  (t.history.toList.take ordinal).reverse.find? (·.name = name)

/-- Declares a list of names in order. -/
def defineAll (t : SymbolTable) (decls : List (String × ValueType × Storage)) : SymbolTable :=
  decls.foldl (fun t d => t.define d.1 d.2.1 d.2.2) t

/-! ## What declaring changes -/

@[simp] theorem size_define (t : SymbolTable) (name : String) (type : ValueType)
    (storage : Storage) : (t.define name type storage).size = t.size + 1 := by
  simp [define, size]

theorem nextIndex_define (t : SymbolTable) (name : String) (type : ValueType)
    (s storage : Storage) :
    (t.define name type s).nextIndex storage =
      t.nextIndex storage + if s = storage then 1 else 0 :=
  SlotCounts.get_take t.taken s storage

/-- The name just declared refers to the new declaration. -/
theorem get?_define_self (t : SymbolTable) (name : String) (type : ValueType)
    (storage : Storage) :
    (t.define name type storage).get? name = some (t.fresh name type storage) := by
  simp [define, get?]

end SymbolTable

end TensorLet
