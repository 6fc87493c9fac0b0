import OnePass.Word

/-!
# Storage slots

A storage slot holds one word, or an array of words of one type.
-/

namespace OnePass

/-- What a storage slot holds. -/
structure Slot where
  /-- the type of its words -/
  type : WordType
  /-- whether it holds an array of them -/
  array : Bool
  deriving DecidableEq, Repr

namespace Slot

/-- A slot for one word. -/
def scalar (t : WordType) : Slot := ⟨t, false⟩

/-- A slot for an array. -/
def ofArray (t : WordType) : Slot := ⟨t, true⟩

/-- How a slot is shown: its type, with brackets if it holds an array. -/
def text (s : Slot) : String := if s.array then s.type.text ++ "[]" else s.type.text

end Slot

end OnePass
