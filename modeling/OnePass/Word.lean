/-!
# Words

Every scalar value is a machine word of 32 bits, and its type says what it means: an
integer is itself, a truth value is 0 or 1, and a character is its code point.
-/

namespace OnePass

/-- The type of a machine word. -/
inductive WordType where
  | int
  | bool
  | char
  deriving DecidableEq, Repr

/-- The name of a word type. -/
def WordType.text : WordType → String
  | .int => "int"
  | .bool => "bool"
  | .char => "char"

namespace Word

/-- The word of a truth value. -/
def ofBool (b : Bool) : Int32 := if b then 1 else 0

/-- The word of a character. -/
def ofChar (c : Char) : Int32 := c.val.toInt32

/-- The character of a word, if it is the code point of one. -/
def toChar? (w : Int32) : Option Char :=
  if h : w.toUInt32.isValidChar then some ⟨w.toUInt32, h⟩ else none

/-- The character of a word that is made of one. -/
theorem toChar?_ofChar (c : Char) : toChar? (ofChar c) = some c := by
  have h : (ofChar c).toUInt32 = c.val := rfl
  unfold toChar?
  rw [dif_pos (h ▸ c.valid)]
  rfl

/-- A word that has a character is made of it. -/
theorem eq_ofChar_of_toChar? {w : Int32} {c : Char} (h : toChar? w = some c) : w = ofChar c := by
  unfold toChar? at h
  split at h
  · obtain rfl := Option.some.inj h
    rfl
  · exact absurd h (by simp)

end Word

end OnePass
