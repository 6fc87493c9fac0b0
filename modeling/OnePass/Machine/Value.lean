import OnePass.Slot
import OnePass.Text.Blank
import OnePass.Text.Caseless
import OnePass.Text.Decimal

/-!
# Values at run time

A value on a stack or in a slot is a word, a string, a reference to an array, or a word
that knows its type. Words are shown and read as values of a type.
-/

namespace OnePass

/-- The kinds of values. -/
inductive Kind where
  | word
  | str
  | array
  | boxed
  deriving DecidableEq, Repr

/-- The words for a kind of values. -/
def Kind.text : Kind → String
  | .word => "word"
  | .str => "string"
  | .array => "array"
  | .boxed => "boxed value"

/-- A value at run time. -/
inductive Value where
  /-- a machine word -/
  | word (value : Int32)
  /-- a string -/
  | str (value : String)
  /-- a reference to an array; arrays are shared -/
  | array (ref : Nat)
  /-- a word and its type -/
  | boxed (type : WordType) (value : Int32)
  deriving DecidableEq, Repr, Inhabited

namespace Value

/-- What a fresh slot holds. -/
def zero : Value := .word 0

/-- The kind of a value. -/
def kind : Value → Kind
  | .word _ => .word
  | .str _ => .str
  | .array _ => .array
  | .boxed _ _ => .boxed

end Value

/-! ## Words as text -/

namespace WordType

/-- How a word of a type is shown; a word without a character is shown as the replacement
character. -/
def render (t : WordType) (w : Int32) : String :=
  match t with
  | .int => Text.renderWord w
  | .bool => if w = 0 then "False" else "True"
  | .char => String.singleton ((Word.toChar? w).getD '\ufffd')

/-- The word that a line of text denotes as a value of a type. White space around
integers and truth values does not count, and neither does the case of letters; a
character is read as it stands. -/
def parse? (caseless : Caseless) (t : WordType) (text : List Char) : Option Int32 :=
  match t with
  | .int => Text.word? (Text.trim text)
  | .bool =>
    if caseless.same (Text.trim text) "true".toList then some (Word.ofBool true)
    else if caseless.same (Text.trim text) "false".toList then some (Word.ofBool false)
    else none
  | .char =>
    match text with
    | [c] => some (Word.ofChar c)
    | _ => none

end WordType

end OnePass
