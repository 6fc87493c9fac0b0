import OnePass.Slot

/-!
# Instructions

The instructions of the stack machine and a stream of them. Jumps go to labels; a label
is resolved through the table of its own stream, so that code can be emitted before the
target of a jump is known.
-/

namespace OnePass

/-- Operations on the two topmost words. -/
inductive BinaryOp where
  | add
  | sub
  | mul
  | div
  | rem
  | min
  | max
  | and
  | or
  | eq
  | lt
  | gt
  deriving DecidableEq, Repr

/-- An instruction of the stack machine. -/
inductive Instruction where
  /-- pushes a word -/
  | pushInt (value : Int32)
  /-- pushes a string -/
  | pushStr (value : String)
  /-- drops the top -/
  | pop
  /-- pushes the top again -/
  | dup
  /-- exchanges the two topmost values -/
  | swap
  | loadLocal (index : UInt32)
  | storeLocal (index : UInt32)
  | loadArg (index : UInt32)
  | storeArg (index : UInt32)
  | loadField (index : UInt32)
  | storeField (index : UInt32)
  /-- pushes a new array of zeros -/
  | newArray (length : UInt32)
  /-- `array, index` to the element -/
  | loadElem
  /-- `array, index, word` to nothing, after changing the element -/
  | storeElem
  /-- `array` to its length -/
  | arrayLen
  /-- the two topmost words to the result -/
  | binary (op : BinaryOp)
  /-- the top word to its negative -/
  | neg
  | jump (label : UInt32)
  | jumpIfFalse (label : UInt32)
  | jumpIfTrue (label : UInt32)
  /-- calls a routine with as many values as it has parameters -/
  | call (routine : UInt32)
  /-- leaves the routine with the top, if there is one -/
  | ret
  /-- `n` to a random word from 0 below `n` -/
  | random
  /-- the top word to a value that knows its type -/
  | box (type : WordType)
  /-- writes the top word -/
  | print (type : WordType)
  /-- writes the top string -/
  | printStr
  /-- writes a format string filled with the `count` values above it -/
  | printFormat (count : UInt32)
  /-- pushes the next line of the input -/
  | readLine
  /-- the top string to the word it denotes -/
  | parse (type : WordType)
  deriving DecidableEq, Repr

/-- A stream of instructions. Label `i` stands before the instruction with the index
`labels[i]`. -/
structure Code where
  /-- the instructions in order -/
  instructions : Array Instruction
  /-- for each label the index of the instruction behind it -/
  labels : Array UInt32
  deriving DecidableEq, Repr

namespace Code

/-- The stream without instructions. -/
def empty : Code := ⟨#[], #[]⟩

/-- The instruction index that a label stands for. -/
def target? (c : Code) (label : UInt32) : Option Nat :=
  (c.labels[label.toNat]?).map UInt32.toNat

end Code

end OnePass
