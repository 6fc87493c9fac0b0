import OnePass.Machine.Format
import OnePass.Machine.Frame
import OnePass.Text.Utf8

/-!
# What instructions do

`Exec.next` takes the next instruction of a frame and carries it out: values move between
the stack, the slots and the arrays, words are computed with, and lines are read and
texts written. A jump moves the position in the frame; a call and a return are handed
back as the `Transfer` that they are.
-/

namespace OnePass

namespace Exec

/-! ## The evaluation stack -/

/-- Fails for want of values. -/
def underflow {α : Type} : Exec α := do
  throw (.stackUnderflow (← get).frame.name)

/-- Puts a value on top. -/
def push (v : Value) : Exec Unit :=
  modify fun c => { c with frame := { c.frame with stack := v :: c.frame.stack } }

/-- Puts a word on top. -/
def pushWord (w : Int32) : Exec Unit := push (.word w)

/-- Takes the top. -/
def pop : Exec Value := do
  let c ← get
  match c.frame.stack with
  | [] => underflow
  | v :: rest =>
    set { c with frame := { c.frame with stack := rest } }
    return v

/-- Takes the top, which must be a word. -/
def popWord : Exec Int32 := do
  match ← pop with
  | .word w => return w
  | v => throw (.expected .word v.kind)

/-- Takes the top, which must be a string. -/
def popString : Exec String := do
  match ← pop with
  | .str s => return s
  | v => throw (.expected .str v.kind)

/-- Takes the top, which must be an array. -/
def popArray : Exec Nat := do
  match ← pop with
  | .array ref => return ref
  | v => throw (.expected .array v.kind)

/-- Takes the `n` topmost values, in the order in which they were pushed, if there are at
least `reserve` more. -/
def popMany (n reserve : Nat) : Exec (List Value) := do
  let c ← get
  if c.frame.stack.length < n + reserve then underflow
  else
    let (top, rest) := c.frame.stack.splitAt n
    set { c with frame := { c.frame with stack := rest } }
    return top.reverse

/-! ## Slots and arrays -/

/-- The value of a slot. -/
def slot (what : Reference) (slots : Array Value) (index : UInt32) : Exec Value :=
  match slots[index.toNat]? with
  | some v => return v
  | none => throw (.badReference what index)

/-- Slots with another value in one of them. -/
def withSlot (what : Reference) (slots : Array Value) (index : UInt32) (v : Value) :
    Exec (Array Value) :=
  if index.toNat < slots.size then return slots.setIfInBounds index.toNat v
  else throw (.badReference what index)

/-- Pops a local slot's new value. -/
def storeLocal (index : UInt32) : Exec Unit := do
  let v ← pop
  let locals ← withSlot .local (← get).frame.locals index v
  modify fun c => { c with frame := { c.frame with locals } }

/-- Pops an argument's new value. -/
def storeArg (index : UInt32) : Exec Unit := do
  let v ← pop
  let args ← withSlot .argument (← get).frame.args index v
  modify fun c => { c with frame := { c.frame with args } }

/-- Pops a field's new value. -/
def storeField (index : UInt32) : Exec Unit := do
  let v ← pop
  let fields ← withSlot .field (← get).store.fields index v
  modify fun c => { c with store := { c.store with fields } }

/-- Makes an array of zeros. -/
def newArray (length : UInt32) : Exec Unit := do
  let ref := (← get).store.arrays.size
  modify fun c =>
    { c with store :=
      { c.store with arrays := c.store.arrays.push (Array.replicate length.toNat 0) } }
  push (.array ref)

/-- The words of an array. -/
def arrayAt (ref : Nat) : Exec (Array Int32) := do
  return (← get).store.arrays.getD ref #[]

/-- The position that an index denotes in an array of a length, if there is one. -/
def offset? (index : Int32) (length : Nat) : Option Nat :=
  if 0 ≤ index ∧ index.toInt.toNat < length then some index.toInt.toNat else none

/-- Reads an element. -/
def loadElem : Exec Unit := do
  let index ← popWord
  let ref ← popArray
  let array ← arrayAt ref
  match offset? index array.size with
  | some n => pushWord (array.getD n 0)
  | none => throw (.indexOutOfRange index array.size)

/-- Changes an element. -/
def storeElem : Exec Unit := do
  let value ← popWord
  let index ← popWord
  let ref ← popArray
  let length := (← arrayAt ref).size
  match offset? index length with
  | some n =>
    modify fun c =>
      { c with store :=
        { c.store with arrays := c.store.arrays.modify ref fun a => a.setIfInBounds n value } }
  | none => throw (.indexOutOfRange index length)

/-! ## Words -/

/-- The result of an operation on two words. Arithmetic wraps around, except that a
division fails if its result does not exist or is no word. -/
def binary (op : BinaryOp) (a b : Int32) : Except MachineError Int32 :=
  match op with
  | .add => .ok (a + b)
  | .sub => .ok (a - b)
  | .mul => .ok (a * b)
  | .div =>
    if b = 0 then .error .divideByZero
    else if a = Int32.minValue ∧ b = -1 then .error .overflow
    else .ok (a / b)
  | .rem =>
    if b = 0 then .error .divideByZero
    else if a = Int32.minValue ∧ b = -1 then .error .overflow
    else .ok (a % b)
  | .min => .ok (if b < a then b else a)
  | .max => .ok (if a < b then b else a)
  | .and => .ok (a &&& b)
  | .or => .ok (a ||| b)
  | .eq => .ok (Word.ofBool (a = b))
  | .lt => .ok (Word.ofBool (a < b))
  | .gt => .ok (Word.ofBool (b < a))

/-- Goes to a label. -/
def jump (label : UInt32) : Exec Unit := do
  let c ← get
  match c.frame.code.target? label with
  | some n => set { c with frame := { c.frame with position := n } }
  | none => throw (.badReference .label label)

/-- A random word from 0 below a bound. -/
def random (bound : Int32) : Exec Int32 := do
  let c ← get
  let (r, random) := Random.below bound c.store.random
  set { c with store := { c.store with random } }
  return r

/-! ## Input and output -/

/-- Writes a text. -/
def write (s : String) : Exec Unit := do
  let c ← get
  let (complete, output) := c.store.output.write (Text.encode s)
  set { c with store := { c.store with output } }
  if !complete then throw (.channel .outputFull)

/-- The bytes of the next line with its line feed, and those behind it. -/
def splitLine (bytes : List UInt8) : List UInt8 × List UInt8 :=
  let (line, rest) := bytes.span (· != 0x0a)
  (line ++ rest.take 1, rest.drop 1)

/-- Reads the next line, without the line feeds and carriage returns at its end. The line
is used up also if it is not UTF-8. -/
def readLine : Exec String := do
  let c ← get
  if c.store.input.isEmpty then throw .endOfInput
  let (line, rest) := splitLine c.store.input
  set { c with store := { c.store with input := rest } }
  match Text.decode? line with
  | some s => return String.ofList (Text.trimEnd (fun c => c = '\r' || c = '\n') s.toList)
  | none => throw (.channel .unreadableLine)

/-! ## Instructions -/

/-- Calls a routine with as many values as it has parameters. -/
def call (image : Image) (index : UInt32) : Exec Transfer := do
  match image.routines[index.toNat]? with
  | none => throw (.badReference .routine index)
  | some r =>
    let args ← popMany r.params.length 0
    return .call (.enter r.name r.code args r.locals)

/-- Carries out an instruction, behind which the frame already stands. -/
def instruction (image : Image) (i : Instruction) : Exec Transfer := do
  match i with
  | .call index => call image index
  | .ret => return .ret (← get).frame.stack.head?
  | .pushInt value => pushWord value; return .onward
  | .pushStr value => push (.str value); return .onward
  | .pop => let _ ← pop; return .onward
  | .dup =>
    let v ← pop
    push v
    push v
    return .onward
  | .swap =>
    let b ← pop
    let a ← pop
    push b
    push a
    return .onward
  | .loadLocal index => push (← slot .local (← get).frame.locals index); return .onward
  | .storeLocal index => storeLocal index; return .onward
  | .loadArg index => push (← slot .argument (← get).frame.args index); return .onward
  | .storeArg index => storeArg index; return .onward
  | .loadField index => push (← slot .field (← get).store.fields index); return .onward
  | .storeField index => storeField index; return .onward
  | .newArray length => newArray length; return .onward
  | .loadElem => loadElem; return .onward
  | .storeElem => storeElem; return .onward
  | .arrayLen =>
    let array ← arrayAt (← popArray)
    pushWord (Int32.ofNat array.size)
    return .onward
  | .binary op =>
    let b ← popWord
    let a ← popWord
    pushWord (← binary op a b)
    return .onward
  | .neg => pushWord (-(← popWord)); return .onward
  | .jump label => jump label; return .onward
  | .jumpIfFalse label =>
    if (← popWord) = 0 then jump label
    return .onward
  | .jumpIfTrue label =>
    if (← popWord) ≠ 0 then jump label
    return .onward
  | .random => pushWord (← random (← popWord)); return .onward
  | .box type => push (.boxed type (← popWord)); return .onward
  | .print type => write (type.render (← popWord)); return .onward
  | .printStr => write (← popString); return .onward
  | .printFormat count =>
    let args ← popMany count.toNat 1
    let format ← popString
    match compose format args with
    | some text => write text
    | none => throw (.badFormat format)
    return .onward
  | .readLine => push (.str (← readLine)); return .onward
  | .parse type =>
    let text ← popString
    match type.parse? (← get).store.caseless text.toList with
    | some w => pushWord w
    | none => throw (.badInput text type)
    return .onward

/-- Takes the next instruction of the frame and carries it out. -/
def next (image : Image) : Exec Transfer := do
  let c ← get
  match c.frame.code.instructions[c.frame.position]? with
  | none => throw (.missingReturn c.frame.name)
  | some i =>
    set { c with frame := { c.frame with position := c.frame.position + 1 } }
    instruction image i

end Exec

end OnePass
