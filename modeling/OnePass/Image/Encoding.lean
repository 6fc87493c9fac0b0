import OnePass.Image
import OnePass.Text.Utf8

/-!
# The stored form of an image

An image is stored as bytes, integers in little-endian order and lists as their length
followed by their elements. `Image.encode` writes the form.
-/

namespace OnePass

namespace Encoding

/-- The bytes that every stored image starts with. -/
def magic : List UInt8 := [0x43, 0x4d, 0x49, 0x58]

/-- The version of the form. -/
def formVersion : UInt32 := 1

/-- The tag that stands for the absence of a return type. -/
def noType : UInt8 := 0xff

/-- Four bytes, the lowest first. -/
def word (n : UInt32) : List UInt8 :=
  [UInt8.ofNat n.toNat, UInt8.ofNat (n.toNat / 256), UInt8.ofNat (n.toNat / 65536),
   UInt8.ofNat (n.toNat / 16777216)]

/-- A count of elements. -/
def count (n : Nat) : List UInt8 := word (UInt32.ofNat n)

/-- A string behind the number of its bytes. -/
def string (s : String) : List UInt8 :=
  let bytes := Text.encode s
  count bytes.length ++ bytes

/-- A list behind its length. -/
def list {α : Type} (f : α → List UInt8) (xs : List α) : List UInt8 :=
  count xs.length ++ xs.flatMap f

/-- The tag of a type. -/
def typeTag : WordType → UInt8
  | .int => 0
  | .bool => 1
  | .char => 2

/-- A slot: the tag of its type and whether it holds an array. -/
def slot (s : Slot) : List UInt8 := [typeTag s.type, if s.array then 1 else 0]

/-- The code of an operation on two words. -/
def binaryCode : BinaryOp → UInt8
  | .add => 0x30
  | .sub => 0x31
  | .mul => 0x32
  | .div => 0x33
  | .rem => 0x34
  | .min => 0x36
  | .max => 0x37
  | .and => 0x38
  | .or => 0x39
  | .eq => 0x3a
  | .lt => 0x3b
  | .gt => 0x3c

/-- An instruction: its code and its operand. -/
def instruction : Instruction → List UInt8
  | .pushInt value => 0x01 :: word value.toUInt32
  | .pushStr value => 0x02 :: string value
  | .pop => [0x03]
  | .dup => [0x04]
  | .swap => [0x05]
  | .loadLocal index => 0x10 :: word index
  | .storeLocal index => 0x11 :: word index
  | .loadArg index => 0x12 :: word index
  | .storeArg index => 0x13 :: word index
  | .loadField index => 0x14 :: word index
  | .storeField index => 0x15 :: word index
  | .newArray length => 0x20 :: word length
  | .loadElem => [0x21]
  | .storeElem => [0x22]
  | .arrayLen => [0x23]
  | .binary op => [binaryCode op]
  | .neg => [0x35]
  | .jump label => 0x40 :: word label
  | .jumpIfFalse label => 0x41 :: word label
  | .jumpIfTrue label => 0x42 :: word label
  | .call routine => 0x43 :: word routine
  | .ret => [0x44]
  | .random => [0x50]
  | .box type => [0x51, typeTag type]
  | .print type => [0x52, typeTag type]
  | .printStr => [0x53]
  | .printFormat n => 0x54 :: word n
  | .readLine => [0x55]
  | .parse type => [0x56, typeTag type]

/-- A stream: its instructions, then its labels. -/
def code (c : Code) : List UInt8 :=
  list instruction c.instructions.toList ++ list word c.labels.toList

/-- A field: its name, then its slot. -/
def field (f : Field) : List UInt8 := string f.name ++ slot f.slot

/-- A return type or its absence. -/
def returns : Option WordType → List UInt8
  | none => [noType]
  | some t => [typeTag t]

/-- A routine: name, parameters, return type, number of locals and code. -/
def routine (r : Routine) : List UInt8 :=
  string r.name ++ list slot r.params ++ returns r.returns ++ word r.locals ++ code r.code

end Encoding

/-- The stored form of an image. -/
def Image.encode (i : Image) : List UInt8 :=
  Encoding.magic ++ Encoding.word Encoding.formVersion
    ++ Encoding.word (if i.userEntry then 1 else 0) ++ Encoding.word i.entry
    ++ Encoding.list Encoding.field i.fields ++ Encoding.code i.initializer
    ++ Encoding.list Encoding.routine i.routines.toList

end OnePass
