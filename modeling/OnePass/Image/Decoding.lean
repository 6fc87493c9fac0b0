import OnePass.Image.Encoding

/-!
# Reading the stored form of an image

`Image.decode` reads an image from the front of a byte sequence and hands back what it has
left over. It refuses whatever `Image.encode` cannot produce, one thing apart: any nonzero
byte marks an array.
-/

namespace OnePass

/-- Why bytes are not a stored image. -/
inductive ImageError where
  /-- the bytes end too early -/
  | truncated
  /-- the first bytes are not those of an image -/
  | badMagic
  /-- the form has another version -/
  | version (found : UInt32)
  /-- a flag without a meaning is set -/
  | badFlags (flags : UInt32)
  /-- no instruction has this code -/
  | badOpcode (code : UInt8)
  /-- no type has this tag -/
  | badType (tag : UInt8)
  /-- the bytes of a string are not UTF-8 -/
  | badString
  /-- a string is longer than what is left -/
  | shortString (length : UInt32)
  /-- the entry routine does not exist -/
  | badEntry (entry : UInt32)
  deriving DecidableEq, Repr

/-- A number in hexadecimal, with at least `width` digits. -/
def hexadecimal (width n : Nat) : String :=
  let digits := Nat.toDigits 16 n
  String.ofList (List.replicate (width - digits.length) '0' ++ digits)

/-- The wording of a refusal. -/
def ImageError.message : ImageError → String
  | .truncated => "I/O error"
  | .badMagic => "Not an image file (bad magic number)"
  | .version found => "Unsupported image version " ++ toString found.toNat ++ ", expected 1"
  | .badFlags flags => "Unknown header flags 0x" ++ hexadecimal 1 flags.toNat
  | .badOpcode code => "Unknown opcode 0x" ++ hexadecimal 2 code.toNat
  | .badType tag => "Unknown type tag " ++ toString tag.toNat
  | .badString => "Malformed UTF-8 string"
  | .shortString length =>
    "String of " ++ toString length.toNat ++ " bytes runs past the end of the image"
  | .badEntry entry => "Entry routine " ++ toString entry.toNat ++ " does not exist"

namespace Decoding

/-- Reads a value from the front of a byte sequence and leaves the rest. -/
abbrev Decoder (α : Type) := StateT (List UInt8) (Except ImageError) α

/-- Reads one byte. -/
def byte : Decoder UInt8 := fun bytes =>
  match bytes with
  | [] => .error .truncated
  | b :: rest => .ok (b, rest)

/-- Reads four bytes, the lowest first. -/
def word : Decoder UInt32 := do
  let b0 ← byte
  let b1 ← byte
  let b2 ← byte
  let b3 ← byte
  return UInt32.ofNat
    (b0.toNat + 256 * b1.toNat + 65536 * b2.toNat + 16777216 * b3.toNat)

/-- Reads `n` values in order. -/
def times {α : Type} (d : Decoder α) : Nat → Decoder (List α)
  | 0 => return []
  | n + 1 => do
    let x ← d
    let xs ← times d n
    return x :: xs

/-- Reads a list behind its length. -/
def list {α : Type} (d : Decoder α) : Decoder (List α) := do
  let n ← word
  times d n.toNat

/-- Reads a string behind the number of its bytes. The number is compared with what is
left before anything else is looked at. -/
def string : Decoder String := do
  let n ← word
  fun bytes =>
    let (own, rest) := bytes.splitAt n.toNat
    if own.length = n.toNat then
      match Text.decode? own with
      | some s => .ok (s, rest)
      | none => .error .badString
    else .error (.shortString n)

/-- The type with a given tag. -/
def ofTag (tag : UInt8) : Decoder WordType :=
  if tag = 0 then return .int
  else if tag = 1 then return .bool
  else if tag = 2 then return .char
  else throw (.badType tag)

/-- Reads the tag of a type. -/
def type : Decoder WordType := do
  let tag ← byte
  ofTag tag

/-- Reads a slot. -/
def slot : Decoder Slot := do
  let t ← type
  let flag ← byte
  return ⟨t, flag != 0⟩

/-- The operation on two words with a given code. -/
def binary? (code : UInt8) : Option BinaryOp :=
  [BinaryOp.add, .sub, .mul, .div, .rem, .min, .max, .and, .or, .eq, .lt, .gt].find?
    fun op => Encoding.binaryCode op = code

/-- The instruction without operand that has a given code. -/
def plain? (code : UInt8) : Option Instruction :=
  match binary? code with
  | some op => some (.binary op)
  | none =>
    [Instruction.pop, .dup, .swap, .loadElem, .storeElem, .arrayLen, .neg, .ret, .random,
     .printStr, .readLine].find? fun i => Encoding.instruction i = [code]

/-- The instructions that take a word, by their code. -/
def withWord? (code : UInt8) : Option (UInt32 → Instruction) :=
  if code = 0x01 then some fun n => .pushInt n.toInt32
  else if code = 0x10 then some .loadLocal
  else if code = 0x11 then some .storeLocal
  else if code = 0x12 then some .loadArg
  else if code = 0x13 then some .storeArg
  else if code = 0x14 then some .loadField
  else if code = 0x15 then some .storeField
  else if code = 0x20 then some .newArray
  else if code = 0x40 then some .jump
  else if code = 0x41 then some .jumpIfFalse
  else if code = 0x42 then some .jumpIfTrue
  else if code = 0x43 then some .call
  else if code = 0x54 then some .printFormat
  else none

/-- The instructions that take a type, by their code. -/
def withType? (code : UInt8) : Option (WordType → Instruction) :=
  if code = 0x51 then some .box
  else if code = 0x52 then some .print
  else if code = 0x56 then some .parse
  else none

/-- Reads an instruction. -/
def instruction : Decoder Instruction := do
  let code ← byte
  match plain? code, withWord? code, withType? code with
  | some i, _, _ => return i
  | none, some f, _ => return f (← word)
  | none, none, some f => return f (← type)
  | none, none, none =>
    if code = 0x02 then return .pushStr (← string) else throw (.badOpcode code)

/-- Reads a stream. -/
def code : Decoder Code := do
  let instructions ← list instruction
  let labels ← list word
  return ⟨instructions.toArray, labels.toArray⟩

/-- Reads a field. -/
def field : Decoder Field := do
  let name ← string
  let s ← slot
  return ⟨name, s⟩

/-- Reads a return type or its absence. -/
def returns : Decoder (Option WordType) := do
  let tag ← byte
  if tag = Encoding.noType then return none
  else return some (← ofTag tag)

/-- Reads a routine. -/
def routine : Decoder Routine := do
  let name ← string
  let params ← list slot
  let result ← returns
  let locals ← word
  let c ← code
  return ⟨name, params, result, locals, c⟩

/-- Reads the bytes that every image starts with. -/
def magic : Decoder Unit := do
  let found ← times byte Encoding.magic.length
  if found = Encoding.magic then return () else throw .badMagic

/-- Reads the version of the form. -/
def version : Decoder Unit := do
  let found ← word
  if found = Encoding.formVersion then return () else throw (.version found)

/-- Reads the flags; only the lowest has a meaning. -/
def userEntry : Decoder Bool := do
  let flags ← word
  if flags = 0 then return false
  else if flags = 1 then return true
  else throw (.badFlags flags)

/-- Reads an image. That the entry routine exists is looked at last. -/
def image : Decoder Image := do
  magic
  version
  let user ← userEntry
  let entry ← word
  let fields ← list field
  let initializer ← code
  let routines ← list routine
  if entry.toNat < routines.length then
    return ⟨user, fields, initializer, routines.toArray, entry⟩
  else throw (.badEntry entry)

end Decoding

/-- Reads an image from the front of a byte sequence, with the bytes left over. -/
def Image.decode (bytes : List UInt8) : Except ImageError (Image × List UInt8) :=
  Decoding.image bytes

end OnePass
