import OnePass.Proofs.StoredForm

/-!
# What the bytes of a stored image are for

The stored form of an image once more, each byte with its role: `Image.marked` is `Image.encode`
(`Image.values_marked`) and says of every byte whether it marks a slot as an array, belongs to a
text, or neither. Where the stored form may be varied and where it may be cut off is said by the
roles of its bytes.
-/

namespace OnePass

/-- What a byte of a stored image is for. -/
inductive ByteRole where
  /-- it says whether a slot holds an array -/
  | arrayMark
  /-- it belongs to a text of `length` bytes, the number of which stands before them -/
  | text (length : Nat)
  /-- it is a code, a tag or a part of a number -/
  | other
  deriving DecidableEq, Repr

/-- A byte of a stored image with its role. -/
structure MarkedByte where
  /-- the byte -/
  value : UInt8
  /-- what it is for -/
  role : ByteRole
  deriving DecidableEq, Repr

namespace Marked

/-- Bytes that are neither array marks nor text. -/
def other (bs : List UInt8) : List MarkedByte := bs.map fun b => ⟨b, .other⟩

/-- A text behind the number of its bytes. -/
def string (s : String) : List MarkedByte :=
  other (Encoding.count (Text.encode s).length)
    ++ (Text.encode s).map fun b => ⟨b, .text (Text.encode s).length⟩

/-- A list behind its length. -/
def list {α : Type} (f : α → List MarkedByte) (xs : List α) : List MarkedByte :=
  other (Encoding.count xs.length) ++ xs.flatMap f

/-- A slot: the tag of its type and its array mark. -/
def slot (s : Slot) : List MarkedByte :=
  [⟨Encoding.typeTag s.type, .other⟩, ⟨if s.array then 1 else 0, .arrayMark⟩]

/-- An instruction. -/
def instruction : Instruction → List MarkedByte
  | .pushStr s => other [0x02] ++ string s
  | i => other (Encoding.instruction i)

/-- A stream: its instructions, then its labels. -/
def code (c : Code) : List MarkedByte :=
  list instruction c.instructions.toList
    ++ list (fun n => other (Encoding.word n)) c.labels.toList

/-- A field: its name, then its slot. -/
def field (f : Field) : List MarkedByte := string f.name ++ slot f.slot

/-- A routine: name, parameters, return type, number of locals and code. -/
def routine (r : Routine) : List MarkedByte :=
  string r.name ++ list slot r.params ++ other (Encoding.returns r.returns)
    ++ other (Encoding.word r.locals) ++ code r.code

end Marked

/-- The stored form of an image, each byte with its role. -/
def Image.marked (i : Image) : List MarkedByte :=
  Marked.other Encoding.magic ++ Marked.other (Encoding.word Encoding.formVersion)
    ++ Marked.other (Encoding.word (if i.userEntry then 1 else 0))
    ++ Marked.other (Encoding.word i.entry) ++ Marked.list Marked.field i.fields
    ++ Marked.code i.initializer ++ Marked.list Marked.routine i.routines.toList

/-- The roles of the bytes of a stored image. -/
def Image.roles (i : Image) : List ByteRole := i.marked.map MarkedByte.role

/-! ## The bytes themselves -/

namespace Marked

/-- The bytes without their roles. -/
def values (ms : List MarkedByte) : List UInt8 := ms.map MarkedByte.value

@[simp] theorem values_nil : values [] = [] := rfl

@[simp] theorem values_append (ms ns : List MarkedByte) :
    values (ms ++ ns) = values ms ++ values ns :=
  List.map_append

theorem values_text (bs : List UInt8) (r : ByteRole) :
    values (bs.map fun b => ⟨b, r⟩) = bs := by
  rw [values, List.map_map]
  exact List.map_id bs

@[simp] theorem values_other (bs : List UInt8) : values (other bs) = bs := values_text bs .other

@[simp] theorem values_string (s : String) : values (string s) = Encoding.string s := by
  rw [string, values_append, values_other, values_text]
  rfl

theorem values_list {α : Type} {f : α → List MarkedByte} {g : α → List UInt8}
    (h : ∀ x, values (f x) = g x) (xs : List α) : values (list f xs) = Encoding.list g xs := by
  rw [list, values_append, values_other, values, List.map_flatMap]
  exact congrArg (_ ++ List.flatMap · xs) (funext h)

@[simp] theorem values_slot (s : Slot) : values (slot s) = Encoding.slot s := rfl

@[simp] theorem values_instruction (i : Instruction) :
    values (instruction i) = Encoding.instruction i := by
  cases i with
  | pushStr s =>
    rw [instruction, values_append, values_other, values_string]
    rfl
  | _ => exact values_other _

@[simp] theorem values_code (c : Code) : values (code c) = Encoding.code c := by
  rw [code, values_append, values_list values_instruction,
    values_list fun n => values_other (Encoding.word n)]
  rfl

@[simp] theorem values_field (f : Field) : values (field f) = Encoding.field f := by
  rw [field, values_append, values_string, values_slot, Encoding.field]

@[simp] theorem values_routine (r : Routine) : values (routine r) = Encoding.routine r := by
  simp only [routine, values_append, values_string, values_list values_slot, values_other,
    values_code, Encoding.routine]

end Marked

theorem Image.values_marked (i : Image) : Marked.values i.marked = i.encode := by
  simp only [marked, encode, Marked.values_append, Marked.values_other,
    Marked.values_list Marked.values_field, Marked.values_code,
    Marked.values_list Marked.values_routine]

theorem Image.length_roles (i : Image) : i.roles.length = i.encode.length := by
  rw [← values_marked, roles, Marked.values, List.length_map, List.length_map]

end OnePass
