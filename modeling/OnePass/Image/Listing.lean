import OnePass.Image
import OnePass.Text.Quoted
import OnePass.Text.Decimal

/-!
# Listings

The readable form of an image: its fields, its initializer and its routines, with every
label on a line of its own before the instruction it stands for.
-/

namespace OnePass

namespace Listing

/-- The name of an operation on two words. -/
def binaryName : BinaryOp → String
  | .add => "add"
  | .sub => "sub"
  | .mul => "mul"
  | .div => "div"
  | .rem => "rem"
  | .min => "min"
  | .max => "max"
  | .and => "and"
  | .or => "or"
  | .eq => "eq"
  | .lt => "lt"
  | .gt => "gt"

/-- The name of a label. -/
def labelName (n : Nat) : String := ".L" ++ toString n

/-- The name of an instruction and the text of its operand, if it has one. -/
def parts : Instruction → String × Option String
  | .pushInt value => ("push", some (Text.renderWord value))
  | .pushStr value => ("push.str", some (Text.quotedString value))
  | .pop => ("pop", none)
  | .dup => ("dup", none)
  | .swap => ("swap", none)
  | .loadLocal index => ("ld.local", some (toString index.toNat))
  | .storeLocal index => ("st.local", some (toString index.toNat))
  | .loadArg index => ("ld.arg", some (toString index.toNat))
  | .storeArg index => ("st.arg", some (toString index.toNat))
  | .loadField index => ("ld.field", some (toString index.toNat))
  | .storeField index => ("st.field", some (toString index.toNat))
  | .newArray length => ("newarr", some (toString length.toNat))
  | .loadElem => ("ld.elem", none)
  | .storeElem => ("st.elem", none)
  | .arrayLen => ("len", none)
  | .binary op => (binaryName op, none)
  | .neg => ("neg", none)
  | .jump label => ("jmp", some (labelName label.toNat))
  | .jumpIfFalse label => ("jmp.f", some (labelName label.toNat))
  | .jumpIfTrue label => ("jmp.t", some (labelName label.toNat))
  | .call routine => ("call", some (toString routine.toNat))
  | .ret => ("ret", none)
  | .random => ("rand", none)
  | .box type => ("box", some type.text)
  | .print type => ("print", some type.text)
  | .printStr => ("print.str", none)
  | .printFormat count => ("print.fmt", some (toString count.toNat))
  | .readLine => ("readln", none)
  | .parse type => ("parse", some type.text)

/-- The width of the column of names before an operand. -/
def nameWidth : Nat := 12

/-- The line of an instruction. -/
def instruction (i : Instruction) : String :=
  match parts i with
  | (name, none) => "\t" ++ name ++ "\n"
  | (name, some operand) =>
    "\t" ++ name ++ String.ofList (List.replicate (nameWidth - name.length) ' ') ++ operand
      ++ "\n"

/-- The labels, each behind its target, in the order in which they are shown: by their targets, and
those of one target by their numbers. -/
def marks (labels : List UInt32) : List (Nat × Nat) :=
  (labels.zipIdx.map fun (target, n) => (target.toNat, n)).mergeSort fun a b =>
    a.1 < b.1 || a.1 = b.1 && a.2 ≤ b.2

/-- The lines of labels. -/
def labelLines (marks : List (Nat × Nat)) : String :=
  String.join (marks.map fun (_, n) => labelName n ++ ":\n")

/-- The lines of the instructions from `position` on, with the labels before each and
behind the last. `marks` are the labels that were not shown yet. -/
def lines (marks : List (Nat × Nat)) (position : Nat) : List Instruction → String
  | [] => labelLines (marks.takeWhile fun m => m.1 = position)
  | i :: rest =>
    labelLines (marks.takeWhile fun m => m.1 = position) ++ instruction i
      ++ lines (marks.dropWhile fun m => m.1 = position) (position + 1) rest

/-- The lines of a stream. -/
def code (c : Code) : String := lines (marks c.labels.toList) 0 c.instructions.toList

/-- The line of the field numbered `n`. -/
def field (f : Field) (n : Nat) : String :=
  ".field " ++ toString n ++ " " ++ f.slot.text ++ " " ++ f.name ++ "\n"

/-- The lines of the routine numbered `n`. -/
def routine (entry : UInt32) (r : Routine) (n : Nat) : String :=
  let returns := (r.returns.map WordType.text).getD "void"
  let params := String.intercalate ", " (r.params.map Slot.text)
  let mark := if n = entry.toNat then " .entry" else ""
  "\n.routine " ++ toString n ++ " " ++ returns ++ " " ++ r.name ++ "(" ++ params ++ ") locals="
    ++ toString r.locals.toNat ++ mark ++ "\n" ++ code r.code

end Listing

/-- The listing of an image. -/
def Image.listing (i : Image) : String :=
  String.join (i.fields.zipIdx.map fun (f, n) => Listing.field f n)
    ++ "\n.initializer\n" ++ Listing.code i.initializer
    ++ String.join (i.routines.toList.zipIdx.map fun (r, n) => Listing.routine i.entry r n)

end OnePass
