import OnePass.Generator.Operand

/-!
# Code for operators

Literals and operators on values. The operands are evaluated from left to right, and both
of them always.
-/

namespace OnePass

namespace Rules

/-- A literal. -/
def literal (t : Target) : Literal → Gen ExprType
  | .int n => do
    Gen.emit t (.pushInt n)
    return .scalar .int
  | .bool b => do
    Gen.emit t (.pushInt (Word.ofBool b))
    return .scalar .bool
  | .char c => do
    Gen.emit t (.pushInt (Word.ofChar c))
    return .scalar .char
  | .str s => do
    Gen.emit t (.pushStr s)
    return .str

/-- Replaces the truth value on top by its opposite. -/
def invert (t : Target) : Gen Unit := Gen.emitAll t [.pushInt 0, .binary .eq]

/-- The instruction of an operator on two truth values. -/
def logicInstruction : LogicOp → BinaryOp
  | .and => .and
  | .or => .or

/-- `and` and `or`; both operands are always evaluated. -/
def logic (t : Target) (op : LogicOp) (l r : Operand) : Gen ExprType := do
  l.compileBool
  r.compileBool
  Gen.emit t (.binary (logicInstruction op))
  return .scalar .bool

/-- `not`. -/
def negate (t : Target) (o : Operand) : Gen ExprType := do
  o.compileBool
  invert t
  return .scalar .bool

/-- Whether values of a type can be compared with an operator: any words for equality,
integers and characters for order. -/
def comparable (op : RelOp) (type : ExprType) : Bool :=
  match type with
  | .scalar .int | .scalar .char => true
  | .scalar .bool => op = .eq || op = .ne
  | _ => false

/-- The code of a comparison, behind that of its operands. -/
def comparison : RelOp → List Instruction
  | .eq => [.binary .eq]
  | .ne => [.binary .eq, .pushInt 0, .binary .eq]
  | .lt => [.binary .lt]
  | .gt => [.binary .gt]
  | .ge => [.binary .lt, .pushInt 0, .binary .eq]
  | .le => [.binary .gt, .pushInt 0, .binary .eq]

/-- Comparisons of two words of one type. -/
def compare (t : Target) (l : Operand) (op : RelOp) (r : Operand) : Gen ExprType := do
  let left ← l.compile
  let right ← r.compile
  if comparable op left then
    Gen.expectType r.span left right
    Gen.emitAll t (comparison op)
    return .scalar .bool
  else Gen.fail (.typeMismatch (.scalar .int) left) l.span

/-- The instruction of an operator on two integers. -/
def arithInstruction : ArithOp → BinaryOp
  | .min => .min
  | .max => .max
  | .add => .add
  | .sub => .sub
  | .mul => .mul
  | .div => .div
  | .rem => .rem

/-- Operators on two integers. -/
def arith (t : Target) (l : Operand) (op : ArithOp) (r : Operand) : Gen ExprType := do
  l.compileUnder op.token
  r.compileUnder op.token
  Gen.emit t (.binary (arithInstruction op))
  return .scalar .int

/-- The random number below the integer on top; for a negative one the opposite of that
below its opposite. -/
def random (t : Target) : Gen Unit := do
  let positive ← Gen.newLabel t
  let done ← Gen.newLabel t
  Gen.emitAll t
    [.dup, .pushInt 0, .binary .lt, .jumpIfFalse positive, .neg, .random, .neg, .jump done]
  Gen.mark t positive
  Gen.emit t .random
  Gen.mark t done

/-- Operators before their operand. -/
def lead (t : Target) (op : LeadOp) (o : Operand) : Gen ExprType :=
  match op with
  | .length => do
    match ← o.compile with
    | .array _ =>
      Gen.emit t .arrayLen
      return .scalar .int
    | found => Gen.fail (.arrayOperand found) o.span
  | .negative => do
    o.compileUnder op.token
    Gen.emit t .neg
    return .scalar .int
  | .random => do
    o.compileUnder op.token
    random t
    return .scalar .int

end Rules

end OnePass
