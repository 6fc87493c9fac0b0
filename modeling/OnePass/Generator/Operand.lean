import OnePass.Generator

/-!
# Operands

The code for an expression is put together from the code for its parts. An `Operand` is
all that the outer expression needs of an inner one: where it stands, how it is compiled,
and which place it is, if it is one. Code for an expression leaves its value on the stack,
if it has one, and changes nothing below it.
-/

namespace OnePass

/-- What can be assigned to: a variable, or an element of one, whose index is compiled
by `index` and must be an integer. -/
structure Place where
  /-- the variable -/
  name : Name
  /-- compiles the index of the element -/
  index : Option (Gen Unit)

/-- What is needed of an expression to compile what contains it. -/
structure Operand where
  /-- where it stands -/
  span : Span
  /-- compiles it -/
  compile : Gen ExprType
  /-- the place it is, unless it is none -/
  place? : Option Place

namespace Operand

/-- Compiles an expression that must be of a type. -/
def compileAs (o : Operand) (expected : ExprType) : Gen Unit := do
  let found ← o.compile
  Gen.expectType o.span expected found

/-- Compiles an expression that must be an integer. -/
def compileInt (o : Operand) : Gen Unit := o.compileAs (.scalar .int)

/-- Compiles an expression that must be a truth value. -/
def compileBool (o : Operand) : Gen Unit := o.compileAs (.scalar .bool)

/-- Compiles an operand of the integer operator `op`. -/
def compileUnder (o : Operand) (op : Token) : Gen Unit := do
  let found ← o.compile
  if found ≠ .scalar .int then Gen.fail (.intOperand op found) o.span

end Operand

end OnePass
