import OnePass.Generator.Assignment

/-!
# Code for calls

Calls of routines, and of the functions that are always there: output, with or without a
format string, and input of lines into places.
-/

namespace OnePass

namespace Rules

/-- Compiles the arguments of a routine, each of the type of its slot. -/
def arguments : List Operand → List Slot → Gen Unit
  | o :: os, s :: ss => do
    o.compileAs (.ofSlot s)
    arguments os ss
  | _, _ => return ()

/-- Compiles the arguments behind a format string. -/
def formatArguments (t : Target) : List Operand → Gen Unit
  | [] => return ()
  | o :: os => do
    match ← o.compile with
    | .scalar type => Gen.emit t (.box type)
    | .str => pure ()
    | found => Gen.fail (.notPrintable found) o.span
    formatArguments t os

/-- Output: one value as its type has it, or a format string filled with values. -/
def print (t : Target) (name : Name) : List Operand → Gen ExprType
  | [] => Gen.fail (.missingArguments name.value) name.span
  | [o] => do
    match ← o.compile with
    | .scalar type => Gen.emit t (.print type)
    | .str => Gen.emit t .printStr
    | found => Gen.fail (.notPrintable found) o.span
    return .effect
  | format :: rest => do
    let found ← format.compile
    if found ≠ .str then Gen.fail (.printFormat found) format.span
    formatArguments t rest
    Gen.emit t (.printFormat (.ofNat rest.length))
    return .effect

/-- Input of one line into the place that stands at `span`. -/
def putInto (t : Target) (span : Span) (name : Name) (index : Option (Gen Unit)) : Gen Unit := do
  let v ← Gen.resolve t name
  match index, v.isArray with
  | none, true => Gen.fail (.putArray name.value) span
  | some _, false => Gen.fail (.notAnArray name.value) span
  | index, _ =>
    beforeValue t v index
    Gen.emitAll t [.readLine, .parse v.type]
    afterValue t v index

/-- Input of one line into one place. -/
def putOne (t : Target) (o : Operand) : Gen Unit := do
  match o.place? with
  | none => Gen.fail .putTarget o.span
  | some ⟨name, index⟩ => putInto t o.span name index

/-- Input, one line for each argument. -/
def putEach {α : Type} (name : Name) (args : List α) (one : α → Gen Unit) : Gen ExprType := do
  if args.isEmpty then Gen.fail (.missingArguments name.value) name.span
  args.forM one
  return .effect

/-- Input, one line for each place. -/
def put (t : Target) (name : Name) (args : List Operand) : Gen ExprType :=
  putEach name args (putOne t)

/-- A call; `span` is where it stands, and `input` compiles a call of the function for input.
Arrays are passed by reference. -/
def callOr (t : Target) (span : Span) (name : Name) (args : List Operand) (input : Gen ExprType) :
    Gen ExprType := do
  let f ← (← get).functions.resolve name
  match f.body with
  | .intrinsic .print => print t name args
  | .intrinsic .put => input
  | .routine n =>
    if args.length ≠ f.params.length then
      Gen.fail (.argumentCount name.value f.params.length args.length) span
    arguments args f.params
    Gen.emit t (.call n)
    return (f.returns.map ExprType.scalar).getD .void

/-- A call of a program. -/
def call (t : Target) (span : Span) (name : Name) (args : List Operand) : Gen ExprType :=
  callOr t span name args (put t name args)

end Rules

end OnePass
