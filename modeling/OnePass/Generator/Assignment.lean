import OnePass.Generator.Operand

/-!
# Code for assignments

Variables and elements, read and assigned to. The index of an element is evaluated before
the value that is assigned, and once more where the present value is needed.
-/

namespace OnePass

namespace Rules

/-! ## Variables and elements -/

/-- The value of a variable. -/
def var (t : Target) (name : Name) : Gen ExprType := do
  let v ← Gen.resolve t name
  Gen.load t v
  return if v.isArray then .array v.type else .scalar v.type

/-- The value of an element; `span` is where it stands. -/
def elem (t : Target) (span : Span) (name : Name) (index : Gen Unit) : Gen ExprType := do
  let v ← Gen.resolve t name
  Gen.load t v
  if v.isArray then
    index
    Gen.emit t .loadElem
    return .scalar v.type
  else Gen.fail (.notAnArray name.value) span

/-- The part of an assignment before the value: the array and the index. -/
def beforeValue (t : Target) (v : Symbol) (index : Option (Gen Unit)) : Gen Unit :=
  match index with
  | some compile => do
    Gen.load t v
    compile
  | none => return ()

/-- The present value of a place. The index is evaluated once more. -/
def presentValue (t : Target) (v : Symbol) (index : Option (Gen Unit)) : Gen Unit := do
  Gen.load t v
  match index with
  | some compile =>
    compile
    Gen.emit t .loadElem
  | none => return ()

/-- The part of an assignment behind the value. -/
def afterValue (t : Target) (v : Symbol) (index : Option (Gen Unit)) : Gen Unit :=
  match index with
  | some _ => Gen.emit t .storeElem
  | none => Gen.store t v

/-! ## Assignments -/

/-- The value that a compound assignment stores. Order matters for subtraction and
division: the present value goes below the new one, by an exchange, or, in the legacy
form, by evaluating the right side a second time. -/
def compound (t : Target) (v : Symbol) (index : Option (Gen Unit)) (op : AssignOp)
    (value : Operand) : Gen Unit :=
  match op with
  | .set => value.compileAs (.scalar v.type)
  | .add => do
    value.compileInt
    presentValue t v index
    Gen.emit t (.binary .add)
  | .mul => do
    value.compileInt
    presentValue t v index
    Gen.emit t (.binary .mul)
  | .sub => ordered .sub
  | .div => ordered .div
where
  ordered (instruction : BinaryOp) : Gen Unit := do
    value.compileInt
    if (← get).legacy then
      Gen.emit t .pop
      presentValue t v index
      let _ ← value.compile
    else
      presentValue t v index
      Gen.emit t .swap
    Gen.emit t (.binary instruction)

/-- An assignment to a variable or element of one word. -/
def assignWord (t : Target) (v : Symbol) (index : Option (Gen Unit)) (op : Located AssignOp)
    (value : Operand) : Gen Unit := do
  if op.value ≠ .set ∧ v.type ≠ .int then
    Gen.fail (.intOperand (.assign op.value) (.scalar v.type)) op.span
  beforeValue t v index
  compound t v index op.value value
  afterValue t v index

/-- How many elements an assignment of whole arrays copies: as many as both have. The
length of an array that was passed in is not known. -/
def copyLength (target : Symbol) (targetName : Name) (source : Symbol) (sourceName : Name)
    (span : Span) : Gen UInt32 :=
  match target.shape, source.shape with
  | .array (some a), .array (some b) => return min a b
  | .array (some _), _ => Gen.fail (.unknownLength sourceName.value) span
  | _, _ => Gen.fail (.unknownLength targetName.value) targetName.span

/-- Copies the array `sourceName`, which stands at `span`, element by element. The elements are
counted by integers, so there are none if the length is no positive one. -/
def copyFrom (t : Target) (target : Symbol) (name : Name) (span : Span) (sourceName : Name) :
    Gen Unit := do
  let source ← Gen.resolve t sourceName
  if !source.isArray then Gen.fail .arraySource span
  if source.type ≠ target.type then
    Gen.fail (.typeMismatch (.array target.type) (.array source.type)) span
  let length ← copyLength target name source sourceName span
  let copy (n : UInt32) : Gen Unit := do
    Gen.load t target
    Gen.emit t (.pushInt n.toInt32)
    Gen.load t source
    Gen.emitAll t [.pushInt n.toInt32, .loadElem, .storeElem]
  Gen.forBelow copy 0 length.toInt32.toInt.toNat

/-- An assignment of a whole array. -/
def copyArray (t : Target) (target : Symbol) (name : Name) (value : Operand) : Gen Unit := do
  match value.place? with
  | some ⟨sourceName, none⟩ => copyFrom t target name value.span sourceName
  | _ => Gen.fail .arraySource value.span

/-- An assignment. -/
def assign (t : Target) (target : Operand) (op : Located AssignOp) (value : Operand) :
    Gen ExprType := do
  match target.place? with
  | none => Gen.fail .notAssignable target.span
  | some ⟨name, index⟩ =>
    let v ← Gen.resolve t name
    match index, v.isArray with
    | none, true =>
      if op.value ≠ .set then Gen.fail (.arrayOperator (.assign op.value)) op.span
      copyArray t v name value
    | some _, false => Gen.fail (.notAnArray name.value) target.span
    | index, _ => assignWord t v index op value
    return .effect

/-- `++` and `--`. -/
def step (t : Target) (target : Operand) (op : StepOp) : Gen ExprType := do
  match target.place? with
  | none => Gen.fail .notAssignable target.span
  | some ⟨name, index⟩ =>
    let v ← Gen.resolve t name
    let found ← match index, v.isArray with
      | none, true => pure (ExprType.array v.type)
      | some _, false => Gen.fail (.notAnArray name.value) target.span
      | _, _ => pure (ExprType.scalar v.type)
    if found ≠ .scalar .int then Gen.fail (.intOperand (.step op) found) target.span
    beforeValue t v index
    presentValue t v index
    Gen.emit t (.pushInt 1)
    Gen.emit t (.binary (match op with | .up => .add | .down => .sub))
    afterValue t v index
    return .effect

end Rules

end OnePass
