import OnePass.Generator.Expression

/-!
# Code for declarations

A declaration gives every variable a place to be kept, makes its name visible, and then
compiles what initialises it, in which the name is already visible. Global and static
variables are fields and are initialised before the program runs; other variables of a
block are slots of their function and are initialised each time the block is entered.
-/

namespace OnePass

namespace Gen

/-- A new global slot. -/
def addField (name : String) (slot : Slot) : Gen UInt32 := do
  let g ← get
  set { g with fields := g.fields.push ⟨name, slot⟩ }
  return .ofNat g.fields.size

/-- A new local slot of the current function. -/
def addLocal : Gen UInt32 := do
  let g ← get
  match g.current with
  | some f =>
    set { g with current := some { f with locals := f.locals + 1 } }
    return f.locals
  | none => return 0

/-- Makes a variable visible in the innermost scope. -/
def define (name : Name) (type : WordType) (storage : Storage) (shape : Shape)
    (handle : Handle) : Gen Symbol := do
  let g ← get
  let (v, scopes) ← g.scopes.define name type storage shape handle
  set { g with scopes }
  return v

end Gen

/-- The region of the name and the length of a variable. -/
def Declarator.headSpan (d : Declarator) : Span :=
  match d.length with
  | some n => d.name.span.upTo n.span
  | none => d.name.span

/-- The shape of a declared variable; an array has at least one element. -/
def Declarator.shape (d : Declarator) : Gen Shape :=
  match d.length with
  | none => return .scalar
  | some n =>
    if n.value = 0 then Gen.fail .arraySize d.headSpan
    else return .array (some n.value.toUInt32)

/-- The place of a declared variable, and the stream it is initialised in. The name of a
static field tells its function. -/
def Gen.allocate (name : Name) (slot : Slot) (static : Bool) :
    Gen (Storage × Handle × Target) := do
  let g ← get
  match g.scopes.isGlobal, static, g.current with
  | true, _, _ =>
    let n ← Gen.addField name.value slot
    return (.global, .field n, .initializer)
  | false, true, some owner =>
    let n ← Gen.addField (owner.name ++ "$" ++ name.value) slot
    return (.static, .field n, .initializer)
  | false, _, _ =>
    let n ← Gen.addLocal
    return (.local, .local n, .function)

/-- The place of a variable of a program. -/
def Declarator.allocate (d : Declarator) (slot : Slot) (static : Bool) :
    Gen (Storage × Handle × Target) :=
  Gen.allocate d.name slot static

/-- Gives a variable its first value, which `init` computes: a word is computed once, an array
element by element, each time anew. -/
def Gen.fill (t : Target) (v : Symbol) (init : Gen Unit) : Gen Unit :=
  match v.shape with
  | .array (some length) =>
    let element (n : UInt32) : Gen Unit := do
      Gen.load t v
      Gen.emit t (.pushInt n.toInt32)
      init
      Gen.emit t .storeElem
    Gen.forBelow element 0 length.toNat
  | _ => do
    init
    Gen.store t v

/-- Gives a variable the value of an expression. -/
def Gen.initialise (t : Target) (v : Symbol) (init : Expr) : Gen Unit :=
  Gen.fill t v (init.compileAs t (.scalar v.type))

/-- Declares one variable, which `init` gives its first value. -/
def Gen.declare (name : Name) (type : WordType) (static : Bool) (shape : Shape)
    (init : Target → Symbol → Gen Unit) : Gen Unit := do
  let slot : Slot := ⟨type, shape ≠ .scalar⟩
  let (storage, handle, t) ← Gen.allocate name slot static
  let v ← Gen.define name type storage shape handle
  match shape with
  | .array (some length) =>
    Gen.emit t (.newArray length)
    Gen.store t v
  | _ => pure ()
  init t v

/-- Declares one variable of a program. -/
def Declarator.compile (type : WordType) (static : Bool) (d : Declarator) : Gen Unit := do
  let shape ← d.shape
  Gen.declare d.name type static shape fun t v =>
    match d.init with
    | none => return ()
    | some init => Gen.initialise t v init

/-- Declares the variables of a declaration in order. -/
def Declaration.compile (d : Declaration) : Gen Unit :=
  d.items.forM (Declarator.compile d.type.value d.static.isSome)

/-- Declares parameters in the innermost scope, which is that of their function. -/
def Gen.defineParameters (slots : List (Name × Slot)) : Gen Unit :=
  slots.forM fun (name, slot) => do
    let index := (← get).scopes.count .argument
    let shape := if slot.array then .array none else .scalar
    let _ ← Gen.define name slot.type .argument shape (.argument index)

/-- Declares parameters of a program. -/
def ParameterGroup.compile (g : ParameterGroup) : Gen Unit := Gen.defineParameters g.slots

end OnePass
