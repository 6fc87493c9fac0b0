import OnePass.Scope
import OnePass.Image

/-!
# The state of code generation

Code goes to one of two streams: that of the function being compiled, or the initializer,
which collects what has to happen before any function runs. A stream under construction
is a `Draft`: its labels may be used before they are marked.

Labels, slots and positions are kept as numbers of 32 bits, of which only the lower 32 bits
count: where there are more things of a kind than that, two of them share a number.

`Gen` is generation with the possibility of an error; an error ends it.
-/

namespace OnePass

/-- Where generated code goes. -/
inductive Target where
  /-- the stream that runs before the program -/
  | initializer
  /-- the function being compiled -/
  | function
  deriving DecidableEq, Repr

/-- A stream under construction. -/
structure Draft where
  /-- the instructions so far -/
  instructions : Array Instruction
  /-- for each label the position it marks, once it marks one -/
  labels : Array (Option UInt32)
  deriving DecidableEq, Repr

namespace Draft

/-- A stream without instructions. -/
def empty : Draft := ⟨#[], #[]⟩

/-- The position of the next instruction. Labels hold the lower 32 bits of it. -/
def position (d : Draft) : Nat := d.instructions.size

/-- Appends an instruction. -/
def emit (d : Draft) (i : Instruction) : Draft :=
  { d with instructions := d.instructions.push i }

/-- Adds a label that marks nothing yet. -/
def addLabel (d : Draft) : Draft := { d with labels := d.labels.push none }

/-- Lets a label mark the position of the next instruction. -/
def mark (d : Draft) (label : Nat) : Draft :=
  { d with labels := d.labels.setIfInBounds label (some (.ofNat d.position)) }

/-- The finished stream. A label that marks nothing stands for the end. -/
def toCode (d : Draft) : Code :=
  ⟨d.instructions, d.labels.map fun m => m.getD (.ofNat d.position)⟩

end Draft

/-- The labels of a loop. -/
structure LoopLabels where
  /-- before the body -/
  top : UInt32
  /-- before the test -/
  test : UInt32
  /-- behind the loop -/
  exit : UInt32
  deriving DecidableEq, Repr

/-- A statement of which only the beginning has been compiled. -/
inductive Pending where
  /-- a choice; the label is where its current branch is left for -/
  | choice (label : UInt32)
  /-- a loop while a condition holds -/
  | loop (labels : LoopLabels)
  /-- a counting loop and the slot of its counter -/
  | count (counter : UInt32) (labels : LoopLabels)
  deriving DecidableEq, Repr

/-- The label that an exit from a pending statement leads to. -/
def Pending.exit? : Pending → Option UInt32
  | .choice _ => none
  | .loop labels => some labels.exit
  | .count _ labels => some labels.exit

/-- The function being compiled. -/
structure Current where
  /-- its name -/
  name : String
  /-- what its argument slots hold -/
  params : List Slot
  /-- the type it returns, if it does -/
  returns : Option WordType
  /-- how many local slots it uses so far -/
  locals : UInt32
  deriving DecidableEq, Repr

/-- All that code generation knows. -/
structure Generator where
  /-- the visible variables -/
  scopes : Scopes
  /-- the functions defined so far -/
  functions : Functions
  /-- whether the right side of a compound subtraction or division is evaluated twice -/
  legacy : Bool
  /-- the global slots so far -/
  fields : Array Field
  /-- the initializer so far -/
  initializer : Draft
  /-- the code of the current function so far -/
  body : Draft
  /-- the functions already finished -/
  routines : Array Routine
  /-- the current function; it stays current until the next one begins -/
  current : Option Current
  /-- the statements being compiled, the innermost first -/
  pending : List Pending
  deriving DecidableEq, Repr

/-- Before anything is compiled. -/
def Generator.new (legacy : Bool) : Generator :=
  ⟨.new, .new, legacy, #[], .empty, .empty, #[], none, []⟩

/-- Code generation, which an error ends. -/
abbrev Gen (α : Type) := StateT Generator (Except (Located SemanticError)) α

namespace Gen

/-- Ends generation with an error at `span`. -/
def fail {α : Type} (e : SemanticError) (span : Span) : Gen α :=
  throw ⟨e, span⟩

/-- Changes the stream of a target. -/
def onDraft (t : Target) (f : Draft → Draft) : Gen Unit :=
  match t with
  | .initializer => modify fun g => { g with initializer := f g.initializer }
  | .function => modify fun g => { g with body := f g.body }

/-- The stream of a target. -/
def draft (t : Target) : Gen Draft := do
  match t with
  | .initializer => return (← get).initializer
  | .function => return (← get).body

/-- Appends an instruction. -/
def emit (t : Target) (i : Instruction) : Gen Unit := onDraft t fun d => d.emit i

/-- Appends instructions. -/
def emitAll (t : Target) (is : List Instruction) : Gen Unit := is.forM (emit t)

/-- A new label. -/
def newLabel (t : Target) : Gen UInt32 := do
  let d ← draft t
  onDraft t Draft.addLabel
  return .ofNat d.labels.size

/-- Lets a label mark the position of the next instruction. -/
def mark (t : Target) (label : UInt32) : Gen Unit :=
  onDraft t fun d => d.mark label.toNat

/-- Requires an expression at `span` to have a type. -/
def expectType (span : Span) (expected found : ExprType) : Gen Unit :=
  if expected = found then return () else fail (.typeMismatch expected found) span

/-- The variable that a name stands for. Before the program runs there are no functions,
and so no local variables or arguments. -/
def resolve (t : Target) (name : Name) : Gen Symbol := do
  let v ← (← get).scopes.resolve name
  match t, v.handle with
  | .initializer, .local _ | .initializer, .argument _ => fail (.notConstant name.value) name.span
  | _, _ => return v

/-- Pushes what a variable holds. -/
def load (t : Target) (v : Symbol) : Gen Unit :=
  match v.handle with
  | .field n => emit t (.loadField n)
  | .local n => emit t (.loadLocal n)
  | .argument n => emit t (.loadArg n)

/-- Pops what a variable is to hold. -/
def store (t : Target) (v : Symbol) : Gen Unit :=
  match v.handle with
  | .field n => emit t (.storeField n)
  | .local n => emit t (.storeLocal n)
  | .argument n => emit t (.storeArg n)

/-- Does `f` for the numbers below `n` in order, after `start`. -/
def forBelow (f : UInt32 → Gen Unit) (start : Nat) : Nat → Gen Unit
  | 0 => return ()
  | n + 1 => do
    f (UInt32.ofNat start)
    forBelow f (start + 1) n

end Gen

end OnePass
