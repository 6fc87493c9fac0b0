import OnePass.Generator.Declaration
import OnePass.Tree.Construct

/-!
# Code for constructs

Each construct changes the state of generation when it is recognised. A statement that
contains others is compiled in pieces; what has to be known from one piece to the next
waits in `Generator.pending`. The condition of a loop and the end and the step of a
counting loop come behind the body they belong to.

Every statement is entered and left with an empty stack.
-/

namespace OnePass

/-- The value returned at the end of a function that does not return by itself. -/
def implicitValue : WordType → Int32
  | .char => Word.ofChar '.'
  | .int | .bool => 0

/-- What stands at the end of a function: the value, if it has a type, and a return. -/
def implicitReturn (returns : Option WordType) : List Instruction :=
  match returns with
  | some type => [.pushInt (implicitValue type), .ret]
  | none => [.ret]

/-- The state with the current function finished, if there is one: there is a return at its
end, and it is one of the routines. -/
def Generator.finishFunction (g : Generator) : Generator :=
  match g.current with
  | none => g
  | some f =>
    let body := (implicitReturn f.returns).foldl Draft.emit g.body
    { g with
      routines := g.routines.push ⟨f.name, f.params, f.returns, f.locals, body.toCode⟩
      body := .empty
      current := none }

namespace Gen

/-- Opens a scope. -/
def openScope : Gen Unit := modify fun g => { g with scopes := g.scopes.push }

/-- Closes the innermost scope. -/
def closeScope : Gen Unit := modify fun g => { g with scopes := g.scopes.pop }

/-- Sets a statement aside until its next piece. -/
def suspend (p : Pending) : Gen Unit := modify fun g => { g with pending := p :: g.pending }

/-- Takes up the innermost statement set aside. -/
def resume : Gen (Option Pending) := do
  let g ← get
  set { g with pending := g.pending.tail }
  return g.pending.head?

/-- Appends to the current function. -/
def emitBody (i : Instruction) : Gen Unit := emit .function i

/-- Lets a label of the current function mark its end so far. -/
def markBody (label : UInt32) : Gen Unit := mark .function label

/-- A new label of the current function. -/
def newBodyLabel : Gen UInt32 := newLabel .function

/-! ## Choices -/

/-- The condition of a choice and the jump over its first branch. -/
def beginIf (condition : Gen Unit) : Gen Unit := do
  condition
  let otherwise ← newBodyLabel
  emitBody (.jumpIfFalse otherwise)
  suspend (.choice otherwise)

/-- The beginning of a choice of a program. -/
def ifTrue (condition : Expr) : Gen Unit :=
  beginIf (condition.compileAs .function (.scalar .bool))

/-- Between the branches: the first one jumps over the second. -/
def ifFalse : Gen Unit := do
  if let some (.choice otherwise) ← resume then
    let done ← newBodyLabel
    emitBody (.jump done)
    markBody otherwise
    suspend (.choice done)

/-- Behind a choice. -/
def endIf : Gen Unit := do
  if let some (.choice label) ← resume then markBody label

/-! ## Loops -/

/-- Enters a loop at its test, which comes behind its body. -/
def enterLoop : Gen LoopLabels := do
  let top ← newBodyLabel
  let test ← newBodyLabel
  let exit ← newBodyLabel
  emitBody (.jump test)
  markBody top
  return ⟨top, test, exit⟩

/-- Before the body of a loop. -/
def openLoop : Gen Unit := do
  let labels ← enterLoop
  suspend (.loop labels)

/-- Behind the body of a loop: its condition. -/
def endWhile (condition : Gen Unit) : Gen Unit := do
  match (← get).pending.head? with
  | some (.loop labels) =>
    markBody labels.test
    condition
    emitBody (.jumpIfTrue labels.top)
    markBody labels.exit
    let _ ← resume
  | _ => return ()

/-- The end of a loop of a program. -/
def closeLoop (condition : Expr) : Gen Unit :=
  endWhile (condition.compileAs .function (.scalar .bool))

/-- Before the body of a counting loop: its counter gets a scope and its first value. -/
def beginFor (counter : Name) (start : Gen Unit) : Gen Unit := do
  openScope
  let slot ← addLocal
  let _ ← define counter .int .local .scalar (.local slot)
  start
  emitBody (.storeLocal slot)
  let labels ← enterLoop
  suspend (.count slot labels)

/-- The beginning of a counting loop of a program; it has to say where it ends. -/
def openCount (counter : Name) (range : Range) : Gen Unit := do
  if range.bound.isNone then fail .missingBound range.start.span
  beginFor counter (range.start.compileAs .function (.scalar .int))

/-- The step of a counting loop; 1 if it is not given. -/
def stepOf (range : Range) : Gen Unit :=
  match range.bound with
  | some (_, some step) => step.compileAs .function (.scalar .int)
  | _ => emitBody (.pushInt 1)

/-- The end of a counting loop. -/
def boundOf (range : Range) : Gen Unit :=
  match range.bound with
  | some (last, _) => last.compileAs .function (.scalar .int)
  | none => return ()

/-- Behind the body of a counting loop: the counter goes one step, and the body is done
again unless the counter exceeds the end. -/
def endFor (step bound : Gen Unit) : Gen Unit := do
  match (← get).pending.head? with
  | some (.count slot labels) =>
    emitBody (.loadLocal slot)
    step
    emitBody (.binary .add)
    emitBody (.storeLocal slot)
    markBody labels.test
    emitBody (.loadLocal slot)
    bound
    emitAll .function
      [.binary .gt, .pushInt 0, .binary .eq, .jumpIfTrue labels.top]
    markBody labels.exit
    let _ ← resume
    closeScope
  | _ => return ()

/-- The end of a counting loop of a program. -/
def closeCount (range : Range) : Gen Unit := endFor (stepOf range) (boundOf range)

/-! ## Simple statements -/

/-- An expression for its effect; a value that is left over is dropped. -/
def expressionStatement (value : Gen ExprType) : Gen Unit := do
  let found ← value
  if found.hasValue then emitBody .pop

/-- An expression of a program for its effect. -/
def effect (e : Expr) : Gen Unit := expressionStatement (e.compile .function)

/-- A return, with a value exactly if the function has a type. -/
def returnStatement (word : Span) (value : Option Operand) : Gen Unit := do
  match (← get).current with
  | none => fail (.malformed .returnStmt) word
  | some f =>
    match value, f.returns with
    | some o, some type => o.compileAs (.scalar type)
    | some o, none => fail (.returnInVoid f.name) o.span
    | none, some type => fail (.missingReturnValue f.name type) word
    | none, none => pure ()
    emitBody .ret

/-- A return of a program. -/
def ret (word : Span) (value : Option Expr) : Gen Unit :=
  returnStatement word (value.map (Expr.operand .function))

/-- An exit from the innermost loop. -/
def leave (word : Span) : Gen Unit := do
  match (← get).pending.findSome? Pending.exit? with
  | some exit => emitBody (.jump exit)
  | none => fail .breakOutsideLoop word

/-! ## Functions -/

/-- Finishes the current function, if there is one, with a return at its end. -/
def finishFunction : Gen Unit := modify Generator.finishFunction

/-- Begins a function whose parameters are declared; the one before it is finished. -/
def beginFunctionAs (name : Name) (params : List Slot) (returns : Option WordType) : Gen Unit := do
  finishFunction
  let g ← get
  let routine : FunctionBody := .routine (.ofNat g.routines.size)
  let functions ← g.functions.define name ⟨params, returns, routine⟩
  set { g with
    functions
    current := some ⟨name.value, params, returns, 0⟩
    pending := [] }

/-- Begins a function of a program. -/
def beginFunction (h : Header) : Gen Unit :=
  beginFunctionAs h.name h.parameterTypes h.returnType

end Gen

/-- What a construct does to generation when it is recognised. -/
def Construct.compile : Construct → Gen Unit
  | .globals d => d.compile
  | .openFunction => Gen.openScope
  | .parameters g => g.compile
  | .header h => Gen.beginFunction h
  | .closeFunction => Gen.closeScope
  | .openBlock => Gen.openScope
  | .locals d => d.compile
  | .closeBlock => Gen.closeScope
  | .expr e => Gen.effect e
  | .ifTrue c => Gen.ifTrue c
  | .ifFalse => Gen.ifFalse
  | .endIf => Gen.endIf
  | .openLoop => Gen.openLoop
  | .closeLoop c => Gen.closeLoop c
  | .openCount counter range => Gen.openCount counter range
  | .closeCount range => Gen.closeCount range
  | .ret word value => Gen.ret word value
  | .leave word => Gen.leave word

/-- The name of the function that a program starts with. -/
def entryName : String := "main"

/-- The routine that stands in for an entry function that is not there. -/
def emptyEntry : Routine := ⟨"Main", [], none, 0, ⟨#[.ret], #[]⟩⟩

/-- The image of a state in which everything is compiled. -/
def Generator.toImage (g : Generator) : Image :=
  let fields := g.fields.toList
  let initializer := g.initializer.toCode
  match (g.functions.lookup entryName).map FunctionSymbol.body with
  | some (.routine n) => ⟨true, fields, initializer, g.routines, n⟩
  | _ => ⟨false, fields, initializer, g.routines.push emptyEntry, .ofNat g.routines.size⟩

/-- The state that generation from the start ends in, or the first error of meaning. -/
def Gen.state (legacy : Bool) (m : Gen Unit) : Except (Located SemanticError) Generator :=
  match m.run (.new legacy) with
  | .ok (_, g) => .ok g
  | .error e => .error e

/-- The state of generation behind constructs. -/
def generate (legacy : Bool) (cs : List Construct) : Except (Located SemanticError) Generator :=
  Gen.state legacy (cs.forM Construct.compile)

/-- The image of a whole program from the state behind its constructs: the last function and
the initializer are finished, and if there is no entry function an empty one is added. -/
def Generator.finish (g : Generator) : Image :=
  let g := g.finishFunction
  { g with initializer := g.initializer.emit .ret }.toImage

end OnePass
