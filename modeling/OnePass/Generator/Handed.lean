import OnePass.Generator.Branch
import OnePass.Generator.Statement
import OnePass.Tree.View

/-!
# Code for what is handed over

As soon as a construct is recognised, its nodes are handed over and code is generated for them: a
declaration as a whole, a function before it has its body, the condition of a loop behind the body.
`Construct.handle` says which nodes these are, and `generateFrom` does so for one construct after
the other. -/

namespace OnePass

namespace Node

/-! ## Types and parameters -/

/-- The type that a leaf names; it is `int` if it names none. -/
def declaredType (n : Node) : WordType :=
  match n.token?.map Located.value with
  | some (.keyword .bool) => .bool
  | some (.keyword .char) => .char
  | _ => .int

/-- The type that a function returns, if its node has one. -/
def functionType (n : Node) : Option WordType := (n.find? .typeSpec).map declaredType

/-- The parameters of one type, with what their slots hold. -/
def parameterGroup (n : Node) : List (Name × Slot) :=
  let type := ((n.find? .typeSpec).map declaredType).getD .int
  let ids := ((n.find? .parmIdList).map children).getD []
  ids.filterMap fun c => do
    let id ← c.find? .id
    let name ← id.identifier?
    return (name, ⟨type, (c.find? .brackets).isSome⟩)

/-- The parameters of a function, with what their slots hold. -/
def parameters (n : Node) : List (Name × Slot) :=
  ((n.find? .parms).map children).getD [] |>.flatMap parameterGroup

/-! ## Operands -/

section

variable (origin : Span) (t : Target)

/-- A node as an operand. -/
def operand (n : Node) : Operand := (n.branch origin t).operand origin

/-- A node as an operand that may be an assignment. -/
def argument (n : Node) : Operand := (n.branch origin t).argument origin

/-! ## Declarations -/

/-- The shape of the variable that a node names; an array has at least one element. -/
def shape (n : Node) : Gen Shape :=
  match ((n.find? .constant).bind token?).map Located.value with
  | some (.int length) =>
    if length = 0 then Gen.fail .arraySize (n.place origin)
    else return .array (some length.toUInt32)
  | _ => return .scalar

/-- Declares one variable. -/
def declare (type : WordType) (static : Bool) (n : Node) : Gen Unit := do
  let id ← n.find origin .varDeclId
  let name ← id.name origin
  let shape ← id.shape origin
  Gen.declare name type static shape fun t v =>
    match n.find? .simpleExpression with
    | none => return ()
    | some init => Gen.fill t v ((init.operand origin t).compileAs (.scalar v.type))

/-- Declares the variables of a declaration in order. -/
def declareAll (static : Bool) (n : Node) : Gen Unit := do
  let type := (← n.find origin .typeSpec).declaredType
  let list ← n.find origin .varDeclList
  list.children.forM (declare origin type static)

/-! ## Counting loops -/

/-- Before the body of a counting loop. -/
def beginFor (counter : Name) (n : Node) : Gen Unit := do
  let start ← n.part origin 0
  if n.children[1]?.isNone then Gen.fail .missingBound (n.place origin)
  Gen.beginFor counter (start.operand origin .function).compileInt

/-- The step of a counting loop; 1 if it is not given. -/
def step (n : Node) : Gen Unit :=
  match n.children[2]? with
  | some step => (step.operand origin .function).compileInt
  | none => Gen.emitBody (.pushInt 1)

/-- The end of a counting loop. -/
def bound (n : Node) : Gen Unit := do
  let bound ← n.part origin 1
  (bound.operand origin .function).compileInt

end

end Node

/-- What is done with the nodes of a construct when it is recognised. -/
def Construct.handle (origin : Span) : Construct → Gen Unit
  | .globals d => d.globalNode.declareAll origin false
  | .openFunction => Gen.openScope
  | .parameters g => Gen.defineParameters g.node.parameterGroup
  | .header h =>
    let n := Node.inner .funDecl h.parts
    Gen.beginFunctionAs h.name (n.parameters.map Prod.snd) n.functionType
  | .closeFunction => Gen.closeScope
  | .openBlock => Gen.openScope
  | .locals d => d.localNode.declareAll origin (d.localNode.find? .static).isSome
  | .closeBlock => Gen.closeScope
  | .expr e => Gen.expressionStatement (e.node.argument origin .function).compile
  | .ifTrue c => Gen.beginIf (c.simpleNode.operand origin .function).compileBool
  | .ifFalse => Gen.ifFalse
  | .endIf => Gen.endIf
  | .openLoop => Gen.openLoop
  | .closeLoop c => Gen.endWhile (c.simpleNode.operand origin .function).compileBool
  | .openCount counter range => range.node.beginFor origin counter
  | .closeCount range => Gen.endFor (range.node.step origin) (range.node.bound origin)
  | .ret word value =>
    Gen.returnStatement word (value.map fun e => e.node.argument origin .function)
  | .leave word => Gen.leave word

/-- The state of generation behind constructs whose nodes are handed over one after the other. -/
def generateFrom (origin : Span) (legacy : Bool) (cs : List Construct) :
    Except (Located SemanticError) Generator :=
  Gen.state legacy (cs.forM (Construct.handle origin))

end OnePass
