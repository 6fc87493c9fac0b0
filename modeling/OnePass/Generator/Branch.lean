import OnePass.Generator.Call
import OnePass.Generator.Operator
import OnePass.Tree.Node

/-!
# Code for nodes

Code is generated from labelled nodes: their rules say which code it is, and their children and
tokens what goes into it. A node without a child or a token that its rule needs is malformed. An
error stands where its node stands, and at `origin` if the node has no leaves.

`Node.branch` takes a node apart from the leaves up. There is one function for each rule, on the
`Branch`es of the children.
-/

namespace OnePass

namespace Node

variable (origin : Span)

/-- Where a node stands. -/
def place (n : Node) : Span := n.span?.getD origin

/-- The token of a leaf. -/
def token? : Node → Option (Located Token)
  | .leaf _ t => some t
  | .inner _ _ => none

/-- The name that a leaf is. -/
def identifier? (n : Node) : Option Name := do
  let t ← n.token?
  let name ← t.value.name?
  return ⟨name, t.span⟩

/-- The first child of a rule, if there is one. -/
def find? (n : Node) (rule : Rule) : Option Node := n.children.find? fun c => c.rule = rule

/-- A node has not the form of a rule. -/
def malformed {α : Type} (n : Node) (rule : Rule) : Gen α :=
  Gen.fail (.malformed rule) (n.place origin)

/-- The first child of a rule. -/
def find (n : Node) (rule : Rule) : Gen Node :=
  match n.find? rule with
  | some c => return c
  | none => n.malformed origin n.rule

/-- The child at an index. -/
def part (n : Node) (index : Nat) : Gen Node :=
  match n.children[index]? with
  | some c => return c
  | none => n.malformed origin n.rule

/-- The name among the children of a node. -/
def name (n : Node) : Gen Name := do
  let id ← n.find origin .id
  match id.identifier? with
  | some name => return name
  | none => n.malformed origin n.rule

/-- The token of an operator. -/
def operatorToken (n : Node) : Gen Token :=
  match n.token? with
  | some t => return t.value
  | none => n.malformed origin n.rule

end Node

/-- The variable or element that a node is nothing but. -/
structure Mutable where
  /-- its node -/
  node : Node
  /-- compiles the index of an element -/
  index : Option (Gen Unit)

/-- A node with the code that is generated for it. -/
structure Branch where
  /-- the node -/
  node : Node
  /-- its children -/
  children : List Branch
  /-- compiles it as its rule says -/
  compile : Gen ExprType
  /-- compiles it as an expression, whatever its rule -/
  whole : Gen ExprType
  /-- the place to assign to, if it is one -/
  mutable? : Option Mutable

namespace Branch

variable (origin : Span) (t : Target)

/-- A node as an operand. -/
def operand (b : Branch) : Operand := ⟨b.node.place origin, b.compile, none⟩

/-- A node as an operand that may be an assignment. -/
def argument (b : Branch) : Operand := ⟨b.node.place origin, b.whole, none⟩

/-! ## Operators -/

/-- An operand behind the first one of `or` or of `and`. -/
def logicalNext (op : LogicOp) (b : Branch) : Gen Unit := do
  (b.operand origin).compileBool
  Gen.emit t (.binary (Rules.logicInstruction op))

/-- Operands of `or` or of `and`; one alone is compiled as it is. -/
def logical (op : LogicOp) (n : Node) : List Branch → Gen ExprType
  | [] => n.malformed origin n.rule
  | [only] => only.compile
  | first :: rest => do
    (first.operand origin).compileBool
    rest.forM (logicalNext origin t op)
    return .scalar .bool

/-- `not`. -/
def unaryRelational (n : Node) : List Branch → Gen ExprType
  | [only] => only.compile
  | [_, b] => Rules.negate t (b.operand origin)
  | _ => n.malformed origin n.rule

/-- Whether values of a type can be compared with the operator of a token. -/
def comparable (token : Token) : ExprType → Bool
  | .scalar .int | .scalar .char => true
  | .scalar .bool => token = .relation .eq || token = .relation .ne
  | _ => false

/-- Comparisons. -/
def relational (n : Node) : List Branch → Gen ExprType
  | [only] => only.compile
  | [l, op, r] => do
    let left ← l.compile
    let right ← r.compile
    let token ← op.node.operatorToken origin
    if !comparable token left then
      Gen.fail (.typeMismatch (.scalar .int) left) (l.node.place origin)
    Gen.expectType (r.node.place origin) left right
    match token with
    | .relation op => Gen.emitAll t (Rules.comparison op)
    | _ => op.node.malformed origin .relExpression
    return .scalar .bool
  | _ => n.malformed origin n.rule

/-- Operators and operands behind the first operand of a chain, which is of type `found`. -/
def arithmeticFrom (n : Node) (first : Branch) (found : ExprType) : List Branch → Gen Unit
  | [] => return ()
  | [_] => n.malformed origin n.rule
  | op :: b :: rest => do
    if found ≠ .scalar .int then
      let token ← op.node.operatorToken origin
      Gen.fail (.intOperand token found) (first.node.place origin)
    let operand ← b.compile
    if operand ≠ .scalar .int then
      let token ← op.node.operatorToken origin
      Gen.fail (.intOperand token operand) (b.node.place origin)
    let _ ← op.compile
    arithmeticFrom n first found rest

/-- Chains of operators on two integers. -/
def arithmetic (n : Node) : List Branch → Gen ExprType
  | [] => n.malformed origin n.rule
  | [only] => only.compile
  | first :: rest => do
    let found ← first.compile
    arithmeticFrom origin n first found rest
    return .scalar .int

/-- Operators before their operand. -/
def unary (n : Node) : List Branch → Gen ExprType
  | [only] => only.compile
  | [op, b] => do
    let token ← op.node.operatorToken origin
    let found ← b.compile
    match token with
    | .times =>
      match found with
      | .array _ => Gen.emit t .arrayLen
      | found => Gen.fail (.arrayOperand found) (b.node.place origin)
    | token =>
      if found ≠ .scalar .int then Gen.fail (.intOperand token found) (b.node.place origin)
      match token with
      | .minus => Gen.emit t .neg
      | .question => Rules.random t
      | _ => op.node.malformed origin .unaryExpression
    return .scalar .int
  | _ => n.malformed origin n.rule

/-- An operator between two integers. -/
def operator (n : Node) : Gen ExprType := do
  match ← n.operatorToken origin with
  | .plus => emit .add
  | .minus => emit .sub
  | .times => emit .mul
  | .divide => emit .div
  | .percent => emit .rem
  | .bound .max => emit .max
  | .bound .min => emit .min
  | _ => n.malformed origin .operator
where
  emit (op : BinaryOp) : Gen ExprType := do
    Gen.emit t (.binary op)
    return .operator

/-- A literal. -/
def constant (n : Node) : Gen ExprType :=
  match n.token?.bind fun token => token.value.literal? with
  | some v => Rules.literal t v
  | none => n.malformed origin .constant

/-- The operand that a node consists of. -/
def only (n : Node) : List Branch → Gen ExprType
  | [b] => b.compile
  | _ => n.malformed origin n.rule

/-! ## Variables, elements and calls -/

/-- The value of a variable or an element. -/
def loadMutable (n : Node) (cs : List Branch) : Gen ExprType := do
  let name ← n.name origin
  match cs[1]? with
  | some index => Rules.elem t (n.place origin) name (index.operand origin).compileInt
  | none => Rules.var t name

/-- Input of one line into one place. -/
def putOne (b : Branch) : Gen Unit :=
  match b.mutable? with
  | none => Gen.fail .putTarget (b.node.place origin)
  | some m => do
    let name ← m.node.name origin
    Rules.putInto t (b.node.place origin) name m.index

/-- A call. -/
def call (n : Node) (cs : List Branch) : Gen ExprType := do
  let name ← n.name origin
  let args := match cs.find? fun b => b.node.rule = .args with
    | some args => args.children
    | none => []
  Rules.callOr t (n.place origin) name (args.map (argument origin))
    (Rules.putEach name args (putOne origin t))

/-! ## Assignments -/

/-- An assignment of a whole array. -/
def copyArray (target : Symbol) (name : Name) (value : Branch) : Gen Unit :=
  match value.mutable? with
  | some ⟨source, none⟩ => do
    let sourceName ← source.name origin
    Rules.copyFrom t target name (value.node.place origin) sourceName
  | _ => Gen.fail .arraySource (value.node.place origin)

/-- An assignment to a variable or element of one word. -/
def assignWord (v : Symbol) (index : Option (Gen Unit)) (op : Node) (token : Token)
    (value : Branch) : Gen Unit := do
  if token ≠ .assign .set ∧ v.type ≠ .int then
    Gen.fail (.intOperand token (.scalar v.type)) (op.place origin)
  Rules.beforeValue t v index
  match token with
  | .assign op => Rules.compound t v index op (value.argument origin)
  | _ => op.malformed origin .expression
  Rules.afterValue t v index

/-- An assignment. -/
def assignment (place : Branch) (op : Node) (value : Branch) : Gen ExprType := do
  match place.mutable? with
  | none => Gen.fail .notAssignable (place.node.place origin)
  | some m =>
    let name ← m.node.name origin
    let v ← Gen.resolve t name
    let token ← op.operatorToken origin
    match m.index, v.isArray with
    | none, true =>
      if token ≠ .assign .set then Gen.fail (.arrayOperator token) (op.place origin)
      copyArray origin t v name value
    | some _, false => Gen.fail (.notAnArray name.value) (m.node.place origin)
    | index, _ => assignWord origin t v index op token value
    return .effect

/-- `++` and `--`. -/
def step (place : Branch) (op : Node) : Gen ExprType := do
  match place.mutable? with
  | none => Gen.fail .notAssignable (place.node.place origin)
  | some m =>
    let name ← m.node.name origin
    let v ← Gen.resolve t name
    let token ← op.operatorToken origin
    let found ← match m.index, v.isArray with
      | none, true => pure (ExprType.array v.type)
      | some _, false => Gen.fail (.notAnArray name.value) (m.node.place origin)
      | _, _ => pure (ExprType.scalar v.type)
    if found ≠ .scalar .int then Gen.fail (.intOperand token found) (place.node.place origin)
    let instruction ← match token with
      | .step .up => pure BinaryOp.add
      | .step .down => pure BinaryOp.sub
      | _ => op.malformed origin .expression
    Rules.beforeValue t v m.index
    Rules.presentValue t v m.index
    Gen.emit t (.pushInt 1)
    Gen.emit t (.binary instruction)
    Rules.afterValue t v m.index
    return .effect

/-- Expressions that may be assignments. -/
def expression (n : Node) : List Branch → Gen ExprType
  | [simple] => simple.compile
  | [place, op] => step origin t place op.node
  | [place, op, value] => assignment origin t place op.node value
  | _ => n.malformed origin n.rule

/-! ## Nodes of all rules -/

/-- What a node is compiled to, by its rule. -/
def compileAt (n : Node) (cs : List Branch) : Gen ExprType :=
  match n.rule with
  | .expression => expression origin t n cs
  | .simpleExpression => logical origin t .or n cs
  | .andExpression => logical origin t .and n cs
  | .unaryRelExpression => unaryRelational origin t n cs
  | .relExpression => relational origin t n cs
  | .minMaxExpression | .sumExpression | .mulExpression => arithmetic origin n cs
  | .unaryExpression => unary origin t n cs
  | .factor | .immutable => only origin n cs
  | .mutable => loadMutable origin t n cs
  | .call => call origin t n cs
  | .constant => constant origin t n
  | .operator => operator origin t n
  | rule => n.malformed origin rule

/-- The variable or element that a node is nothing but: the way down leads through only children,
and ends in vain at what is not a place. -/
def mutableAt (n : Node) (cs : List Branch) : Option Mutable :=
  if n.rule = .mutable then some ⟨n, cs[1]?.map fun index => (index.operand origin).compileInt⟩
  else if n.rule = .immutable then none
  else match cs with
    | [only] => only.mutable?
    | _ => none

/-- A node with children. -/
def of (n : Node) (cs : List Branch) : Branch :=
  ⟨n, cs, compileAt origin t n cs, expression origin t n cs, mutableAt origin n cs⟩

end Branch

namespace Node

variable (origin : Span) (t : Target)

mutual

/-- A node with the code for it and for its children. -/
def branch : Node → Branch
  | .leaf r token => .of origin t (.leaf r token) []
  | .inner r cs => .of origin t (.inner r cs) (branches cs)

/-- Nodes with the code for them. -/
def branches : List Node → List Branch
  | [] => []
  | n :: ns => branch n :: branches ns

end

end Node

end OnePass
