import OnePass.Tree
import OnePass.Tree.Node

/-!
# Programs as labelled trees

`Program.node` is the tree that the rules of the grammar build of the tokens of a program.
Punctuation has no leaf, and neither have the words `and` and `or`. Every level of the
expression grammar has a node of its own, also where it has only one child.
-/

namespace OnePass

/-- The levels of the expression grammar, from the loosest to the tightest. -/
inductive Level where
  | assignment
  | disjunction
  | conjunction
  | negation
  | relation
  | choosing
  | sum
  | product
  | leading
  | atom
  deriving DecidableEq, Repr

namespace Level

/-- All levels, from the loosest to the tightest. -/
def all : List Level :=
  [.assignment, .disjunction, .conjunction, .negation, .relation, .choosing, .sum, .product,
   .leading, .atom]

/-- The place of a level among all, from the loosest. -/
def rank : Level → Nat
  | .assignment => 0
  | .disjunction => 1
  | .conjunction => 2
  | .negation => 3
  | .relation => 4
  | .choosing => 5
  | .sum => 6
  | .product => 7
  | .leading => 8
  | .atom => 9

/-- The rule of the nodes of a level. -/
def rule : Level → Rule
  | .assignment => .expression
  | .disjunction => .simpleExpression
  | .conjunction => .andExpression
  | .negation => .unaryRelExpression
  | .relation => .relExpression
  | .choosing => .minMaxExpression
  | .sum => .sumExpression
  | .product => .mulExpression
  | .leading => .unaryExpression
  | .atom => .factor

/-- The level of an operator on two integers. -/
def ofArith : ArithOp → Level
  | .min | .max => .choosing
  | .add | .sub => .sum
  | .mul | .div | .rem => .product

/-- The level of an operator on two truth values. -/
def ofLogic : LogicOp → Level
  | .and => .conjunction
  | .or => .disjunction

/-- The next tighter level. -/
def tighter : Level → Level
  | .assignment => .disjunction
  | .disjunction => .conjunction
  | .conjunction => .negation
  | .negation => .relation
  | .relation => .choosing
  | .choosing => .sum
  | .sum => .product
  | .product => .leading
  | .leading => .atom
  | .atom => .atom

/-- A node of the level `inner` with a node of its own for every level from `outer` on. -/
def wrap (outer inner : Level) (n : Node) : Node :=
  ((all.drop outer.rank).take (inner.rank - outer.rank)).foldr
    (fun l n => .inner l.rule [n]) n

end Level

/-- The leaf of a name. -/
def Name.node (n : Name) : Node := .leaf .id (n.map .ident)

/-- The leaf of an operator. -/
def Node.operator (t : Located Token) : Node := .leaf .operator t

namespace Expr

/-- The level of an expression. -/
def level : Expr → Level
  | .literal _ | .var _ | .elem _ _ | .paren _ | .call _ _ => .atom
  | .lead _ _ => .leading
  | .arith _ op _ => .ofArith op.value
  | .compare _ _ _ => .relation
  | .negate _ _ => .negation
  | .logic op _ _ => .ofLogic op
  | .step _ _ | .assign _ _ _ => .assignment

/-- The left operand of a chain of level `l`, of which `n` is the node: a chain of the
same level is continued, anything else is its first operand. -/
def chain (l : Level) (e : Expr) (n : Node) : List Node :=
  if e.level = l then n.children else [l.tighter.wrap e.level n]

mutual

/-- The node of an expression at its own level. -/
def core : Expr → Node
  | .literal v =>
    .inner .factor [.inner .immutable [.leaf .constant (v.map Literal.token)]]
  | .var n => .inner .factor [.inner .mutable [n.node]]
  | .elem n i =>
    .inner .factor [.inner .mutable [n.node, Level.assignment.wrap i.level i.core]]
  | .paren e => .inner .factor [.inner .immutable [Level.assignment.wrap e.level e.core]]
  | .call n args =>
    .inner .factor [.inner .immutable [.inner .call [n.node, .inner .args (coreOf args)]]]
  | .lead op e =>
    .inner .unaryExpression
      [.operator (op.map LeadOp.token), Level.leading.wrap e.level e.core]
  | .arith l op r =>
    let level := Level.ofArith op.value
    .inner level.rule
      (l.chain level l.core
        ++ [.operator (op.map ArithOp.token), level.tighter.wrap r.level r.core])
  | .compare l op r =>
    .inner .relExpression
      [Level.choosing.wrap l.level l.core, .operator (op.map .relation),
       Level.choosing.wrap r.level r.core]
  | .negate word e =>
    .inner .unaryRelExpression
      [.operator ⟨.keyword .not, word⟩, Level.negation.wrap e.level e.core]
  | .logic op l r =>
    let level := Level.ofLogic op
    .inner level.rule (l.chain level l.core ++ [level.tighter.wrap r.level r.core])
  | .step p op =>
    .inner .expression [Level.disjunction.wrap p.level p.core, .operator (op.map .step)]
  | .assign p op v =>
    .inner .expression
      [Level.disjunction.wrap p.level p.core, .operator (op.map .assign),
       Level.assignment.wrap v.level v.core]

/-- The nodes of expressions at the loosest level. -/
def coreOf : List Expr → List Node
  | [] => []
  | e :: es => Level.assignment.wrap e.level e.core :: coreOf es

end

/-- The node of an expression where any expression may stand. -/
def node (e : Expr) : Node := Level.assignment.wrap e.level e.core

/-- The node of an expression where no assignment may stand. -/
def simpleNode (e : Expr) : Node := Level.disjunction.wrap e.level e.core

end Expr

/-- The word of a type. -/
def WordType.keyword : WordType → Keyword
  | .int => .int
  | .bool => .bool
  | .char => .char

/-- The leaf of a type. -/
def WordType.node (t : Located WordType) : Node :=
  .leaf .typeSpec (t.map fun t => .keyword t.keyword)

/-- The node of a declared variable. -/
def Declarator.node (d : Declarator) : Node :=
  let length := d.length.toList.map fun n => .leaf .constant (n.map .int)
  .inner .varDeclInit
    (.inner .varDeclId (d.name.node :: length) :: d.init.toList.map Expr.simpleNode)

/-- The children of a declaration behind the word `static`. -/
def Declaration.parts (d : Declaration) : List Node :=
  [WordType.node d.type, .inner .varDeclList (d.items.map Declarator.node)]

/-- The node of a declaration of global variables. -/
def Declaration.globalNode (d : Declaration) : Node := .inner .varDecl d.parts

/-- The node of a declaration in a block. -/
def Declaration.localNode (d : Declaration) : Node :=
  .inner .scopedVarDecl
    ((d.static.toList.map fun s => .leaf .static ⟨.keyword .static, s⟩) ++ d.parts)

/-- The node of a range. -/
def Range.node (r : Range) : Node :=
  let bound := match r.bound with
    | none => []
    | some (last, step) => last.simpleNode :: step.toList.map Expr.simpleNode
  .inner .iterRange (r.start.simpleNode :: bound)

namespace Stmt

mutual

/-- The node of a statement. -/
def node : Stmt → Node
  | .block locals body =>
    .inner .compoundStmt
      [.inner .localDecls (locals.map Declaration.localNode), .inner .stmtList (nodeOf body)]
  | .expr e => .inner .expStmt [e.node]
  | .empty semicolon => .leaf .emptyStmt ⟨.semicolon, semicolon⟩
  | .choice c body none => .inner .selectStmt [c.simpleNode, body.node]
  | .choice c body (some otherwise) =>
    .inner .selectStmt [c.simpleNode, body.node, otherwise.node]
  | .loop c body => .inner .whileStmt [c.simpleNode, body.node]
  | .count counter range body => .inner .forStmt [counter.node, range.node, body.node]
  | .ret _ value => .inner .returnStmt (value.toList.map Expr.node)
  | .leave word => .leaf .breakStmt ⟨.keyword .break, word⟩

/-- The nodes of statements. -/
def nodeOf : List Stmt → List Node
  | [] => []
  | s :: ss => s.node :: nodeOf ss

end

end Stmt

/-- The node of a parameter. -/
def Parameter.node (p : Parameter) : Node :=
  .inner .parmId
    (p.name.node :: p.brackets.toList.map fun s => .leaf .brackets ⟨.openSquare, s⟩)

/-- The node of parameters of one type. -/
def ParameterGroup.node (g : ParameterGroup) : Node :=
  .inner .parmTypeList [WordType.node g.type, .inner .parmIdList (g.items.map Parameter.node)]

/-- The children of a function before its body. -/
def Header.parts (h : Header) : List Node :=
  h.returns.toList.map WordType.node
    ++ [h.name.node, .inner .parms (h.params.map ParameterGroup.node)]

/-- The node of a declaration outside all functions. -/
def TopLevel.node : TopLevel → Node
  | .variables d => d.globalNode
  | .function h body => .inner .funDecl (h.parts ++ [body.node])

/-- The node of a program. -/
def Program.node (p : Program) : Node := .inner .program (p.items.map TopLevel.node)

end OnePass
