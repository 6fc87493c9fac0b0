/-!
# The rules of the grammar

The productions by name, as the nodes of a labelled tree show them.
-/

namespace OnePass

/-- The rules of the grammar. -/
inductive Rule where
  | program
  | varDecl
  | scopedVarDecl
  | varDeclList
  | varDeclInit
  | varDeclId
  | typeSpec
  | static
  | funDecl
  | parms
  | parmTypeList
  | parmIdList
  | parmId
  | brackets
  | compoundStmt
  | localDecls
  | stmtList
  | expStmt
  | emptyStmt
  | selectStmt
  | whileStmt
  | forStmt
  | iterRange
  | returnStmt
  | breakStmt
  | expression
  | simpleExpression
  | andExpression
  | unaryRelExpression
  | relExpression
  | minMaxExpression
  | sumExpression
  | mulExpression
  | unaryExpression
  | factor
  | immutable
  | mutable
  | call
  | args
  | constant
  | operator
  | id
  deriving DecidableEq, Repr

/-- The name of a rule. -/
def Rule.text : Rule → String
  | .program => "Program"
  | .varDecl => "VarDecl"
  | .scopedVarDecl => "ScopedVarDecl"
  | .varDeclList => "VarDeclList"
  | .varDeclInit => "VarDeclInit"
  | .varDeclId => "VarDeclId"
  | .typeSpec => "TypeSpec"
  | .static => "Static"
  | .funDecl => "FunDecl"
  | .parms => "Parms"
  | .parmTypeList => "ParmTypeList"
  | .parmIdList => "ParmIdList"
  | .parmId => "ParmId"
  | .brackets => "Brackets"
  | .compoundStmt => "CompoundStmt"
  | .localDecls => "LocalDecls"
  | .stmtList => "StmtList"
  | .expStmt => "ExpStmt"
  | .emptyStmt => "EmptyStmt"
  | .selectStmt => "SelectStmt"
  | .whileStmt => "WhileStmt"
  | .forStmt => "ForStmt"
  | .iterRange => "IterRange"
  | .returnStmt => "ReturnStmt"
  | .breakStmt => "BreakStmt"
  | .expression => "Expression"
  | .simpleExpression => "SimpleExpression"
  | .andExpression => "AndExpression"
  | .unaryRelExpression => "UnaryRelExpression"
  | .relExpression => "RelExpression"
  | .minMaxExpression => "MinMaxExpression"
  | .sumExpression => "SumExpression"
  | .mulExpression => "MulExpression"
  | .unaryExpression => "UnaryExpression"
  | .factor => "Factor"
  | .immutable => "Immutable"
  | .mutable => "Mutable"
  | .call => "Call"
  | .args => "Args"
  | .constant => "Constant"
  | .operator => "Operator"
  | .id => "Id"

end OnePass
