import OnePass.Tree
import OnePass.Tree.Rule

/-!
# Types of expressions and errors of meaning

What is known of an expression once code for it has been generated, and every reason why
a program that parses is still refused.
-/

namespace OnePass

/-- What an expression leaves behind. -/
inductive ExprType where
  /-- a word -/
  | scalar (type : WordType)
  /-- an array -/
  | array (type : WordType)
  /-- a string -/
  | str
  /-- nothing, being a call of a function without a result -/
  | void
  /-- nothing, being an assignment or a call of a built-in function -/
  | effect
  /-- nothing, being an operator whose operands are elsewhere -/
  | operator
  deriving DecidableEq, Repr

namespace ExprType

/-- Whether an expression of this type leaves a value on the stack. -/
def hasValue : ExprType → Bool
  | .scalar _ | .array _ | .str => true
  | .void | .effect | .operator => false

/-- The type of what a slot holds. -/
def ofSlot (s : Slot) : ExprType := if s.array then .array s.type else .scalar s.type

/-- How a type is shown in messages. -/
def text : ExprType → String
  | .scalar t => t.text
  | .array t => t.text ++ "[]"
  | .str => "string"
  | .void => "void"
  | .effect => "expression"
  | .operator => "operator"

end ExprType

/-- Why a program that parses is refused. -/
inductive SemanticError where
  /-- a variable that is not visible -/
  | undeclared (name : String)
  /-- a function that does not exist -/
  | functionUndeclared (name : String)
  /-- a second variable of that name in one scope -/
  | redefinition (name : String)
  /-- a second function of that name -/
  | functionRedefinition (name : String)
  /-- a type where another is needed -/
  | typeMismatch (expected found : ExprType)
  /-- a call with the wrong number of arguments -/
  | argumentCount (name : String) (expected found : Nat)
  /-- an index on what is no array -/
  | notAnArray (name : String)
  /-- a compound assignment to a whole array -/
  | arrayOperator (op : Token)
  /-- a whole array assigned from what is no array variable -/
  | arraySource
  /-- a copy of an array whose length is not known -/
  | unknownLength (name : String)
  /-- an array without elements -/
  | arraySize
  /-- an assignment to what is no place -/
  | notAssignable
  /-- an integer operator on something else -/
  | intOperand (op : Token) (found : ExprType)
  /-- several things to print without a format string -/
  | printFormat (found : ExprType)
  /-- a built-in function without arguments -/
  | missingArguments (name : String)
  /-- input into what is no place -/
  | putTarget
  /-- input into a whole array -/
  | putArray (name : String)
  /-- an exit without a loop -/
  | breakOutsideLoop
  /-- a value returned where none is declared -/
  | returnInVoid (name : String)
  /-- no value returned where one is declared -/
  | missingReturnValue (name : String) (type : WordType)
  /-- a local variable in an initializer that runs before all functions -/
  | notConstant (name : String)
  /-- a counting loop without an end -/
  | missingBound
  /-- the length of what is no array -/
  | arrayOperand (found : ExprType)
  /-- a thing that cannot be printed -/
  | notPrintable (found : ExprType)
  /-- a node without the children or the token that its rule needs, or a return outside all
  functions -/
  | malformed (rule : Rule)
  deriving DecidableEq, Repr

/-- The wording of an error of meaning. -/
def SemanticError.message : SemanticError → String
  | .undeclared name => Token.ticked name ++ " is not declared in this scope"
  | .functionUndeclared name => "Function " ++ Token.ticked name ++ " is not declared"
  | .redefinition name => Token.ticked name ++ " is already declared in this scope"
  | .functionRedefinition name =>
    "A function named " ++ Token.ticked name ++ " already exists"
  | .typeMismatch expected found =>
    "Type mismatch: expected " ++ Token.ticked expected.text ++ ", found "
      ++ Token.ticked found.text
  | .argumentCount name expected found =>
    "Function " ++ Token.ticked name ++ " expects " ++ toString expected
      ++ " arguments, found " ++ toString found
  | .notAnArray name => Token.ticked name ++ " is not an array"
  | .arrayOperator op =>
    "Wrong operator " ++ op.text ++ ", must be `=` when working with the array itself"
  | .arraySource => "An array can only be assigned from another array variable"
  | .unknownLength name =>
    "Length of array " ++ Token.ticked name ++ " is not known here, it cannot be copied"
  | .arraySize => "Array length must be positive"
  | .notAssignable => "Left side of assignment must be a variable"
  | .intOperand op found =>
    "Operator " ++ op.text ++ " requires an `int` operand, found " ++ Token.ticked found.text
  | .printFormat found =>
    "Incorrect use of print: multiple arguments require a format string, found "
      ++ Token.ticked found.text
  | .missingArguments name =>
    "Function " ++ Token.ticked name ++ " requires at least one argument"
  | .putTarget => "put expects variable arguments"
  | .putArray name => "put cannot read into the whole array " ++ Token.ticked name
  | .breakOutsideLoop => "`break` outside of a loop"
  | .returnInVoid name => "Function " ++ Token.ticked name ++ " returns no value"
  | .missingReturnValue name type =>
    "Function " ++ Token.ticked name ++ " must return a value of type "
      ++ Token.ticked type.text
  | .notConstant name =>
    "Initializer may only refer to constants and global variables, " ++ Token.ticked name
      ++ " is neither"
  | .missingBound => "Range of a `for` loop requires an upper bound (`to`)"
  | .arrayOperand found =>
    "Operator `*` requires an array operand, found " ++ Token.ticked found.text
  | .notPrintable found => "Cannot print a value of type " ++ Token.ticked found.text
  | .malformed rule => "Malformed " ++ Token.ticked rule.text ++ " node"

end OnePass
