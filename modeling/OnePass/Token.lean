import OnePass.Text.Quoted
import OnePass.Text.Decimal

/-!
# Tokens

The lexical units of the language. Operators that one production treats alike share a
constructor, so that a production is recognised by one case: `Token.assign` are the
assignment operators, `Token.step` the two that step a variable, `Token.relation` the
comparisons and `Token.bound` the two that choose the smaller or larger operand.
-/

namespace OnePass

/-- The reserved words, `true` and `false` excepted. -/
inductive Keyword where
  | int
  | bool
  | char
  | static
  | «if»
  | «then»
  | «else»
  | while
  | «do»
  | «for»
  | to
  | «by»
  | «return»
  | «break»
  | and
  | or
  | not
  deriving DecidableEq, Repr

namespace Keyword

/-- All reserved words with their spelling. -/
def table : List (String × Keyword) :=
  [("int", .int), ("bool", .bool), ("char", .char), ("static", .static), ("if", .if),
   ("then", .then), ("else", .else), ("while", .while), ("do", .do), ("for", .for),
   ("to", .to), ("by", .by), ("return", .return), ("break", .break), ("and", .and),
   ("or", .or), ("not", .not)]

/-- The reserved word with a given spelling. -/
def ofSpelling? (s : String) : Option Keyword := table.lookup s

/-- The spelling of a reserved word. -/
def spelling (k : Keyword) : String :=
  ((table.find? fun entry => entry.2 = k).map Prod.fst).getD "?"

end Keyword

/-- Assignment operators: `=` and its compound forms. -/
inductive AssignOp where
  | set
  | add
  | sub
  | mul
  | div
  deriving DecidableEq, Repr

/-- The operators `++` and `--`. -/
inductive StepOp where
  | up
  | down
  deriving DecidableEq, Repr

/-- Comparisons. -/
inductive RelOp where
  | eq
  | ne
  | lt
  | le
  | gt
  | ge
  deriving DecidableEq, Repr

/-- The operators `:<:` and `:>:`, the smaller and the larger of two operands. -/
inductive BoundOp where
  | min
  | max
  deriving DecidableEq, Repr

/-- A lexical unit. Literals carry their value, with escapes resolved. -/
inductive Token where
  | ident (name : String)
  | keyword (word : Keyword)
  | int (value : Int32)
  | bool (value : Bool)
  | char (value : Char)
  | str (value : String)
  | assign (op : AssignOp)
  | step (op : StepOp)
  | relation (op : RelOp)
  | bound (op : BoundOp)
  | plus
  | minus
  | times
  | divide
  | percent
  | question
  | colon
  | comma
  | semicolon
  | openParen
  | closeParen
  | openSquare
  | closeSquare
  | openCurly
  | closeCurly
  deriving DecidableEq, Repr

/-- The spelling of an assignment operator. -/
def AssignOp.spelling : AssignOp → String
  | .set => "="
  | .add => "+="
  | .sub => "-="
  | .mul => "*="
  | .div => "/="

/-- The spelling of a stepping operator. -/
def StepOp.spelling : StepOp → String
  | .up => "++"
  | .down => "--"

/-- The spelling of a comparison. -/
def RelOp.spelling : RelOp → String
  | .eq => "=="
  | .ne => "!="
  | .lt => "<"
  | .le => "<="
  | .gt => ">"
  | .ge => ">="

/-- The spelling of a choosing operator. -/
def BoundOp.spelling : BoundOp → String
  | .min => ":<:"
  | .max => ":>:"

namespace Token

/-- Whether a token is an assignment operator. -/
def isAssignment : Token → Bool
  | .assign _ => true
  | _ => false

/-- A spelling between back quotes. -/
def ticked (s : String) : String := "`" ++ s ++ "`"

/-- How a token is shown in messages and listings of a tree. -/
def text : Token → String
  | .ident name => "identifier " ++ ticked name
  | .keyword k => "keyword " ++ ticked k.spelling
  | .int n => "literal " ++ ticked (Text.renderWord n)
  | .bool b => "literal " ++ ticked (if b then "true" else "false")
  | .char c => "literal " ++ Text.quotedChar c
  | .str s => "literal " ++ Text.quotedString s
  | .assign op => ticked op.spelling
  | .step op => ticked op.spelling
  | .relation op => ticked op.spelling
  | .bound op => ticked op.spelling
  | .plus => ticked "+"
  | .minus => ticked "-"
  | .times => ticked "*"
  | .divide => ticked "/"
  | .percent => ticked "%"
  | .question => ticked "?"
  | .colon => ticked ":"
  | .comma => ticked ","
  | .semicolon => ticked ";"
  | .openParen => ticked "("
  | .closeParen => ticked ")"
  | .openSquare => ticked "["
  | .closeSquare => ticked "]"
  | .openCurly => ticked "\x7b"
  | .closeCurly => ticked "\x7d"

end Token

end OnePass
