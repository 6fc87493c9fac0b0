import OnePass.Token
import OnePass.Text.Position
import OnePass.Slot

/-!
# Programs as trees

The tree of a program, one constructor for each form that has a meaning of its own. A
chain of operators of one level leans to the left. Parentheses are kept, because a
variable in parentheses is no place to assign to.

Every expression has a region: from the first to the last of its names, literals, type
words and operators. Parentheses, brackets and the words `and` and `or` do not count.
-/

namespace OnePass

/-- A name where it is written. -/
abbrev Name := Located String

/-- A literal value. -/
inductive Literal where
  | int (value : Int32)
  | bool (value : Bool)
  | char (value : Char)
  | str (value : String)
  deriving DecidableEq, Repr

/-- The token of a literal. -/
def Literal.token : Literal → Token
  | .int n => .int n
  | .bool b => .bool b
  | .char c => .char c
  | .str s => .str s

/-- The type that a token names. -/
def Token.type? : Token → Option WordType
  | .keyword .int => some .int
  | .keyword .bool => some .bool
  | .keyword .char => some .char
  | _ => none

/-- The literal that a token is. -/
def Token.literal? : Token → Option Literal
  | .int n => some (.int n)
  | .bool b => some (.bool b)
  | .char c => some (.char c)
  | .str s => some (.str s)
  | _ => none

/-- The name that a token is. -/
def Token.name? : Token → Option String
  | .ident name => some name
  | _ => none

/-- Operators on two integers. -/
inductive ArithOp where
  | min
  | max
  | add
  | sub
  | mul
  | div
  | rem
  deriving DecidableEq, Repr

/-- The token of an operator on two integers. -/
def ArithOp.token : ArithOp → Token
  | .min => .bound .min
  | .max => .bound .max
  | .add => .plus
  | .sub => .minus
  | .mul => .times
  | .div => .divide
  | .rem => .percent

/-- Operators before their operand: the negative, the length of an array, a random
number below a bound. -/
inductive LeadOp where
  | negative
  | length
  | random
  deriving DecidableEq, Repr

/-- The token of an operator before its operand. -/
def LeadOp.token : LeadOp → Token
  | .negative => .minus
  | .length => .times
  | .random => .question

/-- Operators on two truth values. -/
inductive LogicOp where
  | and
  | or
  deriving DecidableEq, Repr

/-- An expression. -/
inductive Expr where
  /-- a literal -/
  | literal (value : Located Literal)
  /-- a variable -/
  | var (name : Name)
  /-- an element of an array variable -/
  | elem (name : Name) (index : Expr)
  /-- an expression in parentheses -/
  | paren (inner : Expr)
  /-- a call of a function -/
  | call (name : Name) (args : List Expr)
  /-- an operator before its operand -/
  | lead (op : Located LeadOp) (operand : Expr)
  /-- an operator on two integers -/
  | arith (left : Expr) (op : Located ArithOp) (right : Expr)
  /-- a comparison -/
  | compare (left : Expr) (op : Located RelOp) (right : Expr)
  /-- the word `not`, standing at `word`, before its operand -/
  | negate (word : Span) (operand : Expr)
  /-- an operator on two truth values -/
  | logic (op : LogicOp) (left right : Expr)
  /-- `++` or `--` behind a place -/
  | step (place : Expr) (op : Located StepOp)
  /-- an assignment to a place -/
  | assign (place : Expr) (op : Located AssignOp) (value : Expr)
  deriving Repr

namespace Expr

/-- The region of the first leaf. -/
def first : Expr → Span
  | .literal v => v.span
  | .var n => n.span
  | .elem n _ => n.span
  | .paren e => e.first
  | .call n _ => n.span
  | .lead op _ => op.span
  | .arith l _ _ => l.first
  | .compare l _ _ => l.first
  | .negate word _ => word
  | .logic _ l _ => l.first
  | .step p _ => p.first
  | .assign p _ _ => p.first

mutual

/-- The region of the last leaf. -/
def last : Expr → Span
  | .literal v => v.span
  | .var n => n.span
  | .elem _ i => i.last
  | .paren e => e.last
  | .call n args => lastOf n.span args
  | .lead _ e => e.last
  | .arith _ _ r => r.last
  | .compare _ _ r => r.last
  | .negate _ e => e.last
  | .logic _ _ r => r.last
  | .step _ op => op.span
  | .assign _ _ v => v.last

/-- The region of the last leaf of a list, or `default` if it is empty. -/
def lastOf (default : Span) : List Expr → Span
  | [] => default
  | e :: es => lastOf e.last es

end

/-- The region of an expression, from its first to its last leaf. -/
def span (e : Expr) : Span := e.first.upTo e.last

end Expr

/-- One variable of a declaration. -/
structure Declarator where
  /-- its name -/
  name : Name
  /-- its length, if it is an array -/
  length : Option (Located Int32)
  /-- the expression that initialises it, or each of its elements -/
  init : Option Expr
  deriving Repr

/-- A declaration of variables of one type. -/
structure Declaration where
  /-- the word `static`, if it is there -/
  static : Option Span
  /-- the type -/
  type : Located WordType
  /-- the variables -/
  items : List Declarator
  deriving Repr

/-- One parameter. -/
structure Parameter where
  /-- its name -/
  name : Name
  /-- the opening bracket, if it is an array -/
  brackets : Option Span
  deriving DecidableEq, Repr

/-- Parameters of one type. -/
structure ParameterGroup where
  /-- the type -/
  type : Located WordType
  /-- the parameters -/
  items : List Parameter
  deriving DecidableEq, Repr

/-- The range of a counting loop: where it starts, and perhaps where it ends and in which
steps it goes. -/
structure Range where
  /-- the first value -/
  start : Expr
  /-- the last value, and the step if it is given -/
  bound : Option (Expr × Option Expr)
  deriving Repr

/-- A statement. -/
inductive Stmt where
  /-- declarations and statements in a scope of their own -/
  | block (locals : List Declaration) (body : List Stmt)
  /-- an expression for its effect -/
  | expr (value : Expr)
  /-- a semicolon alone -/
  | empty (semicolon : Span)
  /-- a choice -/
  | choice (condition : Expr) (body : Stmt) (otherwise : Option Stmt)
  /-- a loop while a condition holds -/
  | loop (condition : Expr) (body : Stmt)
  /-- a counting loop -/
  | count (counter : Name) (range : Range) (body : Stmt)
  /-- a return from the function -/
  | ret (word : Span) (value : Option Expr)
  /-- an exit from the innermost loop -/
  | leave (word : Span)
  deriving Repr

namespace Stmt

/-- Induction on statements, those of blocks and both branches of choices included. -/
theorem induct {P : Stmt → Prop} (block : ∀ ds body, (∀ s ∈ body, P s) → P (.block ds body))
    (expr : ∀ e, P (.expr e)) (empty : ∀ semicolon, P (.empty semicolon))
    (choice : ∀ c body, P body → P (.choice c body none))
    (choiceOr : ∀ c body otherwise, P body → P otherwise → P (.choice c body (some otherwise)))
    (loop : ∀ c body, P body → P (.loop c body))
    (count : ∀ counter range body, P body → P (.count counter range body))
    (ret : ∀ word value, P (.ret word value)) (leave : ∀ word, P (.leave word)) (s : Stmt) : P s :=
  @Stmt.rec P (fun ss => ∀ s ∈ ss, P s) (fun o => ∀ s ∈ o, P s) block expr empty
    (fun c body otherwise hbody hotherwise => by
      cases otherwise with
      | none => exact choice c body hbody
      | some s => exact choiceOr c body s hbody (hotherwise s rfl))
    loop count ret leave (fun _ h => nomatch h)
    (fun _ _ hs hss _ h => by
      rcases List.mem_cons.mp h with rfl | h
      · exact hs
      · exact hss _ h)
    (fun _ h => nomatch h) (fun _ hs _ h => Option.some.inj h ▸ hs) s

end Stmt

/-- What a function is known by: all of it but its body. -/
structure Header where
  /-- the type it returns, if it does -/
  returns : Option (Located WordType)
  /-- its name -/
  name : Name
  /-- its parameters -/
  params : List ParameterGroup
  deriving DecidableEq, Repr

/-- A declaration outside all functions. -/
inductive TopLevel where
  /-- global variables -/
  | variables (decl : Declaration)
  /-- a function -/
  | function (header : Header) (body : Stmt)
  deriving Repr

/-- A program. -/
structure Program where
  /-- its declarations in order -/
  items : List TopLevel
  deriving Repr

namespace ParameterGroup

/-- The parameters of a group with what their slots hold. -/
def slots (g : ParameterGroup) : List (Name × Slot) :=
  g.items.map fun p => (p.name, ⟨g.type.value, p.brackets.isSome⟩)

end ParameterGroup

namespace Header

/-- The parameters of a function with what their slots hold, in order. -/
def parameters (h : Header) : List (Name × Slot) :=
  h.params.flatMap ParameterGroup.slots

/-- What the argument slots of a function hold, in order. -/
def parameterTypes (h : Header) : List Slot := h.parameters.map Prod.snd

/-- The type a function returns. -/
def returnType (h : Header) : Option WordType := h.returns.map Located.value

end Header

namespace Program

/-- The headers of the functions of a program, in order. -/
def headers (p : Program) : List Header :=
  p.items.filterMap fun
    | .variables _ => none
    | .function h _ => some h

end Program

end OnePass
