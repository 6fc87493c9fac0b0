import OnePass.Tree.Construct
import OnePass.Token.Cursor

/-!
# Parsers

A `Parse` takes tokens from a cursor, or fails at the last token it took. Beside what it
makes of them it records the constructs it recognises. This module holds what takes
single tokens, and what repeats a parser; the number of tokens left bounds how often.
-/

namespace OnePass

/-- Why tokens are no program. -/
inductive SyntaxError where
  /-- one token stands where only another could -/
  | unexpected (expected found : Token)
  /-- the tokens end where only this one could stand -/
  | missing (expected : Token)
  /-- a name is needed -/
  | identifier
  /-- a declaration is needed -/
  | declaration
  /-- the word of a type is needed -/
  | type
  /-- an expression is needed -/
  | expression
  /-- the length of an array is needed -/
  | arrayLength
  /-- the tokens end too early -/
  | endOfProgram
  deriving DecidableEq, Repr

/-- The wording of a syntax error. -/
def SyntaxError.message : SyntaxError → String
  | .unexpected expected found =>
    "Expected " ++ expected.text ++ ", found " ++ found.text ++ " instead"
  | .missing expected => "Expected " ++ expected.text ++ ", none was found instead"
  | .identifier => "Expected identifier"
  | .declaration => "Expected a variable or function declaration"
  | .type => "Expected any of `int`, `bool`, `char`"
  | .expression => "Expected an expression"
  | .arrayLength => "Expected an integer array length"
  | .endOfProgram => "Abrupt end of program"

namespace Parser

/-- How far parsing has come. -/
structure State where
  /-- the tokens not taken yet -/
  cursor : Cursor
  /-- the region of the last token taken, at first that of the start of the text -/
  last : Span
  /-- the constructs recognised so far -/
  found : Array Construct

/-- A parser keeps its state when it fails. -/
abbrev Parse (α : Type) := ExceptT (Located SyntaxError) (StateM State) α

/-! ## Tokens -/

/-- Fails at the last token taken. -/
def fail {α : Type} (e : SyntaxError) : Parse α := do
  throw ⟨e, (← get).last⟩

/-- Records a construct. -/
def record (c : Construct) : Parse Unit :=
  modify fun s => { s with found := s.found.push c }

/-- The token `k` places ahead, from 1. -/
def peek? (k : Nat) : Parse (Option Token) := do
  return ((← get).cursor.peek? k).map Located.value

/-- How many tokens are left. -/
def left : Parse Nat := do
  return (← get).cursor.size

/-- Takes the next token. -/
def next : Parse (Located Token) := do
  let s ← get
  match s.cursor.next? with
  | none => fail .endOfProgram
  | some (t, cursor) =>
    set { s with cursor, last := t.span }
    return t

/-- Takes the next token, which must be `t`. -/
def expect (t : Token) : Parse Span := do
  let s ← get
  match s.cursor.next? with
  | none => fail (.missing t)
  | some (found, cursor) =>
    set { s with cursor, last := found.span }
    if found.value = t then return found.span else fail (.unexpected t found.value)

/-- Takes the next token if it is `t`. -/
def accept (t : Token) : Parse Bool := do
  if (← peek? 1) = some t then
    let _ ← next
    return true
  else return false

/-- Takes a name. -/
def name : Parse Name := do
  let t ← next
  match t.value.name? with
  | some s => return ⟨s, t.span⟩
  | none => fail .identifier

/-- Takes the word of a type. -/
def type : Parse (Located WordType) := do
  let t ← next
  match t.value.type? with
  | some type => return ⟨type, t.span⟩
  | none => fail .type

/-! ## Repetition -/

/-- At least one `p`, separated by the token `t`; at most `n` more follow the first. -/
def separatedBy {α : Type} (t : Token) (p : Parse α) : Nat → Parse (List α)
  | 0 => return [← p]
  | n + 1 => do
    let x ← p
    if ← accept t then return x :: (← separatedBy t p n) else return [x]

/-- As many `p` as follow while the next token satisfies `goOn`, at most `n`. -/
def repeatWhile {α : Type} (goOn : Option Token → Bool) (p : Parse α) : Nat → Parse (List α)
  | 0 => return []
  | n + 1 => do
    if goOn (← peek? 1) then
      let x ← p
      return x :: (← repeatWhile goOn p n)
    else return []

/-- Continues a chain of operands and operators behind the operand `e`, for at most `n`
operators. -/
def chainFrom {α : Type} (op? : Token → Option α) (join : Expr → Located α → Expr → Expr)
    (operand : Parse Expr) : Nat → Expr → Parse Expr
  | 0, e => return e
  | n + 1, e => do
    match (← peek? 1).bind op? with
    | none => return e
    | some op =>
      let t ← next
      let r ← operand
      chainFrom op? join operand n (join e ⟨op, t.span⟩ r)

/-- A chain of operands and operators, leaning to the left. -/
def chain {α : Type} (op? : Token → Option α) (join : Expr → Located α → Expr → Expr)
    (operand : Parse Expr) : Parse Expr := do
  let e ← operand
  chainFrom op? join operand (← left) e

/-- An operand behind operators that stand before it, at most `n`. -/
def leading {α : Type} (op? : Token → Option α) (join : Located α → Expr → Expr)
    (operand : Parse Expr) : Nat → Parse Expr
  | 0 => operand
  | n + 1 => do
    match (← peek? 1).bind op? with
    | none => operand
    | some op =>
      let t ← next
      return join ⟨op, t.span⟩ (← leading op? join operand n)

end Parser

end OnePass
