import OnePass.Tree

/-!
# Constructs

What is recognised of a program, in the order in which it is recognised. The compiler
makes one pass: code is generated for a construct as soon as its last token is read, and
for an outer construct piece by piece, before, between and behind its parts. A program
that breaks off with a fault has still been recognised up to there.

`Program.constructs` takes a whole tree apart in that order.
-/

namespace OnePass

/-- A piece of a program that means something to the generator of code. -/
inductive Construct where
  /-- global variables -/
  | globals (decl : Declaration)
  /-- the start of a function, before its parameters -/
  | openFunction
  /-- parameters of one type -/
  | parameters (group : ParameterGroup)
  /-- a function up to its body -/
  | header (header : Header)
  /-- the end of a function -/
  | closeFunction
  /-- the start of a block -/
  | openBlock
  /-- variables of a block -/
  | locals (decl : Declaration)
  /-- the end of a block -/
  | closeBlock
  /-- an expression for its effect -/
  | expr (value : Expr)
  /-- a choice up to its first branch -/
  | ifTrue (condition : Expr)
  /-- the point between the branches of a choice -/
  | ifFalse
  /-- the end of a choice -/
  | endIf
  /-- a loop up to its body -/
  | openLoop
  /-- the end of a loop, with its condition -/
  | closeLoop (condition : Expr)
  /-- a counting loop up to its body -/
  | openCount (counter : Name) (range : Range)
  /-- the end of a counting loop -/
  | closeCount (range : Range)
  /-- a return -/
  | ret (word : Span) (value : Option Expr)
  /-- an exit from a loop -/
  | leave (word : Span)
  deriving Repr

namespace Stmt

mutual

/-- The constructs of a statement. -/
def constructs : Stmt → List Construct
  | .block locals body =>
    .openBlock :: locals.map .locals ++ constructsOf body ++ [.closeBlock]
  | .expr e => [.expr e]
  | .empty _ => []
  | .choice c body none => .ifTrue c :: body.constructs ++ [.endIf]
  | .choice c body (some otherwise) =>
    .ifTrue c :: body.constructs ++ .ifFalse :: otherwise.constructs ++ [.endIf]
  | .loop c body => .openLoop :: body.constructs ++ [.closeLoop c]
  | .count counter range body =>
    .openCount counter range :: body.constructs ++ [.closeCount range]
  | .ret word value => [.ret word value]
  | .leave word => [.leave word]

/-- The constructs of statements. -/
def constructsOf : List Stmt → List Construct
  | [] => []
  | s :: ss => s.constructs ++ constructsOf ss

end

@[simp]
theorem constructs_block (locals : List Declaration) (body : List Stmt) :
    (block locals body).constructs =
      .openBlock :: locals.map .locals ++ constructsOf body ++ [.closeBlock] := rfl

@[simp]
theorem constructs_expr (e : Expr) : (expr e).constructs = [.expr e] := rfl

@[simp]
theorem constructs_empty (semicolon : Span) : (empty semicolon).constructs = [] := rfl

@[simp]
theorem constructs_choice (c : Expr) (body : Stmt) :
    (choice c body none).constructs = .ifTrue c :: body.constructs ++ [.endIf] := rfl

@[simp]
theorem constructs_choiceOr (c : Expr) (body otherwise : Stmt) :
    (choice c body (some otherwise)).constructs =
      .ifTrue c :: body.constructs ++ .ifFalse :: otherwise.constructs ++ [.endIf] := rfl

@[simp]
theorem constructs_loop (c : Expr) (body : Stmt) :
    (loop c body).constructs = .openLoop :: body.constructs ++ [.closeLoop c] := rfl

@[simp]
theorem constructs_count (counter : Name) (range : Range) (body : Stmt) :
    (count counter range body).constructs =
      .openCount counter range :: body.constructs ++ [.closeCount range] := rfl

@[simp]
theorem constructs_ret (word : Span) (value : Option Expr) :
    (ret word value).constructs = [.ret word value] := rfl

@[simp]
theorem constructs_leave (word : Span) : (leave word).constructs = [.leave word] := rfl

end Stmt

/-- The constructs of a declaration outside all functions. -/
def TopLevel.constructs : TopLevel → List Construct
  | .variables d => [.globals d]
  | .function h body =>
    .openFunction :: h.params.map .parameters ++ .header h :: body.constructs
      ++ [.closeFunction]

/-- The constructs of a program. -/
def Program.constructs (p : Program) : List Construct := p.items.flatMap TopLevel.constructs

end OnePass
