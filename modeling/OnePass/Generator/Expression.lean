import OnePass.Generator.Call
import OnePass.Generator.Operator

/-!
# Code for expressions

Each form of expression has one rule, a function on the operands of its parts;
`Expr.operand` applies the rules from the leaves up.
-/

namespace OnePass

namespace Expr

mutual

/-- How an expression is compiled. -/
def operand (t : Target) : Expr → Operand
  | .literal v => ⟨v.span, Rules.literal t v.value, none⟩
  | .var n => ⟨n.span, Rules.var t n, some ⟨n, none⟩⟩
  | .elem n i =>
    let index := (i.operand t).compileInt
    let span := (Expr.elem n i).span
    ⟨span, Rules.elem t span n index, some ⟨n, some index⟩⟩
  | .paren e => ⟨e.span, (e.operand t).compile, none⟩
  | .call n args =>
    let span := (Expr.call n args).span
    ⟨span, Rules.call t span n (operands t args), none⟩
  | .lead op e => ⟨(Expr.lead op e).span, Rules.lead t op.value (e.operand t), none⟩
  | .arith l op r =>
    ⟨(Expr.arith l op r).span, Rules.arith t (l.operand t) op.value (r.operand t), none⟩
  | .compare l op r =>
    ⟨(Expr.compare l op r).span, Rules.compare t (l.operand t) op.value (r.operand t), none⟩
  | .negate word e => ⟨(Expr.negate word e).span, Rules.negate t (e.operand t), none⟩
  | .logic op l r =>
    ⟨(Expr.logic op l r).span, Rules.logic t op (l.operand t) (r.operand t), none⟩
  | .step p op => ⟨(Expr.step p op).span, Rules.step t (p.operand t) op.value, none⟩
  | .assign p op v =>
    ⟨(Expr.assign p op v).span, Rules.assign t (p.operand t) op (v.operand t), none⟩

/-- How the expressions of a list are compiled. -/
def operands (t : Target) : List Expr → List Operand
  | [] => []
  | e :: es => e.operand t :: operands t es

end

/-- Compiles an expression. -/
def compile (t : Target) (e : Expr) : Gen ExprType := (e.operand t).compile

/-- Compiles an expression that must be of a type. -/
def compileAs (t : Target) (e : Expr) (expected : ExprType) : Gen Unit :=
  (e.operand t).compileAs expected

end Expr

end OnePass
