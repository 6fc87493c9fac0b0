import OnePass.Tree.Parser.Basic

/-!
# Parsers of expressions

Each level of the grammar is a parser made from the next tighter one. Where the grammar
comes back to the outermost level, inside parentheses and brackets and behind an
assignment, an argument that counts down keeps the descent finite; it starts from the
number of tokens, and no token is passed twice on the way down.
-/

namespace OnePass.Parser

/-- Choosing operators. -/
def choosing? : Token → Option ArithOp
  | .bound .min => some .min
  | .bound .max => some .max
  | _ => none

/-- Additive operators. -/
def additive? : Token → Option ArithOp
  | .plus => some .add
  | .minus => some .sub
  | _ => none

/-- Multiplicative operators. -/
def multiplicative? : Token → Option ArithOp
  | .times => some .mul
  | .divide => some .div
  | .percent => some .rem
  | _ => none

/-- Operators before their operand. -/
def lead? : Token → Option LeadOp
  | .minus => some .negative
  | .times => some .length
  | .question => some .random
  | _ => none

/-- Comparisons. -/
def relation? : Token → Option RelOp
  | .relation op => some op
  | _ => none

/-- The keyword `k` and no other. -/
def word? (k : Keyword) (t : Token) : Option Unit :=
  if t = .keyword k then some () else none

/-- The arguments of a call behind its opening parenthesis. -/
def arguments (expr : Parse Expr) : Parse (List Expr) := do
  if ← accept .closeParen then return []
  let args ← separatedBy .comma expr (← left)
  let _ ← expect .closeParen
  return args

/-- A call. -/
def call (expr : Parse Expr) : Parse Expr := do
  let n ← name
  let _ ← expect .openParen
  return .call n (← arguments expr)

/-- A variable or an element of one. -/
def place (expr : Parse Expr) : Parse Expr := do
  let n ← name
  if ← accept .openSquare then
    let i ← expr
    let _ ← expect .closeSquare
    return .elem n i
  else return .var n

/-- What is no place and has no operator outside parentheses. -/
def closed (expr : Parse Expr) : Parse Expr := do
  let t ← next
  match t.value, t.value.literal? with
  | .openParen, _ =>
    let e ← expr
    let _ ← expect .closeParen
    return .paren e
  | _, some v => return .literal ⟨v, t.span⟩
  | _, none => fail .expression

/-- An operand without operators. -/
def atom (expr : Parse Expr) : Parse Expr := do
  match (← peek? 1).bind Token.name?, ← peek? 2 with
  | some _, some .openParen => call expr
  | some _, _ => place expr
  | none, _ => closed expr

/-- An operand with the operators before it. -/
def unary (expr : Parse Expr) : Parse Expr := do
  leading lead? .lead (atom expr) (← left)

/-- A chain of integer operators, the tightest level first. -/
def arithmetic (expr : Parse Expr) : Parse Expr :=
  chain choosing? .arith (chain additive? .arith (chain multiplicative? .arith (unary expr)))

/-- At most one comparison. -/
def comparison (expr : Parse Expr) : Parse Expr := do
  let l ← arithmetic expr
  match (← peek? 1).bind relation? with
  | none => return l
  | some op =>
    let t ← next
    return .compare l ⟨op, t.span⟩ (← arithmetic expr)

/-- A comparison with the words `not` before it. -/
def negation (expr : Parse Expr) : Parse Expr := do
  leading (word? .not) (fun op e => .negate op.span e) (comparison expr) (← left)

/-- An expression that is no assignment. -/
def simple (expr : Parse Expr) : Parse Expr :=
  chain (word? .or) (fun l _ r => .logic .or l r)
    (chain (word? .and) (fun l _ r => .logic .and l r) (negation expr))

/-- Any expression, at most `n` levels deep. What follows a place decides whether it is
assigned to. -/
def expression : Nat → Parse Expr
  | 0 => fail .expression
  | n + 1 => do
    let p ← simple (expression n)
    match ← peek? 1 with
    | some (.assign op) =>
      let t ← next
      return .assign p ⟨op, t.span⟩ (← expression n)
    | some (.step op) =>
      let t ← next
      return .step p ⟨op, t.span⟩
    | _ => return p

/-- Any expression. -/
def expr : Parse Expr := do
  expression ((← left) + 1)

/-- An expression that is no assignment. -/
def simpleExpr : Parse Expr := do
  simple (expression (← left))

end OnePass.Parser
