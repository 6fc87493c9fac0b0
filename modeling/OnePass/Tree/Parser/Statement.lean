import OnePass.Tree.Parser.Declaration

/-!
# Parsers of statements

The first token of a statement decides its form. A statement inside another is parsed by
an argument, as an expression inside another is. A construct is recorded as soon as the
tokens that make it up are taken, so that a compound statement is recorded in pieces,
around and between those of its parts.
-/

namespace OnePass.Parser

/-- Whether a token starts a declaration in a block. -/
def startsLocal : Option Token → Bool
  | some t => t = .keyword .static || t.type?.isSome
  | none => false

/-- A block. -/
def block (stmt : Parse Stmt) : Parse Stmt := do
  let _ ← expect .openCurly
  record .openBlock
  let locals ← repeatWhile startsLocal localDeclaration (← left)
  let body ← repeatWhile (fun t => t.isSome && t != some .closeCurly) stmt (← left)
  let _ ← expect .closeCurly
  record .closeBlock
  return .block locals body

/-- A choice. An `else` belongs to the nearest `if`. -/
def choice (stmt : Parse Stmt) : Parse Stmt := do
  let _ ← expect (.keyword .if)
  let c ← simpleExpr
  record (.ifTrue c)
  let _ ← expect (.keyword .then)
  let body ← stmt
  if ← accept (.keyword .else) then
    record .ifFalse
    let otherwise ← stmt
    record .endIf
    return .choice c body (some otherwise)
  else
    record .endIf
    return .choice c body none

/-- A loop while a condition holds. -/
def loop (stmt : Parse Stmt) : Parse Stmt := do
  let _ ← expect (.keyword .while)
  let c ← simpleExpr
  let _ ← expect (.keyword .do)
  record .openLoop
  let body ← stmt
  record (.closeLoop c)
  return .loop c body

/-- The range of a counting loop. -/
def range : Parse Range := do
  let start ← simpleExpr
  if ← accept (.keyword .to) then
    let last ← simpleExpr
    if ← accept (.keyword .by) then return ⟨start, some (last, some (← simpleExpr))⟩
    else return ⟨start, some (last, none)⟩
  else return ⟨start, none⟩

/-- A counting loop. -/
def count (stmt : Parse Stmt) : Parse Stmt := do
  let _ ← expect (.keyword .for)
  let counter ← name
  let _ ← expect (.assign .set)
  let r ← range
  let _ ← expect (.keyword .do)
  record (.openCount counter r)
  let body ← stmt
  record (.closeCount r)
  return .count counter r body

/-- A return. -/
def ret : Parse Stmt := do
  let word ← expect (.keyword .return)
  let value ← match ← peek? 1 with
    | some .semicolon => pure none
    | _ => some <$> expr
  let _ ← expect .semicolon
  record (.ret word value)
  return .ret word value

/-- An exit from a loop. -/
def leave : Parse Stmt := do
  let t ← next
  let _ ← expect .semicolon
  record (.leave t.span)
  return .leave t.span

/-- An expression for its effect. -/
def effect : Parse Stmt := do
  let e ← expr
  let _ ← expect .semicolon
  record (.expr e)
  return .expr e

/-- Any statement, at most `n` levels deep. -/
def statement : Nat → Parse Stmt
  | 0 => fail .expression
  | n + 1 => do
    match ← peek? 1 with
    | some .openCurly => block (statement n)
    | some (.keyword .if) => choice (statement n)
    | some (.keyword .while) => loop (statement n)
    | some (.keyword .for) => count (statement n)
    | some (.keyword .return) => ret
    | some (.keyword .break) => leave
    | some .semicolon => (fun t => .empty t.span) <$> next
    | _ => effect

end OnePass.Parser
