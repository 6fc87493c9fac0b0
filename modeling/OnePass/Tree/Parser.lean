import OnePass.Tree.Parser.Statement

/-!
# From tokens to a tree

Recursive descent, deciding on at most three tokens ahead and never going back. Besides
the tree, parsing hands back every construct it recognised, so that a program with a
fault is known up to that fault. A fault is placed at the last token taken.
-/

namespace OnePass

namespace Parser

/-- A function. Its scope opens before its parameters. -/
def function : Parse TopLevel := do
  let returns ← match (← peek? 1).bind Token.type? with
    | some _ => some <$> type
    | none => pure none
  let n ← name
  record .openFunction
  let _ ← expect .openParen
  let params ← parameters
  let _ ← expect .closeParen
  let h : Header := ⟨returns, n, params⟩
  record (.header h)
  let body ← statement ((← left) + 1)
  record .closeFunction
  return .function h body

/-- Global variables. -/
def globals : Parse TopLevel := do
  let d ← declaration none
  record (.globals d)
  return .variables d

/-- A declaration outside all functions. -/
def topLevel : Parse TopLevel := do
  let isType := ((← peek? 1).bind Token.type?).isSome
  let isName := ((← peek? 1).bind Token.name?).isSome
  let isName2 := ((← peek? 2).bind Token.name?).isSome
  if isType && isName2 && (← peek? 3) == some .openParen then function
  else if isName && (← peek? 2) == some .openParen then function
  else if isType then globals
  else
    let _ ← next
    fail .declaration

/-- A program. -/
def program : Parse Program := do
  return ⟨← repeatWhile Option.isSome topLevel (← left)⟩

end Parser

/-- What parsing makes of tokens: the constructs recognised, and the tree or the fault
that ended it. -/
structure Parsed where
  /-- what was recognised, in order -/
  constructs : Array Construct
  /-- the tree, or the first fault -/
  result : Except (Located SyntaxError) Program

/-- Parses tokens. A fault without a token to blame is placed at `start`. -/
def parse (start : Span) (tokens : List (Located Token)) : Parsed :=
  let (result, s) := (Parser.program.run).run ⟨.ofList tokens, start, #[]⟩
  ⟨s.found, result⟩

end OnePass
