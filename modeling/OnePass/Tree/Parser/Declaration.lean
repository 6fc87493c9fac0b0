import OnePass.Tree.Parser.Expression

/-!
# Parsers of declarations

Variables of one type are declared together, each perhaps with a length and with what
initialises it. Parameters come in groups of one type as well.
-/

namespace OnePass.Parser

/-- The length of an array, with its brackets. -/
def arrayLength : Parse (Option (Located Int32)) := do
  if ← accept .openSquare then
    let t ← next
    match t.value with
    | .int n =>
      let _ ← expect .closeSquare
      return some ⟨n, t.span⟩
    | _ => fail .arrayLength
  else return none

/-- One variable of a declaration. A colon and an equals sign mean the same. -/
def declarator : Parse Declarator := do
  let n ← name
  let length ← arrayLength
  if ← accept .colon then return ⟨n, length, some (← simpleExpr)⟩
  else if ← accept (.assign .set) then return ⟨n, length, some (← simpleExpr)⟩
  else return ⟨n, length, none⟩

/-- A declaration behind the word `static`, up to its semicolon. -/
def declaration (static : Option Span) : Parse Declaration := do
  let t ← type
  let items ← separatedBy .comma declarator (← left)
  let _ ← expect .semicolon
  return ⟨static, t, items⟩

/-- A declaration in a block. -/
def localDeclaration : Parse Declaration := do
  let static ← match ← peek? 1 with
    | some (.keyword .static) => (fun t => some t.span) <$> next
    | _ => pure none
  let d ← declaration static
  record (.locals d)
  return d

/-- One parameter. -/
def parameter : Parse Parameter := do
  let n ← name
  match ← peek? 1 with
  | some .openSquare =>
    let t ← next
    let _ ← expect .closeSquare
    return ⟨n, some t.span⟩
  | _ => return ⟨n, none⟩

/-- Parameters of one type. -/
def parameterGroup : Parse ParameterGroup := do
  let t ← type
  let items ← separatedBy .comma parameter (← left)
  record (.parameters ⟨t, items⟩)
  return ⟨t, items⟩

/-- The parameters of a function, without the parentheses. -/
def parameters : Parse (List ParameterGroup) := do
  match ← peek? 1 with
  | some .closeParen => return []
  | _ => separatedBy .semicolon parameterGroup (← left)

end OnePass.Parser
