import OnePass.Text.Source

/-!
# Reports

An error that stops a compilation is shown with the lines of the source it lies in and a
row of carets under the columns it covers. A report shows all errors of a compilation and
counts them.
-/

namespace OnePass

/-- The part of the compiler that found an error. -/
inductive Phase where
  | lexical
  | syntactic
  | semantic
  deriving DecidableEq, Repr

/-- The words for an error of each part. -/
def Phase.text : Phase → String
  | .lexical => "lexical error"
  | .syntactic => "syntax error"
  | .semantic => "semantic error"

/-- An error in words, with its place. -/
structure Diagnostic where
  /-- who found it -/
  phase : Phase
  /-- what is wrong -/
  message : String
  /-- where -/
  span : Span
  deriving DecidableEq, Repr

namespace Diagnostic

/-- A text of `n` equal characters. -/
def fill (n : Nat) (c : Char) : String := String.ofList (List.replicate n c)

/-- A text moved to the right end of a field of `width` characters. -/
def alignRight (width : Nat) (s : String) : String := fill (width - s.length) ' ' ++ s

/-- The last column that belongs to a region whose end is in this column; there is none before
the first. -/
def included (stop : UInt32) : UInt32 := if stop = 0 then 0 else stop - 1

/-- The first and the last column under which carets stand. The end of a region is
exclusive, an empty or reversed region is still underlined, and no column is below 1. -/
def caretColumns (s : Span) : UInt32 × UInt32 :=
  (max 1 (min s.start.column (included s.stop.column)),
    max s.start.column (included s.stop.column))

/-- The row of carets of a region, from the left edge of the quoted text on. -/
def carets (s : Span) : String :=
  let (first, last) := caretColumns s
  fill (first - 1).toNat ' ' ++ fill (last - first + 1).toNat '^'

/-- The numbers of the lines that a region is quoted with; none if it is reversed. -/
def quotedLines (s : Span) : List UInt32 :=
  (List.range' s.start.line.toNat (s.stop.line.toNat + 1 - s.start.line.toNat)).map UInt32.ofNat

/-- An error as it is shown, given the name and the lines of the source. -/
def render (name : String) (lines : List Line) (d : Diagnostic) : String :=
  let gutter := (toString d.span.stop.line.toNat).length
  let quote (n : UInt32) := alignRight gutter (toString n.toNat) ++ " | " ++
    lineText lines n ++ "\n"
  d.phase.text ++ ": " ++ d.message ++ "\n"
    ++ fill (gutter - 1) ' ' ++ " --> " ++ d.span.render name ++ "\n"
    ++ fill gutter ' ' ++ " |\n"
    ++ String.join ((quotedLines d.span).map quote)
    ++ fill gutter ' ' ++ " | " ++ carets d.span ++ "\n"

end Diagnostic

/-- The errors that stopped a compilation, with the source they refer to. -/
structure Report where
  /-- the name of the source -/
  name : String
  /-- the lines of the source -/
  lines : List Line
  /-- the errors in the order they were found -/
  diagnostics : List Diagnostic
  deriving DecidableEq, Repr

namespace Report

/-- The words of each error. -/
def messages (r : Report) : List String := r.diagnostics.map Diagnostic.message

/-- The closing line of a report of `n` errors. -/
def summary : Nat → String
  | 0 => "No errors were reported\n"
  | 1 => "Build failed with 1 error\n"
  | n => "Build failed with " ++ toString n ++ " errors\n"

/-- A report as it is shown. -/
def render (r : Report) : String :=
  String.join (r.diagnostics.map fun d => d.render r.name r.lines ++ "\n")
    ++ summary r.diagnostics.length

end Report

end OnePass
