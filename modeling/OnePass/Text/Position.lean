/-!
# Positions and regions of a source text

A `Position` is a line and a column, both counted from 1 in numbers of 32 bits, which begin
anew behind the largest one; `Position.after` says where the character behind a given one
stands. A `Span` is a half-open region between two positions, and `Located` ties a value to
the region it was read from. The name of the file is not part of a region: every region of
one text shares it, so it is supplied only when a region is written out.
-/

namespace OnePass

/-- A line and a column of a text, both from 1. -/
structure Position where
  /-- the line, from 1 -/
  line : UInt32
  /-- the column, from 1, in characters with tabulators expanded -/
  column : UInt32
  deriving DecidableEq, Repr, Inhabited

namespace Position

/-- Distance between the tab stops of a line. -/
def tabStop : UInt32 := 4

/-- The position of the first character of a text. -/
def origin : Position := ⟨1, 1⟩

/-- The position behind the character `c` standing at `p`: a line feed opens the next
line, a tabulator leads to the next tab stop, anything else takes one column. -/
def after (p : Position) (c : Char) : Position :=
  if c = '\n' then ⟨p.line + 1, 1⟩
  else if c = '\t' then ⟨p.line, 1 + ((p.column - 1) / tabStop + 1) * tabStop⟩
  else ⟨p.line, p.column + 1⟩

/-- Written as `line:column`. -/
def render (p : Position) : String :=
  toString p.line.toNat ++ ":" ++ toString p.column.toNat

end Position

/-- The half-open region from `start` to `stop`. -/
structure Span where
  /-- the first position of the region -/
  start : Position
  /-- the first position behind the region -/
  stop : Position
  deriving DecidableEq, Repr, Inhabited

namespace Span

/-- The region of one column at `p`. -/
def single (p : Position) : Span := ⟨p, ⟨p.line, p.column + 1⟩⟩

/-- The region from the start of `a` to the end of `b`. -/
def upTo (a b : Span) : Span := ⟨a.start, b.stop⟩

/-- Written as `name:line:column`, from the start of the region. -/
def render (name : String) (s : Span) : String :=
  name ++ ":" ++ s.start.render

/-- Written with both ends, as `name:line:column..line:column`. -/
def renderFull (name : String) (s : Span) : String :=
  name ++ ":" ++ s.start.render ++ ".." ++ s.stop.render

end Span

/-- A value and the region of the text it was read from. -/
structure Located (α : Type) where
  /-- the value -/
  value : α
  /-- where it was read -/
  span : Span
  deriving DecidableEq, Repr

namespace Located

/-- Applies a function to the value and keeps the region. -/
def map {α β : Type} (f : α → β) (x : Located α) : Located β := ⟨f x.value, x.span⟩

end Located

end OnePass
