import OnePass.Machine.Value

/-!
# Composite formatting

A format string is text with places for values: digits in braces are the number of a
value, counted from 0, and a brace that is text is written twice. The text of a value is
put in as it is and not looked at again.
-/

namespace OnePass

namespace Format

/-- What has been read of a format string. -/
inductive Mode where
  /-- nothing is open -/
  | text
  /-- an opening brace, the last character -/
  | opened
  /-- an opening brace and digits behind it -/
  | digits (read : List Char)
  /-- a closing brace that closes nothing, the last character -/
  | closed
  deriving DecidableEq, Repr

/-- The text of a value in a format; an array has none. -/
def valueText : Value → Option (List Char)
  | .boxed t w => some (t.render w).toList
  | .word w => some (Text.renderWord w).toList
  | .str s => some s.toList
  | .array _ => none

/-- The text that digits in braces stand for. -/
def placeholder (args : List Value) (digits : List Char) : Option (List Char) := do
  let n ← Text.natural? digits
  let v ← args[n]?
  valueText v

/-- What a character adds to the text, and how reading goes on; nothing if it may not
stand there. -/
def next (args : List Value) (m : Mode) (c : Char) : Option (List Char × Mode) :=
  match m with
  | .text =>
    if c = '\x7b' then some ([], .opened)
    else if c = '\x7d' then some ([], .closed)
    else some ([c], .text)
  | .opened =>
    if c = '\x7b' then some ([c], .text)
    else if c.isDigit then some ([], .digits [c])
    else none
  | .digits read =>
    if c = '\x7d' then (placeholder args read).map fun text => (text, .text)
    else if c.isDigit then some ([], .digits (read ++ [c]))
    else none
  | .closed => if c = '\x7d' then some ([c], .text) else none

/-- Fills the places of a format string. -/
def fill (args : List Value) (m : Mode) : List Char → Option (List Char)
  | [] => if m = .text then some [] else none
  | c :: cs => do
    let (text, m') ← next args m c
    let rest ← fill args m' cs
    return text ++ rest

end Format

/-- The text of a format string filled with values, if it is well-formed and every place
has a value. -/
def compose (format : String) (args : List Value) : Option String :=
  (Format.fill args .text format.toList).map String.ofList

end OnePass
