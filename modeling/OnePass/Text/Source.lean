import OnePass.Text.Position
import OnePass.Text.Utf8

/-!
# Reading a source text

The bytes of a source fall into lines; a line whose bytes are not UTF-8 is unreadable.
Reading delivers the characters of the readable lines, each line closed by one line feed
whether the source had it or not, and every character comes with the region of the
character *behind* it. An unreadable line is delivered as such and takes up one line.

`readings` is the whole delivery of a source. `Reader` delivers it step by step and keeps
the text of the lines it has reached, so that they can be quoted; `Reader.remaining` is
what it has still to deliver, and `Reader.next?` takes the head off it.
-/

namespace OnePass

/-- A line of a source without its ending, or nothing if its bytes are not UTF-8. -/
abbrev Line := Option String

namespace Line

/-- What is shown of a line: nothing of an unreadable one. -/
def text (l : Line) : String := l.getD ""

/-- A line ended by a line feed loses one carriage return before it. -/
def dropReturn (bytes : List UInt8) : List UInt8 :=
  if bytes.getLast? = some 0x0d then bytes.dropLast else bytes

/-- The lines of a source. Bytes behind the last line feed are a line of their own unless
there are none. -/
def ofBytes (bytes : List UInt8) : List Line :=
  let pieces := bytes.splitOn 0x0a
  let ended := pieces.dropLast.map fun piece => Text.decode? (dropReturn piece)
  match pieces.getLast? with
  | none => ended
  | some [] => ended
  | some piece => ended ++ [Text.decode? piece]

end Line

/-- What reading delivers: a character with the region of the character behind it, or
that a line cannot be read. -/
inductive Reading where
  /-- the character `c`; the character behind it stands at `next` -/
  | char (c : Char) (next : Span)
  /-- a line that is not UTF-8 -/
  | unreadable
  deriving DecidableEq, Repr

namespace Reading

/-- Delivers characters from position `p` on, and the position behind them. -/
def ofChars : Position → List Char → List Reading × Position
  | p, [] => ([], p)
  | p, c :: cs =>
    let q := p.after c
    let (rest, r) := ofChars q cs
    (.char c (.single q) :: rest, r)

/-- Delivers lines from position `p` on. -/
def ofLines : Position → List Line → List Reading
  | _, [] => []
  | p, none :: ls => .unreadable :: ofLines (p.after '\n') ls
  | p, some s :: ls =>
    let (cs, q) := ofChars p (s.toList ++ ['\n'])
    cs ++ ofLines q ls

end Reading

/-- All that reading a source delivers. -/
def readings (bytes : List UInt8) : List Reading :=
  Reading.ofLines .origin (Line.ofBytes bytes)

/-- A source in the course of being read. -/
structure Reader where
  /-- the lines not yet reached -/
  ahead : List Line
  /-- the characters of the current line still to be delivered, its line feed included -/
  pending : List Char
  /-- the position of the next character -/
  position : Position
  /-- the lines reached so far, the last one first -/
  reached : List Line

namespace Reader

/-- A source before anything of it is read. -/
def ofBytes (bytes : List UInt8) : Reader :=
  ⟨Line.ofBytes bytes, [], .origin, []⟩

/-- The region of the first character of any source. -/
def start : Span := .single .origin

/-- All that a reader has still to deliver. -/
def remaining (r : Reader) : List Reading :=
  let (cs, p) := Reading.ofChars r.position r.pending
  cs ++ Reading.ofLines p r.ahead

/-- The next delivery and the reader behind it; nothing at the end of the source. -/
def next? (r : Reader) : Option (Reading × Reader) :=
  match r.pending with
  | c :: cs =>
    let q := r.position.after c
    some (.char c (.single q), { r with pending := cs, position := q })
  | [] =>
    match r.ahead with
    | [] => none
    | none :: ls =>
      some (.unreadable,
        { r with ahead := ls, position := r.position.after '\n', reached := none :: r.reached })
    | some s :: ls =>
      let reached := some s :: r.reached
      match s.toList with
      | [] =>
        let q := r.position.after '\n'
        some (.char '\n' (.single q), ⟨ls, [], q, reached⟩)
      | c :: cs =>
        let q := r.position.after c
        some (.char c (.single q), ⟨ls, cs ++ ['\n'], q, reached⟩)

/-- The text of the line numbered `n` from 1, empty unless the reader has reached it. -/
def line (r : Reader) (n : UInt32) : String :=
  if n = 0 then "" else ((r.reached.reverse[n.toNat - 1]?).map Line.text).getD ""

/-- The next delivery is the first of those that remain. -/
theorem remaining_of_next? {r r' : Reader} {x : Reading} (h : r.next? = some (x, r')) :
    r.remaining = x :: r'.remaining := by
  obtain ⟨ahead, pending, position, reached⟩ := r
  cases pending with
  | cons c cs =>
    simp only [next?, Option.some.injEq, Prod.mk.injEq] at h
    obtain ⟨rfl, rfl⟩ := h
    rfl
  | nil =>
    cases ahead with
    | nil => simp [next?] at h
    | cons l ls =>
      cases l with
      | none =>
        simp only [next?, Option.some.injEq, Prod.mk.injEq] at h
        obtain ⟨rfl, rfl⟩ := h
        rfl
      | some s =>
        cases hs : s.toList with
        | nil =>
          simp only [next?, hs, Option.some.injEq, Prod.mk.injEq] at h
          obtain ⟨rfl, rfl⟩ := h
          simp [remaining, Reading.ofChars, Reading.ofLines, hs]
        | cons c cs =>
          simp only [next?, hs, Option.some.injEq, Prod.mk.injEq] at h
          obtain ⟨rfl, rfl⟩ := h
          simp [remaining, Reading.ofChars, Reading.ofLines, hs]

/-- Nothing comes next exactly when nothing remains. -/
theorem next?_eq_none_iff (r : Reader) : r.next? = none ↔ r.remaining = [] := by
  constructor
  · intro h
    obtain ⟨ahead, pending, position, reached⟩ := r
    cases pending with
    | cons c cs => simp [next?] at h
    | nil =>
      cases ahead with
      | nil => rfl
      | cons l ls =>
        cases l with
        | none => simp [next?] at h
        | some s => cases hs : s.toList <;> simp [next?, hs] at h
  · intro h
    cases hn : r.next? with
    | none => rfl
    | some p => rw [remaining_of_next? hn] at h; exact absurd h (by simp)

end Reader

/-- The text of the line numbered `n` from 1 of a source, empty for an unreadable line and
beyond the end. -/
def lineText (lines : List Line) (n : UInt32) : String :=
  if n = 0 then "" else ((lines[n.toNat - 1]?).map Line.text).getD ""

end OnePass
