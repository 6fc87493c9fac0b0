import OnePass.Token.Lexer

/-!
# Lexemes one at a time

A scanner is asked for one lexeme after the other. It goes round a loop: it looks at the next
character, and the character is taken or left. A character that does not belong to the lexeme is
left for the next one; the first digit of a number is left to be looked at once more among digits;
at a fault nothing is taken; and at the end there is nothing to take. `lexemes` has all of it at
once.

That every call comes to an end is seen from the `weight` of a scanner. A round that does not answer
takes a character, or else goes to a phase of lower rank (`weight_lt_of_again`).
-/

namespace OnePass

/-- At its end a text has at most one more lexeme. -/
theorem Lexer.tail_finish {s : State} {here : Span} {x : Lexeme} {xs : List Lexeme}
    (h : finish s here = x :: xs) : xs = [] := by
  unfold finish at h
  split at h <;> simp_all

/-- What a scanner is about. -/
inductive Scanner.Phase where
  /-- the lexeme in progress -/
  | reading (state : Lexer.State)
  /-- a complete token, which is given away when the next character was looked at -/
  | complete (t : Token) (span : Span)
  deriving DecidableEq, Repr

/-- A lexer in the course of reading a source. -/
structure Scanner where
  /-- what it is about -/
  phase : Scanner.Phase
  /-- the region of the next character -/
  here : Span
  /-- what is still to be read -/
  source : Reader

namespace Scanner

/-- A scanner before anything of a source is read. -/
def ofBytes (bytes : List UInt8) : Scanner := ⟨.reading .fresh, Reader.start, .ofBytes bytes⟩

/-- What one look at the source comes to. -/
inductive Round where
  /-- there is no answer yet -/
  | again (s : Scanner)
  /-- the next lexeme or the end, and the scanner behind it -/
  | answer (x : Option Lexeme) (s : Scanner)

/-- The state behind a lexeme: the rest of a line with a fault is skipped. -/
def behind : Lexeme → Lexer.State
  | .ok _ => .fresh
  | .error _ => .skipping

/-- Gives a lexeme away. -/
def give (s : Scanner) (x : Lexeme) : Round := .answer (some x)
    { s with phase := .reading (behind x) }

/-- What the character `c` does to a lexeme in progress; `next` and `source` are what stands behind
it. -/
def atChar (s : Scanner) (state : Lexer.State) (c : Char) (next : Span) (source : Reader) : Round :=
  if state = .fresh ∧ (Text.digit? c).isSome then
    .again { s with phase := .reading (.integer 0 ⟨s.here.start, s.here.start⟩) }
  else
    match Lexer.move state c s.here with
    | .into state' => .again ⟨.reading state', next, source⟩
    | .complete t span => .again ⟨.complete t span, next, source⟩
    | .behind t span => s.give (.ok ⟨t, span⟩)
    | .fault e => s.give (.error ⟨e, s.here⟩)

/-- What the end of the source does to a lexeme in progress. -/
def atEnd (s : Scanner) (state : Lexer.State) : Round :=
  if state = .lineComment then .again { s with phase := .reading .fresh }
  else
    match Lexer.finish state s.here with
    | [] => .answer none s
    | x :: _ => s.give x

/-- Looks at the source once. -/
def round (s : Scanner) : Round :=
  match s.source.next?, s.phase with
  | some (.unreadable, source), _ => give { s with source } (.error ⟨.unreadable, s.here⟩)
  | _, .complete t span => s.give (.ok ⟨t, span⟩)
  | some (.char c next, source), .reading state => s.atChar state c next source
  | none, .reading state => s.atEnd state

/-! ## What a round can do -/

/-- The ways that a round can go. -/
inductive Turn (s : Scanner) : Round → Prop
  /-- a line cannot be read, whatever was in progress -/
  | unreadable {source : Reader} (hsource : s.source.next? = some (.unreadable, source)) :
    Turn s (give { s with source } (.error ⟨.unreadable, s.here⟩))
  /-- a complete token is given away -/
  | given {t : Token} {span : Span} (hphase : s.phase = .complete t span)
      (hsource : ∀ source, s.source.next? ≠ some (.unreadable, source)) :
    Turn s (s.give (.ok ⟨t, span⟩))
  /-- a digit starts a number -/
  | number {c : Char} {d : Nat} {next : Span} {source : Reader} (hphase : s.phase = .reading .fresh)
      (hsource : s.source.next? = some (.char c next, source)) (hdigit : Text.digit? c = some d) :
    Turn s (.again { s with phase := .reading (.integer 0 ⟨s.here.start, s.here.start⟩) })
  /-- a character goes on with the lexeme -/
  | into {state state' : Lexer.State} {c : Char} {next : Span} {source : Reader}
      (hphase : s.phase = .reading state) (hsource : s.source.next? = some (.char c next, source))
      (hmove : Lexer.move state c s.here = .into state') :
    Turn s (.again ⟨.reading state', next, source⟩)
  /-- a character completes a token -/
  | completed {state : Lexer.State} {t : Token} {span : Span} {c : Char} {next : Span}
      {source : Reader} (hphase : s.phase = .reading state)
      (hsource : s.source.next? = some (.char c next, source))
      (hmove : Lexer.move state c s.here = .complete t span) :
    Turn s (.again ⟨.complete t span, next, source⟩)
  /-- a character stands behind a token -/
  | behind {state : Lexer.State} {t : Token} {span : Span} {c : Char} {next : Span}
      {source : Reader} (hphase : s.phase = .reading state)
      (hsource : s.source.next? = some (.char c next, source))
      (hmove : Lexer.move state c s.here = .behind t span) :
    Turn s (s.give (.ok ⟨t, span⟩))
  /-- a character is a fault -/
  | fault {state : Lexer.State} {e : LexicalError} {c : Char} {next : Span} {source : Reader}
      (hphase : s.phase = .reading state) (hsource : s.source.next? = some (.char c next, source))
      (hmove : Lexer.move state c s.here = .fault e) :
    Turn s (s.give (.error ⟨e, s.here⟩))
  /-- the source ends in a comment of one line -/
  | comment (hphase : s.phase = .reading .lineComment) (hsource : s.source.next? = none) :
    Turn s (.again { s with phase := .reading .fresh })
  /-- the source ends, and nothing is in progress -/
  | ended {state : Lexer.State} (hphase : s.phase = .reading state)
      (hsource : s.source.next? = none)
      (hfinish : Lexer.finish state s.here = []) :
    Turn s (.answer none s)
  /-- the source ends with a last lexeme -/
  | last {state : Lexer.State} {x : Lexeme} (hphase : s.phase = .reading state)
      (hsource : s.source.next? = none) (hfinish : Lexer.finish state s.here = [x]) :
    Turn s (s.give x)

theorem turn_atChar {s : Scanner} {state : Lexer.State} {c : Char} {next : Span} {source : Reader}
    (hphase : s.phase = .reading state) (hsource : s.source.next? = some (.char c next, source)) :
    s.Turn (s.atChar state c next source) := by
  unfold atChar
  split
  · next h =>
    obtain ⟨rfl, hdigit⟩ := h
    obtain ⟨d, hd⟩ := Option.isSome_iff_exists.mp hdigit
    exact .number hphase hsource hd
  · split
    · next hmove => exact .into hphase hsource hmove
    · next hmove => exact .completed hphase hsource hmove
    · next hmove => exact .behind hphase hsource hmove
    · next hmove => exact .fault hphase hsource hmove

theorem turn_atEnd {s : Scanner} {state : Lexer.State} (hphase : s.phase = .reading state)
    (hsource : s.source.next? = none) : s.Turn (s.atEnd state) := by
  unfold atEnd
  split
  · next h => exact .comment (h ▸ hphase) hsource
  · split
    · next hfinish => exact .ended hphase hsource hfinish
    · next x xs hfinish =>
      obtain rfl : xs = [] := Lexer.tail_finish hfinish
      exact .last hphase hsource hfinish

theorem turn_round (s : Scanner) : s.Turn s.round := by
  unfold round
  split
  · next source hsource => exact .unreadable hsource
  · next hphase hsource => exact .given hphase hsource
  · next hsource hphase => exact turn_atChar hphase hsource
  · next hsource hphase => exact turn_atEnd hphase hsource

/-! ## Calls -/

/-- How many rounds a phase may last without a character being taken. -/
def Phase.rank : Phase → Nat
  | .reading .lineComment => 2
  | .reading .fresh => 1
  | _ => 0

/-- What is to come before the answer, at most. -/
def weight (s : Scanner) : Nat := 3 * s.source.remaining.length + s.phase.rank

theorem Phase.rank_le (p : Phase) : p.rank ≤ 2 := by
  unfold rank
  split <;> decide

theorem length_of_next? {r r' : Reader} {x : Reading} (h : r.next? = some (x, r')) :
    r.remaining.length = r'.remaining.length + 1 := by
  rw [Reader.remaining_of_next? h, List.length_cons]

theorem weight_lt_of_next? {s : Scanner} {source : Reader} {x : Reading}
    (h : s.source.next? = some (x, source)) (p : Phase) (next : Span) :
    weight ⟨p, next, source⟩ < s.weight := by
  have hlength := length_of_next? h
  have hrank := p.rank_le
  unfold weight
  dsimp only
  omega

/-- A round that does not answer takes a character or leads to a phase of lower rank. -/
theorem weight_lt_of_again {s s' : Scanner} (h : s.round = .again s') : s'.weight < s.weight := by
  have hturn := s.turn_round
  rw [h] at hturn
  cases hturn with
  | into _ hsource => exact weight_lt_of_next? hsource _ _
  | completed _ hsource => exact weight_lt_of_next? hsource _ _
  | number hphase =>
    unfold weight
    rw [hphase]
    exact Nat.lt_succ_self _
  | comment hphase =>
    unfold weight
    rw [hphase]
    exact Nat.lt_succ_self _

/-- The next lexeme, or nothing at the end, and the scanner behind it. -/
def next (s : Scanner) : Option Lexeme × Scanner :=
  match h : s.round with
  | .answer x s' => (x, s')
  | .again s' =>
    have := weight_lt_of_again h
    s'.next
termination_by s.weight

/-- The scanner behind `k` calls. -/
def after (s : Scanner) : Nat → Scanner
  | 0 => s
  | k + 1 => s.next.2.after k

/-- A call answers in its round number `n`. -/
inductive Answers : Scanner → Nat → Option Lexeme → Scanner → Prop
  | now {s s' : Scanner} {x : Option Lexeme} (h : s.round = .answer x s') : Answers s 1 x s'
  | later {s s' r : Scanner} {n : Nat} {x : Option Lexeme} (h : s.round = .again r)
      (hlater : Answers r n x s') : Answers s (n + 1) x s'

end Scanner

end OnePass
