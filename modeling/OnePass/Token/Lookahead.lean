import OnePass.Token
import OnePass.Text.Position

/-!
# Tokens that are looked at before they come

A source of tokens can only deliver the next one. Whoever looks further ahead has them delivered,
and those that were looked at and not taken wait in a buffer. `Cursor` does without one, since it
has all tokens at hand. -/

namespace OnePass

/-- Tokens that wait, and those that are still to come. -/
structure Lookahead where
  /-- what was delivered and not taken, in order -/
  buffer : List (Located Token)
  /-- what was not delivered yet, in order -/
  source : List (Located Token)
  deriving Repr

namespace Lookahead

/-- Nothing is delivered yet. -/
def ofList (ts : List (Located Token)) : Lookahead := ⟨[], ts⟩

/-- Tokens are delivered until `k` of them wait, and whether that many did: a source that ends
before leaves behind what it had. -/
def fill (k : Nat) (buffer : List (Located Token)) : List (Located Token) → Bool × Lookahead
  | [] => (decide (k ≤ buffer.length), ⟨buffer, []⟩)
  | t :: source =>
    if buffer.length < k then fill k (buffer ++ [t]) source
    else (true, ⟨buffer, t :: source⟩)

/-- The token `k` places ahead, from 1. It is not taken, but it may have to be delivered. -/
def peek (s : Lookahead) (k : Nat) : Option (Located Token) × Lookahead :=
  match fill k s.buffer s.source with
  | (true, s') => (s'.buffer[k - 1]?, s')
  | (false, s') => (none, s')

/-- Takes the next token: the first one that waits, or else one that is delivered now. -/
def next (s : Lookahead) : Option (Located Token) × Lookahead :=
  match s.buffer, s.source with
  | t :: buffer, source => (some t, ⟨buffer, source⟩)
  | [], t :: source => (some t, ⟨[], source⟩)
  | [], [] => (none, s)

/-- What was not taken yet, in order. -/
def rest (s : Lookahead) : List (Located Token) := s.buffer ++ s.source

theorem rest_ofList (ts : List (Located Token)) : (ofList ts).rest = ts := rfl

/-- Taking a token takes the first one that is left. -/
theorem next_eq (s : Lookahead) :
    s.next.1 = s.rest.head? ∧ s.next.2.rest = s.rest.tail := by
  obtain ⟨buffer, source⟩ := s
  cases buffer with
  | cons t buffer => exact ⟨rfl, rfl⟩
  | nil => cases source <;> exact ⟨rfl, rfl⟩

/-- A token that is taken is no longer left. -/
theorem length_rest_lt {s s' : Lookahead} {t : Located Token} (h : s.next = (some t, s')) :
    s'.rest.length < s.rest.length := by
  obtain ⟨hhead, htail⟩ := next_eq s
  rw [h] at hhead htail
  rw [htail, List.length_tail]
  exact Nat.sub_one_lt_of_lt (List.length_pos_iff.mpr fun hnil => by simp [hnil] at hhead)

/-- Takes one token after the other, to the end. -/
def drain (s : Lookahead) : List (Located Token) :=
  match h : s.next with
  | (some t, s') =>
    have := length_rest_lt h
    t :: s'.drain
  | (none, _) => []
termination_by s.rest.length

end Lookahead

end OnePass
