import OnePass.Token
import OnePass.Text.Position

/-!
# A cursor over tokens

Tokens are looked at ahead of being taken. A cursor is the tokens not taken yet: looking
ahead changes nothing, and only taking advances. It knows their number without counting
them again, which is how far whoever takes tokens in a loop can get.
-/

namespace OnePass

/-- The tokens not taken yet. -/
structure Cursor where
  /-- what is still to come, in order -/
  rest : List (Located Token)
  /-- how many there are -/
  size : Nat
  /-- the number is right -/
  size_eq : size = rest.length
  deriving Repr

namespace Cursor

/-- A cursor before the first of the tokens. -/
def ofList (ts : List (Located Token)) : Cursor := ⟨ts, ts.length, rfl⟩

/-- The token `k` places ahead, from 1, without taking anything. -/
def peek? (c : Cursor) (k : Nat) : Option (Located Token) :=
  if k = 0 then none else c.rest[k - 1]?

/-- The cursor behind the next token, if there is one. -/
def advance (c : Cursor) : Cursor := ⟨c.rest.tail, c.size - 1, by simp [c.size_eq]⟩

/-- The next token and the cursor behind it. -/
def next? (c : Cursor) : Option (Located Token × Cursor) :=
  match c.rest with
  | [] => none
  | t :: _ => some (t, c.advance)

/-- A cursor is nothing but the tokens not taken yet. -/
theorem eq_ofList (c : Cursor) : c = ofList c.rest := by
  obtain ⟨rest, _, rfl⟩ := c
  rfl

/-- There is no next token exactly at the end. -/
theorem next?_ofList_nil : (ofList []).next? = none := rfl

/-- The next token is the first one, and the others are what is left. -/
theorem next?_ofList_cons (t : Located Token) (ts : List (Located Token)) :
    (ofList (t :: ts)).next? = some (t, ofList ts) := rfl

/-- Looking one place ahead shows the token that would be taken. -/
theorem peek?_one (c : Cursor) : c.peek? 1 = c.next?.map Prod.fst := by
  rw [eq_ofList c]
  cases c.rest <;> rfl

end Cursor

end OnePass
