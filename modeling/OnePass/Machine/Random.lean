/-!
# Random numbers

The machine asks a generator for random numbers and relies on one thing only: a number that is
drawn below a positive bound is not negative, and is below the bound (`Random.range`). Which one it
is depends on what the generator has in mind, and that changes from one number to the next in a way
that nothing else looks into. The memory of a generator is finite, so a number can stand for it.
-/

namespace OnePass

/-- A generator of random numbers in the middle of its work. -/
structure Random where
  /-- the number that is drawn below a bound in some state, and the state behind it -/
  next : Nat → Int32 → Int32 × Nat
  /-- a number below a positive bound is one from 0 below it -/
  range : ∀ state bound, 0 < bound → 0 ≤ (next state bound).1 ∧ (next state bound).1 < bound
  /-- the present state -/
  state : Nat

namespace Random

/-- Draws a number below a bound. -/
def draw (bound : Int32) (r : Random) : Int32 × Random :=
  let (n, state) := r.next r.state bound
  (n, { r with state })

/-- Draws a number from 0 below a positive bound; for any other bound it is 0, and the
generator is not asked. -/
def below (bound : Int32) (r : Random) : Int32 × Random :=
  if 0 < bound then r.draw bound else (0, r)

end Random

end OnePass
