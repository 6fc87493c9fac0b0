import OnePass.Image.Code

/-!
# Executable images

What the compiler produces and the machine runs: the global fields, a stream that
initialises them, and one routine for each function.
-/

namespace OnePass

/-- A named global slot. Variables that outlive their function live here as well. -/
structure Field where
  /-- its name, used in listings only -/
  name : String
  /-- what it holds -/
  slot : Slot
  deriving DecidableEq, Repr

/-- A compiled function. -/
structure Routine where
  /-- its name -/
  name : String
  /-- what each argument slot holds -/
  params : List Slot
  /-- the type of the word it returns, or nothing -/
  returns : Option WordType
  /-- how many local slots it has -/
  locals : UInt32
  /-- its instructions -/
  code : Code
  deriving DecidableEq, Repr

/-- A whole program. -/
structure Image where
  /-- whether the entry routine was written by the user, and not put in its place -/
  userEntry : Bool
  /-- the global slots -/
  fields : List Field
  /-- the stream that runs before the entry routine -/
  initializer : Code
  /-- the functions -/
  routines : Array Routine
  /-- the index of the routine to run -/
  entry : UInt32
  deriving DecidableEq, Repr

namespace Image

/-- The routine to run, if the index is that of one. -/
def entryRoutine? (i : Image) : Option Routine := i.routines[i.entry.toNat]?

end Image

end OnePass
