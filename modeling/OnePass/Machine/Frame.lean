import OnePass.Machine.Error
import OnePass.Machine.Store

/-!
# Calls in progress

Every call has a frame with its own arguments, locals and evaluation stack. An
instruction works on its frame and on the store; when it fails, what it did before stays
done.
-/

namespace OnePass

/-- A call in progress. -/
structure Frame where
  /-- the name of what is running -/
  name : String
  /-- its instructions -/
  code : Code
  /-- the index of the next instruction -/
  position : Nat
  /-- the arguments -/
  args : Array Value
  /-- the local slots -/
  locals : Array Value
  /-- the evaluation stack, the top first -/
  stack : List Value
  deriving DecidableEq, Repr

/-- A call at its first instruction. -/
def Frame.enter (name : String) (code : Code) (args : List Value) (locals : UInt32) : Frame :=
  ⟨name, code, 0, args.toArray, Array.replicate locals.toNat .zero, []⟩

/-- What an instruction works on. -/
structure Context where
  /-- the frame it belongs to -/
  frame : Frame
  /-- what all frames share -/
  store : Store

/-- The work of an instruction; a failure keeps what was done before it. -/
abbrev Exec (α : Type) := ExceptT MachineError (StateM Context) α

/-- Where control goes behind an instruction. -/
inductive Transfer where
  /-- to the next instruction of the frame -/
  | onward
  /-- into a new frame -/
  | call (callee : Frame)
  /-- back to the caller, perhaps with a value -/
  | ret (value : Option Value)

end OnePass
