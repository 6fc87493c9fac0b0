import OnePass.Machine.Value
import OnePass.Text.Quoted

/-!
# Why runs fail

Every way in which a run can fail, with its wording. What an image compiled from a program
can run into is only a part of it: a stored image may hold anything.
-/

namespace OnePass

/-- What an instruction refers to by number. -/
inductive Reference where
  | local
  | argument
  | field
  | label
  | routine
  deriving DecidableEq, Repr

/-- The word for a kind of reference. -/
def Reference.text : Reference → String
  | .local => "local"
  | .argument => "argument"
  | .field => "field"
  | .label => "label"
  | .routine => "routine"

/-- Why input or output failed. -/
inductive ChannelError where
  /-- a line of the input is not UTF-8 -/
  | unreadableLine
  /-- the output takes no more -/
  | outputFull
  deriving DecidableEq, Repr

/-- The wording of a failure of input or output. -/
def ChannelError.message : ChannelError → String
  | .unreadableLine => "stream did not contain valid UTF-8"
  | .outputFull => "failed to write whole buffer"

/-- Why a run fails. -/
inductive MachineError where
  /-- input or output failed -/
  | channel (cause : ChannelError)
  /-- an instruction of the routine needs more values than there are -/
  | stackUnderflow (routine : String)
  /-- a value is of another kind than an instruction needs -/
  | expected (kind found : Kind)
  | divideByZero
  | overflow
  /-- an array has no such element -/
  | indexOutOfRange (index : Int32) (length : Nat)
  /-- a line does not denote a value of the type -/
  | badInput (text : String) (type : WordType)
  | endOfInput
  /-- a format string is not well-formed, or refers to what is not there -/
  | badFormat (text : String)
  /-- calls are nested too deep -/
  | stackOverflow
  /-- a number refers to nothing -/
  | badReference (what : Reference) (index : UInt32)
  /-- a routine has no instruction left -/
  | missingReturn (routine : String)
  deriving DecidableEq, Repr

/-- The wording of a failure. -/
def MachineError.message : MachineError → String
  | .channel _ => "I/O error"
  | .stackUnderflow routine => "Evaluation stack underflow in `" ++ routine ++ "`"
  | .expected kind found =>
    "Expected " ++ kind.text ++ " on the evaluation stack, found " ++ found.text
  | .divideByZero => "Division by zero"
  | .overflow => "Arithmetic overflow"
  | .indexOutOfRange index length =>
    "Index " ++ Text.renderWord index ++ " is out of range for an array of length "
      ++ toString length
  | .badInput text type =>
    "Cannot parse " ++ Text.quotedString text ++ " as `" ++ type.text ++ "`"
  | .endOfInput => "Unexpected end of input"
  | .badFormat text => "Bad format string " ++ Text.quotedString text
  | .stackOverflow => "Call depth limit exceeded"
  | .badReference what index =>
    "Reference to undefined " ++ what.text ++ " " ++ toString index.toNat
  | .missingReturn routine => "Routine `" ++ routine ++ "` ended without returning"

end OnePass
