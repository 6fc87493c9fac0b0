/-!
# Decimal numerals

Writing of machine words and reading of integers. A numeral is an optional sign and at
least one digit; a value that its type cannot hold is refused. Where the reason of a
refusal is shown, the first character that decides counts.
-/

namespace OnePass.Text

/-- The value of a decimal digit. -/
def digit? (c : Char) : Option Nat :=
  if '0' ≤ c ∧ c ≤ '9' then some (c.toNat - '0'.toNat) else none

/-- The number that a sequence of decimal digits stands for, after the digits that
make up `acc`; none if a character is not a digit. -/
def digitsValue? (acc : Nat) : List Char → Option Nat
  | [] => some acc
  | c :: cs =>
    match digit? c with
    | some d => digitsValue? (acc * 10 + d) cs
    | none => none

/-- The number that a nonempty sequence of decimal digits stands for. -/
def natural? (cs : List Char) : Option Nat :=
  if cs.isEmpty then none else digitsValue? 0 cs

/-- The integer that an optional sign and a nonempty sequence of digits stand for. -/
def integer? : List Char → Option Int
  | '-' :: cs => (natural? cs).map fun n => -(n : Int)
  | '+' :: cs => (natural? cs).map fun n => (n : Int)
  | cs => (natural? cs).map fun n => (n : Int)

/-- The machine word that a numeral stands for, if it is in range. -/
def word? (cs : List Char) : Option Int32 :=
  match integer? cs with
  | some i => if -2147483648 ≤ i ∧ i ≤ 2147483647 then some (Int32.ofInt i) else none
  | none => none

/-- The decimal numeral of a machine word. -/
def renderWord (w : Int32) : String := toString w.toInt

/-- Why a text is not an unsigned numeral of 64 bits. -/
inductive UnsignedError where
  /-- there is no character at all -/
  | empty
  /-- a character is not a digit -/
  | invalidDigit
  /-- the digits read so far exceed the type -/
  | tooLarge
  deriving DecidableEq, Repr

/-- The wording of a refusal. -/
def UnsignedError.message : UnsignedError → String
  | .empty => "cannot parse integer from empty string"
  | .invalidDigit => "invalid digit found in string"
  | .tooLarge => "number too large to fit in target type"

/-- Reads digits behind those that make up `acc`, refusing at the first character that
is no digit or leads out of 64 bits. -/
def unsignedDigits (acc : Nat) : List Char → Except UnsignedError UInt64
  | [] => .ok (UInt64.ofNat acc)
  | c :: cs =>
    match digit? c with
    | none => .error .invalidDigit
    | some d =>
      if acc * 10 + d < 2 ^ 64 then unsignedDigits (acc * 10 + d) cs else .error .tooLarge

/-- Reads an unsigned numeral of 64 bits, with an optional plus sign. -/
def unsigned64 : List Char → Except UnsignedError UInt64
  | [] => .error .empty
  | ['+'] => .error .invalidDigit
  | '+' :: cs => unsignedDigits 0 cs
  | cs => unsignedDigits 0 cs

end OnePass.Text
