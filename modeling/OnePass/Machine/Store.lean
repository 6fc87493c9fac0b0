import OnePass.Image
import OnePass.Machine.Random
import OnePass.Machine.Value

/-!
# What outlasts a call

The `Store` is what all calls of a run share and what lasts from one run to the next: the fields,
the arrays, the input and the output, and what the machine relies on from outside. Arrays are kept
here and referred to by number, so that they are shared by all that refer to them. -/

namespace OnePass

/-- Where output goes. -/
structure Output where
  /-- the bytes written so far -/
  bytes : Array UInt8
  /-- how many bytes it takes in all, if that is limited -/
  limit : Option Nat
  deriving DecidableEq, Repr

namespace Output

/-- Writes bytes, as many of them as there is room for, and whether all were written. -/
def write (o : Output) (bytes : List UInt8) : Bool × Output :=
  match o.limit with
  | none => (true, { o with bytes := o.bytes ++ bytes.toArray })
  | some limit =>
    let fitting := bytes.take (limit - o.bytes.size)
    (fitting.length = bytes.length, { o with bytes := o.bytes ++ fitting.toArray })

end Output

/-- What all frames share and what outlasts a run. -/
structure Store where
  /-- the values of the fields -/
  fields : Array Value
  /-- the arrays made so far, by reference -/
  arrays : Array (Array Int32)
  /-- the input not read yet -/
  input : List UInt8
  /-- the output -/
  output : Output
  /-- where random numbers come from -/
  random : Random
  /-- how a line is compared with the names of truth values -/
  caseless : Caseless

/-- The store of an image before its first run. -/
def Store.new (i : Image) (input : List UInt8) (limit : Option Nat) (random : Random)
    (caseless : Caseless) : Store :=
  ⟨Array.replicate i.fields.length .zero, #[], input, ⟨#[], limit⟩, random, caseless⟩

end OnePass
