import OnePass.Machine.Store

/-!
# Random numbers from a seed

A generator to run programs with. It makes a stream of random words from a seed of 64 bits: the
seed is spread over a key of eight words, and the words of the stream are those of the ChaCha cipher
with twelve rounds under that key, block after block. A number below a bound is drawn from the
stream without bias, by refusing the words that would favour some numbers; it is the high half of a
product with the bound, so it is below the bound whatever is refused (`Stream.drawWithin_lt`).
-/

namespace OnePass

namespace Random

namespace Stream

/-- The bits of a word moved `n` places to the right, in a circle. -/
def rotateRight (x n : UInt32) : UInt32 := (x >>> n) ||| (x <<< (32 - n))

/-- The bits of a word moved `n` places to the left, in a circle. -/
def rotateLeft (x n : UInt32) : UInt32 := (x <<< n) ||| (x >>> (32 - n))

/-- The next state of the congruential generator that spreads a seed. -/
def advance (s : UInt64) : UInt64 := s * 6364136223846793005 + 11634580027462260723

/-- The word that a state of the congruential generator gives. -/
def permute (s : UInt64) : UInt32 :=
  rotateRight (((s >>> 18) ^^^ s) >>> 27).toUInt32 (s >>> 59).toUInt32

/-- `n` words spread from a seed. -/
def spread (s : UInt64) : Nat → List UInt32
  | 0 => []
  | n + 1 => permute (advance s) :: spread (advance s) n

/-- The sixteen words the cipher works on. -/
abbrev Block := Vector UInt32 16

/-- The step that stirs four words. -/
def quarterRound (b : Block) (i j k l : Fin 16) : Block :=
  let b := b.set i (b[i] + b[j])
  let b := b.set l (rotateLeft (b[l] ^^^ b[i]) 16)
  let b := b.set k (b[k] + b[l])
  let b := b.set j (rotateLeft (b[j] ^^^ b[k]) 12)
  let b := b.set i (b[i] + b[j])
  let b := b.set l (rotateLeft (b[l] ^^^ b[i]) 8)
  let b := b.set k (b[k] + b[l])
  b.set j (rotateLeft (b[j] ^^^ b[k]) 7)

/-- One round over the columns and one over the diagonals. -/
def doubleRound (b : Block) : Block :=
  let b := quarterRound b 0 4 8 12
  let b := quarterRound b 1 5 9 13
  let b := quarterRound b 2 6 10 14
  let b := quarterRound b 3 7 11 15
  let b := quarterRound b 0 5 10 15
  let b := quarterRound b 1 6 11 12
  let b := quarterRound b 2 7 8 13
  quarterRound b 3 4 9 14

/-- The block that is stirred for block number `n` under a key: constants, key, number
and two zeros. -/
def initialBlock (key : Vector UInt32 8) (n : UInt64) : Block :=
  #v[0x61707865, 0x3320646e, 0x79622d32, 0x6b206574, key[0], key[1], key[2], key[3], key[4],
     key[5], key[6], key[7], n.toUInt32, (n >>> 32).toUInt32, 0, 0]

/-- Block number `n` of the stream: twelve rounds, then the sum with what was stirred. -/
def block (key : Vector UInt32 8) (n : UInt64) : Block :=
  let b := initialBlock key n
  Vector.zipWith (· + ·) (Nat.repeat doubleRound 6 b) b

/-- Word number `k` of the stream. -/
def word (key : Vector UInt32 8) (k : Nat) : UInt32 :=
  (block key (.ofNat (k / 16)))[k % 16]

/-- The largest low half of a product that is accepted for the bound `n`: below it all
numbers are equally frequent. -/
def zone (n : UInt32) : UInt32 := (n <<< (31 - n.log2)) - 1

/-- The number below `n` that a word gives: the high half of their product. -/
def scale (w n : UInt32) : UInt32 := ((w.toUInt64 * n.toUInt64) >>> 32).toUInt32

/-- Draws a number below `n` from word `k` on, taking the first of at most `attempts + 1` words
that is accepted, and otherwise the last; and the number of the next word. -/
def drawWithin (key : Vector UInt32 8) (n : UInt32) (k : Nat) : Nat → UInt32 × Nat
  | 0 => (scale (word key k) n, k + 1)
  | attempts + 1 =>
    if (word key k * n) ≤ zone n then (scale (word key k) n, k + 1)
    else drawWithin key n (k + 1) attempts

/-- How many words may be refused in one draw. At least every second word is accepted on
average, so the limit is out of reach. -/
def refusals : Nat := 4096

/-! ## Numbers below a bound -/

theorem toNat_scale (w n : UInt32) : (scale w n).toNat = w.toNat * n.toNat / UInt32.size := by
  have hlt : w.toNat * n.toNat < UInt64.size := calc
    w.toNat * n.toNat < UInt32.size * UInt32.size := Nat.mul_lt_mul'' w.toNat_lt n.toNat_lt
    _ = UInt64.size := by decide
  have hhigh : w.toNat * n.toNat / UInt32.size < UInt32.size := Nat.div_lt_of_lt_mul hlt
  rw [scale, UInt64.toNat_toUInt32, UInt64.toNat_shiftRight, UInt64.toNat_mul,
    UInt32.toNat_toUInt64, UInt32.toNat_toUInt64, Nat.mod_eq_of_lt hlt, Nat.shiftRight_eq_div_pow]
  exact Nat.mod_eq_of_lt hhigh

/-- The high half of a product is below either factor. -/
theorem scale_lt {n : UInt32} (hn : 0 < n) (w : UInt32) : scale w n < n := by
  rw [UInt32.lt_iff_toNat_lt, toNat_scale, Nat.div_lt_iff_lt_mul (by decide), Nat.mul_comm]
  exact Nat.mul_lt_mul_of_pos_left w.toNat_lt (UInt32.lt_iff_toNat_lt.mp hn)

/-- What is drawn is below the bound, whatever is refused before it. -/
theorem drawWithin_lt {n : UInt32} (hn : 0 < n) (key : Vector UInt32 8) (k attempts : Nat) :
    (drawWithin key n k attempts).1 < n := by
  induction attempts generalizing k with
  | zero => exact scale_lt hn _
  | succ attempts ih =>
    unfold drawWithin
    split
    · exact scale_lt hn _
    · exact ih _

/-- A positive word is the same number without a sign. -/
theorem toInt_eq_toNat {n : Int32} (hn : 0 < n) : n.toInt = n.toUInt32.toNat := by
  have hpos : 0 < n.toInt := Int32.lt_iff_toInt_lt.mp hn
  have hsign := BitVec.toInt_eq_toNat_cond n.toBitVec
  have hlt := n.toBitVec.isLt
  rw [Int32.toInt_toBitVec] at hsign
  show n.toInt = n.toBitVec.toNat
  omega

/-- A number below a positive word is no negative word, and is below it as a word. -/
theorem toInt32_lt {r : UInt32} {n : Int32} (hn : 0 < n) (hr : r < n.toUInt32) :
    0 ≤ r.toInt32 ∧ r.toInt32 < n := by
  have hbound := toInt_eq_toNat hn
  have hlt := UInt32.lt_iff_toNat_lt.mp hr
  have hmax := n.toInt_lt
  have hword : r.toInt32.toInt = r.toNat :=
    BitVec.toInt_eq_toNat_of_lt (x := r.toBitVec) (show 2 * r.toNat < 2 ^ 32 by omega)
  rw [Int32.le_iff_toInt_le, Int32.lt_iff_toInt_lt, hword, Int32.toInt_zero]
  omega

theorem toUInt32_pos {n : Int32} (hn : 0 < n) : 0 < n.toUInt32 := by
  have hpos : 0 < n.toInt := Int32.lt_iff_toInt_lt.mp hn
  rw [toInt_eq_toNat hn] at hpos
  exact UInt32.lt_iff_toNat_lt.mpr (Int.ofNat_lt.mp hpos)

end Stream

/-- The generator that uses the stream under a key from its beginning on. -/
def ofKey (key : Vector UInt32 8) : Random where
  next k bound :=
    let (n, k) := Stream.drawWithin key bound.toUInt32 k Stream.refusals
    (n.toInt32, k)
  range k _ hbound :=
    Stream.toInt32_lt hbound (Stream.drawWithin_lt (Stream.toUInt32_pos hbound) key k
      Stream.refusals)
  state := 0

/-- The generator of a seed, unused. -/
def ofSeed (seed : UInt64) : Random :=
  let words := Stream.spread seed 8
  ofKey (.ofFn fun i => words.getD i.val 0)

end Random

/-- The store of a machine that an image is tried on. -/
def Store.trial (i : Image) (input : List UInt8) : Store :=
  .new i input none (.ofSeed 0) .simple

end OnePass
