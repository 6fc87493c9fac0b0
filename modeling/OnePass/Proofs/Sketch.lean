import Mathlib.Data.Set.Insert
import OnePass.Machine
import OnePass.Typing

/-!
# Sketches of running code

What is known of a frame before each of its instructions without running it: the kinds and
types of the values on its stack, and which array slots hold an array by then. Such a `Sketch`
is kept for every position of a stream, and `Takes` says which instruction takes which sketch
to which.

Slots start as the word 0. That is a value of every word type, but no array; so an array slot
counts as ready only once an array was stored. In the initializer a routine can be called
before all fields it uses are ready. The fields of which this has to be expected are the
`exposed` ones of a `Plan`; if there are none, every array that code loads is one.
-/

namespace OnePass

/-- Whether a word is a value of a type. -/
def WordType.Valid (t : WordType) (w : Int32) : Prop :=
  match t with
  | .int => True
  | .bool => w = 0 ∨ w = 1
  | .char => (Word.toChar? w).isSome

namespace WordType

theorem valid_zero (t : WordType) : t.Valid 0 := by
  cases t with
  | int => trivial
  | bool => exact .inl rfl
  | char => exact (by decide : (Word.toChar? 0).isSome)

theorem valid_int (w : Int32) : int.Valid w := trivial

theorem valid_ofBool (b : Bool) : bool.Valid (Word.ofBool b) := by
  cases b
  · exact .inl rfl
  · exact .inr rfl

theorem valid_ofChar (c : Char) : char.Valid (Word.ofChar c) := by
  rw [Valid, Word.toChar?_ofChar]
  rfl

end WordType

/-! ## Sketches -/

/-- What is known of a value on a stack. -/
inductive Cell where
  /-- a word that is a value of a type -/
  | word (type : WordType)
  /-- an array of words of a type, as far as its slot was ready -/
  | array (type : WordType)
  /-- an array that was just made -/
  | fresh (type : WordType)
  /-- a string -/
  | str
  /-- a word that knows its type -/
  | boxed
  deriving DecidableEq, Repr

/-- What is known of a value in a slot. -/
def Cell.ofSlot (s : Slot) : Cell := if s.array then .array s.type else .word s.type

/-- What an expression of a type leaves on the stack. -/
def ExprType.cells : ExprType → List Cell
  | .scalar t => [.word t]
  | .array t => [.array t]
  | .str => [.str]
  | .void => []
  | .effect => []
  | .operator => []

@[simp]
theorem ExprType.cells_ofSlot (s : Slot) : (ExprType.ofSlot s).cells = [Cell.ofSlot s] := by
  unfold ofSlot Cell.ofSlot
  split <;> rfl

/-- What is known of a frame, and of the fields, before an instruction. -/
@[ext]
structure Sketch where
  /-- the values on the stack, the top first -/
  stack : List Cell
  /-- the local slots of arrays that are ready -/
  locals : Set Nat
  /-- the fields of arrays that are ready -/
  fields : Set Nat

/-- What holds at `σ` is enough for `τ`. -/
structure Sketch.Meets (σ τ : Sketch) : Prop where
  stack : σ.stack = τ.stack
  locals : τ.locals ⊆ σ.locals
  fields : τ.fields ⊆ σ.fields

namespace Sketch.Meets

theorem refl (σ : Sketch) : σ.Meets σ := ⟨rfl, subset_rfl, subset_rfl⟩

theorem trans {σ τ υ : Sketch} (h : σ.Meets τ) (h' : τ.Meets υ) : σ.Meets υ :=
  ⟨h.stack.trans h'.stack, h'.locals.trans h.locals, h'.fields.trans h.fields⟩

end Sketch.Meets

/-! ## Plans -/

/-- What is known of a stream from outside: what its slots hold, and what it returns. -/
structure Outline where
  /-- what the argument slots hold -/
  args : List Slot
  /-- what the local slots hold -/
  locals : List Slot
  /-- the type of what it returns -/
  returns : Option WordType
  /-- the fields of arrays that it takes to be ready -/
  before : Set Nat
  /-- the fields of arrays that are ready when it returns -/
  after : Set Nat

/-- What is known at the first instruction of a stream. -/
def Outline.start (o : Outline) : Sketch := ⟨[], ∅, o.before⟩

/-- The values that a stream returns. -/
def Outline.result (o : Outline) : List Cell := o.returns.toList.map .word

/-- What is known of a program from outside its code. -/
structure Plan where
  /-- what the fields hold -/
  fields : List Slot
  /-- the routines -/
  routines : List Outline
  /-- the fields of arrays that may be used before they are ready -/
  exposed : Set Nat

/-! ## Instructions -/

/-- The type of the operands of an operation, and that of its result. -/
def BinaryOp.Types (op : BinaryOp) (operand result : WordType) : Prop :=
  match op with
  | .add | .sub | .mul | .div | .rem | .min | .max => operand = .int ∧ result = .int
  | .and | .or => operand = .bool ∧ result = .bool
  | .eq | .lt | .gt => result = .bool

namespace BinaryOp

theorem types_eq (t : WordType) : eq.Types t .bool := rfl

theorem types_lt (t : WordType) : lt.Types t .bool := rfl

theorem types_gt (t : WordType) : gt.Types t .bool := rfl

end BinaryOp

/-- `Takes P o L i σ next`: in a stream outlined by `o`, whose labels may be gone to with the
sketches `L`, the instruction `i` takes a frame like `σ` to one like `next`, or never to the
instruction behind it. -/
inductive Takes (P : Plan) (o : Outline) (L : List Sketch) :
    Instruction → Sketch → Option Sketch → Prop where
  | pushInt {w t s l f} : t.Valid w → Takes P o L (.pushInt w) ⟨s, l, f⟩ (some ⟨.word t :: s, l, f⟩)
  | pushStr {v s l f} : Takes P o L (.pushStr v) ⟨s, l, f⟩ (some ⟨.str :: s, l, f⟩)
  | pop {c s l f} : Takes P o L .pop ⟨c :: s, l, f⟩ (some ⟨s, l, f⟩)
  | dup {c s l f} : Takes P o L .dup ⟨c :: s, l, f⟩ (some ⟨c :: c :: s, l, f⟩)
  | swap {b a s l f} : Takes P o L .swap ⟨b :: a :: s, l, f⟩ (some ⟨a :: b :: s, l, f⟩)
  | loadLocal {i v s l f} : o.locals[i.toNat]? = some v → (v.array → i.toNat ∈ l) →
      Takes P o L (.loadLocal i) ⟨s, l, f⟩ (some ⟨.ofSlot v :: s, l, f⟩)
  | storeLocal {i t s l f} : o.locals[i.toNat]? = some (.scalar t) →
      Takes P o L (.storeLocal i) ⟨.word t :: s, l, f⟩ (some ⟨s, l, f⟩)
  | setLocal {i t s l f} : o.locals[i.toNat]? = some (.ofArray t) →
      Takes P o L (.storeLocal i) ⟨.fresh t :: s, l, f⟩ (some ⟨s, insert i.toNat l, f⟩)
  | loadArg {i v s l f} : o.args[i.toNat]? = some v →
      Takes P o L (.loadArg i) ⟨s, l, f⟩ (some ⟨.ofSlot v :: s, l, f⟩)
  | storeArg {i t s l f} : o.args[i.toNat]? = some (.scalar t) →
      Takes P o L (.storeArg i) ⟨.word t :: s, l, f⟩ (some ⟨s, l, f⟩)
  | loadField {i v s l f} : P.fields[i.toNat]? = some v → (v.array → i.toNat ∈ f ∪ P.exposed) →
      Takes P o L (.loadField i) ⟨s, l, f⟩ (some ⟨.ofSlot v :: s, l, f⟩)
  | storeField {i t s l f} : P.fields[i.toNat]? = some (.scalar t) →
      Takes P o L (.storeField i) ⟨.word t :: s, l, f⟩ (some ⟨s, l, f⟩)
  | setField {i t s l f} : P.fields[i.toNat]? = some (.ofArray t) →
      Takes P o L (.storeField i) ⟨.fresh t :: s, l, f⟩ (some ⟨s, l, insert i.toNat f⟩)
  | newArray {n t s l f} : Takes P o L (.newArray n) ⟨s, l, f⟩ (some ⟨.fresh t :: s, l, f⟩)
  | loadElem {t s l f} :
      Takes P o L .loadElem ⟨.word .int :: .array t :: s, l, f⟩ (some ⟨.word t :: s, l, f⟩)
  | storeElem {t s l f} :
      Takes P o L .storeElem ⟨.word t :: .word .int :: .array t :: s, l, f⟩ (some ⟨s, l, f⟩)
  | arrayLen {t s l f} :
      Takes P o L .arrayLen ⟨.array t :: s, l, f⟩ (some ⟨.word .int :: s, l, f⟩)
  | binary {op t r s l f} : op.Types t r →
      Takes P o L (.binary op) ⟨.word t :: .word t :: s, l, f⟩ (some ⟨.word r :: s, l, f⟩)
  | neg {s l f} : Takes P o L .neg ⟨.word .int :: s, l, f⟩ (some ⟨.word .int :: s, l, f⟩)
  | jump {n σ τ} : L[n.toNat]? = some τ → σ.Meets τ → Takes P o L (.jump n) σ none
  | jumpIfFalse {n s l f τ} : L[n.toNat]? = some τ → Sketch.Meets ⟨s, l, f⟩ τ →
      Takes P o L (.jumpIfFalse n) ⟨.word .bool :: s, l, f⟩ (some ⟨s, l, f⟩)
  | jumpIfTrue {n s l f τ} : L[n.toNat]? = some τ → Sketch.Meets ⟨s, l, f⟩ τ →
      Takes P o L (.jumpIfTrue n) ⟨.word .bool :: s, l, f⟩ (some ⟨s, l, f⟩)
  | call {n r s l f} : P.routines[n.toNat]? = some r → r.before ⊆ f ∪ P.exposed →
      Takes P o L (.call n) ⟨(r.args.map .ofSlot).reverse ++ s, l, f⟩ (some ⟨r.result ++ s, l, f⟩)
  | ret {s l f} : s = o.result → o.after ⊆ f → Takes P o L .ret ⟨s, l, f⟩ none
  | random {s l f} : Takes P o L .random ⟨.word .int :: s, l, f⟩ (some ⟨.word .int :: s, l, f⟩)
  | box {t s l f} : Takes P o L (.box t) ⟨.word t :: s, l, f⟩ (some ⟨.boxed :: s, l, f⟩)
  | print {t s l f} : Takes P o L (.print t) ⟨.word t :: s, l, f⟩ (some ⟨s, l, f⟩)
  | printStr {s l f} : Takes P o L .printStr ⟨.str :: s, l, f⟩ (some ⟨s, l, f⟩)
  | printFormat {n cs s l f} : cs.length = n.toNat → (∀ c ∈ cs, c = .str ∨ c = .boxed) →
      Takes P o L (.printFormat n) ⟨cs ++ .str :: s, l, f⟩ (some ⟨s, l, f⟩)
  | readLine {s l f} : Takes P o L .readLine ⟨s, l, f⟩ (some ⟨.str :: s, l, f⟩)
  | parse {t s l f} : Takes P o L (.parse t) ⟨.str :: s, l, f⟩ (some ⟨.word t :: s, l, f⟩)

/-- More labels do not hurt. -/
theorem Takes.mono {P : Plan} {o : Outline} {L L' : List Sketch} {i : Instruction} {σ : Sketch}
    {next : Option Sketch} (h : Takes P o L i σ next) (hL : L <+: L') : Takes P o L' i σ next := by
  have hget {n : Nat} {τ : Sketch} (h : L[n]? = some τ) : L'[n]? = some τ := by
    obtain ⟨more, rfl⟩ := hL
    rw [List.getElem?_append_left (List.getElem?_eq_some_iff.mp h).1, h]
  cases h with
  | jump hl hm => exact .jump (hget hl) hm
  | jumpIfFalse hl hm => exact .jumpIfFalse (hget hl) hm
  | jumpIfTrue hl hm => exact .jumpIfTrue (hget hl) hm
  | _ => constructor <;> assumption

/-! ## Streams -/

/-- `S` is a sketch for every position of the stream `c`, and `L` one for every label, such
that each instruction takes what is known before it to what is known behind it. Control never
gets to the end of the instructions. -/
structure Code.TypedBy (P : Plan) (o : Outline) (c : Code) (S : Nat → Sketch) (L : List Sketch) :
    Prop where
  start : o.start.Meets (S 0)
  nonempty : 0 < c.instructions.size
  takes : ∀ (p : Nat) (i : Instruction), c.instructions[p]? = some i → ∃ next,
    Takes P o L i (S p) next ∧
    ∀ τ : Sketch, next = some τ → p + 1 < c.instructions.size ∧ τ.Meets (S (p + 1))
  labels : ∀ (n : Nat) (τ : Sketch), L[n]? = some τ → ∃ p,
    (c.labels[n]?).map UInt32.toNat = some p ∧
    p < c.instructions.size ∧ τ.Meets (S p)

/-- The instructions of a stream fit each other and what is known of it from outside. -/
def Code.Typed (P : Plan) (o : Outline) (c : Code) : Prop := ∃ S L, c.TypedBy P o S L

/-- A routine is as its outline says. -/
structure Routine.Typed (P : Plan) (o : Outline) (r : Routine) : Prop where
  args : o.args = r.params
  locals : o.locals.length = r.locals.toNat
  returns : o.returns = r.returns
  code : r.code.Typed P o

/-- The outline of the stream that runs before the entry routine. It leaves all fields in
`after` ready. -/
def Outline.initializer (after : Set Nat) : Outline := ⟨[], [], none, ∅, after⟩

/-- The fields of arrays. -/
def Plan.arrays (P : Plan) : Set Nat := {i | ∃ t, P.fields[i]? = some (.ofArray t)}

/-- The plan with other exposed fields. -/
def Plan.withExposed (P : Plan) (exposed : Set Nat) : Plan := { P with exposed }

/-- An image is as a plan says. Its initializer leaves all fields of arrays ready, and so the
entry routine finds them. The routines are typed whichever fields are exposed: they take the
fields to be ready that they use, and only their callers have to see to it. -/
structure Image.Typed (P : Plan) (image : Image) : Prop where
  fields : P.fields.length = image.fields.length
  size : P.routines.length = image.routines.size
  routines : ∀ X (n : Nat) (o : Outline) (r : Routine), P.routines[n]? = some o →
    image.routines[n]? = some r → r.Typed (P.withExposed X) o
  initializer : image.initializer.Typed P (.initializer P.arrays)
  entry : image.entry.toNat < image.routines.size
  before : ∀ o ∈ P.routines, o.before ⊆ P.arrays

/-- The routines of an image are typed in a plan, whatever its initializer is. -/
structure Image.Linked (P : Plan) (image : Image) : Prop where
  fields : P.fields.length = image.fields.length
  size : P.routines.length = image.routines.size
  routines : ∀ (n : Nat) (o : Outline) (r : Routine), P.routines[n]? = some o →
    image.routines[n]? = some r → r.Typed P o

theorem Image.Typed.linked {P : Plan} {image : Image} (h : image.Typed P) (X : Set Nat) :
    image.Linked (P.withExposed X) := ⟨h.fields, h.size, h.routines X⟩

end OnePass
