import OnePass.Scope
import OnePass.Tree
import OnePass.Generator.Operator
import OnePass.Proofs.CallRuns

/-!
# What expressions mean

The value of an expression, said without the code for it: operands are evaluated from left to
right, all of them, and calls run the routine of the function on the values of its arguments.
Arithmetic is that of the integers, as far as its results are words.

Evaluation takes place in a `Memory`, which calls and random numbers change. It may fail. It comes
to `nothing` where a call takes more than a given number of instructions; also where there is no
value to come to, as for an assignment.
-/

namespace OnePass

/-- What the code of a call works on: the slots of the call, and what all calls share. -/
structure Memory where
  /-- the arguments -/
  args : Array Value
  /-- the local slots -/
  locals : Array Value
  /-- what all calls share -/
  store : Store

/-- What code is to be understood in, as far as that stays the same while it runs. -/
structure Situation where
  /-- where the routines are -/
  image : Image
  /-- the visible variables -/
  scopes : Scopes
  /-- the functions -/
  functions : Functions
  /-- whether the right side of a compound subtraction or division is evaluated twice -/
  legacy : Bool
  /-- how many calls are in progress -/
  depth : Nat
  /-- how many instructions each further call may take, and how many rounds each loop -/
  fuel : Nat

/-- Evaluation in a memory, with what it leaves there, or nothing. -/
abbrev Eval (α : Type) := ExceptT MachineError (StateT Memory Option) α

/-! ## Memory -/

namespace Memory

/-- What a slot holds. -/
def get? (m : Memory) : Handle → Option Value
  | .field i => m.store.fields[i.toNat]?
  | .local i => m.locals[i.toNat]?
  | .argument i => m.args[i.toNat]?

/-- The memory with another value in a slot. -/
def set (m : Memory) (h : Handle) (v : Value) : Memory :=
  match h with
  | .field i => { m with store := {
      m.store with fields := m.store.fields.setIfInBounds i.toNat v } }
  | .local i => { m with locals := m.locals.setIfInBounds i.toNat v }
  | .argument i => { m with args := m.args.setIfInBounds i.toNat v }

/-- The words of an array. -/
def words (m : Memory) (ref : Nat) : Array Int32 := m.store.arrays.getD ref #[]

/-- The memory with other words in an array. -/
def modifyWords (m : Memory) (ref : Nat) (f : Array Int32 → Array Int32) : Memory :=
  { m with store := { m.store with arrays := m.store.arrays.modify ref f } }

end Memory

/-! ## Operations on values -/

/-- The value of a literal. -/
def Literal.meaning : Literal → Value
  | .int n => .word n
  | .bool b => .word (Word.ofBool b)
  | .char c => .word (Word.ofChar c)
  | .str s => .str s

/-- The result of an operator on two integers. Sums, differences and products are taken modulo
2³²; quotients are rounded towards zero. -/
def ArithOp.meaning (op : ArithOp) (x y : Int32) : Except MachineError Int32 :=
  match op with
  | .add => .ok (.ofInt (x.toInt + y.toInt))
  | .sub => .ok (.ofInt (x.toInt - y.toInt))
  | .mul => .ok (.ofInt (x.toInt * y.toInt))
  | .div =>
    if y = 0 then .error .divideByZero
    else if x = Int32.minValue ∧ y = -1 then .error .overflow
    else .ok (.ofInt (x.toInt.tdiv y.toInt))
  | .rem =>
    if y = 0 then .error .divideByZero
    else if x = Int32.minValue ∧ y = -1 then .error .overflow
    else .ok (.ofInt (x.toInt.tmod y.toInt))
  | .min => .ok (if x.toInt ≤ y.toInt then x else y)
  | .max => .ok (if x.toInt ≤ y.toInt then y else x)

/-- Whether a comparison holds. -/
def RelOp.meaning (op : RelOp) (x y : Int32) : Bool :=
  match op with
  | .eq => x.toInt = y.toInt
  | .ne => x.toInt ≠ y.toInt
  | .lt => x.toInt < y.toInt
  | .gt => y.toInt < x.toInt
  | .ge => y.toInt ≤ x.toInt
  | .le => x.toInt ≤ y.toInt

/-- The result of an operator on two truth values. -/
def LogicOp.meaning (op : LogicOp) (x y : Bool) : Bool :=
  match op with
  | .and => x && y
  | .or => x || y

namespace Eval

variable {α : Type}

/-- Evaluation that comes to nothing. -/
def nothing : Eval α := ExceptT.mk fun _ => none

/-- The word that a value is. -/
def word : Value → Eval Int32
  | .word w => return w
  | v => throw (.expected .word v.kind)

/-- The array that a value refers to. -/
def array : Value → Eval Nat
  | .array ref => return ref
  | v => throw (.expected .array v.kind)

/-- What a slot holds. -/
def read (h : Handle) : Eval Value := do
  match (← get).get? h with
  | some v => return v
  | none => nothing

/-- Where an index stands in an array, which must have such a position. -/
def position (ref : Nat) (index : Int32) : Eval Nat := do
  let length := ((← get).words ref).size
  if 0 ≤ index.toInt ∧ index.toInt < length then return index.toInt.toNat
  else throw (.indexOutOfRange index length)

/-- The element of an array at an index. -/
def element (a : Value) (index : Int32) : Eval Int32 := do
  let ref ← array a
  let k ← position ref index
  return ((← get).words ref).getD k 0

theorem run_bind_ok {β : Type} {ev : Eval α} {f : α → Eval β} {a : α} {m m' : Memory}
    (h : ev.run.run m = some (.ok a, m')) : (ev >>= f).run.run m = (f a).run.run m' := by
  rw [ExceptT.run_bind, StateT.run_bind, h]
  rfl

theorem run_bind_error {β : Type} {ev : Eval α} {f : α → Eval β} {e : MachineError} {m m' : Memory}
    (h : ev.run.run m = some (.error e, m')) : (ev >>= f).run.run m = some (.error e, m') := by
  rw [ExceptT.run_bind, StateT.run_bind, h]
  rfl

theorem run_bind_none {β : Type} {ev : Eval α} {f : α → Eval β} {m : Memory}
    (h : ev.run.run m = none) : (ev >>= f).run.run m = none := by
  rw [ExceptT.run_bind, StateT.run_bind, h]
  rfl

/-- Where two evaluations come to a value, the first one does. -/
theorem of_run_bind {β : Type} {ev : Eval α} {f : α → Eval β} {b : β} {m m' : Memory}
    (h : (ev >>= f).run.run m = some (.ok b, m')) :
    ∃ a m₁, ev.run.run m = some (.ok a, m₁) ∧ (f a).run.run m₁ = some (.ok b, m') := by
  rcases hev : ev.run.run m with - | ⟨e | a, m₁⟩
  · rw [run_bind_none hev] at h
    cases h
  · rw [run_bind_error hev] at h
    cases h
  · exact ⟨a, m₁, rfl, run_bind_ok hev ▸ h⟩

theorem run_read {h : Handle} {v : Value} {m : Memory} (hv : m.get? h = some v) :
    (read h).run.run m = some (.ok v, m) := by
  show (match m.get? h with
    | some v => (pure v : Eval Value)
    | none => nothing).run.run m = _
  rw [hv]
  rfl

theorem of_run_read {h : Handle} {v : Value} {m m' : Memory}
    (hrun : (read h).run.run m = some (.ok v, m')) : m' = m ∧ m.get? h = some v := by
  cases hv : m.get? h with
  | some x =>
    rw [run_read hv] at hrun
    cases hrun
    exact ⟨rfl, rfl⟩
  | none =>
    have hnone : (read h).run.run m = (match m.get? h with
      | some v => (pure v : Eval Value)
      | none => nothing).run.run m := rfl
    rw [hnone, hv] at hrun
    cases hrun

theorem of_run_array {v : Value} {ref : Nat} {m m' : Memory}
    (hrun : (array v).run.run m = some (.ok ref, m')) : m' = m ∧ v = .array ref := by
  cases v <;> cases hrun
  exact ⟨rfl, rfl⟩

theorem run_position (ref : Nat) (x : Int32) (m : Memory) :
    (position ref x).run.run m =
      if 0 ≤ x.toInt ∧ x.toInt < (m.words ref).size then some (.ok x.toInt.toNat, m)
      else some (.error (.indexOutOfRange x (m.words ref).size), m) := by
  show (if 0 ≤ x.toInt ∧ x.toInt < (m.words ref).size then pure x.toInt.toNat
    else throw (.indexOutOfRange x (m.words ref).size) : Eval Nat).run.run m = _
  split <;> rfl

theorem run_element (ref : Nat) (x : Int32) (m : Memory) :
    (element (.array ref) x).run.run m =
      if 0 ≤ x.toInt ∧ x.toInt < (m.words ref).size then
        some (.ok ((m.words ref).getD x.toInt.toNat 0), m)
      else some (.error (.indexOutOfRange x (m.words ref).size), m) := by
  show ((if 0 ≤ x.toInt ∧ x.toInt < (m.words ref).size then pure x.toInt.toNat
    else throw (.indexOutOfRange x (m.words ref).size) : Eval Nat) >>= fun k =>
      do return ((← get).words ref).getD k 0 : Eval Int32).run.run m = _
  split <;> rfl

/-- A random word below `bound`, which the memory keeps track of. -/
def below (bound : Int32) : Eval Int32 := do
  let m ← get
  set { m with store := { m.store with random := (Random.below bound m.store.random).2 } }
  return (Random.below bound m.store.random).1

/-- The result of an operator before its operand. A random number below a negative one is the
negative of a random number below the opposite. -/
def lead (op : LeadOp) (v : Value) : Eval Int32 := do
  match op with
  | .negative => return .ofInt (-(← word v).toInt)
  | .length =>
    let ref ← array v
    return .ofInt ((← get).words ref).size
  | .random =>
    let bound ← word v
    if bound.toInt < 0 then return -(← below (-bound))
    else below bound

end Eval

namespace Situation

/-- What a variable holds. -/
def valueOf (s : Situation) (name : Name) : Eval Value :=
  match s.scopes.lookup name.value with
  | some v => Eval.read v.handle
  | none => Eval.nothing

theorem valueOf_of_lookup {s : Situation} {name : Name} {v : Symbol}
    (h : s.scopes.lookup name.value = some v) : s.valueOf name = Eval.read v.handle := by
  unfold valueOf
  rw [h]

/-- What a routine hands back when it runs on arguments. -/
def run (s : Situation) (r : Routine) (args : List Value) : Eval (Option Value) :=
  if s.depth = maxDepth then throw .stackOverflow
  else ExceptT.mk fun m =>
    match Calls.advance s.image s.depth s.fuel
      (.active ⟨.enter r.name r.code args r.locals, [], m.store⟩) with
    | .done result st => some (result, { m with store := st })
    | .active _ => none

theorem run_eq (s : Situation) (r : Routine) (args : List Value) (m : Memory) :
    (s.run r args).run.run m =
      if s.depth = maxDepth then some (.error .stackOverflow, m)
      else match Calls.advance s.image s.depth s.fuel
          (.active ⟨.enter r.name r.code args r.locals, [], m.store⟩) with
        | .done result st => some (result, { m with store := st })
        | .active _ => none := by
  unfold run
  by_cases h : s.depth = maxDepth
  · rw [if_pos h, if_pos h]
    rfl
  · rw [if_neg h, if_neg h]
    rfl

/-- What a function hands back when it is called with arguments. -/
def call (s : Situation) (name : Name) (args : List Value) : Eval (Option Value) :=
  match (s.functions.lookup name.value).map FunctionSymbol.body with
  | some (.routine n) =>
    match s.image.routines[n.toNat]? with
    | some r => s.run r args
    | none => Eval.nothing
  | _ => Eval.nothing

theorem call_of_lookup {s : Situation} {name : Name} {f : FunctionSymbol} {n : UInt32} {r : Routine}
    (hf : s.functions.lookup name.value = some f) (hbody : f.body = .routine n)
    (hr : s.image.routines[n.toNat]? = some r) : s.call name = s.run r := by
  funext args
  unfold call
  rw [hf, Option.map_some, hbody]
  dsimp only
  rw [hr]

end Situation

/-! ## Expressions -/

namespace Expr

mutual

/-- The value of an expression. -/
def evaluate (s : Situation) : Expr → Eval Value
  | .literal v => return v.value.meaning
  | .var n => s.valueOf n
  | .elem n i => do
    let a ← s.valueOf n
    let x ← Eval.word (← i.evaluate s)
    return .word (← Eval.element a x)
  | .paren e => e.evaluate s
  | .call n args => do
    match ← s.call n (← evaluateAll s args) with
    | some v => return v
    | none => Eval.nothing
  | .lead op e => do return .word (← Eval.lead op.value (← e.evaluate s))
  | .arith l op r => do
    let x ← Eval.word (← l.evaluate s)
    let y ← Eval.word (← r.evaluate s)
    return .word (← op.value.meaning x y)
  | .compare l op r => do
    let x ← Eval.word (← l.evaluate s)
    let y ← Eval.word (← r.evaluate s)
    return .word (Word.ofBool (op.value.meaning x y))
  | .negate _ e => do
    let x ← Eval.word (← e.evaluate s)
    return .word (Word.ofBool (x = 0))
  | .logic op l r => do
    let x ← Eval.word (← l.evaluate s)
    let y ← Eval.word (← r.evaluate s)
    return .word (Word.ofBool (op.meaning (x ≠ 0) (y ≠ 0)))
  | .step _ _ => Eval.nothing
  | .assign _ _ _ => Eval.nothing

/-- The values of expressions, from left to right. -/
def evaluateAll (s : Situation) : List Expr → Eval (List Value)
  | [] => return []
  | e :: es => do
    let v ← e.evaluate s
    let vs ← evaluateAll s es
    return v :: vs

end

end Expr

/-! ## The same by instructions -/

/-- The instruction of an operator on two integers computes its result. -/
theorem ArithOp.binary_eq (op : ArithOp) (x y : Int32) :
    Exec.binary (Rules.arithInstruction op) x y = op.meaning x y := by
  cases op with
  | add | sub | mul => simp [Exec.binary, Rules.arithInstruction, meaning]
  | div =>
    have hdiv : Int32.ofInt (x.toInt.tdiv y.toInt) = x / y := by
      rw [Int32.ofInt_tdiv x.minValue_le_toInt x.toInt_le y.minValue_le_toInt y.toInt_le,
        Int32.ofInt_toInt, Int32.ofInt_toInt]
    simp [Exec.binary, Rules.arithInstruction, meaning, hdiv]
  | rem =>
    have hmod : Int32.ofInt (x.toInt.tmod y.toInt) = x % y := by
      rw [Int32.ofInt_tmod x.minValue_le_toInt x.toInt_le y.minValue_le_toInt y.toInt_le,
        Int32.ofInt_toInt, Int32.ofInt_toInt]
    simp [Exec.binary, Rules.arithInstruction, meaning, hmod]
  | min =>
    by_cases h : x.toInt ≤ y.toInt
    · simp [Exec.binary, Rules.arithInstruction, meaning, Int32.lt_iff_toInt_lt, h,
        Int.not_lt.mpr h]
    · simp [Exec.binary, Rules.arithInstruction, meaning, Int32.lt_iff_toInt_lt, h, Int.not_le.mp h]
  | max =>
    by_cases h : x.toInt ≤ y.toInt
    · rcases Int.lt_or_eq_of_le h with hlt | heq
      · simp [Exec.binary, Rules.arithInstruction, meaning, Int32.lt_iff_toInt_lt, h, hlt]
      · obtain rfl := Int32.toInt_inj.mp heq
        simp [Exec.binary, Rules.arithInstruction, meaning]
    · have hlt : ¬ x.toInt < y.toInt := fun hlt => h (Int.le_of_lt hlt)
      simp [Exec.binary, Rules.arithInstruction, meaning, Int32.lt_iff_toInt_lt, h, hlt]

/-- A word that is 0 or 1 is made of a truth value. -/
theorem WordType.eq_ofBool_of_valid {w : Int32} (h : WordType.bool.Valid w) :
    w = Word.ofBool (w ≠ 0) := by
  rcases h with rfl | rfl <;> decide

/-- The instruction of an operator on two truth values computes its result. -/
theorem LogicOp.binary_eq (op : LogicOp) {x y : Int32} (hx : WordType.bool.Valid x)
    (hy : WordType.bool.Valid y) :
    Exec.binary (Rules.logicInstruction op) x y =
      .ok (Word.ofBool (op.meaning (x ≠ 0) (y ≠ 0))) := by
  cases op <;> rcases hx with rfl | rfl <;> rcases hy with rfl | rfl <;> rfl

/-- The opposite of a truth value is found by comparing it with 0. -/
theorem Word.ofBool_eq_zero (b : Bool) : Word.ofBool (Word.ofBool b = 0) = Word.ofBool (!b) := by
  cases b <;> decide

/-- What is true and what is not of two words. -/
theorem RelOp.meaning_ne (x y : Int32) : RelOp.ne.meaning x y = !RelOp.eq.meaning x y := by
  simp [meaning]

theorem RelOp.meaning_ge (x y : Int32) : RelOp.ge.meaning x y = !RelOp.lt.meaning x y := by
  simp only [meaning, ← Int.not_lt, decide_not]

theorem RelOp.meaning_le (x y : Int32) : RelOp.le.meaning x y = !RelOp.gt.meaning x y := by
  simp only [meaning, ← Int.not_lt, decide_not]

theorem Exec.binary_eq (x y : Int32) :
    Exec.binary .eq x y = .ok (Word.ofBool (RelOp.eq.meaning x y)) := by
  simp [Exec.binary, RelOp.meaning, Int32.toInt_inj]

theorem Exec.binary_lt (x y : Int32) :
    Exec.binary .lt x y = .ok (Word.ofBool (RelOp.lt.meaning x y)) := by
  simp [Exec.binary, RelOp.meaning, Int32.lt_iff_toInt_lt]

theorem Exec.binary_gt (x y : Int32) :
    Exec.binary .gt x y = .ok (Word.ofBool (RelOp.gt.meaning x y)) := by
  simp [Exec.binary, RelOp.meaning, Int32.lt_iff_toInt_lt]

/-- An index has a position exactly where an instruction finds one. -/
theorem Exec.offset?_eq (index : Int32) (length : Nat) :
    Exec.offset? index length =
      if 0 ≤ index.toInt ∧ index.toInt < length then some index.toInt.toNat else none := by
  have hzero : 0 ≤ index ↔ 0 ≤ index.toInt := Int32.le_iff_toInt_le
  unfold Exec.offset?
  by_cases h : 0 ≤ index.toInt ∧ index.toInt < length
  · have h' : 0 ≤ index ∧ index.toInt.toNat < length := ⟨hzero.mpr h.1, by omega⟩
    rw [if_pos h, if_pos h']
  · have h' : ¬ (0 ≤ index ∧ index.toInt.toNat < length) := by
      rw [hzero]
      omega
    rw [if_neg h, if_neg h']

end OnePass
