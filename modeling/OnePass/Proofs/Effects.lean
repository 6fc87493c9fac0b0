import OnePass.Proofs.Evaluation
import OnePass.Proofs.Generation

/-!
# What expressions do

What is evaluated for its effect: assignments, steps, calls, output and input. What is assigned to
is a `Spot`, either a slot or an element of an array. It is found in two parts. First an assignment
is designated, by evaluating the index; only when the new value is there it is checked that there
is such an element.
-/

namespace OnePass

/-! ## Places -/

/-- What an assignment is designated by: a slot, or an array and an index. -/
inductive Designation where
  | slot (h : Handle)
  | element (array : Value) (index : Int32)

/-- What an assignment changes. -/
inductive Spot where
  | slot (h : Handle)
  | element (ref index : Nat)
  deriving DecidableEq

/-- The memory with a word in a spot. -/
def Memory.put (m : Memory) (p : Spot) (w : Int32) : Memory :=
  match p with
  | .slot h => m.set h (.word w)
  | .element ref k => m.modifyWords ref fun a => a.setIfInBounds k w

namespace Eval

/-- The spot that is designated, which must be there. -/
def spot : Designation → Eval Spot
  | .slot h => return .slot h
  | .element a x => do
    let ref ← array a
    return .element ref (← position ref x)

/-- Stores a word where it is designated to be stored. -/
def store (d : Designation) (w : Int32) : Eval Unit := do
  let p ← spot d
  modify fun m => m.put p w

theorem run_store_element (ref : Nat) (x y : Int32) (m : Memory) :
    (store (.element (.array ref) x) y).run.run m =
      if 0 ≤ x.toInt ∧ x.toInt < (m.words ref).size then
        some (.ok ⟨⟩, m.put (.element ref x.toInt.toNat) y)
      else some (.error (.indexOutOfRange x (m.words ref).size), m) := by
  show ((((if 0 ≤ x.toInt ∧ x.toInt < (m.words ref).size then pure x.toInt.toNat
    else throw (.indexOutOfRange x (m.words ref).size) : Eval Nat) >>= fun k =>
      pure (Spot.element ref k)) >>= fun p => modify fun m => m.put p y : Eval Unit).run.run m) = _
  split <;> rfl

/-- Copies `n` elements of an array to another one, those behind `start`. -/
def copy (target source : Handle) (start : Nat) : Nat → Eval Unit
  | 0 => return
  | n + 1 => do
    let index := (UInt32.ofNat start).toInt32
    let a ← read target
    let y ← element (← read source) index
    store (.element a index) y
    copy target source (start + 1) n

/-- The text that a value is. -/
def string : Value → Eval String
  | .str s => return s
  | v => throw (.expected .str v.kind)

/-- Output of a text. -/
def write (text : String) : Eval Unit := do
  let m ← get
  set { m with store := (Exec.written text m.store).2 }
  match (Exec.written text m.store).1 with
  | .ok _ => return
  | .error e => throw e

theorem run_write_eq (text : String) (m : Memory) : (write text).run.run m =
    (match (Exec.written text m.store).1 with
      | .ok _ => pure ⟨⟩
      | .error e => throw e : Eval Unit).run.run
          { m with store := (Exec.written text m.store).2 } :=
  rfl

theorem run_write (text : String) (m : Memory) : (write text).run.run m =
    some ((Exec.written text m.store).1, { m with store := (Exec.written text m.store).2 }) := by
  rw [run_write_eq]
  cases (Exec.written text m.store).1 <;> rfl

/-- The next line of the input. -/
def line : Eval String := do
  let m ← get
  set { m with store := (Exec.lineRead m.store).2 }
  match (Exec.lineRead m.store).1 with
  | .ok text => return text
  | .error e => throw e

theorem run_line_eq (m : Memory) : line.run.run m =
    (match (Exec.lineRead m.store).1 with
      | .ok text => pure text
      | .error e => throw e : Eval String).run.run { m with store := (Exec.lineRead m.store).2 } :=
  rfl

theorem run_line (m : Memory) : line.run.run m =
    some ((Exec.lineRead m.store).1, { m with store := (Exec.lineRead m.store).2 }) := by
  rw [run_line_eq]
  cases (Exec.lineRead m.store).1 <;> rfl

/-- The word of a type that a text is read as. -/
def parsed (t : WordType) (text : String) : Eval Int32 := do
  match t.parse? (← get).store.caseless text.toList with
  | some w => return w
  | none => throw (.badInput text t)

theorem run_parsed (t : WordType) (text : String) (m : Memory) :
    (parsed t text).run.run m = match t.parse? m.store.caseless text.toList with
      | some w => some (.ok w, m)
      | none => some (.error (.badInput text t), m) := by
  show ((match t.parse? m.store.caseless text.toList with
    | some w => pure w
    | none => throw (.badInput text t)) : Eval Int32).run.run m = _
  cases t.parse? m.store.caseless text.toList <;> rfl

end Eval

/-- The variable that an expression assigns to, and the index of the element of it. -/
def Expr.place? : Expr → Option (Name × Option Expr)
  | .var n => some (n, none)
  | .elem n i => some (n, some i)
  | _ => none

/-- The operator of a compound assignment. -/
def AssignOp.arith? : AssignOp → Option ArithOp
  | .set => none
  | .add => some .add
  | .sub => some .sub
  | .mul => some .mul
  | .div => some .div

/-- The operator of a step. -/
def StepOp.arith : StepOp → ArithOp
  | .up => .add
  | .down => .sub

/-! ## Types -/

/-- The type of an expression. -/
def Expr.typeIn (s : Situation) : Expr → ExprType
  | .literal v =>
    match v.value with
    | .int _ => .scalar .int
    | .bool _ => .scalar .bool
    | .char _ => .scalar .char
    | .str _ => .str
  | .var n => ((s.scopes.lookup n.value).map fun v => ExprType.ofSlot ⟨v.type,
      v.isArray⟩).getD .void
  | .elem n _ => ((s.scopes.lookup n.value).map fun v => ExprType.scalar v.type).getD .void
  | .paren e => e.typeIn s
  | .call n _ =>
    match s.functions.lookup n.value with
    | some ⟨_, returns, .routine _⟩ => (returns.map ExprType.scalar).getD .void
    | _ => .effect
  | .lead _ _ | .arith _ _ _ => .scalar .int
  | .compare _ _ _ | .negate _ _ | .logic _ _ _ => .scalar .bool
  | .step _ _ | .assign _ _ _ => .effect

namespace Situation

/-! ## Assignments -/

/-- What an assignment to a variable or an element of it is designated by. -/
def designate (s : Situation) (n : Name) : Option Expr → Eval Designation
  | none =>
    match s.scopes.lookup n.value with
    | some v => return .slot v.handle
    | none => Eval.nothing
  | some i => do
    let a ← s.valueOf n
    return .element a (← Eval.word (← i.evaluate s))

theorem designate_of_lookup {s : Situation} {n : Name} {v : Symbol}
    (h : s.scopes.lookup n.value = some v) : s.designate n none = pure (.slot v.handle) := by
  unfold designate
  dsimp only
  rw [h]

/-- The word that a variable or an element of it holds. -/
def present (s : Situation) (n : Name) : Option Expr → Eval Int32
  | none => do Eval.word (← s.valueOf n)
  | some i => do
    let a ← s.valueOf n
    Eval.element a (← Eval.word (← i.evaluate s))

/-- What is to be stored by an assignment. In legacy form the right side of a compound subtraction
or division is evaluated twice, and its second value is taken. -/
def newValue (s : Situation) (n : Name) (index : Option Expr) (op : AssignOp) (value : Expr) :
    Eval Int32 := do
  let y ← Eval.word (← value.evaluate s)
  match op.arith? with
  | none => return y
  | some o =>
    let x ← s.present n index
    if s.legacy ∧ (op = .sub ∨ op = .div) then o.meaning x (← Eval.word (← value.evaluate s))
    else o.meaning x y

/-- An assignment of a word. -/
def assign (s : Situation) (n : Name) (index : Option Expr) (op : AssignOp) (value : Expr) :
    Eval Unit := do
  let d ← s.designate n index
  Eval.store d (← s.newValue n index op value)

/-- `++` and `--`. -/
def step (s : Situation) (n : Name) (index : Option Expr) (op : StepOp) : Eval Unit := do
  let d ← s.designate n index
  Eval.store d (← op.arith.meaning (← s.present n index) 1)

/-- How many elements an assignment of whole arrays copies: as many as both have. -/
def copyLength (a b : Symbol) : Nat :=
  match a.shape, b.shape with
  | .array (some m), .array (some n) => Rules.copies m n
  | _, _ => 0

/-- An assignment of whole arrays. -/
def assignArray (s : Situation) (a : Symbol) (value : Expr) : Eval Unit :=
  match value.place? with
  | some (n, none) =>
    match s.scopes.lookup n.value with
    | some b => Eval.copy a.handle b.handle 0 (copyLength a b)
    | none => Eval.nothing
  | _ => Eval.nothing

/-! ## Output and input -/

/-- A value that is filled into a format string, with its type if it is a word. -/
def box (s : Situation) (e : Expr) : Eval Value :=
  match e.typeIn s with
  | .scalar t => do return .boxed t (← Eval.word (← e.evaluate s))
  | _ => e.evaluate s

/-- The values that are filled into a format string. -/
def boxes (s : Situation) : List Expr → Eval (List Value)
  | [] => return []
  | e :: es => do
    let v ← s.box e
    return v :: (← s.boxes es)

/-- Output of a value. -/
def printOne (s : Situation) (e : Expr) : Eval Unit :=
  match e.typeIn s with
  | .scalar t => do Eval.write (t.render (← Eval.word (← e.evaluate s)))
  | _ => do Eval.write (← Eval.string (← e.evaluate s))

/-- Output of one value, or of a format string filled with values. -/
def print (s : Situation) : List Expr → Eval Unit
  | [] => Eval.nothing
  | [e] => s.printOne e
  | format :: rest => do
    let f ← Eval.string (← format.evaluate s)
    match compose f (← s.boxes rest) with
    | some text => Eval.write text
    | none => throw (.badFormat f)

theorem print_format (s : Situation) (format e : Expr) (es : List Expr) :
    s.print (format :: e :: es) = (format.evaluate s >>= Eval.string) >>= fun f =>
      s.boxes (e :: es) >>= fun vs =>
        match compose f vs with
        | some text => Eval.write text
        | none => throw (.badFormat f) := by
  rw [bind_assoc]
  rfl

/-- Input of one line into one place. -/
def putOne (s : Situation) (e : Expr) : Eval Unit :=
  match e.place? with
  | some (n, index) =>
    match s.scopes.lookup n.value with
    | some v => do
      let d ← s.designate n index
      Eval.store d (← Eval.parsed v.type (← Eval.line))
    | none => Eval.nothing
  | none => Eval.nothing

/-- Input, one line for each place. -/
def put (s : Situation) : List Expr → Eval Unit
  | [] => return
  | e :: es => do
    s.putOne e
    s.put es

end Situation

/-! ## Expressions -/

/-- What an expression does when its value is not wanted. -/
def Expr.perform (s : Situation) : Expr → Eval Unit
  | .paren e => e.perform s
  | .call n args =>
    match (s.functions.lookup n.value).map FunctionSymbol.body with
    | some (.intrinsic .print) => s.print args
    | some (.intrinsic .put) => s.put args
    | _ => do
      let _ ← s.call n (← evaluateAll s args)
  | .step p op =>
    match p.place? with
    | some (n, index) => s.step n index op.value
    | none => Eval.nothing
  | .assign p op value =>
    match p.place? with
    | some (n, index) =>
      match s.scopes.lookup n.value, index with
      | some v, none => if v.isArray then s.assignArray v value else s.assign n none op.value value
      | _, _ => s.assign n index op.value value
    | none => Eval.nothing
  | e => do
    let _ ← e.evaluate s

namespace Expr

variable (s : Situation)

theorem perform_call (n : Name) (args : List Expr) :
    (call n args).perform s =
      match (s.functions.lookup n.value).map FunctionSymbol.body with
      | some (.intrinsic .print) => s.print args
      | some (.intrinsic .put) => s.put args
      | _ => (do let _ ← s.call n (← evaluateAll s args)) := rfl

theorem perform_step (p : Expr) (op : Located StepOp) :
    (step p op).perform s =
      match p.place? with
      | some (n, index) => s.step n index op.value
      | none => Eval.nothing := rfl

theorem perform_assign (p : Expr) (op : Located AssignOp) (value : Expr) :
    (assign p op value).perform s =
      match p.place? with
      | some (n, index) =>
        match s.scopes.lookup n.value, index with
        | some v, none => if v.isArray then s.assignArray v value else s.assign n none
            op.value value
        | _, _ => s.assign n index op.value value
      | none => Eval.nothing := rfl

end Expr

end OnePass
