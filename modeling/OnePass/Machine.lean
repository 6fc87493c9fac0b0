import OnePass.Machine.Instruction

/-!
# The stack machine

The machine runs the initializer of an image and then its entry routine. Either of them is
a call that may lead to others: `Calls` are the innermost frame, those that wait for it, and
the store, and `Calls.step` carries out one instruction. An `Execution` is a run in progress:
calls, and which of the two they belong to. A failure ends the run and keeps the store as the
instruction left it.
-/

namespace OnePass

/-- The number of calls that may be nested, the outermost one included. -/
def maxDepth : Nat := 1024

/-! ## Calls and the calls they make -/

/-- A call in progress with those that it led to. -/
structure Calls where
  /-- the innermost frame -/
  top : Frame
  /-- the frames that wait for it, the innermost first -/
  callers : List Frame
  /-- what all frames share -/
  store : Store

/-- Calls in progress, or the end of the outermost one: with what it handed back, or with a
failure. -/
inductive Progress where
  | active (c : Calls)
  | done (result : Except MachineError (Option Value)) (store : Store)

namespace Calls

/-- Returns from the innermost frame. -/
def leave (c : Calls) (value : Option Value) : Progress :=
  match c.callers with
  | [] => .done (.ok value) c.store
  | caller :: callers =>
    .active ⟨{ caller with stack := value.toList ++ caller.stack }, callers, c.store⟩

/-- Carries out one instruction; `below` is the number of calls in progress that are not
looked at. -/
def step (image : Image) (below : Nat) (c : Calls) : Progress :=
  let ⟨top, callers, store⟩ := c
  let (outcome, ⟨top, store⟩) := (Exec.next image).run.run ⟨top, store⟩
  match outcome with
  | .error e => .done (.error e) store
  | .ok .onward => .active ⟨top, callers, store⟩
  | .ok (.call callee) =>
    if below + callers.length + 1 = maxDepth then .done (.error .stackOverflow) store
    else .active ⟨callee, top :: callers, store⟩
  | .ok (.ret value) => leave ⟨top, callers, store⟩ value

end Calls

/-! ## Runs -/

/-- Which stream of an image the outermost frame runs. -/
inductive Stage where
  | initializer
  | entry
  deriving DecidableEq, Repr

/-- A run in progress. -/
structure Execution extends Calls where
  /-- what the outermost frame runs -/
  stage : Stage

/-- How a run ended: with the word that the entry routine returned, if any, or with a
failure. -/
abbrev Result := Except MachineError (Option Int32)

/-- A run in progress or at its end. -/
inductive Run where
  | active (p : Execution)
  | done (result : Result) (store : Store)

namespace Execution

/-- The arguments that an entry routine is given: zeros and empty arrays. -/
def entryArguments (params : List Slot) (arrays : Array (Array Int32)) :
    List Value × Array (Array Int32) :=
  params.foldl
    (fun (args, arrays) s =>
      if s.array then (args ++ [.array arrays.size], arrays.push #[])
      else (args ++ [.zero], arrays))
    ([], arrays)

/-- The run of the entry routine. -/
def enter (image : Image) (store : Store) : Run :=
  match image.entryRoutine? with
  | none => .done (.error (.badReference .routine image.entry)) store
  | some r =>
    let (args, arrays) := entryArguments r.params store.arrays
    .active ⟨⟨.enter r.name r.code args r.locals, [], { store with arrays }⟩, .entry⟩

/-- A run from its beginning. That there is an entry routine is seen to first. -/
def start (image : Image) (store : Store) : Run :=
  match image.entryRoutine? with
  | none => .done (.error (.badReference .routine image.entry)) store
  | some _ =>
    .active ⟨⟨.enter "<initializer>" image.initializer [] 0, [], store⟩, .initializer⟩

/-- The end of a run whose entry routine returned. -/
def finish (value : Option Value) : Result :=
  match value with
  | none => .ok none
  | some (.word w) => .ok (some w)
  | some v => .error (.expected .word v.kind)

/-- Goes on where the outermost call of a stage has ended. What the initializer hands back
does not matter. -/
def proceed (image : Image) (stage : Stage) (value : Option Value) (store : Store) : Run :=
  match stage with
  | .initializer => enter image store
  | .entry => .done (finish value) store

/-- Carries out one instruction. -/
def step (image : Image) (p : Execution) : Run :=
  match p.toCalls.step image 0 with
  | .active c => .active ⟨c, p.stage⟩
  | .done (.error e) store => .done (.error e) store
  | .done (.ok value) store => proceed image p.stage value store

/-- Whether the next instruction reads a line of the input. -/
def readsNext (p : Execution) : Bool :=
  p.top.code.instructions[p.top.position]? = some .readLine

end Execution

namespace Run

/-- Carries out at most `n` instructions. -/
def advance (image : Image) : Nat → Run → Run
  | 0, r => r
  | _ + 1, .done result store => .done result store
  | n + 1, .active p => advance image n (p.step image)

/-- A run that has ended does not go on. -/
theorem advance_done (image : Image) (n : Nat) (result : Result) (store : Store) :
    advance image n (.done result store) = .done result store := by
  cases n <;> rfl

/-- Carrying out some instructions and then some more is carrying out all of them. -/
theorem advance_add (image : Image) (m n : Nat) (r : Run) :
    advance image (m + n) r = advance image n (advance image m r) := by
  induction m generalizing r with
  | zero => simp [advance]
  | succ m ih =>
    cases r with
    | done result store => simp only [advance_done]
    | active p =>
      rw [Nat.succ_add]
      exact ih (p.step image)

end Run

end OnePass
