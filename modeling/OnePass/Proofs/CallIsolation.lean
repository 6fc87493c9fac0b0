import OnePass.Machine.Seeded
import OnePass.Proofs.InstructionEffect

/-!
# Calls are isolated

Main statement: a call leaves the frame that makes it, and the frames below, as they are
(`Execution.call_isolated`). This holds of any image and of any state, however many calls the
callee itself makes.

What one instruction can do to the frames is said once, in three equations for a step of calls:
it calls a routine (`Calls.step_of_calling`), it returns (`Calls.step_of_returning`), or it
changes no frame but its own (`Calls.step_otherwise`). Only the first of them can fail for the
depth of calls.
-/

namespace OnePass

namespace Exec

variable {α β : Type} {S : α → Prop} {T : β → Prop} {m : Exec α}

/-! ## What parts of instructions can come to -/

/-- What is handed back is as `S` says. No failure is for the depth of calls, which
instructions do not know. -/
def Yields (S : α → Prop) (m : Exec α) : Prop :=
  ∀ c, match (m.run.run c).1 with
    | .ok a => S a
    | .error e => e ≠ .stackOverflow

/-- Work of which only the failures matter. -/
abbrev Shallow (m : Exec α) : Prop := Yields (fun _ => True) m

/-- What a part can come to, another one goes on from. -/
theorem Yields.bind {f : α → Exec β} (hm : Yields S m) (hf : ∀ a, S a → Yields T (f a)) :
    Yields T (m >>= f) := by
  intro c
  have hyields := hm c
  rcases hrun : m.run.run c with ⟨x, c'⟩
  rw [hrun] at hyields
  rw [run_bind_of hrun]
  cases x with
  | ok a => exact hf a hyields c'
  | error e => exact hyields

/-- Behind a shallow part it is the rest that counts. -/
theorem Shallow.bind {f : α → Exec β} (hm : Shallow m) (hf : ∀ a, Yields T (f a)) :
    Yields T (m >>= f) :=
  Yields.bind hm fun a _ => hf a

/-- A value is what is come to. -/
theorem yields_pure {a : α} (h : S a) : Yields S (pure a) := fun _ => h

/-- Other errors are no overflow. -/
theorem yields_throw {e : MachineError} (h : e ≠ .stackOverflow) : Yields S (throw e : Exec α) :=
  fun _ => h

/-- What looks at the context comes to what it does in every context. -/
theorem yields_get {f : Context → Exec β} (hf : ∀ c, Yields T (f c)) : Yields T (get >>= f) :=
  fun c => hf c c

/-- A context that is set is no result. -/
theorem yields_set (c : Context) {f : PUnit → Exec β} (hf : Yields T (f ⟨⟩)) :
    Yields T (set c >>= f) :=
  fun _ => hf c

theorem shallow_modify (f : Context → Context) : Shallow (modify f : Exec PUnit) := fun _ => trivial

/-- A value that is computed beforehand is no overflow. -/
theorem shallow_lift {x : Except MachineError α} (h : x ≠ .error .stackOverflow) :
    Shallow (liftM x : Exec α) := by
  intro c
  cases x with
  | ok a => trivial
  | error e => exact fun he => h (congrArg _ he)

/-- An empty stack is the opposite of an overflow. -/
theorem shallow_underflow : Shallow (underflow : Exec α) :=
  yields_get fun _ => yields_throw nofun

theorem shallow_push (v : Value) : Shallow (push v) := shallow_modify _

/-- A value is taken, or there is none. -/
theorem shallow_pop : Shallow pop := by
  refine yields_get fun c => ?_
  split
  · exact shallow_underflow
  · exact yields_set _ (yields_pure trivial)

/-- A word is taken, or something else is there. -/
theorem shallow_popWord : Shallow popWord :=
  shallow_pop.bind fun v => by
    cases v <;> first | exact yields_pure trivial | exact yields_throw nofun

theorem shallow_popString : Shallow popString :=
  shallow_pop.bind fun v => by
    cases v <;> first | exact yields_pure trivial | exact yields_throw nofun

theorem shallow_popArray : Shallow popArray :=
  shallow_pop.bind fun v => by
    cases v <;> first | exact yields_pure trivial | exact yields_throw nofun

/-- Arguments are taken from one frame. -/
theorem shallow_popMany (n reserve : Nat) : Shallow (popMany n reserve) := by
  refine yields_get fun c => ?_
  split
  · exact shallow_underflow
  · exact yields_set _ (yields_pure trivial)

/-- A slot is read, or it does not exist. -/
theorem shallow_slot (what : Reference) (slots : Array Value) (i : UInt32) :
    Shallow (slot what slots i) := by
  unfold slot
  split
  · exact yields_pure trivial
  · exact yields_throw nofun

/-- A slot is written, or it does not exist. -/
theorem shallow_withSlot (what : Reference) (slots : Array Value) (i : UInt32) (v : Value) :
    Shallow (withSlot what slots i v) := by
  unfold withSlot
  split
  · exact yields_pure trivial
  · exact yields_throw nofun

/-- To store is to take a value and to write a slot. -/
theorem shallow_storeLocal (i : UInt32) : Shallow (storeLocal i) :=
  shallow_pop.bind fun _ => yields_get fun _ => (shallow_withSlot _ _ _ _).bind fun _ =>
    shallow_modify _

theorem shallow_storeArg (i : UInt32) : Shallow (storeArg i) :=
  shallow_pop.bind fun _ => yields_get fun _ => (shallow_withSlot _ _ _ _).bind fun _ =>
    shallow_modify _

theorem shallow_storeField (i : UInt32) : Shallow (storeField i) :=
  shallow_pop.bind fun _ => yields_get fun _ => (shallow_withSlot _ _ _ _).bind fun _ =>
    shallow_modify _

/-- There are always more arrays. -/
theorem shallow_newArray (n : UInt32) : Shallow (newArray n) :=
  yields_get fun _ => (shallow_modify _).bind fun _ => shallow_push _

/-- An array is found in the store or is empty. -/
theorem shallow_arrayAt (ref : Nat) : Shallow (arrayAt ref) :=
  yields_get fun _ => yields_pure trivial

/-- An element is read, or it does not exist. -/
theorem shallow_loadElem : Shallow loadElem := by
  refine shallow_popWord.bind fun x => shallow_popArray.bind fun ref => (shallow_arrayAt ref).bind
    fun words => ?_
  split
  · exact shallow_push _
  · exact yields_throw nofun

/-- An element is written, or it does not exist. -/
theorem shallow_storeElem : Shallow storeElem := by
  refine shallow_popWord.bind fun w => shallow_popWord.bind fun x =>
    shallow_popArray.bind fun ref =>
    (shallow_arrayAt ref).bind fun words => ?_
  dsimp only
  split
  · exact shallow_modify _
  · exact yields_throw nofun

/-- Operators fail by a division at most. -/
theorem binary_ne_stackOverflow (op : BinaryOp) (x y : Int32) :
    binary op x y ≠ .error .stackOverflow := by
  unfold binary
  grind

/-- A jump stays in its frame. -/
theorem shallow_jump (l : UInt32) : Shallow (jump l) := by
  refine yields_get fun c => ?_
  split
  · exact fun _ => trivial
  · exact yields_throw nofun

/-- A random number is drawn in any case. -/
theorem shallow_random (w : Int32) : Shallow (random w) := by
  intro c
  rw [run_random]
  trivial

/-- An output fails by the outside world at most. -/
theorem shallow_write (t : String) : Shallow (write t) := by
  intro c
  rw [run_write, written]
  cases (c.store.output.write (Text.encode t)).1 with
  | true => trivial
  | false =>
    intro h
    cases h

/-- An input fails by the outside world at most. -/
theorem shallow_readLine : Shallow readLine := by
  intro c
  rw [run_readLine, lineRead]
  cases c.store.input.isEmpty with
  | true =>
    intro h
    cases h
  | false =>
    cases Text.decode? (splitLine c.store.input).1 with
    | some s => trivial
    | none =>
      intro h
      cases h

/-- Too few values are not touched. -/
theorem run_popMany_few {c : Context} {n : Nat} (h : c.frame.stack.length < n) :
    (popMany n 0).run.run c = (.error (.stackUnderflow c.frame.name), c) := by
  show (if c.frame.stack.length < n + 0 then underflow else _ : Exec (List Value)).run.run c = _
  rw [if_pos (show c.frame.stack.length < n + 0 from h)]
  rfl

/-! ## Instructions -/

variable {image : Image}

/-- Control goes on behind the instruction. -/
abbrev Onward (m : Exec Transfer) : Prop := Yields (· = .onward) m

/-- What is shallow and goes on then makes no call. -/
theorem Shallow.onward (hm : Shallow m) : Onward (m >>= fun _ => pure .onward) :=
  hm.bind fun _ => yields_pure rfl

/-- What is shallow and pushes its result makes no call. -/
theorem Shallow.pushes {f : α → Value} (hm : Shallow m) :
    Onward (m >>= fun a => push (f a) >>= fun _ => pure .onward) :=
  hm.bind fun _ => (shallow_push _).onward

/-- **Only calls and returns leave a frame.** -/
theorem onward_instruction {i : Instruction} (hcall : ∀ n, i ≠ .call n) (hret : i ≠ .ret) :
    Onward (instruction image i) := by
  cases i with
  | call n => exact absurd rfl (hcall n)
  | ret => exact absurd rfl hret
  -- All others end by going on, or fail in some way that is not about depth.
  | jump l => exact (shallow_jump l).onward
  | jumpIfFalse l =>
    refine shallow_popWord.bind fun w => ?_
    split
    · exact (shallow_jump l).onward
    · exact yields_pure rfl
  | jumpIfTrue l =>
    refine shallow_popWord.bind fun w => ?_
    split
    · exact (shallow_jump l).onward
    · exact yields_pure rfl
  | pushInt w => exact (shallow_push _).onward
  | pushStr t => exact (shallow_push _).onward
  | pop => exact shallow_pop.onward
  | dup => exact shallow_pop.bind fun v => (shallow_push v).bind fun _ => (shallow_push v).onward
  | swap =>
    exact shallow_pop.bind fun w => shallow_pop.bind fun v => (shallow_push w).bind fun _ =>
      (shallow_push v).onward
  | loadLocal n => exact yields_get fun c => (shallow_slot _ _ _).pushes (f := id)
  | loadArg n => exact yields_get fun c => (shallow_slot _ _ _).pushes (f := id)
  | loadField n => exact yields_get fun c => (shallow_slot _ _ _).pushes (f := id)
  | storeLocal n => exact (shallow_storeLocal n).onward
  | storeArg n => exact (shallow_storeArg n).onward
  | storeField n => exact (shallow_storeField n).onward
  | newArray n => exact (shallow_newArray n).onward
  | loadElem => exact shallow_loadElem.onward
  | storeElem => exact shallow_storeElem.onward
  | arrayLen => exact shallow_popArray.bind fun ref => (shallow_arrayAt ref).pushes
  | binary op =>
    exact shallow_popWord.bind fun y => shallow_popWord.bind fun x =>
      (shallow_lift (binary_ne_stackOverflow op x y)).pushes
  | neg => exact shallow_popWord.pushes
  | random => exact shallow_popWord.bind fun w => (shallow_random w).pushes
  | box t => exact shallow_popWord.pushes
  | print t => exact shallow_popWord.bind fun w => (shallow_write _).onward
  | printStr => exact shallow_popString.bind fun t => (shallow_write t).onward
  | printFormat n =>
    refine (shallow_popMany _ _).bind fun args => shallow_popString.bind fun format => ?_
    dsimp only
    split
    · exact (shallow_write _).onward
    · exact Shallow.onward (yields_throw nofun)
  | readLine => exact shallow_readLine.pushes
  | parse t =>
    refine shallow_popString.bind fun text => yields_get fun c => ?_
    split
    · exact (shallow_push _).onward
    · exact Shallow.onward (yields_throw nofun)

end Exec

/-! ## Frames that call -/

namespace Frame

/-- The next instruction. -/
def next? (f : Frame) : Option Instruction := f.code.instructions[f.position]?

/-- The next instruction calls a routine of the image, and the stack holds its arguments. -/
structure Calling (image : Image) (f : Frame) (r : Routine) : Prop where
  next : ∃ n, f.next? = some (.call n) ∧ image.routines[n.toNat]? = some r
  arguments : r.params.length ≤ f.stack.length

/-- What a frame is while it waits for the routine that it calls. -/
def waiting (f : Frame) (r : Routine) : Frame :=
  { f with position := f.position + 1, stack := f.stack.drop r.params.length }

/-- The frame of the routine that a frame calls. -/
def callee (f : Frame) (r : Routine) : Frame :=
  .enter r.name r.code (f.stack.take r.params.length).reverse r.locals

end Frame

namespace Calls

variable {image : Image} {below : Nat} {c : Calls}

/-- What an instruction that is not the last one comes to. -/
theorem step_of_next {i : Instruction} (hi : c.top.next? = some i) : c.step image below =
    match Exec.outcome image i ⟨{ c.top with position := c.top.position + 1 }, c.store⟩ with
    | (.error e, d) => .done (.error e) d.store
    | (.ok .onward, d) => .active ⟨d.frame, c.callers, d.store⟩
    | (.ok (.call callee), d) =>
      if below + c.callers.length + 1 = maxDepth then .done (.error .stackOverflow) d.store
      else .active ⟨callee, d.frame :: c.callers, d.store⟩
    | (.ok (.ret value), d) => leave ⟨d.frame, c.callers, d.store⟩ value := by
  obtain ⟨top, callers, st⟩ := c
  unfold step
  dsimp only
  rw [Exec.run_next (c := ⟨top, st⟩) hi, Context.withPosition]
  generalize Exec.outcome image i _ = x
  rcases x with ⟨_ | _ | _ | _, _⟩ <;> rfl

/-- A routine is called, unless calls are nested too deep. -/
theorem step_of_calling {r : Routine} (h : c.top.Calling image r) : c.step image below =
    if below + c.callers.length + 1 = maxDepth then .done (.error .stackOverflow) c.store
    else .active ⟨c.top.callee r, c.top.waiting r :: c.callers, c.store⟩ := by
  obtain ⟨⟨n, hn, hr⟩, hargs⟩ := h
  have hlength : (c.top.stack.take r.params.length).reverse.length = r.params.length := by
    rw [List.length_reverse, List.length_take_of_le hargs]
  have hcall := Exec.outcome_call (c := ⟨{ c.top with position := c.top.position + 1 }, c.store⟩)
    (s := c.top.stack.drop r.params.length) hr hlength
  rw [List.reverse_reverse, List.take_append_drop] at hcall
  rw [step_of_next hn]
  exact hcall ▸ rfl

/-- A return hands the top of the stack to the frame below. -/
theorem step_of_returning (h : c.top.next? = some .ret) : c.step image below =
    leave { c with top := { c.top with position := c.top.position + 1 } } c.top.stack.head? := by
  rw [step_of_next h]
  rfl

/-- Calls of which only the innermost frame and the store have changed, or a failure that is
not for the depth of calls. -/
inductive Stays (callers : List Frame) : Progress → Prop
  | active (top : Frame) (st : Store) : Stays callers (.active ⟨top, callers, st⟩)
  | failed {e : MachineError} (st : Store) :
      e ≠ .stackOverflow → Stays callers (.done (.error e) st)

/-- Any other instruction changes no frame but its own. -/
theorem step_otherwise (hcall : ¬ ∃ r, c.top.Calling image r) (hret : c.top.next? ≠ some .ret) :
    Stays c.callers (c.step image below) := by
  -- The code may be at its end.
  cases hi : c.top.next? with
  | none =>
    obtain ⟨top, callers, st⟩ := c
    unfold step
    dsimp only
    rw [Exec.run_next_eq, show top.code.instructions[top.position]? = none from hi]
    exact .failed st nofun
  | some i =>
    rw [step_of_next hi]
    by_cases hn : ∃ n, i = .call n
    · -- a call that finds no routine or too few arguments
      obtain ⟨n, rfl⟩ := hn
      rw [Exec.outcome_call_eq]
      cases hr : image.routines[n.toNat]? with
      | none => exact .failed c.store nofun
      | some r =>
        have hfew : c.top.stack.length < r.params.length :=
          Nat.lt_of_not_le fun hargs => hcall ⟨r, ⟨n, hi, hr⟩, hargs⟩
        dsimp only
        rw [Exec.run_bind_error (Exec.run_popMany_few hfew)]
        exact .failed c.store nofun
    -- Any other instruction goes on or fails.
    · have hwork : Exec.Onward (Exec.instruction image i) :=
        Exec.onward_instruction (fun n h => hn ⟨n, h⟩) fun h => hret (h ▸ hi)
      have honward := hwork ⟨{ c.top with position := c.top.position + 1 }, c.store⟩
      rw [Exec.outcome]
      generalize (Exec.instruction image i).run.run _ = x at honward
      obtain ⟨e | transfer, d⟩ := x
      · exact .failed d.store honward
      · obtain rfl : transfer = .onward := honward
        exact .active d.frame d.store

end Calls

/-! ## Frames of a run -/

namespace Execution

variable {image : Image} {p q : Execution} {r : Routine}

/-- The number of frames. -/
def depth (p : Execution) : Nat := p.callers.length + 1

/-- While frames are active a run goes on in its stage. -/
theorem step_of_active {c : Calls} (h : p.toCalls.step image 0 = .active c) :
    p.step image = .active ⟨c, p.stage⟩ := by
  unfold step
  rw [h]

/-- A frame that fails ends the run. -/
theorem step_of_failed {e : MachineError} {st : Store}
    (h : p.toCalls.step image 0 = .done (.error e) st) : p.step image = .done (.error e) st := by
  unfold step
  rw [h]

/-- When the last frame returns the run proceeds to its next stage. -/
theorem step_of_ended {v : Option Value} {st : Store}
    (h : p.toCalls.step image 0 = .done (.ok v) st) :
    p.step image = proceed image p.stage v st := by
  unfold step
  rw [h]

/-- A call enters its routine, unless there are as many frames as can be. -/
theorem step_of_calling (h : p.top.Calling image r) : p.step image =
    if p.depth = maxDepth then .done (.error .stackOverflow) p.store
    else .active ⟨⟨p.top.callee r, p.top.waiting r :: p.callers, p.store⟩, p.stage⟩ := by
  have hstep : p.toCalls.step image 0 = _ := Calls.step_of_calling h
  rw [Nat.zero_add] at hstep
  by_cases hdepth : p.depth = maxDepth
  · rw [if_pos hdepth]
    exact step_of_failed (hstep.trans (if_pos hdepth))
  · rw [if_neg hdepth]
    exact step_of_active (hstep.trans (if_neg hdepth))

/-- The frame below goes on with what is handed to it. -/
theorem step_of_returning {caller : Frame} {callers : List Frame} (hnext : p.top.next? = some .ret)
    (hcallers : p.callers = caller :: callers) : p.step image =
      .active ⟨⟨{ caller with stack := p.top.stack.head?.toList ++ caller.stack },
        callers, p.store⟩,
        p.stage⟩ := by
  refine step_of_active ((Calls.step_of_returning hnext).trans ?_)
  rw [Calls.leave, hcallers]

/-- The outermost frame ends its stage. -/
theorem step_of_last (hnext : p.top.next? = some .ret) (hcallers : p.callers = []) :
    p.step image = proceed image p.stage p.top.stack.head? p.store := by
  refine step_of_ended ((Calls.step_of_returning hnext).trans ?_)
  rw [Calls.leave, hcallers]

/-- Any other instruction changes no frame but its own. -/
theorem step_otherwise (hcall : ¬ ∃ r, p.top.Calling image r) (hret : p.top.next? ≠ some .ret) :
    (∃ top st, p.step image = .active ⟨⟨top, p.callers, st⟩, p.stage⟩) ∨
      ∃ e st, e ≠ .stackOverflow ∧ p.step image = .done (.error e) st := by
  have hstays : Calls.Stays p.callers (p.toCalls.step image 0) := Calls.step_otherwise hcall hret
  generalize hstep : p.toCalls.step image 0 = x at hstays
  cases hstays with
  | active top st => exact .inl ⟨top, st, step_of_active hstep⟩
  | @failed e st he => exact .inr ⟨e, st, he, step_of_failed hstep⟩

/-- What an instruction can do to the frames, where the run goes on. -/
inductive Moves (image : Image) (p : Execution) : Execution → Prop
  /-- a routine is called -/
  | call {r : Routine} : p.top.Calling image r → p.depth ≠ maxDepth →
    Moves image p ⟨⟨p.top.callee r, p.top.waiting r :: p.callers, p.store⟩, p.stage⟩
  /-- the innermost frame returns to the one below -/
  | ret {caller : Frame} {callers : List Frame} : p.top.next? = some .ret →
    p.callers = caller :: callers → Moves image p
      ⟨⟨{ caller with stack := p.top.stack.head?.toList ++ caller.stack }, callers,
        p.store⟩, p.stage⟩
  /-- the outermost frame returns, and the entry routine comes next -/
  | proceed {q : Execution} : p.callers = [] → q.callers = [] → Moves image p q
  /-- only the innermost frame and the store change -/
  | own (top : Frame) (st : Store) : Moves image p ⟨⟨top, p.callers, st⟩, p.stage⟩

/-- The entry routine starts with one frame. -/
theorem callers_of_proceed {stage : Stage} {v : Option Value} {st : Store}
    (h : proceed image stage v st = .active q) : q.callers = [] := by
  cases stage with
  | entry => cases h
  | initializer =>
    unfold proceed enter at h
    dsimp only at h
    split at h
    · cases h
    · cases h
      rfl

/-- The end of a run is no call. -/
theorem finish_ne_stackOverflow (v : Option Value) : finish v ≠ .error .stackOverflow := by
  rcases v with _ | _ | _ | _ | _ <;> exact nofun

/-- The machine itself makes no frame where there are others. -/
theorem proceed_ne_stackOverflow {stage : Stage} {v : Option Value} {st : Store} (st' : Store) :
    proceed image stage v st ≠ .done (.error .stackOverflow) st' := by
  cases stage with
  | entry => exact fun h => finish_ne_stackOverflow v (Run.done.inj h).1
  | initializer =>
    unfold proceed enter
    dsimp only
    split <;> exact nofun

/-- A step is one of the moves. -/
theorem moves_of_step (h : p.step image = .active q) : p.Moves image q := by
  by_cases hcall : ∃ r, p.top.Calling image r
  · obtain ⟨r, hr⟩ := hcall
    rw [step_of_calling hr] at h
    split at h
    · cases h
    · rename_i hdepth
      cases h
      exact .call hr hdepth
  · by_cases hret : p.top.next? = some .ret
    · cases hcallers : p.callers with
      | nil =>
        rw [step_of_last hret hcallers] at h
        exact .proceed hcallers (callers_of_proceed h)
      | cons caller callers =>
        rw [step_of_returning hret hcallers] at h
        cases h
        exact .ret hret hcallers
    · obtain ⟨top, st, hstep⟩ | ⟨e, st, -, hstep⟩ := step_otherwise hcall hret
      · obtain rfl := Run.active.inj (hstep.symm.trans h)
        exact .own top st
      · cases hstep.symm.trans h

/-- One instruction makes at most one frame, and none beyond the limit. -/
theorem depth_le_of_step (h : p.step image = .active q) (hp : p.depth ≤ maxDepth) :
    q.depth ≤ maxDepth := by
  cases moves_of_step h with
  | call _ hdepth => exact Nat.lt_of_le_of_ne hp hdepth
  | ret _ hcallers => exact Nat.le_of_succ_le (by rwa [depth, hcallers] at hp)
  | proceed _ hcallers =>
    rw [depth, hcallers]
    exact Nat.succ_le_succ (Nat.zero_le _)
  | own top st => exact hp

/-- **Calls are nested too deep exactly if one is made where there are as many frames as there
may be.** -/
theorem step_eq_stackOverflow_iff : (∃ st, p.step image = .done (.error .stackOverflow) st) ↔
    p.depth = maxDepth ∧ ∃ r, p.top.Calling image r := by
  constructor
  · rintro ⟨st, h⟩
    by_cases hcall : ∃ r, p.top.Calling image r
    · obtain ⟨r, hr⟩ := hcall
      rw [step_of_calling hr] at h
      split at h
      · exact ⟨‹_›, r, hr⟩
      · cases h
    · by_cases hret : p.top.next? = some .ret
      · cases hcallers : p.callers with
        | nil =>
          rw [step_of_last hret hcallers] at h
          exact absurd h (proceed_ne_stackOverflow _)
        | cons caller callers =>
          rw [step_of_returning hret hcallers] at h
          cases h
      · obtain ⟨top, st', hstep⟩ | ⟨e, st', he, hstep⟩ := step_otherwise hcall hret
        · cases hstep.symm.trans h
        · cases hstep.symm.trans h
          exact absurd rfl he
  · rintro ⟨hdepth, r, hr⟩
    exact ⟨p.store, by rw [step_of_calling hr, if_pos hdepth]⟩

/-! ## The frames below a call -/

/-- The states behind a call, for as long as there are more frames than there were at the
call. -/
inductive Within (image : Image) (p : Execution) : Execution → Prop
  /-- the call is made -/
  | enter {q : Execution} : p.step image = .active q → p.depth < q.depth → Within image p q
  /-- an instruction after which the callee has not returned -/
  | step {q q' : Execution} : Within image p q → q.step image = .active q' → p.depth < q'.depth →
    Within image p q'

/-- **The frames below a call wait until it returns,** however many calls the callee makes. -/
theorem Within.waits (hq : p.Within image q) (hr : p.top.Calling image r) :
    q.stage = p.stage ∧ p.top.waiting r :: p.callers <:+ q.callers := by
  induction hq with
  | enter hstep _ =>
    rw [step_of_calling hr] at hstep
    split at hstep
    · cases hstep
    · cases hstep
      exact ⟨rfl, List.suffix_rfl⟩
  | @step q q' _ hstep hdepth ih =>
    obtain ⟨hstage, hwaits⟩ := ih
    cases moves_of_step hstep with
    | call _ _ => exact ⟨hstage, hwaits.trans (List.suffix_cons _ _)⟩
    | own top st => exact ⟨hstage, hwaits⟩
    | proceed hcallers _ =>
      rw [hcallers] at hwaits
      cases List.suffix_nil.mp hwaits
    | ret _ hcallers =>
      -- the frame that returned is not the one that waits, for there would be too few left
      rw [hcallers, List.suffix_cons_iff] at hwaits
      refine ⟨hstage, hwaits.resolve_left fun heq => ?_⟩
      obtain ⟨-, rfl⟩ := List.cons.inj heq
      exact Nat.lt_irrefl _ hdepth

/-- What waits is all there is below the callee's own frame. -/
theorem Within.callers_of_depth (hq : p.Within image q) (hr : p.top.Calling image r)
    (hdepth : q.depth = p.depth + 1) : q.callers = p.top.waiting r :: p.callers :=
  ((hq.waits hr).2.eq_of_length (Nat.succ.inj hdepth).symm).symm

/-- Only a return of the callee's own frame ends the call. -/
theorem Within.returning_of_depth {q' : Execution} (hq : p.Within image q)
    (hr : p.top.Calling image r) (hstep : q.step image = .active q') (hdepth : q'.depth ≤ p.depth) :
    q.depth = p.depth + 1 ∧ q.top.next? = some .ret := by
  have hlength := (hq.waits hr).2.length_le
  rw [List.length_cons] at hlength
  cases moves_of_step hstep with
  | call _ _ | own _ _ => simp only [depth, List.length_cons] at hdepth; omega
  | proceed hcallers _ =>
    rw [hcallers] at hlength
    cases hlength
  | @ret caller callers hnext hcallers =>
    refine ⟨?_, hnext⟩
    simp only [depth, hcallers, List.length_cons] at *
    omega

end Execution

/-! ## Whole runs -/

section

variable {image : Image}

/-- There are never more frames than there may be. -/
theorem Run.depth_le_of_advance {n : Nat} {p q : Execution} (hp : p.depth ≤ maxDepth)
    (h : Run.advance image n (.active p) = .active q) : q.depth ≤ maxDepth := by
  induction n generalizing p with
  | zero =>
    cases h
    exact hp
  | succ n ih =>
    rw [Run.advance] at h
    cases hstep : p.step image with
    | active p' => exact ih (Execution.depth_le_of_step hstep hp) (hstep ▸ h)
    | done result st =>
      rw [hstep, Run.advance_done] at h
      cases h

/-- A run that is nested too deep made a call where there were as many frames as there may be. -/
theorem Run.stackOverflow_of_advance {n : Nat} {p : Execution} {st : Store}
    (h : Run.advance image n (.active p) = .done (.error .stackOverflow) st) :
    ∃ m q, Run.advance image m (.active p) = .active q ∧ q.depth = maxDepth ∧
      ∃ r, q.top.Calling image r := by
  induction n generalizing p with
  | zero => cases h
  | succ n ih =>
    rw [Run.advance] at h
    cases hstep : p.step image with
    | active p' =>
      obtain ⟨m, q, hq, hcall⟩ := ih (hstep ▸ h)
      exact ⟨m + 1, q, by rw [Run.advance, hstep, hq], hcall⟩
    | done result st' =>
      rw [hstep, Run.advance_done] at h
      cases h
      exact ⟨0, p, rfl, Execution.step_eq_stackOverflow_iff.mp ⟨st, hstep⟩⟩

/-- A run starts with one frame, if there is an entry routine. -/
theorem Execution.start_cases (image : Image) (st : Store) :
    start image st = .done (.error (.badReference .routine image.entry)) st ∨
      ∃ p, start image st = .active p ∧ p.depth = 1 := by
  unfold start
  split
  · exact .inl rfl
  · exact .inr ⟨_, rfl, rfl⟩

end

/-- **Calls are isolated, and their depth is bounded.** For any image and any state in front of a
call: until the callee's frame returns, the frames below it are the caller's, behind the call and
without the arguments, and those that were below that one. When it returns, the caller goes on
with what is handed back on its stack, and else only with another store.

There are never more than `maxDepth` frames, and calls are too deep exactly if one is made where
there are as many. -/
theorem Execution.call_isolated (image : Image) :
    (∀ (p : Execution) (r : Routine), p.top.Calling image r →
      (p.depth ≠ maxDepth → p.step image =
        .active ⟨⟨.enter r.name r.code (p.top.stack.take r.params.length).reverse r.locals,
          p.top.waiting r :: p.callers, p.store⟩, p.stage⟩) ∧
      ∀ q, p.Within image q →
        q.stage = p.stage ∧ p.top.waiting r :: p.callers <:+ q.callers ∧
        (q.depth = p.depth + 1 → q.top.next? = some .ret → q.step image =
          .active ⟨⟨{ p.top with
            position := p.top.position + 1
            stack := q.top.stack.head?.toList ++ p.top.stack.drop r.params.length },
            p.callers, q.store⟩, p.stage⟩) ∧
        ∀ q', q.step image = .active q' → q'.depth ≤ p.depth →
          q.depth = p.depth + 1 ∧ q.top.next? = some .ret) ∧
    (∀ p : Execution, (∃ st, p.step image = .done (.error .stackOverflow) st) ↔
      p.depth = maxDepth ∧ ∃ r, p.top.Calling image r) ∧
    ∀ st, (∀ n q, Run.advance image n (start image st) = .active q → q.depth ≤ maxDepth) ∧
      ((∃ n st', Run.advance image n (start image st) = .done (.error .stackOverflow) st') ↔
        ∃ n q, Run.advance image n (start image st) = .active q ∧ q.depth = maxDepth ∧
          ∃ r, q.top.Calling image r) := by
  refine ⟨fun p r hr => ⟨fun hdepth => by rw [step_of_calling hr, if_neg hdepth, Frame.callee],
    fun q hq => ?_⟩, fun p => step_eq_stackOverflow_iff, fun st => ?_⟩
  · obtain ⟨hstage, hwaits⟩ := hq.waits hr
    refine ⟨hstage, hwaits, fun hdepth hnext => ?_, fun q' => hq.returning_of_depth hr⟩
    rw [step_of_returning hnext (hq.callers_of_depth hr hdepth), hstage, Frame.waiting]
  · obtain hstart | ⟨p, hstart, hp⟩ := start_cases image st
    · simp [hstart, Run.advance_done]
    · rw [hstart]
      refine ⟨fun n q => Run.depth_le_of_advance (hp ▸ by decide),
        fun ⟨n, st', h⟩ => Run.stackOverflow_of_advance h, fun ⟨n, q, hq, hcall⟩ => ?_⟩
      obtain ⟨st', h⟩ := step_eq_stackOverflow_iff.mpr hcall
      exact ⟨n + 1, st', by rw [Run.advance_add, hq, Run.advance, h, Run.advance_done]⟩

/-- A routine that takes its second argument from its first. -/
def differenceRoutine : Routine :=
  ⟨"difference", [.scalar .int, .scalar .int], some .int, 0,
    ⟨#[.loadArg 0, .loadArg 1, .binary .sub, .ret], #[]⟩⟩

/-- An image that adds 1 to the difference of 7 and 5. -/
def differenceImage : Image where
  userEntry := true
  fields := []
  initializer := ⟨#[.ret], #[]⟩
  routines := #[
    ⟨"main", [], some .int, 0,
      ⟨#[.pushInt 1, .pushInt 7, .pushInt 5, .call 1, .binary .add, .ret], #[]⟩⟩,
    differenceRoutine]
  entry := 0

/-- The state of a run of that image in front of the call. -/
def differenceCall (st : Store) : Execution where
  top := ⟨"main",
    ⟨#[.pushInt 1, .pushInt 7, .pushInt 5, .call 1, .binary .add, .ret], #[]⟩,
    3, #[], #[], [.word 5, .word 7, .word 1]⟩
  callers := []
  store := st
  stage := .entry

theorem Execution.call_isolated_difference :
    let st := Store.trial differenceImage []
    Run.advance differenceImage 4 (start differenceImage st) = .active (differenceCall st) ∧
      (differenceCall st).top.Calling differenceImage differenceRoutine ∧
      ∃ q, (differenceCall st).Within differenceImage q ∧
        q.step differenceImage = .active ⟨⟨{ (differenceCall st).top with
          position := 4, stack := [.word 2, .word 1] }, [], st⟩, .entry⟩ := by
  intro st
  have hcall : (differenceCall st).top.Calling differenceImage differenceRoutine :=
    ⟨⟨1, rfl, rfl⟩, by decide⟩
  -- the callee stands in front of its return
  have hwithin : (differenceCall st).Within differenceImage
      ⟨⟨⟨"difference", differenceRoutine.code, 3, #[.word 7, .word 5], #[], [.word 2]⟩,
        [(differenceCall st).top.waiting differenceRoutine], st⟩, .entry⟩ :=
    .step (.step (.step (.enter rfl (by decide)) rfl (by decide)) rfl (by decide)) rfl (by decide)
  obtain ⟨-, hcalls⟩ := (call_isolated differenceImage).1 _ _ hcall
  exact ⟨rfl, hcall, _, hwithin, (hcalls _ hwithin).2.2.1 rfl rfl⟩

end OnePass
