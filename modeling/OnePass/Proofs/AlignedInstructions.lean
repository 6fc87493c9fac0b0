import OnePass.Proofs.AlignedImages

/-!
# Instructions in corresponding places

Frames of both forms correspond where they stand in front of corresponding pieces and are alike
otherwise. Main statement: an instruction that is the same in both forms does the same in
corresponding frames (`Exec.pairs_instruction`).

Only jumps and calls look at the stream that they stand in and at the image. All other parts of
instructions do the same wherever they stand (`Exec.Blind`).
-/

namespace OnePass

/-! ## Corresponding frames -/

/-- Frames that differ at most in their code, and in how far they are in it. -/
structure Frame.Aligned (f f' : Frame) : Prop where
  name : f'.name = f.name
  args : f'.args = f.args
  locals : f'.locals = f.locals
  stack : f'.stack = f.stack
  code : ∃ ps, f.code.Aligned ps f'.code ∧ Joint ps f.position f'.position

/-- A call of routines that correspond. -/
theorem Routine.Aligned.enter {r r' : Routine} (h : r.Aligned r') (args : List Value) :
    (Frame.enter r.name r.code args r.locals).Aligned
      (.enter r'.name r'.code args r'.locals) := by
  obtain ⟨ps, hcode⟩ := h.code
  exact ⟨h.name, rfl, by rw [h.locals]; rfl, rfl, ps, hcode, [], ps, rfl, rfl, rfl⟩

/-- What an instruction works on in both forms. -/
structure Context.Aligned (c c' : Context) : Prop where
  frame : c.frame.Aligned c'.frame
  store : c'.store = c.store

/-- Where control goes in both forms. -/
inductive Transfer.Aligned : Transfer → Transfer → Prop where
  | onward : Aligned .onward .onward
  | call {f f' : Frame} : f.Aligned f' → Aligned (.call f) (.call f')
  | ret (value : Option Value) : Aligned (.ret value) (.ret value)

/-- The context with another stream and another position in it. -/
def Context.placed (c : Context) (code : Code) (position : Nat) : Context :=
  { c with frame := { c.frame with code, position } }

/-- Aligned contexts differ in their code and position only. -/
theorem Context.Aligned.eq_placed {c c' : Context} (h : c.Aligned c') :
    c' = c.placed c'.frame.code c'.frame.position := by
  obtain ⟨⟨name, code, position, args, locals, stack⟩, st⟩ := c
  obtain ⟨⟨name', code', position', args', locals', stack'⟩, st'⟩ := c'
  obtain ⟨⟨rfl, rfl, rfl, rfl, -⟩, rfl⟩ := h
  rfl

namespace Exec

variable {α β : Type} {m : Exec α}

/-- What is done does not depend on the stream of the frame and the position in it, and does not
change them. -/
def Blind (m : Exec α) : Prop :=
  ∀ c code position, m.run.run (c.placed code position) =
    ((m.run.run c).1, (m.run.run c).2.placed code position)

/-! ## Composition -/

/-- What is blind in both parts is blind. -/
theorem Blind.bind {f : α → Exec β} (hm : Blind m) (hf : ∀ a, Blind (f a)) : Blind (m >>= f) := by
  intro c code position
  have hplaced := hm c code position
  rcases hrun : m.run.run c with ⟨x, c'⟩
  rw [hrun] at hplaced
  rw [run_bind_of hplaced, run_bind_of hrun]
  cases x with
  | ok a => exact hf a c' code position
  | error e => rfl

/-- A value looks at nothing. -/
theorem blind_pure (a : α) : Blind (pure a) := fun _ _ _ => rfl

/-- An error looks at nothing. -/
theorem blind_throw (e : MachineError) : Blind (throw e : Exec α) := fun _ _ _ => rfl

theorem blind_lift (x : Except MachineError α) : Blind (liftM x : Exec α) := by
  cases x <;> exact fun _ _ _ => rfl

/-- What is asked for is not where the frame stands. -/
theorem blind_get {f : Context → Exec β} (hf : ∀ c, Blind (f c))
    (hplaced : ∀ c code position, f (c.placed code position) = f c) : Blind (get >>= f) := by
  intro c code position
  show (f (c.placed code position)).run.run (c.placed code position) = _
  rw [hplaced]
  exact hf c c code position

/-- A change is blind if it does not touch code and position. -/
theorem blind_modify {f : Context → Context}
    (hf : ∀ c code position, f (c.placed code position) = (f c).placed code position) :
    Blind (modify f : Exec PUnit) :=
  fun c code position => congrArg (Prod.mk (Except.ok PUnit.unit)) (hf c code position)

/-! ## Corresponding results -/

/-- How parts of an instruction come out in both forms: with values as `S` says, or with the same
failure. -/
inductive Comes (S : α → β → Prop) :
    Except MachineError α × Context → Except MachineError β × Context → Prop where
  | ok {a : α} {b : β} {c c' : Context} : S a b → c.Aligned c' → Comes S (.ok a, c) (.ok b, c')
  | error (e : MachineError) {c c' : Context} :
    c'.store = c.store → Comes S (.error e, c) (.error e, c')

/-- Two parts of an instruction do the same in corresponding contexts. -/
def Pairs (S : α → β → Prop) (m : Exec α) (m' : Exec β) : Prop :=
  ∀ c c', c.Aligned c' → Comes S (m.run.run c) (m'.run.run c')

variable {γ δ : Type} {S : α → β → Prop} {T : γ → δ → Prop}

/-- Corresponding parts one behind the other correspond. -/
theorem Pairs.bind {m : Exec α} {m' : Exec β} {f : α → Exec γ} {f' : β → Exec δ}
    (hm : Pairs S m m') (hf : ∀ a b, S a b → Pairs T (f a) (f' b)) :
    Pairs T (m >>= f) (m' >>= f') := by
  intro c c' hc
  have hcomes := hm c c' hc
  rcases hrun : m.run.run c with ⟨x, c₁⟩
  rcases hrun' : m'.run.run c' with ⟨x', c₁'⟩
  rw [hrun, hrun'] at hcomes
  rw [run_bind_of hrun, run_bind_of hrun']
  cases hcomes with
  | ok hab hc₁ => exact hf _ _ hab _ _ hc₁
  | error e hst => exact .error e hst

/-- Results that correspond are paired. -/
theorem pairs_pure {a : α} {b : β} (h : S a b) : Pairs S (pure a) (pure b) := fun _ _ hc => .ok h hc

/-- Both runs fail alike. -/
theorem pairs_throw (e : MachineError) : Pairs S (throw e) (throw e) :=
  fun _ _ hc => .error e hc.store

/-- Aligned contexts are read as such. -/
theorem pairs_get : Pairs Context.Aligned get get := fun _ _ hc => .ok hc hc

/-- What is blind does the same in aligned contexts. -/
theorem Blind.pairs (hm : Blind m) : Pairs Eq m m := by
  intro c c' hc
  have hself := hm c c.frame.code c.frame.position
  have hother := hm c c'.frame.code c'.frame.position
  rw [← hc.eq_placed] at hother
  rw [show c.placed c.frame.code c.frame.position = c from rfl] at hself
  rw [hother]
  rcases hrun : m.run.run c with ⟨x, c₁⟩
  rw [hrun] at hself
  -- the frame stands where it stood
  have hsame : c₁ = c₁.placed c.frame.code c.frame.position := (Prod.mk.inj hself).2
  cases x with
  | ok a =>
    rw [hsame]
    exact .ok rfl ⟨⟨rfl, rfl, rfl, rfl, hc.frame.code⟩, rfl⟩
  | error e => exact .error e rfl

/-- What comes behind a part that is blind. -/
theorem Blind.pairs_bind (hm : Blind m) {f : α → Exec γ} {f' : α → Exec δ}
    (hf : ∀ a, Pairs T (f a) (f' a)) : Pairs T (m >>= f) (m >>= f') :=
  hm.pairs.bind fun a _ hab => hab ▸ hf a

/-! ## Parts of instructions -/

/-- The stack is neither code nor position. -/
theorem blind_push (v : Value) : Blind (push v) := fun _ _ _ => rfl

/-- The stack is neither code nor position. -/
theorem blind_pop : Blind pop := by
  rintro ⟨⟨name, code, position, args, locals, stack⟩, st⟩ code' position'
  cases stack <;> rfl

theorem blind_popWord : Blind popWord :=
  blind_pop.bind fun v => by cases v <;> first | exact blind_pure _ | exact blind_throw _

theorem blind_popString : Blind popString :=
  blind_pop.bind fun v => by cases v <;> first | exact blind_pure _ | exact blind_throw _

theorem blind_popArray : Blind popArray :=
  blind_pop.bind fun v => by cases v <;> first | exact blind_pure _ | exact blind_throw _

/-- Arguments are taken from the stack. -/
theorem blind_popMany (n reserve : Nat) : Blind (popMany n reserve) := by
  intro c code position
  have hrun (c : Context) : (popMany n reserve).run.run c =
      (if c.frame.stack.length < n + reserve then underflow
        else do
          set (c.withStack (c.frame.stack.splitAt n).2)
          return (c.frame.stack.splitAt n).1.reverse : Exec (List Value)).run.run c := rfl
  rw [hrun, hrun]
  by_cases h : c.frame.stack.length < n + reserve
  · rw [if_pos h, if_pos (show (c.placed code position).frame.stack.length < _ from h)]
    rfl
  · rw [if_neg h, if_neg (show ¬ (c.placed code position).frame.stack.length < _ from h)]
    rfl

/-- Slots are neither code nor position. -/
theorem blind_slot (what : Reference) (slots : Array Value) (i : UInt32) :
    Blind (slot what slots i) := by
  unfold slot
  split
  · exact blind_pure _
  · exact blind_throw _

/-- Slots are neither code nor position. -/
theorem blind_withSlot (what : Reference) (slots : Array Value) (i : UInt32) (v : Value) :
    Blind (withSlot what slots i v) := by
  unfold withSlot
  split
  · exact blind_pure _
  · exact blind_throw _

theorem blind_storeLocal (i : UInt32) : Blind (storeLocal i) :=
  blind_pop.bind fun _ => blind_get (fun _ => (blind_withSlot _ _ _ _).bind fun _ =>
    blind_modify fun _ _ _ => rfl) fun _ _ _ => rfl

theorem blind_storeArg (i : UInt32) : Blind (storeArg i) :=
  blind_pop.bind fun _ => blind_get (fun _ => (blind_withSlot _ _ _ _).bind fun _ =>
    blind_modify fun _ _ _ => rfl) fun _ _ _ => rfl

theorem blind_storeField (i : UInt32) : Blind (storeField i) :=
  blind_pop.bind fun _ => blind_get (fun _ => (blind_withSlot _ _ _ _).bind fun _ =>
    blind_modify fun _ _ _ => rfl) fun _ _ _ => rfl

/-- Arrays belong to the store. -/
theorem blind_newArray (n : UInt32) : Blind (newArray n) :=
  blind_get (fun _ => (blind_modify fun _ _ _ => rfl).bind fun _ => blind_push _) fun _ _ _ => rfl

theorem blind_arrayAt (ref : Nat) : Blind (arrayAt ref) :=
  blind_get (fun _ => blind_pure _) fun _ _ _ => rfl

theorem blind_loadElem : Blind loadElem := by
  refine blind_popWord.bind fun x => blind_popArray.bind fun ref => (blind_arrayAt ref).bind
    fun words => ?_
  split
  · exact blind_push _
  · exact blind_throw _

theorem blind_storeElem : Blind storeElem := by
  refine blind_popWord.bind fun w => blind_popWord.bind fun x => blind_popArray.bind fun ref =>
    (blind_arrayAt ref).bind fun words => ?_
  dsimp only
  split
  · exact blind_modify fun _ _ _ => rfl
  · exact blind_throw _

/-- Random numbers belong to the store. -/
theorem blind_random (w : Int32) : Blind (random w) := by
  intro c code position
  rw [run_random, run_random]
  rfl

/-- Output belongs to the store. -/
theorem blind_write (t : String) : Blind (write t) := by
  intro c code position
  rw [run_write, run_write]
  rfl

/-- Input belongs to the store. -/
theorem blind_readLine : Blind readLine := by
  intro c code position
  rw [run_readLine, run_readLine]
  rfl

/-! ## Instructions -/

variable {image image' : Image}

/-- An instruction goes on behind its work. -/
theorem Blind.onward (hm : Blind m) : Pairs Transfer.Aligned
    (m >>= fun _ => pure Transfer.onward) (m >>= fun _ => pure Transfer.onward) :=
  hm.pairs_bind fun _ => pairs_pure .onward

/-- An instruction that pushes the result of its work. -/
theorem Blind.pushes {f : α → Value} (hm : Blind m) : Pairs Transfer.Aligned
    (m >>= fun a => push (f a) >>= fun _ => pure Transfer.onward)
    (m >>= fun a => push (f a) >>= fun _ => pure Transfer.onward) :=
  hm.pairs_bind fun _ => (blind_push _).onward

/-- A label leads to corresponding positions. -/
theorem run_jump_eq (l : UInt32) (c : Context) :
    (jump l).run.run c = (match c.frame.code.target? l with
      | some n => set (c.withPosition n)
      | none => throw (.badReference .label l) : Exec Unit).run.run c := rfl

/-- A jump leads to corresponding positions, or to none in both streams. -/
theorem pairs_jump (l : UInt32) : Pairs Eq (jump l) (jump l) := by
  intro c c' hc
  obtain ⟨ps, hcode, -⟩ := hc.frame.code
  have htarget := hcode.targets l
  rw [run_jump_eq, run_jump_eq]
  generalize c.frame.code.target? l = p, c'.frame.code.target? l = p' at htarget
  cases htarget with
  | none => exact .error _ hc.store
  | some hp => exact .ok rfl ⟨{ hc.frame with code := ⟨ps, hcode, hp⟩ }, hc.store⟩

/-- A call enters corresponding routines. -/
theorem pairs_call (himage : image.Aligned image') (n : UInt32) :
    Pairs Transfer.Aligned (call image n) (call image' n) := by
  have hroutine := himage.routines n.toNat
  unfold call
  generalize image.routines[n.toNat]? = r, image'.routines[n.toNat]? = r' at hroutine
  cases hroutine with
  | none => exact pairs_throw _
  | some hr =>
    dsimp only
    rw [hr.params]
    exact (blind_popMany _ _).pairs_bind fun args => pairs_pure (.call (hr.enter args))

/-- **An instruction does the same in both forms.** -/
theorem pairs_instruction (himage : image.Aligned image') (i : Instruction) :
    Pairs Transfer.Aligned (instruction image i) (instruction image' i) := by
  cases i with
  -- Only calls and jumps refer to routines and labels, of which the two images have different ones.
  | call n => exact pairs_call himage n
  | jump l => exact (pairs_jump l).bind fun _ _ _ => pairs_pure .onward
  | jumpIfFalse l =>
    refine blind_popWord.pairs_bind fun w => ?_
    split
    · exact (pairs_jump l).bind fun _ _ _ => pairs_pure .onward
    · exact pairs_pure .onward
  | jumpIfTrue l =>
    refine blind_popWord.pairs_bind fun w => ?_
    split
    · exact (pairs_jump l).bind fun _ _ _ => pairs_pure .onward
    · exact pairs_pure .onward
  -- The other instructions do the same to the same values, and never look at the code.
  | ret =>
    refine pairs_get.bind fun c c' hc => ?_
    rw [hc.frame.stack]
    exact pairs_pure (.ret _)
  | pushInt w => exact (blind_push _).onward
  | pushStr t => exact (blind_push _).onward
  | pop => exact blind_pop.onward
  | dup =>
    exact blind_pop.pairs_bind fun v => (blind_push v).pairs_bind fun _ => (blind_push v).onward
  | swap =>
    exact blind_pop.pairs_bind fun w => blind_pop.pairs_bind fun v =>
      (blind_push w).pairs_bind fun _ => (blind_push v).onward
  | loadLocal n =>
    refine pairs_get.bind fun c c' hc => ?_
    rw [hc.frame.locals]
    exact (blind_slot _ _ _).pushes (f := id)
  | loadArg n =>
    refine pairs_get.bind fun c c' hc => ?_
    rw [hc.frame.args]
    exact (blind_slot _ _ _).pushes (f := id)
  | loadField n =>
    refine pairs_get.bind fun c c' hc => ?_
    rw [hc.store]
    exact (blind_slot _ _ _).pushes (f := id)
  | storeLocal n => exact (blind_storeLocal n).onward
  | storeArg n => exact (blind_storeArg n).onward
  | storeField n => exact (blind_storeField n).onward
  | newArray n => exact (blind_newArray n).onward
  | loadElem => exact blind_loadElem.onward
  | storeElem => exact blind_storeElem.onward
  | arrayLen => exact blind_popArray.pairs_bind fun ref => (blind_arrayAt ref).pushes
  | binary op =>
    exact blind_popWord.pairs_bind fun y => blind_popWord.pairs_bind fun x =>
      (blind_lift (binary op x y)).pushes
  | neg => exact blind_popWord.pushes
  | random => exact blind_popWord.pairs_bind fun w => (blind_random w).pushes
  | box t => exact blind_popWord.pushes
  | print t => exact blind_popWord.pairs_bind fun w => (blind_write _).onward
  | printStr => exact blind_popString.pairs_bind fun t => (blind_write t).onward
  | printFormat n =>
    refine (blind_popMany _ _).pairs_bind fun args => blind_popString.pairs_bind fun format => ?_
    dsimp only
    split
    · exact (blind_write _).onward
    · exact (blind_throw _).onward
  | readLine => exact blind_readLine.pushes
  | parse t =>
    refine blind_popString.pairs_bind fun text => pairs_get.bind fun c c' hc => ?_
    rw [hc.store]
    split
    · exact (blind_push _).onward
    · exact (blind_throw _).onward

end Exec

end OnePass
