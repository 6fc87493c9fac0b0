import OnePass.Machine

/-!
# What instructions do to a stack

For each instruction its outcome on a stack that holds what it needs, as an equation. What a
word, a string or an array is needed for fails if the value is of another kind.
-/

namespace OnePass

namespace Context

/-- The context with another stack. -/
def withStack (c : Context) (s : List Value) : Context :=
  { c with frame := { c.frame with stack := s } }

/-- The context with other local slots. -/
def withLocals (c : Context) (locals : Array Value) : Context :=
  { c with frame := { c.frame with locals } }

/-- The context with other arguments. -/
def withArgs (c : Context) (args : Array Value) : Context :=
  { c with frame := { c.frame with args } }

/-- The context with another next instruction. -/
def withPosition (c : Context) (position : Nat) : Context :=
  { c with frame := { c.frame with position } }

/-- The context with another store. -/
def withStore (c : Context) (store : Store) : Context := { c with store }

/-- A stack that is put in its own place changes nothing. -/
@[simp]
theorem withStack_stack (c : Context) : c.withStack c.frame.stack = c := rfl

end Context

namespace Exec

/-- How an instruction, which the frame stands behind, comes out. -/
def outcome (image : Image) (i : Instruction) (c : Context) :
    Except MachineError Transfer × Context := (instruction image i).run.run c

variable {image : Image} {c c' : Context} {s : List Value} {v : Value}

/-! ## Composition -/

section

variable {α β : Type} {m : Exec α} {f : α → Exec β}

/-- What comes behind a part that may have failed. -/
theorem run_bind_of {x : Except MachineError α} : m.run.run c = (x, c') →
    (m >>= f).run.run c =
      match x with
      | .ok a => (f a).run.run c'
      | .error e => (.error e, c') := by
  intro h
  have hbind : (m >>= f).run.run c =
      match m.run.run c with
      | (.ok a, c') => (f a).run.run c'
      | (.error e, c') => (.error e, c') := by
    rw [ExceptT.run_bind, StateT.run_bind]
    rcases m.run.run c with ⟨e | a, c'⟩ <;> rfl
  rw [hbind, h]
  cases x <;> rfl

/-- Behind a success the rest runs where that has come to. -/
theorem run_bind_ok {a : α} (h : m.run.run c = (.ok a, c')) :
    (m >>= f).run.run c = (f a).run.run c' := run_bind_of h

/-- An error ends what runs. -/
theorem run_bind_error {e : MachineError} (h : m.run.run c = (.error e, c')) :
    (m >>= f).run.run c = (.error e, c') := run_bind_of h

end

/-! ## The evaluation stack -/

theorem outcome_pushInt {w : Int32} :
    outcome image (.pushInt w) (c.withStack s) = (.ok .onward, c.withStack (.word w :: s)) := rfl

theorem outcome_pushStr {t : String} :
    outcome image (.pushStr t) (c.withStack s) = (.ok .onward, c.withStack (.str t :: s)) := rfl

/-- One value less. -/
theorem outcome_pop :
    outcome image .pop (c.withStack (v :: s)) = (.ok .onward, c.withStack s) := rfl

theorem outcome_dup :
    outcome image .dup (c.withStack (v :: s)) = (.ok .onward, c.withStack (v :: v :: s)) := rfl

/-- The two topmost values change places. -/
theorem outcome_swap {w : Value} :
    outcome image .swap (c.withStack (w :: v :: s)) =
      (.ok .onward, c.withStack (v :: w :: s)) := rfl

/-- A text on top is taken. -/
theorem run_popString {t : String} :
    popString.run.run (c.withStack (.str t :: s)) = (.ok t, c.withStack s) := rfl

/-! ## Slots -/

/-- A slot that exists is read. -/
theorem run_slot {what : Reference} {slots : Array Value} {i : UInt32}
    (hi : slots[i.toNat]? = some v) : (slot what slots i).run.run c = (.ok v, c) := by
  unfold slot
  rw [hi]
  rfl

/-- A slot that exists is written. -/
theorem run_withSlot {what : Reference} {slots : Array Value} {i : UInt32}
    (hi : i.toNat < slots.size) :
    (withSlot what slots i v).run.run c = (.ok (slots.setIfInBounds i.toNat v), c) := by
  unfold withSlot
  rw [if_pos hi]
  rfl

/-- A local variable is pushed. -/
theorem outcome_loadLocal {i : UInt32} (hi : c.frame.locals[i.toNat]? = some v) :
    outcome image (.loadLocal i) (c.withStack s) = (.ok .onward, c.withStack (v :: s)) :=
  run_bind_ok (m := slot .local c.frame.locals i) (run_slot hi)

/-- An argument is pushed. -/
theorem outcome_loadArg {i : UInt32} (hi : c.frame.args[i.toNat]? = some v) :
    outcome image (.loadArg i) (c.withStack s) = (.ok .onward, c.withStack (v :: s)) :=
  run_bind_ok (m := slot .argument c.frame.args i) (run_slot hi)

/-- A field is pushed. -/
theorem outcome_loadField {i : UInt32} (hi : c.store.fields[i.toNat]? = some v) :
    outcome image (.loadField i) (c.withStack s) = (.ok .onward, c.withStack (v :: s)) :=
  run_bind_ok (m := slot .field c.store.fields i) (run_slot hi)

/-- The topmost value is stored to a local variable of the frame. -/
theorem outcome_storeLocal {i : UInt32} (hi : i.toNat < c.frame.locals.size) :
    outcome image (.storeLocal i) (c.withStack (v :: s)) =
      (.ok .onward, (c.withLocals (c.frame.locals.setIfInBounds i.toNat v)).withStack s) := by
  refine run_bind_ok (m := storeLocal i) (a := ⟨⟩) ?_
  exact run_bind_ok (m := withSlot .local c.frame.locals i v) (run_withSlot hi)

/-- The topmost value is stored to an argument of the frame. -/
theorem outcome_storeArg {i : UInt32} (hi : i.toNat < c.frame.args.size) :
    outcome image (.storeArg i) (c.withStack (v :: s)) =
      (.ok .onward, (c.withArgs (c.frame.args.setIfInBounds i.toNat v)).withStack s) := by
  refine run_bind_ok (m := storeArg i) (a := ⟨⟩) ?_
  exact run_bind_ok (m := withSlot .argument c.frame.args i v) (run_withSlot hi)

/-- The topmost value is stored to a field, which all frames share. -/
theorem outcome_storeField {i : UInt32} (hi : i.toNat < c.store.fields.size) :
    outcome image (.storeField i) (c.withStack (v :: s)) =
      (.ok .onward, (c.withStore { c.store with
        fields := c.store.fields.setIfInBounds i.toNat v }).withStack s) := by
  refine run_bind_ok (m := storeField i) (a := ⟨⟩) ?_
  exact run_bind_ok (m := withSlot .field c.store.fields i v) (run_withSlot hi)

/-! ## Arrays -/

/-- A new array is the last one, and its reference is pushed. -/
theorem outcome_newArray {n : UInt32} :
    outcome image (.newArray n) (c.withStack s) =
      (.ok .onward, (c.withStore { c.store with
        arrays := c.store.arrays.push (Array.replicate n.toNat 0) }).withStack
          (.array c.store.arrays.size :: s)) := rfl

/-- The length of an array takes the place of its reference. -/
theorem outcome_arrayLen {ref : Nat} :
    outcome image .arrayLen (c.withStack (.array ref :: s)) =
      (.ok .onward, c.withStack
        (.word (Int32.ofNat (c.store.arrays.getD ref #[]).size) :: s)) := rfl

/-- An element takes the place of its array and index, if there is such an element. -/
theorem outcome_loadElem {x : Int32} {ref : Nat} :
    outcome image .loadElem (c.withStack (.word x :: .array ref :: s)) =
      match offset? x (c.store.arrays.getD ref #[]).size with
      | some n => (.ok .onward, c.withStack (.word ((c.store.arrays.getD ref #[]).getD n 0) :: s))
      | none => (.error (.indexOutOfRange x (c.store.arrays.getD ref #[]).size),
          c.withStack s) := by
  have hrun : loadElem.run.run (c.withStack (.word x :: .array ref :: s)) =
      (match offset? x (c.store.arrays.getD ref #[]).size with
        | some n => pushWord ((c.store.arrays.getD ref #[]).getD n 0)
        | none => throw (.indexOutOfRange x (c.store.arrays.getD ref #[]).size) :
          Exec Unit).run.run (c.withStack s) := rfl
  cases ho : offset? x (c.store.arrays.getD ref #[]).size with
  | some n =>
    rw [ho] at hrun
    exact run_bind_ok (m := loadElem) (a := ⟨⟩) hrun
  | none =>
    rw [ho] at hrun
    exact run_bind_error (m := loadElem) hrun

/-- A word is stored to an element, if there is such an element. -/
theorem outcome_storeElem {w x : Int32} {ref : Nat} :
    outcome image .storeElem (c.withStack (.word w :: .word x :: .array ref :: s)) =
      match offset? x (c.store.arrays.getD ref #[]).size with
      | some n => (.ok .onward, (c.withStore { c.store with
          arrays := c.store.arrays.modify ref fun a => a.setIfInBounds n w }).withStack s)
      | none => (.error (.indexOutOfRange x (c.store.arrays.getD ref #[]).size),
          c.withStack s) := by
  have hrun : storeElem.run.run (c.withStack (.word w :: .word x :: .array ref :: s)) =
      (match offset? x (c.store.arrays.getD ref #[]).size with
        | some n => modify fun c => { c with store :=
            { c.store with arrays := c.store.arrays.modify ref fun a => a.setIfInBounds n w } }
        | none => throw (.indexOutOfRange x (c.store.arrays.getD ref #[]).size) :
          Exec Unit).run.run (c.withStack s) := rfl
  cases ho : offset? x (c.store.arrays.getD ref #[]).size with
  | some n =>
    rw [ho] at hrun
    exact run_bind_ok (m := storeElem) (a := ⟨⟩) hrun
  | none =>
    rw [ho] at hrun
    exact run_bind_error (m := storeElem) hrun

/-- A word is no array. -/
theorem outcome_arrayLen_word {w : Int32} :
    outcome image .arrayLen (c.withStack (.word w :: s)) =
      (.error (.expected .array .word), c.withStack s) := rfl

/-- A word is no array to load from. -/
theorem outcome_loadElem_word {x w : Int32} :
    outcome image .loadElem (c.withStack (.word x :: .word w :: s)) =
      (.error (.expected .array .word), c.withStack s) := rfl

/-- A word is no array to store to. -/
theorem outcome_storeElem_word {y x w : Int32} :
    outcome image .storeElem (c.withStack (.word y :: .word x :: .word w :: s)) =
      (.error (.expected .array .word), c.withStack s) := rfl

/-! ## Words -/

/-- The two topmost words become one, or the operator fails. -/
theorem outcome_binary {op : BinaryOp} {x y : Int32} :
    outcome image (.binary op) (c.withStack (.word y :: .word x :: s)) =
      match binary op x y with
      | .ok w => (.ok .onward, c.withStack (.word w :: s))
      | .error e => (.error e, c.withStack s) := by
  have hrun : outcome image (.binary op) (c.withStack (.word y :: .word x :: s)) =
      ((binary op x y : Exec Int32) >>= fun w => do
        pushWord w
        return Transfer.onward).run.run (c.withStack s) := rfl
  rw [hrun]
  cases hb : binary op x y with
  | ok w => exact run_bind_ok (m := (Except.ok w : Except MachineError Int32)) rfl
  | error e => exact run_bind_error (m := (Except.error e : Except MachineError Int32)) rfl

/-- The topmost word changes its sign. -/
theorem outcome_neg {w : Int32} :
    outcome image .neg (c.withStack (.word w :: s)) =
      (.ok .onward, c.withStack (.word (-w) :: s)) := rfl

/-- The generator of random numbers moves on in any case. -/
theorem run_random_eq (w : Int32) : (random w).run.run c =
    (match Random.below w c.store.random with
      | (r, random) => do
        set (c.withStore { c.store with random })
        return r : Exec Int32).run.run c := rfl

/-- A random number is drawn from the generator of the store. -/
theorem run_random {w : Int32} :
    (random w).run.run c = (.ok (Random.below w c.store.random).1,
      c.withStore { c.store with random := (Random.below w c.store.random).2 }) := by
  rw [run_random_eq]
  generalize Random.below w c.store.random = drawn
  rfl

/-- The bound of a random number is replaced by the number. -/
theorem outcome_random {w : Int32} :
    outcome image .random (c.withStack (.word w :: s)) =
      (.ok .onward, (c.withStore { c.store with
        random := (Random.below w c.store.random).2 }).withStack
          (.word (Random.below w c.store.random).1 :: s)) := by
  have hrun : outcome image .random (c.withStack (.word w :: s)) =
      (do
        pushWord (← random w)
        return .onward : Exec Transfer).run.run (c.withStack s) := rfl
  rw [hrun]
  exact run_bind_ok run_random

/-! ## Jumps, calls and returns -/

/-- A jump goes to where its label is. -/
theorem run_jump {l : UInt32} {n : Nat} (hl : c.frame.code.target? l = some n) :
    (jump l).run.run c = (.ok ⟨⟩, c.withPosition n) := by
  have hrun : (jump l).run.run c = (match c.frame.code.target? l with
      | some n => set { c with frame := { c.frame with position := n } }
      | none => throw (.badReference .label l) : Exec Unit).run.run c := rfl
  rw [hrun, hl]
  rfl

/-- A jump leaves the stack as it is. -/
theorem outcome_jump {l : UInt32} {n : Nat} (hl : c.frame.code.target? l = some n) :
    outcome image (.jump l) (c.withStack s) = (.ok .onward, (c.withPosition n).withStack s) :=
  run_bind_ok (m := jump l) (run_jump (c := c.withStack s) hl)

/-- A jump on zero takes the word it looks at. -/
theorem outcome_jumpIfFalse {l : UInt32} {n : Nat} {w : Int32}
    (hl : c.frame.code.target? l = some n) :
    outcome image (.jumpIfFalse l) (c.withStack (.word w :: s)) =
      (.ok .onward, (if w = 0 then c.withPosition n else c).withStack s) := by
  have hrun : outcome image (.jumpIfFalse l) (c.withStack (.word w :: s)) =
      (do
        if w = 0 then jump l
        return Transfer.onward : Exec Transfer).run.run (c.withStack s) := rfl
  rw [hrun]
  split
  · exact run_bind_ok (m := jump l) (run_jump (c := c.withStack s) hl)
  · rfl

/-- A jump on what is not zero takes the word it looks at. -/
theorem outcome_jumpIfTrue {l : UInt32} {n : Nat} {w : Int32}
    (hl : c.frame.code.target? l = some n) :
    outcome image (.jumpIfTrue l) (c.withStack (.word w :: s)) =
      (.ok .onward, (if w ≠ 0 then c.withPosition n else c).withStack s) := by
  have hrun : outcome image (.jumpIfTrue l) (c.withStack (.word w :: s)) =
      (do
        if w ≠ 0 then jump l
        return Transfer.onward : Exec Transfer).run.run (c.withStack s) := rfl
  rw [hrun]
  split
  · exact run_bind_ok (m := jump l) (run_jump (c := c.withStack s) hl)
  · rfl

/-- The topmost values, in the order in which they were pushed. -/
theorem run_popMany {args : List Value} {n reserve : Nat} (hn : args.length = n)
    (hr : reserve ≤ s.length) :
    (popMany n reserve).run.run (c.withStack (args.reverse ++ s)) = (.ok args, c.withStack s) := by
  have hrun : (popMany n reserve).run.run (c.withStack (args.reverse ++ s)) =
      (if (args.reverse ++ s).length < n + reserve then underflow
        else do
          set (c.withStack ((args.reverse ++ s).splitAt n).2)
          return ((args.reverse ++ s).splitAt n).1.reverse :
        Exec (List Value)).run.run (c.withStack (args.reverse ++ s)) := rfl
  have hlen : args.reverse.length = n := by rw [List.length_reverse, hn]
  rw [hrun, if_neg (by rw [List.length_append, hlen]; omega), List.splitAt_eq,
    List.take_left' hlen, List.drop_left' hlen, List.reverse_reverse]
  rfl

/-- A call looks up its routine first and takes its arguments then. -/
theorem outcome_call_eq (i : UInt32) : outcome image (.call i) c =
    (match image.routines[i.toNat]? with
      | none => throw (.badReference .routine i)
      | some r => do
        let args ← popMany r.params.length 0
        return .call (.enter r.name r.code args r.locals) : Exec Transfer).run.run c := rfl

/-- A call takes its arguments, of which the last one is on top, into a new frame. -/
theorem outcome_call {i : UInt32} {r : Routine} {args : List Value}
    (hr : image.routines[i.toNat]? = some r) (hn : args.length = r.params.length) :
    outcome image (.call i) (c.withStack (args.reverse ++ s)) =
      (.ok (.call (.enter r.name r.code args r.locals)), c.withStack s) := by
  rw [outcome_call_eq, hr]
  exact run_bind_ok (run_popMany hn (Nat.zero_le _))

/-- A return hands on what is on top, if there is anything. -/
theorem outcome_ret : outcome image .ret c = (.ok (.ret c.frame.stack.head?), c) := rfl

/-! ## Input and output -/

/-- A word is boxed with its type, for a format to print. -/
theorem outcome_box {t : WordType} {w : Int32} :
    outcome image (.box t) (c.withStack (.word w :: s)) =
      (.ok .onward, c.withStack (.boxed t w :: s)) := rfl

/-- Output that is not taken to its end is a failure. -/
def written (t : String) (st : Store) : Except MachineError Unit × Store :=
  (if (st.output.write (Text.encode t)).1 then .ok ⟨⟩ else .error (.channel .outputFull),
    { st with output := (st.output.write (Text.encode t)).2 })

/-- The next line of the input, used up also if it is not UTF-8. -/
def lineRead (st : Store) : Except MachineError String × Store :=
  if st.input.isEmpty then (.error .endOfInput, st)
  else
    (match Text.decode? (splitLine st.input).1 with
      | some s => .ok (String.ofList (Text.trimEnd (fun c => c = '\r' || c = '\n') s.toList))
      | none => .error (.channel .unreadableLine),
      { st with input := (splitLine st.input).2 })

/-- What is written goes to the output of the store. -/
theorem run_write {t : String} :
    (write t).run.run c = ((written t c.store).1, c.withStore (written t c.store).2) := by
  have hrun : (write t).run.run c =
      (do
        set (c.withStore { c.store with output := (c.store.output.write (Text.encode t)).2 })
        if !(c.store.output.write (Text.encode t)).1 then throw (.channel .outputFull) :
        Exec Unit).run.run c := rfl
  rw [hrun, written]
  cases (c.store.output.write (Text.encode t)).1 <;> rfl

/-- A line is read from the input of the store. -/
theorem run_readLine :
    readLine.run.run c = ((lineRead c.store).1, c.withStore (lineRead c.store).2) := by
  have hrun : readLine.run.run c =
      (do
        if c.store.input.isEmpty then throw .endOfInput
        set (c.withStore { c.store with input := (splitLine c.store.input).2 })
        match Text.decode? (splitLine c.store.input).1 with
        | some s =>
          return String.ofList (Text.trimEnd (fun c => c = '\r' || c = '\n') s.toList)
        | none => throw (.channel .unreadableLine) : Exec String).run.run c := rfl
  rw [hrun, lineRead]
  cases c.store.input.isEmpty with
  | true => rfl
  | false =>
    rw [if_neg Bool.false_ne_true, if_neg Bool.false_ne_true]
    cases Text.decode? (splitLine c.store.input).1 <;> rfl

/-- Behind an output the code goes on, unless that fails. -/
theorem run_write_onward {t : String} :
    (do
      write t
      return .onward : Exec Transfer).run.run c =
      ((written t c.store).1.map fun _ => .onward, c.withStore (written t c.store).2) := by
  have hwrite := run_write (c := c) (t := t)
  cases hw : (written t c.store).1 with
  | ok u =>
    rw [hw] at hwrite
    exact run_bind_ok hwrite
  | error e =>
    rw [hw] at hwrite
    exact run_bind_error hwrite

/-- A word is taken and written as its type has it. -/
theorem outcome_print {t : WordType} {w : Int32} :
    outcome image (.print t) (c.withStack (.word w :: s)) =
      ((written (t.render w) c.store).1.map fun _ => .onward,
        (c.withStore (written (t.render w) c.store).2).withStack s) :=
  run_write_onward (c := c.withStack s)

/-- A text is taken and written. -/
theorem outcome_printStr {t : String} :
    outcome image .printStr (c.withStack (.str t :: s)) =
      ((written t c.store).1.map fun _ => .onward,
        (c.withStore (written t c.store).2).withStack s) :=
  run_write_onward (c := c.withStack s)

/-- A format is taken with its arguments and written if it can be filled with them. -/
theorem outcome_printFormat {n : UInt32} {args : List Value} {format : String}
    (hn : args.length = n.toNat) :
    outcome image (.printFormat n) (c.withStack (args.reverse ++ .str format :: s)) =
      match compose format args with
      | some t => ((written t c.store).1.map fun _ => .onward,
          (c.withStore (written t c.store).2).withStack s)
      | none => (.error (.badFormat format), c.withStack s) := by
  have hrun : outcome image (.printFormat n) (c.withStack (args.reverse ++ .str format :: s)) =
      (do
        let args ← popMany n.toNat 1
        let format ← popString
        match compose format args with
        | some text => write text
        | none => throw (.badFormat format)
        return .onward : Exec Transfer).run.run (c.withStack (args.reverse ++
          .str format :: s)) := rfl
  rw [hrun, run_bind_ok (run_popMany hn (Nat.succ_le_succ (Nat.zero_le _))),
    run_bind_ok run_popString]
  cases compose format args with
  | none => rfl
  | some t => exact run_write_onward (c := c.withStack s)

/-- The line that is read is pushed. -/
theorem outcome_readLine :
    outcome image .readLine (c.withStack s) =
      match lineRead c.store with
      | (.ok t, st) => (.ok .onward, (c.withStore st).withStack (.str t :: s))
      | (.error e, st) => (.error e, (c.withStore st).withStack s) := by
  have hread := run_readLine (c := c.withStack s)
  rcases hl : lineRead c.store with ⟨e | t, st⟩
  · rw [show (c.withStack s).store = c.store from rfl, hl] at hread
    exact run_bind_error (m := readLine) hread
  · rw [show (c.withStack s).store = c.store from rfl, hl] at hread
    exact run_bind_ok (m := readLine) hread

/-- A text becomes a word if it is one of the type. -/
theorem outcome_parse {t : WordType} {text : String} :
    outcome image (.parse t) (c.withStack (.str text :: s)) =
      match t.parse? c.store.caseless text.toList with
      | some w => (.ok .onward, c.withStack (.word w :: s))
      | none => (.error (.badInput text t), c.withStack s) := by
  have hrun : outcome image (.parse t) (c.withStack (.str text :: s)) =
      (do
        match t.parse? c.store.caseless text.toList with
        | some w => pushWord w
        | none => throw (.badInput text t)
        return .onward : Exec Transfer).run.run (c.withStack s) := rfl
  rw [hrun]
  cases t.parse? c.store.caseless text.toList <;> rfl

/-! ## The next instruction -/

/-- The position moves on before the instruction is done, so a jump overrides it. -/
theorem run_next_eq : (next image).run.run c =
    (match c.frame.code.instructions[c.frame.position]? with
      | none => throw (.missingReturn c.frame.name)
      | some i => do
        set { c with frame := { c.frame with position := c.frame.position + 1 } }
        instruction image i : Exec Transfer).run.run c := rfl

/-- The position goes on before the instruction is carried out. -/
theorem run_next {i : Instruction} (hi : c.frame.code.instructions[c.frame.position]? = some i) :
    (next image).run.run c = outcome image i (c.withPosition (c.frame.position + 1)) := by
  rw [run_next_eq, hi]
  rfl

end Exec

end OnePass
