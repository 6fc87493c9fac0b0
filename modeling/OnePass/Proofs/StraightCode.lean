import OnePass.Proofs.Evaluation

/-!
# Code without effect

Some instructions only read the slots and the store: they work on the stack of their frame alone.
What a run of such instructions comes to depends on the memory and on the values that they take, and
on nothing else; neither where they stand nor what is below on the stack. `Turns` says what that is.
-/

namespace OnePass

/-- A stream has instructions at a position. -/
def Code.Has (code : Code) (p : Nat) (is : List Instruction) : Prop :=
  is <+: code.instructions.toList.drop p

theorem Code.has_append {code : Code} {p : Nat} {is js : List Instruction} :
    code.Has p (is ++ js) ↔ code.Has p is ∧ code.Has (p + is.length) js := by
  unfold Code.Has
  rw [← List.drop_drop]
  constructor
  · rintro ⟨rest, hrest⟩
    rw [← hrest, List.append_assoc]
    exact ⟨List.prefix_append _ _, by simp⟩
  · rintro ⟨⟨rest, hrest⟩, hjs⟩
    rw [← hrest, List.drop_left] at hjs
    rw [← hrest]
    exact (List.prefix_append_right_inj is).mpr hjs

theorem Code.Has.head {code : Code} {p : Nat} {i : Instruction} {is : List Instruction}
    (h : code.Has p (i :: is)) : code.instructions[p]? = some i := by
  obtain ⟨rest, hrest⟩ := h
  rw [← Array.getElem?_toList, ← Nat.add_zero p, ← List.getElem?_drop, ← hrest]
  rfl

/-- The store that calls have come to. -/
def Progress.store : Progress → Store
  | .active c => c.store
  | .done _ st => st

/-- Calls come to `x` in `n` instructions, none of which changes the store. -/
structure Calls.Idles (image : Image) (below : Nat) (c : Calls) (n : Nat) (x : Progress) :
    Prop where
  comes : advance image below n (.active c) = x
  store : ∀ k ≤ n, (advance image below k (.active c)).store = c.store

namespace Calls.Idles

variable {image : Image} {below m n : Nat} {c d : Calls} {x : Progress}

theorem zero (image : Image) (below : Nat) (c : Calls) : c.Idles image below 0 (.active c) := by
  refine ⟨rfl, fun k hk => ?_⟩
  obtain rfl := Nat.le_zero.mp hk
  rfl

theorem one (h : c.step image below = x) (hs : x.store = c.store) : c.Idles image below 1 x := by
  refine ⟨h, fun k hk => ?_⟩
  obtain rfl | rfl : k = 0 ∨ k = 1 := by omega
  · rfl
  · rw [advance_succ, h]
    exact hs

theorem trans (h : c.Idles image below m (.active d)) (h' : d.Idles image below n x) :
    c.Idles image below (m + n) x := by
  refine ⟨by rw [advance_add, h.comes, h'.comes], fun k hk => ?_⟩
  rcases Nat.le_total k m with hkm | hmk
  · exact h.store k hkm
  · obtain ⟨j, rfl⟩ := Nat.exists_eq_add_of_le hmk
    rw [advance_add, h.comes, h'.store j (by omega), ← h.store m le_rfl, h.comes]
    rfl

/-- Calls that have failed do nothing more. -/
theorem failed {e : MachineError} {st : Store} (h : c.Idles image below m (.done (.error e) st))
    (n : Nat) : c.Idles image below (m + n) (.done (.error e) st) := by
  refine ⟨by rw [advance_add, h.comes, advance_done], fun k hk => ?_⟩
  rcases Nat.le_total k m with hkm | hmk
  · exact h.store k hkm
  · obtain ⟨j, rfl⟩ := Nat.exists_eq_add_of_le hmk
    rw [advance_add, h.comes, advance_done, ← h.store m le_rfl, h.comes]

end Calls.Idles

namespace Memory

/-- Calls whose innermost frame has a memory, a name, a stream, a position and a stack. -/
def stand (m : Memory) (name : String) (code : Code) (callers : List Frame) (p : Nat)
    (s : List Value) : Calls := ⟨⟨name, code, p, m.args, m.locals, s⟩, callers, m.store⟩

/-- What calls come to that have values on the stack, or fail. -/
def comes (m : Memory) (name : String) (code : Code) (callers : List Frame) (p : Nat)
    (s : List Value) : Except MachineError (List Value) → Progress
  | .ok vs => .active (m.stand name code callers p (vs ++ s))
  | .error e => .done (.error e) m.store

/-- In a frame with a name and a memory the instructions turn the values `vs` on the stack into
others, or fail, as `r` says, without changing the store: in whatever stream they stand, whatever
else is on the stack, and whichever frames wait. -/
def Turns (m : Memory) (name : String) (is : List Instruction) (vs : List Value)
    (r : Except MachineError (List Value)) : Prop :=
  ∀ (image : Image) (below : Nat) (code : Code) (callers : List Frame) (p : Nat) (s : List Value),
    code.Has p is → (m.stand name code callers p (vs ++ s)).Idles image below is.length
      (m.comes name code callers (p + is.length) s r)

variable {m : Memory} {name : String} {is js : List Instruction} {vs ws us : List Value}
  {r : Except MachineError (List Value)} {e : MachineError}

/-! ## Composition -/

theorem Turns.append (h : m.Turns name is vs (.ok ws)) (h' : m.Turns name js ws r) :
    m.Turns name (is ++ js) vs r := by
  intro image below code callers p s hcode
  obtain ⟨his, hjs⟩ := Code.has_append.mp hcode
  rw [List.length_append, ← Nat.add_assoc]
  exact (h image below code callers p s his).trans (h' image below code callers _ s hjs)

theorem Turns.failed (h : m.Turns name is vs (.error e)) (js : List Instruction) :
    m.Turns name (is ++ js) vs (.error e) := by
  intro image below code callers p s hcode
  rw [List.length_append]
  exact (h image below code callers p s (Code.has_append.mp hcode).1).failed _

/-- Values below stay. -/
theorem Turns.above (h : m.Turns name is vs r) (us : List Value) :
    m.Turns name is (vs ++ us) (r.map (· ++ us)) := by
  intro image below code callers p s hcode
  have hus := h image below code callers p (us ++ s) hcode
  rw [← List.append_assoc] at hus
  cases r with
  | error e => exact hus
  | ok ws =>
    rw [comes, ← List.append_assoc] at hus
    exact hus

/-! ## Single instructions -/

/-- An instruction turns values into others where it does so with a stack. -/
theorem turns_of_outcome {i : Instruction}
    (h : ∀ image (c : Context), c.frame.args = m.args → c.frame.locals = m.locals →
      c.store = m.store → ∀ s, ∃ s', Exec.outcome image i (c.withStack (vs ++ s)) =
        (r.map fun _ => .onward, c.withStack s') ∧ ∀ ws, r = .ok ws → s' = ws ++ s) :
    m.Turns name [i] vs r := by
  intro image below code callers p s hcode
  obtain ⟨s', hi, hs'⟩ := h image ⟨⟨name, code, p + 1, m.args, m.locals, vs ++ s⟩, m.store⟩ rfl rfl
    rfl s
  have hnext : (Exec.next image).run.run
      ⟨⟨name, code, p, m.args, m.locals, vs ++ s⟩, m.store⟩ = _ :=
    (Exec.run_next hcode.head).trans hi
  refine .one ?_ (by cases r <;> rfl)
  rw [Calls.step, stand, hnext]
  cases r with
  | ok ws =>
    rw [hs' ws rfl]
    rfl
  | error e => rfl

theorem turns_pop (v : Value) : m.Turns name [.pop] [v] (.ok []) :=
  turns_of_outcome fun _ _ _ _ _ s => ⟨s, Exec.outcome_pop, fun _ h => by cases h; rfl⟩

theorem turns_swap (v w : Value) : m.Turns name [.swap] [v, w] (.ok [w, v]) :=
  turns_of_outcome fun _ _ _ _ _ s => ⟨w :: v :: s, Exec.outcome_swap, fun _ h => by cases h; rfl⟩

end Memory

/-! ## Code that computes a value -/

/-- The instructions turn any `n` values into one or fail, and do nothing else. -/
def Reduces (is : List Instruction) (n : Nat) : Prop :=
  ∀ (name : String) (m : Memory) (vs : List Value), vs.length = n →
    ∃ r : Except MachineError Value, m.Turns name is vs (r.map fun v => [v])

theorem reduces_nil : Reduces [] 1 := by
  intro name m vs hvs
  obtain ⟨v, rfl⟩ := List.length_eq_one_iff.mp hvs
  exact ⟨.ok v, fun image below code callers p s _ => .zero image below _⟩

/-- What takes the value that was computed, and others that were there before. -/
theorem Reduces.append {is js : List Instruction} {n k : Nat} (h : Reduces is n)
    (h' : Reduces js (k + 1)) : Reduces (is ++ js) (n + k) := by
  intro name m vs hvs
  obtain ⟨r, hr⟩ := h name m (vs.take n) (by simp [hvs])
  have habove := hr.above (vs.drop n)
  rw [List.take_append_drop] at habove
  cases r with
  | error e => exact ⟨.error e, habove.failed js⟩
  | ok v =>
    obtain ⟨r', hr'⟩ := h' name m (v :: vs.drop n) (by simp [hvs])
    exact ⟨r', habove.append hr'⟩

/-- An instruction for which it only matters what is in the memory. -/
theorem reduces_of_outcome {i : Instruction} {n : Nat}
    (h : ∀ (m : Memory) (vs : List Value), vs.length = n → ∃ r : Except MachineError Value,
      ∀ image (c : Context), c.frame.args = m.args → c.frame.locals = m.locals →
        c.store = m.store → ∀ s, ∃ s', Exec.outcome image i (c.withStack (vs ++ s)) =
          (r.map fun _ => .onward, c.withStack s') ∧ ∀ v, r = .ok v → s' = v :: s) :
    Reduces [i] n := by
  intro name m vs hvs
  obtain ⟨r, hr⟩ := h m vs hvs
  refine ⟨r, Memory.turns_of_outcome fun image c hargs hlocals hstore s => ?_⟩
  obtain ⟨s', hi, hs'⟩ := hr image c hargs hlocals hstore s
  refine ⟨s', ?_, ?_⟩
  · rw [hi]
    cases r <;> rfl
  · rintro ws hws
    cases r with
    | error e => cases hws
    | ok v =>
      cases hws
      exact hs' v rfl

theorem reduces_pushInt (w : Int32) : Reduces [.pushInt w] 0 := by
  refine reduces_of_outcome fun m vs hvs => ⟨.ok (.word w), fun image c _ _ _ s => ?_⟩
  obtain rfl := List.length_eq_zero_iff.mp hvs
  exact ⟨_, Exec.outcome_pushInt, fun _ h => by cases h; rfl⟩

theorem reduces_pushStr (t : String) : Reduces [.pushStr t] 0 := by
  refine reduces_of_outcome fun m vs hvs => ⟨.ok (.str t), fun image c _ _ _ s => ?_⟩
  obtain rfl := List.length_eq_zero_iff.mp hvs
  exact ⟨_, Exec.outcome_pushStr, fun _ h => by cases h; rfl⟩

/-- An instruction that pushes what is in a slot, or fails if there is none. -/
theorem reduces_slot {i : Instruction} {what : Reference} {index : UInt32}
    (slots : Memory → Array Value) (slotsIn : Context → Array Value)
    (hslots : ∀ (m : Memory) (c : Context), c.frame.args = m.args → c.frame.locals = m.locals →
      c.store = m.store → slotsIn c = slots m)
    (h : ∀ image c, Exec.outcome image i c = (do
      Exec.push (← Exec.slot what (slotsIn c) index)
      return Transfer.onward : Exec Transfer).run.run c) : Reduces [i] 0 := by
  refine reduces_of_outcome fun m vs hvs => ?_
  obtain rfl := List.length_eq_zero_iff.mp hvs
  cases hv : (slots m)[index.toNat]? with
  | some v =>
    refine ⟨.ok v, fun image c hargs hlocals hstore s => ⟨v :: s, ?_, fun _ h => by cases h; rfl⟩⟩
    rw [h, hslots m (c.withStack ([] ++ s)) hargs hlocals hstore]
    exact Exec.run_bind_ok (Exec.run_slot hv)
  | none =>
    refine ⟨.error (.badReference what index), fun image c hargs hlocals hstore s => ⟨s, ?_, nofun⟩⟩
    rw [h, hslots m (c.withStack ([] ++ s)) hargs hlocals hstore, Exec.slot, hv]
    rfl

theorem reduces_loadLocal (i : UInt32) : Reduces [.loadLocal i] 0 :=
  reduces_slot Memory.locals (fun c => c.frame.locals) (fun _ _ _ h _ => h) fun _ _ => rfl

theorem reduces_loadArg (i : UInt32) : Reduces [.loadArg i] 0 :=
  reduces_slot Memory.args (fun c => c.frame.args) (fun _ _ h _ _ => h) fun _ _ => rfl

theorem reduces_loadField (i : UInt32) : Reduces [.loadField i] 0 :=
  reduces_slot (fun m => m.store.fields) (fun c => c.store.fields)
    (fun _ _ _ _ h => congrArg Store.fields h) fun _ _ => rfl

/-! Values of the wrong kind are failures, which do not depend on the memory either. -/

theorem reduces_neg : Reduces [.neg] 1 := by
  refine reduces_of_outcome fun m vs hvs => ?_
  obtain ⟨v, rfl⟩ := List.length_eq_one_iff.mp hvs
  cases v with
  | word w =>
    exact ⟨.ok (.word (-w)), fun _ _ _ _ _ s => ⟨_, Exec.outcome_neg, fun _ h => by cases h; rfl⟩⟩
  | str t => exact ⟨.error (.expected .word .str), fun _ _ _ _ _ s => ⟨s, rfl, nofun⟩⟩
  | array ref => exact ⟨.error (.expected .word .array), fun _ _ _ _ _ s => ⟨s, rfl, nofun⟩⟩
  | boxed t w => exact ⟨.error (.expected .word .boxed), fun _ _ _ _ _ s => ⟨s, rfl, nofun⟩⟩

theorem reduces_arrayLen : Reduces [.arrayLen] 1 := by
  refine reduces_of_outcome fun m vs hvs => ?_
  obtain ⟨v, rfl⟩ := List.length_eq_one_iff.mp hvs
  cases v with
  | array ref =>
    refine ⟨.ok (.word (Int32.ofNat (m.words ref).size)), fun _ _ _ _ hstore s => ?_⟩
    exact ⟨_, hstore ▸ Exec.outcome_arrayLen, fun _ h => by cases h; rfl⟩
  | word w => exact ⟨.error (.expected .array .word), fun _ _ _ _ _ s => ⟨s, rfl, nofun⟩⟩
  | str t => exact ⟨.error (.expected .array .str), fun _ _ _ _ _ s => ⟨s, rfl, nofun⟩⟩
  | boxed t w => exact ⟨.error (.expected .array .boxed), fun _ _ _ _ _ s => ⟨s, rfl, nofun⟩⟩

theorem reduces_binary (op : BinaryOp) : Reduces [.binary op] 2 := by
  refine reduces_of_outcome fun m vs hvs => ?_
  obtain ⟨w, v, rfl⟩ := List.length_eq_two.mp hvs
  cases w with
  | word y =>
    cases v with
    | word x =>
      cases hb : Exec.binary op x y with
      | ok z =>
        refine ⟨.ok (.word z), fun _ _ _ _ _ s => ⟨.word z :: s, ?_, fun _ h => by cases h; rfl⟩⟩
        exact Exec.outcome_binary.trans (by rw [hb]; rfl)
      | error e =>
        refine ⟨.error e, fun _ _ _ _ _ s => ⟨s, ?_, nofun⟩⟩
        exact Exec.outcome_binary.trans (by rw [hb]; rfl)
    | str t => exact ⟨.error (.expected .word .str), fun _ _ _ _ _ s => ⟨s, rfl, nofun⟩⟩
    | array ref => exact ⟨.error (.expected .word .array), fun _ _ _ _ _ s => ⟨s, rfl, nofun⟩⟩
    | boxed t w => exact ⟨.error (.expected .word .boxed), fun _ _ _ _ _ s => ⟨s, rfl, nofun⟩⟩
  | str t => exact ⟨.error (.expected .word .str), fun _ _ _ _ _ s => ⟨v :: s, rfl, nofun⟩⟩
  | array ref => exact ⟨.error (.expected .word .array), fun _ _ _ _ _ s => ⟨v :: s, rfl, nofun⟩⟩
  | boxed t w => exact ⟨.error (.expected .word .boxed), fun _ _ _ _ _ s => ⟨v :: s, rfl, nofun⟩⟩

theorem reduces_loadElem : Reduces [.loadElem] 2 := by
  refine reduces_of_outcome fun m vs hvs => ?_
  obtain ⟨w, v, rfl⟩ := List.length_eq_two.mp hvs
  cases w with
  | word x =>
    cases v with
    | array ref =>
      cases ho : Exec.offset? x (m.words ref).size with
      | some n =>
        refine ⟨.ok (.word ((m.words ref).getD n 0)), fun _ c _ _ hstore s =>
          ⟨.word ((m.words ref).getD n 0) :: s, ?_, fun _ h => by cases h; rfl⟩⟩
        rw [Memory.words, ← hstore] at ho ⊢
        exact Exec.outcome_loadElem.trans (by rw [ho]; rfl)
      | none =>
        refine ⟨.error (.indexOutOfRange x (m.words ref).size), fun _ c _ _ hstore s =>
          ⟨s, ?_, nofun⟩⟩
        rw [Memory.words, ← hstore] at ho ⊢
        exact Exec.outcome_loadElem.trans (by rw [ho]; rfl)
    | word w => exact ⟨.error (.expected .array .word), fun _ _ _ _ _ s => ⟨s, rfl, nofun⟩⟩
    | str t => exact ⟨.error (.expected .array .str), fun _ _ _ _ _ s => ⟨s, rfl, nofun⟩⟩
    | boxed t w => exact ⟨.error (.expected .array .boxed), fun _ _ _ _ _ s => ⟨s, rfl, nofun⟩⟩
  | str t => exact ⟨.error (.expected .word .str), fun _ _ _ _ _ s => ⟨v :: s, rfl, nofun⟩⟩
  | array ref => exact ⟨.error (.expected .word .array), fun _ _ _ _ _ s => ⟨v :: s, rfl, nofun⟩⟩
  | boxed t w => exact ⟨.error (.expected .word .boxed), fun _ _ _ _ _ s => ⟨v :: s, rfl, nofun⟩⟩

end OnePass
