import OnePass.Proofs.CallSoundness

/-!
# Calls step after step

`Calls.advance` carries out several instructions of calls. A call that a frame makes does the
same as it does on its own, only that the frame waits for it (`Calls.step_above`); so what is
known of the call on its own says how the frame goes on.

A run does what its calls do as long as its outermost frame does not return.
-/

namespace OnePass

namespace Calls

/-- Carries out at most `n` instructions. -/
def advance (image : Image) (below : Nat) : Nat → Progress → Progress
  | 0, x => x
  | _ + 1, .done result st => .done result st
  | n + 1, .active c => advance image below n (c.step image below)

variable {image : Image} {below : Nat}

@[simp]
theorem advance_zero (x : Progress) : advance image below 0 x = x := rfl

@[simp]
theorem advance_succ (n : Nat) (c : Calls) :
    advance image below (n + 1) (.active c) = advance image below n (c.step image below) := rfl

/-- Calls that have ended do not go on. -/
@[simp]
theorem advance_done (n : Nat) (result : Except MachineError (Option Value)) (st : Store) :
    advance image below n (.done result st) = .done result st := by
  cases n <;> rfl

/-- Carrying out some instructions and then some more is carrying out all of them. -/
theorem advance_add (m n : Nat) (x : Progress) :
    advance image below (m + n) x = advance image below n (advance image below m x) := by
  induction m generalizing x with
  | zero => simp
  | succ m ih =>
    cases x with
    | done result st => simp
    | active c =>
      rw [Nat.succ_add]
      exact ih (c.step image below)

end Calls

/-! ## Calls of a frame that waits -/

/-- What calls come to above a frame that waits for the outermost of them. -/
def Progress.above (caller : Frame) (callers : List Frame) : Progress → Progress
  | .active c => .active { c with callers := c.callers ++ caller :: callers }
  | .done (.ok v) st =>
    .active ⟨{ caller with stack := v.toList ++ caller.stack }, callers, st⟩
  | .done (.error e) st => .done (.error e) st

section

variable {image : Image} {below : Nat} {caller : Frame} {callers : List Frame}

theorem Calls.leave_above (c : Calls) (v : Option Value) :
    leave { c with callers := c.callers ++ caller :: callers } v =
      (leave c v).above caller callers := by
  obtain ⟨top, frames, st⟩ := c
  cases frames <;> rfl

/-- **A call does the same above a frame that waits for it.** -/
theorem Calls.step_above (c : Calls) :
    step image below { c with callers := c.callers ++ caller :: callers } =
      (step image (below + callers.length + 1) c).above caller callers := by
  obtain ⟨top, frames, st⟩ := c
  unfold step
  dsimp only
  rcases (Exec.next image).run.run ⟨top, st⟩ with ⟨outcome, top', st'⟩
  rcases outcome with e | transfer
  · rfl
  · cases transfer with
    | onward => rfl
    | ret v => exact leave_above ⟨top', frames, st'⟩ v
    | call callee =>
      have hdepth : below + (frames ++ caller :: callers).length + 1 =
          below + callers.length + 1 + frames.length + 1 := by
        simp only [List.length_append, List.length_cons]
        omega
      dsimp only
      rw [hdepth]
      split <;> rfl

/-- Calls that go on after some instructions have gone on until then. -/
theorem Calls.active_of_le {m n : Nat} {c c' : Calls}
    (h : advance image below n (.active c) = .active c')
    (hmn : m ≤ n) : ∃ d, advance image below m (.active c) = .active d := by
  obtain ⟨k, rfl⟩ := Nat.exists_eq_add_of_le hmn
  rw [advance_add] at h
  cases hm : advance image below m (.active c) with
  | active d => exact ⟨d, rfl⟩
  | done result st =>
    rw [hm, advance_done] at h
    cases h

/-- As long as a call has not ended, the frame waits. -/
theorem Calls.advance_above_active {n : Nat} {c c' : Calls}
    (h : advance image (below + callers.length + 1) n (.active c) = .active c') :
    advance image below n (Progress.above caller callers (.active c)) =
      Progress.above caller callers (.active c') := by
  induction n generalizing c with
  | zero =>
    obtain rfl : c = c' := by simpa using h
    rfl
  | succ n ih =>
    rw [advance_succ] at h
    rw [Progress.above, advance_succ, step_above]
    cases hnext : step image (below + callers.length + 1) c with
    | active d => exact ih (hnext ▸ h)
    | done result st =>
      rw [hnext, advance_done] at h
      cases h

/-- When a call ends, the frame goes on, or all calls fail. Until then the frame waits. -/
theorem Calls.advance_above_done {n : Nat} {c : Calls} {result : Except MachineError (Option Value)}
    {st : Store}
    (h : advance image (below + callers.length + 1) n (.active c) = .done result st) :
    ∃ m, advance image below m (Progress.above caller callers (.active c)) =
        Progress.above caller callers (.done result st) ∧
      ∀ k < m, ∃ d, advance image below k (Progress.above caller callers (.active c)) =
        Progress.above caller callers (.active d) := by
  induction n generalizing c with
  | zero => cases h
  | succ n ih =>
    rw [advance_succ] at h
    have hstep (m : Nat) : advance image below (m + 1) (Progress.above caller callers (.active c)) =
        advance image below m
          (Progress.above caller callers (step image (below + callers.length + 1) c)) := by
      rw [Progress.above, advance_succ, step_above]
    cases hnext : step image (below + callers.length + 1) c with
    | active d =>
      rw [hnext] at h hstep
      obtain ⟨m, hm, hwait⟩ := ih h
      refine ⟨m + 1, (hstep m).trans hm, fun k hk => ?_⟩
      cases k with
      | zero => exact ⟨c, rfl⟩
      | succ k => exact (hstep k).symm ▸ hwait k (Nat.lt_of_succ_lt_succ hk)
    | done result' st' =>
      rw [hnext, advance_done] at h
      rw [hnext] at hstep
      cases h
      refine ⟨1, hstep 0, fun k hk => ?_⟩
      obtain rfl := Nat.lt_one_iff.mp hk
      exact ⟨c, rfl⟩

end

/-! ## Calls of routines -/

section

variable {P : Plan} {image : Image} {H : Heap} {bottom : Role} {below : Nat} {c : Calls}

/-- What calls that are as sketched have come to after some steps. -/
def Progress.Fits (P : Plan) (image : Image) (H : Heap) (bottom : Role) (st : Store) :
    Progress → Prop
  | .active c => ∃ H', c.Fits P image H' True bottom ∧ Store.Evolves H st H' c.store
  | .done (.ok v) st' => ∃ H', st'.Fits P H' ∧ Store.Evolves H st H' st' ∧
      List.Forall₂ (Value.Fits H' True) v.toList bottom.outline.result
  | .done (.error _) _ => True

/-- **Calls stay as sketched step after step.** -/
theorem Calls.Fits.advance (hc : c.Fits P image H True bottom) (hlinked : image.Linked P)
    (n : Nat) :
    (Calls.advance image below n (.active c)).Fits P image H bottom c.store := by
  induction n generalizing H c with
  | zero => exact ⟨H, hc, .refl _ _⟩
  | succ n ih =>
    have hgoes := hc.step hlinked (.inl trivial) below
    rw [Calls.advance_succ]
    generalize c.step image below = next at hgoes
    cases hgoes with
    | @active H₁ c₁ hc₁ he =>
      have hrest := ih hc₁
      generalize Calls.advance image below n (.active c₁) = last at hrest
      -- what the store has come to by now lies between the two ends
      match last, hrest with
      | .active _, ⟨H', hc', he'⟩ => exact ⟨H', hc', he.trans he'⟩
      | .done (.ok _) _, ⟨H', hst, he', hv⟩ => exact ⟨H', hst, he.trans he', hv⟩
      | .done (.error _) _, _ => trivial
    | returned hv _ =>
      rw [Calls.advance_done]
      exact ⟨H, hc.store, .refl _ _, hv⟩
    | failed _ _ =>
      rw [Calls.advance_done]
      trivial

end

/-! ## Runs -/

section

variable {image : Image}

theorem Run.advance_active {n : Nat} {c c' : Calls} (stage : Stage)
    (h : Calls.advance image 0 n (.active c) = .active c') :
    Run.advance image n (.active ⟨c, stage⟩) = .active ⟨c', stage⟩ := by
  induction n generalizing c with
  | zero =>
    obtain rfl : c = c' := by simpa using h
    rfl
  | succ n ih =>
    rw [Calls.advance_succ] at h
    rw [Run.advance]
    unfold Execution.step
    cases hnext : c.step image 0 with
    | active d =>
      rw [hnext] at h
      exact ih h
    | done result st =>
      rw [hnext, Calls.advance_done] at h
      cases h

theorem Run.advance_failed {n : Nat} {c : Calls} {e : MachineError} {st : Store} (stage : Stage)
    (h : Calls.advance image 0 n (.active c) = .done (.error e) st) :
    Run.advance image n (.active ⟨c, stage⟩) = .done (.error e) st := by
  induction n generalizing c with
  | zero => cases h
  | succ n ih =>
    rw [Calls.advance_succ] at h
    rw [Run.advance]
    unfold Execution.step
    cases hnext : c.step image 0 with
    | active d =>
      rw [hnext] at h
      exact ih h
    | done result st' =>
      rw [hnext, Calls.advance_done] at h
      cases h
      exact Run.advance_done ..

end

end OnePass
