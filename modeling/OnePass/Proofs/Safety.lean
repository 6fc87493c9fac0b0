import OnePass.Machine.Seeded
import OnePass.Proofs.DeclaredNames
import OnePass.Proofs.RunSoundness

/-!
# Compiled programs are safe

What a source is compiled to is run on a machine any number of times. The statements are about
every state `Run.advance c.image n (Execution.start c.image st)` of such a run, where `st` is the
store of a fresh machine or what earlier runs have left (`Store.AtRest`).

* Whatever the machine does, it finds the values that it takes and the slots, labels and routines
  that it refers to (`compile_sound`).
* In the entry routine it finds values of the right kinds as well, and what a successful run
  returns is what the program declares (`compile_suited`).
-/

namespace OnePass

/-- A store that a machine can have between its runs. -/
inductive Store.AtRest (image : Image) : Store → Prop where
  /-- the machine is new -/
  | new (input : List UInt8) (limit : Option Nat) (random : Random) (caseless : Caseless) :
      AtRest image (.new image input limit random caseless)
  /-- a run has ended -/
  | ran {st st' : Store} {n : Nat} {result : Result} : AtRest image st →
      Run.advance image n (Execution.start image st) = .done result st' → AtRest image st'
  /-- there is other input since then -/
  | fed {st : Store} (input : List UInt8) : AtRest image st → AtRest image { st with input }

/-- A failure of the machine that is not the fault of a program or its input: an instruction does
not find what it needs, or there is none. -/
def MachineError.Structural : MachineError → Prop
  | .stackUnderflow _ | .badReference _ _ | .missingReturn _ => True
  | _ => False

/-- Whether a run has ended in a result. -/
def Run.endsIn (r : Run) (result : Result) : Bool :=
  match r, result with
  | .done (.ok v) _, .ok w => v = w
  | .done (.error e) _, .error e' => e = e'
  | _, _ => false

theorem Run.eq_done_of_endsIn {r : Run} {result : Result} (h : r.endsIn result = true) :
    ∃ st, r = .done result st := by
  unfold endsIn at h
  split at h
  · exact of_decide_eq_true h ▸ ⟨_, rfl⟩
  · exact of_decide_eq_true h ▸ ⟨_, rfl⟩
  · cases h

/-- Whether a run is in the entry function. -/
def Run.inEntry : Run → Bool
  | .active p => p.stage = .entry
  | .done _ _ => false

theorem Run.eq_active_of_inEntry {r : Run} (h : r.inEntry = true) :
    ∃ p, r = .active p ∧ p.stage = .entry := by
  cases r with
  | active p => exact ⟨p, rfl, of_decide_eq_true h⟩
  | done result st => cases h

/-- A compilation that can be carried out to code that is not too long, and what can be seen
of it. -/
theorem exists_compilation {name : String} {legacy : Bool} {source : List UInt8}
    {q : Compilation → Bool}
    (h : (compile name legacy source).toOption.any (fun c => c.image.Addressable ∧ q c) = true) :
    ∃ c, compile name legacy source = .ok c ∧ c.image.Addressable ∧ q c = true := by
  cases hc : compile name legacy source with
  | ok c =>
    rw [hc] at h
    exact ⟨c, rfl, of_decide_eq_true h⟩
  | error r =>
    rw [hc] at h
    cases h

section

variable {P : Plan} {image : Image} {st : Store} {loose : Prop} {p : Execution}

theorem MachineError.Allowed.not_structural {e : MachineError} (h : e.Allowed loose) :
    ¬ e.Structural := by
  cases e <;> first | exact h.elim | exact id

theorem Store.atRest_trial (image : Image) (input : List UInt8) :
    (Store.trial image input).AtRest image := .new input none _ _

/-- Between runs the store is as the plan says. -/
theorem Store.AtRest.fits (h : st.AtRest image) (himage : image.Typed P) : ∃ H, st.Fits P H := by
  induction h with
  | new input limit random caseless => exact ⟨[], Store.new_fits himage input limit random caseless⟩
  | @ran st st' n result _ hrun ih =>
    obtain ⟨H, hst⟩ := ih
    have hstart : (Execution.start image st).Fits P image True := Execution.start_fits himage hst
    have hend := hstart.advance himage n fun _ _ _ _ _ => .inl trivial
    rw [hrun] at hend
    cases result with
    | ok v => exact hend.1
    | error e => exact hend.1
  | @fed st input _ ih => exact ih.imp fun _ h => (h.congr { st with input } rfl rfl).1

/-- A run of a typed image is as sketched at all times, if array fields may be used before they
are ready. -/
theorem Store.AtRest.run_fits (h : st.AtRest image) (himage : image.Typed P) (n : Nat) :
    (Run.advance image n (Execution.start image st)).Fits P image True := by
  obtain ⟨H, hst⟩ := h.fits himage
  exact (Execution.start_fits himage hst).advance himage n fun _ _ _ _ _ => .inl trivial

namespace Execution.Fits

variable {H : Heap}

theorem sound (hp : p.Fits P image H loose) (himage : image.Typed P) : p.Sound image := by
  obtain ⟨c, stage⟩ := p
  cases stage with
  | initializer => exact Calls.Fits.sound hp (himage.linked P.exposed)
  | entry =>
    obtain ⟨o, -, hc⟩ := hp
    exact hc.sound (himage.linked ∅)

theorem suited (hp : p.Fits P image H loose) (himage : image.Typed P) (hstage : p.stage = .entry) :
    p.Suited image := by
  obtain ⟨c, stage⟩ := p
  subst hstage
  obtain ⟨o, -, hc⟩ := hp
  exact hc.suited (himage.linked ∅)

/-- In the entry routine it does not matter what was loose before. -/
theorem strict (hp : p.Fits P image H loose) (hstage : p.stage = .entry) :
    p.Fits P image H False := by
  obtain ⟨c, stage⟩ := p
  subst hstage
  exact hp

end Execution.Fits

/-- The initializer does not run again. -/
theorem Execution.stage_advance (hstage : p.stage = .entry) {n : Nat} {q : Execution}
    (hq : Run.advance image n (.active p) = .active q) : q.stage = .entry := by
  induction n generalizing p with
  | zero =>
    obtain rfl : p = q := by simpa [Run.advance] using hq
    exact hstage
  | succ n ih =>
    rw [Run.advance] at hq
    generalize hnext : p.step image = next at hq
    unfold Execution.step at hnext
    split at hnext
    · rename_i next _
      subst hnext
      exact ih (p := ⟨next, p.stage⟩) hstage hq
    · subst hnext
      rw [Run.advance_done] at hq
      cases hq
    · rw [hstage, Execution.proceed] at hnext
      subst hnext
      rw [Run.advance_done] at hq
      cases hq

end

section

variable {name : String} {legacy : Bool} {source : List UInt8} {c : Compilation} {st : Store}

/-- **Compiled code is structurally sound.** As long as 32 bits are enough for the source and for
each stream of code, there is a next instruction at every step of every run, with as many values on
the stack as it takes, whose slots, labels and routines exist; a return finds what its function
returns, and nothing else. So no run ends for want of any of these. -/
theorem compile_sound (h : compile name legacy source = .ok c)
    (hsource : source.length < UInt32.size)
    (haddr : c.image.Addressable) (hst : st.AtRest c.image) (n : Nat) :
    (∀ p, Run.advance c.image n (Execution.start c.image st) = .active p → p.Sound c.image) ∧
      ∀ e st', Run.advance c.image n (Execution.start c.image st) = .done (.error e) st' →
        ¬ e.Structural := by
  have himage := compile_typed h (compile_addressable h hsource haddr)
  have hrun := hst.run_fits himage n
  constructor
  · intro p hp
    rw [hp] at hrun
    obtain ⟨H, hfits⟩ := hrun
    exact hfits.sound himage
  · intro e st' hend
    rw [hend] at hrun
    exact hrun.2.not_structural

/-- A function that calls itself, in the second run of a machine. -/
theorem compile_sound_recursion :
    ∃ c, compile "" false ("int f(int n) \x7b if n < 1 then return 7; return f(n - 1); \x7d " ++
        "int main() \x7b return f(1); \x7d").toUTF8.toList = .ok c ∧
      ∃ st, Run.advance c.image 40 (Execution.start c.image (.trial c.image [])) =
          .done (.ok (some 7)) st ∧
        ∀ n p, Run.advance c.image n (Execution.start c.image st) = .active p →
          p.Sound c.image := by
  obtain ⟨c, hc, haddr, hend⟩ := exists_compilation (q := fun c => (Run.advance c.image 40
    (Execution.start c.image (.trial c.image []))).endsIn (.ok (some 7)))
    (show (compile "" false ("int f(int n) \x7b if n < 1 then return 7; return f(n - 1); \x7d " ++
      "int main() \x7b return f(1); \x7d").toUTF8.toList).toOption.any _ = true by decide +kernel)
  obtain ⟨st, hst⟩ := Run.eq_done_of_endsIn hend
  refine ⟨c, hc, st, hst, fun n p hp => ?_⟩
  exact (compile_sound hc (by decide +kernel) haddr (.ran (Store.atRest_trial _ _) hst) n).1 p hp

/-- **Compiled code is typed.** Once the initializer of a run has come to its end, every
instruction finds values of the kinds that it takes, and the run does not fail for want of one. A
successful run returns a word exactly if there is a function `main` that is declared to return
something. Here too 32 bits have to be enough for the source and its code. -/
theorem compile_suited (h : compile name legacy source = .ok c)
    (hsource : source.length < UInt32.size) (haddr : c.image.Addressable)
    (hst : st.AtRest c.image) (n : Nat) :
    (∀ p m, Run.advance c.image n (Execution.start c.image st) = .active p → p.stage = .entry →
      (∀ q, Run.advance c.image m (.active p) = .active q → q.Suited c.image) ∧
      ∀ kind found st',
        Run.advance c.image m (.active p) ≠ .done (.error (.expected kind found)) st') ∧
    ∀ v st', Run.advance c.image n (Execution.start c.image st) = .done (.ok v) st' →
      (v.isSome ↔ ∃ k ∈ c.tree.headers, k.name.value = entryName ∧ k.returns.isSome) := by
  have himage := compile_typed h (compile_addressable h hsource haddr)
  have hrun := hst.run_fits himage n
  constructor
  · intro p m hp hstage
    rw [hp] at hrun
    obtain ⟨H, hfits⟩ := hrun
    have hstrict : (Run.active p).Fits c.tree.plan c.image False := ⟨H, hfits.strict hstage⟩
    have hafter := hstrict.advance himage m fun i q _ hq hinit => by
      rw [Execution.stage_advance hstage hq] at hinit
      cases hinit
    constructor
    · intro q hq
      rw [hq] at hafter
      obtain ⟨H', hfits'⟩ := hafter
      exact hfits'.suited himage (Execution.stage_advance hstage hq)
    · intro kind found st' hend
      rw [hend] at hafter
      exact hafter.2
  · intro v st' hend
    rw [hend] at hrun
    obtain ⟨-, o, ho, hsome, -⟩ := hrun
    rw [hsome]
    exact compile_entry h (compile_addressable h hsource haddr) ho

/-- A run of a program whose entry function gets an array from another one. -/
theorem compile_suited_array :
    ∃ c, compile "" false ("int last(int v[]) \x7b return v[*v - 1]; \x7d " ++
        "int main() \x7b int a[2]; a[1] = 7; return last(a); \x7d").toUTF8.toList = .ok c ∧
      ∃ p, Run.advance c.image 1 (Execution.start c.image (.trial c.image [])) = .active p ∧
        ∀ m q, Run.advance c.image m (.active p) = .active q → q.Suited c.image := by
  obtain ⟨c, hc, haddr, hp⟩ := exists_compilation (q := fun c =>
      (Run.advance c.image 1 (Execution.start c.image (.trial c.image []))).inEntry)
    (show (compile "" false ("int last(int v[]) \x7b return v[*v - 1]; \x7d " ++
      "int main() \x7b int a[2]; a[1] = 7; return last(a); \x7d").toUTF8.toList).toOption.any _
        = true
      by decide +kernel)
  obtain ⟨p, hrun, hstage⟩ := Run.eq_active_of_inEntry hp
  refine ⟨c, hc, p, hrun, fun m q hq => ?_⟩
  exact ((compile_suited hc (by decide +kernel) haddr (Store.atRest_trial _ _) 1).1 p m hrun
    hstage).1 q hq

end

end OnePass
