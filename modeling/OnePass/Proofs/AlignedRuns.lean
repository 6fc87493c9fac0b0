import OnePass.Proofs.AlignedInstructions

/-!
# Runs of both forms side by side

A run of the one image goes from piece to piece while a run of the other one goes from piece to
corresponding piece. Within a piece of more than one instruction nothing happens that can be seen:
the store stays as it is, and the run fails in both forms or goes on in both.

Main statement: the two forms of a program cannot be told apart by running them, if the index and
the right side of every compound subtraction and division are without calls and random numbers
(`compile_forms`).
-/

namespace OnePass

/-! ## Pieces in finished streams -/

section

variable {before after : List Piece} {x : Piece} {c c' : Code}

theorem joint_next (before : List Piece) (x : Piece) (after : List Piece) :
    Joint (before ++ x :: after) ((before.flatMap Piece.plain).length + x.plain.length)
      ((before.flatMap Piece.legacy).length + x.legacy.length) :=
  ⟨before ++ [x], after, by simp, by simp, by simp⟩

/-- A piece stands behind those before it. -/
theorem Code.Aligned.has (h : c.Aligned (before ++ x :: after) c') :
    c.Has (before.flatMap Piece.plain).length x.plain ∧
      c'.Has (before.flatMap Piece.legacy).length x.legacy := by
  unfold Code.Has
  rw [h.plain, h.legacy, List.flatMap_append, List.flatMap_append, List.drop_left, List.drop_left,
    List.flatMap_cons, List.flatMap_cons]
  exact ⟨List.prefix_append _ _, List.prefix_append _ _⟩

/-- Behind the last piece there is nothing. -/
theorem Code.Aligned.none (h : c.Aligned before c') :
    c.instructions[(before.flatMap Piece.plain).length]? = none ∧
      c'.instructions[(before.flatMap Piece.legacy).length]? = none := by
  rw [← Array.getElem?_toList, ← Array.getElem?_toList, h.plain, h.legacy]
  exact ⟨List.getElem?_eq_none le_rfl, List.getElem?_eq_none le_rfl⟩

end

/-! ## Calls -/

/-- Calls in progress in both forms. -/
structure Calls.Aligned (c c' : Calls) : Prop where
  top : c.top.Aligned c'.top
  callers : List.Forall₂ Frame.Aligned c.callers c'.callers
  store : c'.store = c.store

/-- What calls come to in both forms. -/
inductive Progress.Aligned : Progress → Progress → Prop where
  | active {c c' : Calls} : c.Aligned c' → Aligned (.active c) (.active c')
  | done (result : Except MachineError (Option Value)) (st : Store) :
    Aligned (.done result st) (.done result st)

namespace Calls

variable {image image' : Image} {below : Nat} {c c' : Calls}

theorem Aligned.leave (h : c.Aligned c') (v : Option Value) :
    (c.leave v).Aligned (c'.leave v) := by
  obtain ⟨top, callers, st⟩ := c
  obtain ⟨top', callers', st'⟩ := c'
  obtain ⟨-, hcallers, rfl⟩ := h
  cases hcallers with
  | nil => exact .done _ _
  | cons hf hfs => exact .active ⟨{ hf with stack := congrArg (v.toList ++ ·) hf.stack }, hfs, rfl⟩

/-- Behind the last instruction there is nothing to do. -/
theorem step_none (h : c.top.code.instructions[c.top.position]? = none) :
    c.step image below = .done (.error (.missingReturn c.top.name)) c.store := by
  have hnext : (Exec.next image).run.run ⟨c.top, c.store⟩ = _ := Exec.run_next_eq
  rw [h] at hnext
  rw [step, hnext]
  rfl

/-- **Where the same instruction is next, calls go on alike.** -/
theorem Aligned.step (himage : image.Aligned image') (h : c.Aligned c') {i : Instruction}
    (hi : c.top.code.instructions[c.top.position]? = some i)
    (hi' : c'.top.code.instructions[c'.top.position]? = some i)
    (hnext : (⟨{ c.top with position := c.top.position + 1 }, c.store⟩ : Context).Aligned
      ⟨{ c'.top with position := c'.top.position + 1 }, c'.store⟩) :
    (c.step image below).Aligned (c'.step image' below) := by
  obtain ⟨top, callers, st⟩ := c
  obtain ⟨top', callers', st'⟩ := c'
  have hcomes := Exec.pairs_instruction himage i _ _ hnext
  have hdepth : below + callers'.length + 1 = below + callers.length + 1 := by
    rw [h.callers.length_eq]
  -- Either run takes the same instruction, so what it comes to corresponds.
  unfold Calls.step
  dsimp only
  rw [show (Exec.next image).run.run ⟨top, st⟩ = _ from Exec.run_next hi,
    show (Exec.next image').run.run ⟨top', st'⟩ = _ from Exec.run_next hi']
  unfold Exec.outcome Context.withPosition
  dsimp only
  generalize (Exec.instruction image i).run.run _ = x, (Exec.instruction image' i).run.run _ = x'
    at hcomes
  cases hcomes with
  | @error e d d' hst =>
    obtain ⟨f, s⟩ := d
    obtain ⟨f', s'⟩ := d'
    obtain rfl : s' = s := hst
    exact .done _ _
  | @ok t t' d d' ht hd =>
    obtain ⟨f, s⟩ := d
    obtain ⟨f', s'⟩ := d'
    obtain ⟨hframe, hst⟩ := hd
    obtain rfl : s' = s := hst
    have hafter : (⟨f, callers, s'⟩ : Calls).Aligned ⟨f', callers', s'⟩ := ⟨hframe, h.callers, rfl⟩
    cases ht with
    | onward => exact .active hafter
    | ret v => exact hafter.leave v
    | call hcallee =>
      -- Whether there is a frame left is a matter of depth, which is the same.
      dsimp only
      rw [hdepth]
      split
      · exact .done _ _
      · exact .active ⟨hcallee, .cons hframe h.callers, rfl⟩

end Calls

/-! ## Runs -/

/-- What can be seen of a run: the store, and the result if the run has ended. -/
def Run.view : Run → Store × Option Result
  | .active p => (p.store, none)
  | .done result st => (st, some result)

/-- While `n` instructions are carried out, nothing is seen but what is seen before and behind. -/
def Run.Steady (image : Image) (n : Nat) (r : Run) : Prop :=
  ∀ k ≤ n, (advance image k r).view = r.view ∨
    (advance image k r).view = (advance image n r).view

/-- Runs in both forms. -/
inductive Run.Aligned : Run → Run → Prop where
  | active {c c' : Calls} (stage : Stage) :
    c.Aligned c' → Aligned (.active ⟨c, stage⟩) (.active ⟨c', stage⟩)
  | done (result : Result) (st : Store) : Aligned (.done result st) (.done result st)

section

variable {image image' : Image} (himage : image.Aligned image')
include himage

theorem Image.Aligned.entryRoutine :
    Option.Rel Routine.Aligned image.entryRoutine? image'.entryRoutine? := by
  unfold Image.entryRoutine?
  rw [himage.entry]
  exact himage.routines _

theorem Image.Aligned.enter (st : Store) :
    (Execution.enter image st).Aligned (Execution.enter image' st) := by
  have hentry := himage.entryRoutine
  unfold Execution.enter
  rw [himage.entry]
  generalize image.entryRoutine? = r, image'.entryRoutine? = r' at hentry
  cases hentry with
  | none => exact .done _ _
  | some hr =>
    dsimp only
    rw [hr.params]
    exact .active .entry ⟨hr.enter _, .nil, rfl⟩

theorem Image.Aligned.start (st : Store) :
    (Execution.start image st).Aligned (Execution.start image' st) := by
  have hentry := himage.entryRoutine
  obtain ⟨ps, hcode⟩ := himage.initializer
  unfold Execution.start
  rw [himage.entry]
  generalize image.entryRoutine? = r, image'.entryRoutine? = r' at hentry
  cases hentry with
  | none => exact .done _ _
  | some hr =>
    exact .active .initializer
      ⟨⟨rfl, rfl, rfl, rfl, ps, hcode, [], ps, rfl, rfl, rfl⟩, .nil, rfl⟩

/-- When the outermost calls end alike, so does what comes next. -/
theorem Image.Aligned.step {c c' : Calls} (stage : Stage)
    (h : (c.step image 0).Aligned (c'.step image' 0)) :
    (Execution.step image ⟨c, stage⟩).Aligned (Execution.step image' ⟨c', stage⟩) := by
  unfold Execution.step
  dsimp only
  generalize c.step image 0 = x, c'.step image' 0 = x' at h
  cases h with
  | active hc => exact .active stage hc
  | done result st =>
    cases result with
    | error e => exact .done _ _
    | ok v =>
      cases stage with
      | initializer => exact himage.enter st
      | entry => exact .done _ _

end

section

variable {image : Image} {c : Calls} {m : Memory} {name : String} {code : Code}
  {callers : List Frame} {p n : Nat} {s : List Value} {r : Except MachineError (List Value)}

/-- While calls come to something without touching the store, nothing is seen of it. -/
theorem Run.steady_of_idles (stage : Stage)
    (h : c.Idles image 0 n (m.comes name code callers p s r)) :
    Steady image n (.active ⟨c, stage⟩) := by
  intro k hk
  have hstore := h.store k hk
  cases hc : Calls.advance image 0 k (.active c) with
  | active d =>
    rw [hc] at hstore
    rw [advance_active stage hc]
    exact .inl (congrArg (·, none) hstore)
  | done result st =>
    obtain ⟨j, rfl⟩ := Nat.exists_eq_add_of_le hk
    have hend := h.comes
    rw [Calls.advance_add, hc, Calls.advance_done] at hend
    cases r with
    | ok vs => cases hend
    | error e =>
      obtain ⟨rfl, -⟩ := Progress.done.inj hend
      rw [advance_add, advance_failed stage hc, advance_done]
      exact .inr rfl

end

/-! ## From piece to piece -/

namespace Run

variable {image image' : Image} {r r' : Run}

theorem steady_one (image : Image) (r : Run) : r.Steady image 1 := by
  intro k hk
  obtain rfl | rfl : k = 0 ∨ k = 1 := by omega
  · exact .inl rfl
  · exact .inr rfl

/-- **Runs get from piece to corresponding piece**, and nothing is seen in between. -/
theorem Aligned.advance (himage : image.Aligned image') (h : r.Aligned r') :
    ∃ n n', 0 < n ∧ 0 < n' ∧ (advance image n r).Aligned (advance image' n' r') ∧
      r.Steady image n ∧ r'.Steady image' n' := by
  cases h with
  | done result st =>
    exact ⟨1, 1, Nat.one_pos, Nat.one_pos, .done result st, steady_one _ _, steady_one _ _⟩
  | @active c c' stage hc =>
    -- At most boundaries both runs take one step, and so the steps between are none.
    have hone (h : (c.step image 0).Aligned (c'.step image' 0)) :
        ∃ n n', 0 < n ∧ 0 < n' ∧ (Run.advance image n (.active ⟨c, stage⟩)).Aligned
          (Run.advance image' n' (.active ⟨c', stage⟩)) ∧
          (Run.active ⟨c, stage⟩).Steady image n ∧ (Run.active ⟨c', stage⟩).Steady image' n' :=
      ⟨1, 1, Nat.one_pos, Nat.one_pos, himage.step stage h, steady_one _ _, steady_one _ _⟩
    obtain ⟨⟨name, code, p, args, locals, s⟩, callers, st⟩ := c
    obtain ⟨⟨name', code', p', args', locals', s'⟩, callers', st'⟩ := c'
    obtain ⟨htop, hcallers, hst⟩ := hc
    obtain ⟨hname, hargs, hlocals, hs, ps, hcode, before, after, hps, hp, hp'⟩ := htop
    dsimp only at hname hargs hlocals hs hcode hp hp' hcallers hst
    subst hname hargs hlocals hs hps hp hp' hst
    -- What comes next is the end of the code, an instruction that both have, or a piece in two
    -- forms.
    rcases after with - | ⟨x, after⟩
    · rw [List.append_nil] at hcode
      refine hone ?_
      rw [Calls.step_none hcode.none.1, Calls.step_none hcode.none.2]
      exact .done _ _
    · have hhas := hcode.has
      have hnext := joint_next before x after
      cases x with
      | one i =>
        refine hone (Calls.Aligned.step himage ⟨?_, hcallers, rfl⟩ hhas.1.head hhas.2.head
          ⟨?_, rfl⟩)
        · exact ⟨rfl, rfl, rfl, rfl, _, hcode, before, _, rfl, rfl, rfl⟩
        · exact ⟨rfl, rfl, rfl, rfl, _, hcode, hnext⟩
      | block is js hsame =>
        obtain ⟨result, hplain, hlegacy⟩ := hsame.turns name' ⟨args', locals', st'⟩
        have hidles := hplain image 0 code callers _ s' hhas.1
        have hidles' := hlegacy image' 0 code' callers' _ s' hhas.2
        -- The two forms of a piece take different numbers of steps, but come to the same.
        have hend : (Run.advance image is.length (.active ⟨Memory.stand ⟨args', locals',
          st'⟩ name' code
            callers (before.flatMap Piece.plain).length ([] ++ s'), stage⟩)).Aligned
            (Run.advance image' js.length (.active ⟨Memory.stand ⟨args', locals', st'⟩ name' code'
              callers' (before.flatMap Piece.legacy).length ([] ++ s'), stage⟩)) := by
          cases result with
          | ok vs =>
            rw [advance_active stage hidles.comes, advance_active stage hidles'.comes]
            exact .active stage ⟨⟨rfl, rfl, rfl, rfl, _, hcode, hnext⟩, hcallers, rfl⟩
          | error e =>
            rw [advance_failed stage hidles.comes, advance_failed stage hidles'.comes]
            exact .done _ _
        exact ⟨is.length, js.length, hsame.nonempty, hsame.nonempty.trans_le hsame.length, hend,
          steady_of_idles stage hidles, steady_of_idles stage hidles'⟩

/-! ## What is seen -/

theorem Aligned.view_eq (h : r.Aligned r') : r'.view = r.view := by
  cases h with
  | active stage hc => exact congrArg (·, none) hc.store
  | done result st => rfl

end Run

section

variable {image image' : Image} {R : Run → Run → Prop}

/-- Where runs of two images show the same again and again, and nothing else in between, the second
one shows all that the first one does. -/
theorem Run.exists_view (hview : ∀ r r', R r r' → r'.view = r.view)
    (hadvance : ∀ r r', R r r' → ∃ n n', 0 < n ∧
      R (Run.advance image n r) (Run.advance image' n' r') ∧
        r.Steady image n) (n : Nat) {r r' : Run} (h : R r r') :
    ∃ n', (Run.advance image' n' r').view = (Run.advance image n r).view := by
  induction n using Nat.strongRecOn generalizing r r' with
  | ind n ih =>
    obtain ⟨k, k', hk, hnext, hsteady⟩ := hadvance r r' h
    rcases Nat.le_total n k with hn | hn
    · rcases hsteady n hn with hsame | hsame
      · exact ⟨0, (hview r r' h).trans hsame.symm⟩
      · exact ⟨k', (hview _ _ hnext).trans hsame.symm⟩
    · obtain ⟨j, rfl⟩ := Nat.exists_eq_add_of_le hn
      obtain ⟨j', hj⟩ := ih j (Nat.lt_add_of_pos_left hk) hnext
      exact ⟨k' + j', by rw [Run.advance_add, Run.advance_add, hj]⟩

/-- **What is seen of a run in the one form is seen of it in the other one.** -/
theorem Image.Aligned.shows (himage : image.Aligned image') (st : Store) :
    (∀ n, ∃ n', (Run.advance image' n' (Execution.start image' st)).view =
      (Run.advance image n (Execution.start image st)).view) ∧
    ∀ n', ∃ n, (Run.advance image n (Execution.start image st)).view =
      (Run.advance image' n' (Execution.start image' st)).view := by
  refine ⟨fun n => Run.exists_view (R := Run.Aligned) (fun _ _ h => h.view_eq) (fun r r' h => ?_) n
    (himage.start st), fun n' => Run.exists_view (R := fun r' r => r.Aligned r')
    (fun _ _ h => h.view_eq.symm) (fun r' r h => ?_) n' (himage.start st)⟩
  · obtain ⟨n, n', hn, -, hnext, hsteady, -⟩ := h.advance himage
    exact ⟨n, n', hn, hnext, hsteady⟩
  · obtain ⟨n, n', -, hn', hnext, -, hsteady'⟩ := h.advance himage
    exact ⟨n', n, hn', hnext, hsteady'⟩

end

/-! ## One run after another -/

/-- Runs one after another, the first one from a store and each of the others from what the one
before it has left: what each of them ends with, and what it leaves. -/
inductive Runs (image : Image) : Store → List (Result × Store) → Prop where
  | none (st : Store) : Runs image st []
  | run {st st' : Store} {result : Result} {rest : List (Result × Store)} {n : Nat} :
    Run.advance image n (Execution.start image st) = .done result st' → Runs image st' rest →
      Runs image st ((result, st') :: rest)

/-- Two images that cannot be told apart by running them. -/
structure Image.Indistinct (i i' : Image) : Prop where
  /-- machines begin with the same store -/
  new : ∀ input limit random caseless,
    Store.new i' input limit random caseless = Store.new i input limit random caseless
  /-- any number of runs end with the same results, output, remaining input and fields -/
  runs : ∀ st outcomes, Runs i st outcomes ↔ Runs i' st outcomes
  /-- what is seen of a run at any time, be it to end or not, is seen of the other one as well -/
  shows : ∀ st n, ∃ n', (Run.advance i' n' (Execution.start i' st)).view =
    (Run.advance i n (Execution.start i st)).view
  /-- and conversely -/
  shown : ∀ st n', ∃ n, (Run.advance i n (Execution.start i st)).view =
    (Run.advance i' n' (Execution.start i' st)).view

theorem Run.eq_done_of_view {r : Run} {result : Result} {st : Store}
    (h : r.view = (st, some result)) : r = .done result st := by
  cases r with
  | active p => cases h
  | done result' st' =>
    cases h
    rfl

/-- Runs end alike where runs of the second image show what those of the first one do. -/
theorem Runs.of_shows {i i' : Image}
    (h : ∀ st n, ∃ n', (Run.advance i' n' (Execution.start i' st)).view =
      (Run.advance i n (Execution.start i st)).view)
    {st : Store} {outcomes : List (Result × Store)} (hruns : Runs i st outcomes) :
    Runs i' st outcomes := by
  induction hruns with
  | none st => exact .none st
  | @run st st' result rest n hend _ ih =>
    obtain ⟨n', hn'⟩ := h st n
    rw [hend] at hn'
    exact .run (Run.eq_done_of_view hn') ih

theorem Image.Aligned.indistinct {i i' : Image} (h : i.Aligned i') : i.Indistinct i' where
  new input limit random caseless := by rw [Store.new, Store.new, h.fields]
  runs _ _ := ⟨.of_shows fun st => (h.shows st).1, .of_shows fun st => (h.shows st).2⟩
  shows st := (h.shows st).1
  shown st := (h.shows st).2

/-! ## Programs in both forms -/

/-- The index and the right side of every compound subtraction and division of a program are without
calls and random numbers. -/
def Program.calm (p : Program) : Bool :=
  p.compounds.all fun (index, value) => index.all Expr.calm && value.calm

/-- **The two forms of compound assignment agree without side effects.** A source is accepted in
both forms or refused with the same report in both. The images of an accepted program cannot be told
apart by running them, if the index and the right side of every compound subtraction and division
are without calls and random numbers, and 32 bits are enough for the labels and positions of the
legacy form, which is the longer one. -/
theorem compile_forms (name : String) (source : List UInt8) :
    Alike (fun c c' => c'.tree = c.tree ∧
        (c'.image.Addressable → c.tree.calm → c.image.Indistinct c'.image))
      (compile name false source) (compile name true source) := by
  have halike := compile_alike name source
  rcases h : compile name false source with r | c <;>
    rcases h' : compile name true source with r' | c' <;> rw [h, h'] at halike
  · exact halike
  · exact halike.elim
  · exact halike.elim
  · refine ⟨halike, fun haddr hcalm => (compile_aligned h h' haddr fun x hx => ?_).indistinct⟩
    have hx := List.all_eq_true.mp hcalm x hx
    rw [Bool.and_eq_true, Option.all_eq_true] at hx
    exact hx

/-- A program that is longer in the legacy form. What it returns is known from a run of that. -/
theorem compile_forms_element :
    ∃ c c', compile "" false ("int a[3] : 9; int main() \x7b int i : 1; a[i + 1] -= a[i] - 4; " ++
        "a[2] /= i + 1; return a[2]; \x7d").toUTF8.toList = .ok c ∧
      compile "" true ("int a[3] : 9; int main() \x7b int i : 1; a[i + 1] -= a[i] - 4; " ++
        "a[2] /= i + 1; return a[2]; \x7d").toUTF8.toList = .ok c' ∧
      c.image.routines ≠ c'.image.routines ∧
      ∃ n st, Run.advance c.image n (Execution.start c.image (.trial c.image [])) =
        .done (.ok (some 2)) st := by
  obtain ⟨c, hc, -, hq⟩ := exists_compilation (q := fun c => c.tree.calm &&
      c.image.routines.map (fun r => r.code.instructions.size) = #[36])
    (show (compile "" false ("int a[3] : 9; int main() \x7b int i : 1; a[i + 1] -= a[i] - 4; " ++
      "a[2] /= i + 1; return a[2]; \x7d").toUTF8.toList).toOption.any _ = true by decide +kernel)
  obtain ⟨c', hc', haddr', hq'⟩ := exists_compilation (q := fun c' =>
      decide (c'.image.routines.map (fun r => r.code.instructions.size) = #[44]) &&
        (Run.advance c'.image 200 (Execution.start c'.image (.trial c'.image []))).endsIn
          (.ok (some 2)))
    (show (compile "" true ("int a[3] : 9; int main() \x7b int i : 1; a[i + 1] -= a[i] - 4; " ++
      "a[2] /= i + 1; return a[2]; \x7d").toUTF8.toList).toOption.any _ = true by decide +kernel)
  rw [Bool.and_eq_true, decide_eq_true_eq] at hq hq'
  obtain ⟨hcalm, hsize⟩ := hq
  obtain ⟨hsize', hend⟩ := hq'
  have hforms := compile_forms ""
    ("int a[3] : 9; int main() \x7b int i : 1; a[i + 1] -= a[i] - 4; " ++
      "a[2] /= i + 1; return a[2]; \x7d").toUTF8.toList
  rw [hc, hc'] at hforms
  have hsame : c.image.Indistinct c'.image := hforms.2 haddr' hcalm
  refine ⟨c, c', hc, hc', fun hroutines => ?_, ?_⟩
  · rw [hroutines, hsize'] at hsize
    cases hsize
  · obtain ⟨st, hdone⟩ := Run.eq_done_of_endsIn hend
    obtain ⟨n, hn⟩ := hsame.shown (.trial c'.image []) 200
    rw [hdone, show Store.trial c'.image [] = .trial c.image [] from hsame.new _ _ _ _] at hn
    exact ⟨n, st, Run.eq_done_of_view hn⟩

end OnePass
