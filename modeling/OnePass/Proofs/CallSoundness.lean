import OnePass.Proofs.Soundness

/-!
# Calls stay as sketched

Main statement: calls that are as sketched are so after each step, and when the outermost of
them ends, it ends as its outline says (`Calls.Fits.step`).

A frame that waits for another one stands behind its call, and is as sketched there but for the
value that it waits for. So the frames are linked by what their streams return.
-/

namespace OnePass

/-- A frame is in one of the streams of an image. -/
inductive Frame.Runs (P : Plan) (image : Image) (f : Frame) (r : Role) : Prop where
  /-- it is the stream that runs first -/
  | initializer : f.code = image.initializer → r = ⟨.initializer P.arrays, ∅⟩ → Runs P image f r
  /-- it is the stream of a routine -/
  | routine {n : Nat} {o : Outline} {rt : Routine} : P.routines[n]? = some o →
      image.routines[n]? = some rt → f.name = rt.name →
      f.code = rt.code → r = ⟨o, P.exposed⟩ → Runs P image f r

/-- A frame stands before an instruction of its stream, and is as sketched there once `awaited`
is on its stack. -/
structure Frame.Stands (P : Plan) (image : Image) (H : Heap) (loose : Prop) (st : Store)
    (awaited : List Cell) (r : Role) (f : Frame) : Prop where
  runs : f.Runs P image r
  lax : r.lax ⊆ P.exposed
  sketched : ∃ S L s l a, f.code.TypedBy P r.outline S L ∧ f.position < f.code.instructions.size ∧
    Sketch.Meets ⟨awaited ++ s, l, a⟩ (S f.position) ∧ f.Fits H loose st r ⟨s, l, a⟩

/-- Frames that wait for one in the role `r`, each for the one before it, down to one in the
role `bottom`. -/
inductive Waiting (P : Plan) (image : Image) (H : Heap) (loose : Prop) (st : Store)
    (bottom : Role) : Role → List Frame → Prop where
  | nil : Waiting P image H loose st bottom bottom []
  | cons {r r' f fs} : f.Stands P image H loose st r.outline.result r' →
      Waiting P image H loose st bottom r' fs → Waiting P image H loose st bottom r (f :: fs)

/-- Calls are as sketched. -/
structure Calls.Fits (P : Plan) (image : Image) (H : Heap) (loose : Prop) (bottom : Role)
    (c : Calls) : Prop where
  store : c.store.Fits P H
  frames : ∃ r, c.top.Stands P image H loose c.store [] r ∧
    Waiting P image H loose c.store bottom r c.callers

/-- What calls that are as sketched come to in a step. -/
inductive Calls.Goes (P : Plan) (image : Image) (H : Heap) (loose : Prop) (bottom : Role)
    (c : Calls) : Progress → Prop where
  | active {H' c'} : c'.Fits P image H' loose bottom → Store.Evolves H c.store H' c'.store →
      Goes P image H loose bottom c (.active c')
  | returned {v : Option Value} :
      List.Forall₂ (Value.Fits H loose) v.toList bottom.outline.result →
      (∀ i ∈ bottom.outline.after, c.store.Ready i ∨ i ∈ bottom.lax) →
      Goes P image H loose bottom c (.done (.ok v) c.store)
  | failed {e st} : e.Allowed loose → st.Fits P H → Store.Evolves H c.store H st →
      Goes P image H loose bottom c (.done (.error e) st)

/-- The next instruction loads the field `k`, which is for an array. -/
def Calls.LoadsArray (fields : List Slot) (c : Calls) (k : Nat) : Prop :=
  ∃ i slot, c.top.code.instructions[c.top.position]? = some (.loadField i) ∧ i.toNat = k ∧
    fields[k]? = some slot ∧ slot.array

/-- If the next instruction loads an exposed field of an array, that field is ready. -/
def Calls.LoadsReady (P : Plan) (c : Calls) : Prop :=
  ∀ k ∈ P.exposed, c.LoadsArray P.fields k → c.store.Ready k

section

variable {P : Plan} {image : Image} {H H' : Heap} {loose : Prop} {st st' : Store}
  {bottom r : Role} {f f' : Frame} {fs : List Frame} {awaited : List Cell}

theorem Frame.Runs.congr (h : f.Runs P image r) (hn : f'.name = f.name) (hc : f'.code = f.code) :
    f'.Runs P image r := by
  cases h with
  | initializer h hr => exact .initializer (hc.trans h) hr
  | routine ho hrt hname hcode hr => exact .routine ho hrt (hn.trans hname) (hc.trans hcode) hr

theorem Frame.Stands.evolve (h : f.Stands P image H loose st awaited r)
    (he : Store.Evolves H st H' st') : f.Stands P image H' loose st' awaited r := by
  obtain ⟨S, L, s, l, a, ht, hp, hm, hf⟩ := h.sketched
  exact ⟨h.runs, h.lax, S, L, s, l, a, ht, hp, hm, hf.evolve he⟩

theorem Waiting.evolve (h : Waiting P image H loose st bottom r fs)
    (he : Store.Evolves H st H' st') : Waiting P image H' loose st' bottom r fs := by
  induction h with
  | nil => exact .nil
  | cons hf _ ih => exact .cons (hf.evolve he) ih

/-- A stream returns at most one value. -/
theorem Outline.toList_head?_of_result (o : Outline) {R : Value → Cell → Prop} {vs : List Value}
    (h : List.Forall₂ R vs o.result) : vs.head?.toList = vs := by
  unfold Outline.result at h
  cases hr : o.returns with
  | none =>
    rw [hr] at h
    cases h
    rfl
  | some t =>
    rw [hr] at h
    obtain ⟨v, rest, -, hrest, rfl⟩ := List.forall₂_cons_right_iff.mp h
    cases hrest
    rfl

/-- What was awaited is there. -/
theorem Frame.Stands.receive (h : f.Stands P image H loose st awaited r) {vs : List Value}
    (hvs : List.Forall₂ (Value.Fits H loose) vs awaited) :
    ({ f with stack := vs ++ f.stack } : Frame).Stands P image H loose st [] r := by
  obtain ⟨S, L, s, l, a, ht, hp, hm, hf⟩ := h.sketched
  exact ⟨h.runs.congr rfl rfl, h.lax, S, L, awaited ++ s, l, a, ht, hp, hm,
    hf.withStack (List.rel_append hvs hf.stack)⟩

/-- A call of a routine begins as its outline says, if the fields that it takes to be ready are
ready or exposed. -/
theorem Routine.stands (hlinked : image.Linked P) {n : Nat} {o : Outline} {rt : Routine}
    (ho : P.routines[n]? = some o) (hrt : image.routines[n]? = some rt) {args : List Value}
    (hf : (Frame.enter rt.name rt.code args rt.locals).Fits H loose st ⟨o, P.exposed⟩ o.start) :
    (Frame.enter rt.name rt.code args rt.locals).Stands P image H loose st [] ⟨o, P.exposed⟩ := by
  obtain ⟨S, L, ht⟩ := (hlinked.routines n o rt ho hrt).code
  exact ⟨.routine ho hrt rfl rfl rfl, subset_rfl, S, L, [], ∅, o.before, ht, ht.nonempty,
    ht.start, hf⟩

/-- A frame stands before an instruction. What is known behind that is enough for the next one,
and for each label what is known on the way there. -/
theorem Frame.Stands.comes (h : f.Stands P image H loose st [] r) (hst : st.Fits P H)
    (hlinked : image.Linked P) (hload : loose ∨ ∀ k slot,
      f.code.instructions[f.position]? = some (.loadField k) → P.fields[k.toNat]? = some slot →
      k.toNat ∈ P.exposed → slot.array → st.Ready k.toNat) :
    ∃ S L next, f.code.TypedBy P r.outline S L ∧
      (∀ τ : Sketch, next = some τ →
        f.position + 1 < f.code.instructions.size ∧ τ.Meets (S (f.position + 1))) ∧
      Comes P image L H loose r ((⟨f, st⟩ : Context).withPosition (f.position + 1)) next
        ((Exec.next image).run.run ⟨f, st⟩) := by
  obtain ⟨S, L, s, l, a, ht, hp, hm, hf⟩ := h.sketched
  have hi := Array.getElem?_eq_getElem hp
  obtain ⟨next, htakes, hnext⟩ := ht.takes _ _ hi
  refine ⟨S, L, next, ht, hnext, ?_⟩
  rw [Exec.run_next hi]
  have hfits : (((⟨f, st⟩ : Context).withPosition (f.position + 1)).withStack
    f.stack).Fits P H loose
      r (S f.position) := ⟨hst, (hf.weaken hm).withPosition _⟩
  refine htakes.comes hfits hlinked h.lax (fun n τ hn => (ht.labels n τ hn).imp fun _ h => h.1) ?_
  exact hload.imp_right fun h k slot hk => h k slot (hk ▸ hi)

/-- What leaves a frame in its stream leaves it standing before an instruction. -/
theorem Frame.Stands.moved (h : f.Stands P image H loose st [] r) {S : Nat → Sketch}
    {L : List Sketch} (ht : f.code.TypedBy P r.outline S L) {p : Nat} {s : List Cell}
    {l a : Set Nat}
    {q : Nat} (hmove : Frame.Moves { f with position := q } p f')
    (hp : p < f.code.instructions.size)
    (hm : Sketch.Meets ⟨awaited ++ s, l, a⟩ (S p)) (hf : f'.Fits H' loose st' r ⟨s, l, a⟩) :
    f'.Stands P image H' loose st' awaited r :=
  ⟨h.runs.congr hmove.name hmove.code, h.lax, S, L, s, l, a, hmove.code ▸ ht,
    by rw [hmove.code, hmove.position]; exact hp, hmove.position ▸ hm, hf⟩

namespace Calls

variable {c : Calls}

/-- Returning to a caller that waits, or from the outermost call. -/
theorem Goes.leave {v : Option Value} (hst : c.store.Fits P H)
    (hv : List.Forall₂ (Value.Fits H loose) v.toList r.outline.result)
    (hafter : ∀ i ∈ r.outline.after, c.store.Ready i ∨ i ∈ r.lax)
    (hw : Waiting P image H loose c.store bottom r c.callers) :
    Goes P image H loose bottom c (c.leave v) := by
  unfold Calls.leave
  rcases hcallers : c.callers with - | ⟨caller, callers⟩ <;> rw [hcallers] at hw
  · cases hw
    exact .returned hv hafter
  · cases hw with
    | cons hcaller hw => exact .active ⟨hst, _, hcaller.receive hv, hw⟩ (.refl _ _)

/-- **Calls stay as sketched.** -/
theorem Fits.step (hc : c.Fits P image H loose bottom) (hlinked : image.Linked P)
    (hload : loose ∨ c.LoadsReady P) (below : Nat) :
    Goes P image H loose bottom c (c.step image below) := by
  obtain ⟨top, callers, store⟩ := c
  obtain ⟨hst, r, htop, hw⟩ := hc
  -- What comes next is sketched, and the instruction does what the sketch allows.
  obtain ⟨S, L, next, ht, hnext, hcomes⟩ := htop.comes hst hlinked
    (hload.imp_right fun h k slot hi hslot hk ha => h _ hk ⟨k, slot, hi, rfl, hslot, ha⟩)
  unfold Calls.step
  dsimp only
  generalize (Exec.next image).run.run ⟨top, store⟩ = out at hcomes
  cases hcomes with
  | onward hn hc' he hmove =>
    obtain ⟨hp, hm⟩ := hnext _ hn
    exact .active ⟨hc'.store, r, htop.moved ht hmove hp hm hc'.frame, hw.evolve he⟩ he
  | @branch n p τ c' hn hp hc' hs hmove =>
    obtain ⟨p', hp', hlt, hm⟩ := ht.labels _ _ hn
    obtain rfl : p' = p := Option.some.inj (hp'.symm.trans hp)
    have he : Store.Evolves H store H c'.store := hs ▸ .refl _ _
    exact .active ⟨hc'.store, r, htop.moved ht hmove hlt hm hc'.frame, hw.evolve he⟩ he
  -- The frame of the caller waits for what its plan says the routine returns.
  | @call n o rt s l a args c' ho hrt hn hc' hs hmove hcallee =>
    obtain ⟨hp, hm⟩ := hnext _ hn
    have he : Store.Evolves H store H c'.store := hs ▸ .refl _ _
    have hcaller : c'.frame.Stands P image H loose c'.store o.result r :=
      htop.moved ht hmove hp hm hc'.frame
    dsimp only
    split_ifs
    · exact .failed trivial hc'.store he
    · refine .active ⟨hc'.store, ⟨o, P.exposed⟩, ?_, .cons hcaller (hw.evolve he)⟩ he
      exact Routine.stands hlinked ho hrt (hs ▸ hcallee)
  -- A frame that returns has nothing but the result on its stack.
  | ret hv hafter =>
    have hlast : top.stack.head?.toList = top.stack := r.outline.toList_head?_of_result hv
    exact Goes.leave (c := ⟨_, callers, store⟩) hst (hlast.symm ▸ hv) hafter hw
  | fail hallowed hst' he => exact .failed hallowed hst' he

end Calls

end

end OnePass
