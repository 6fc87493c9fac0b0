import OnePass.Proofs.InstructionNeeds

/-!
# Runs stay as sketched

A run is first about the initializer and then about the entry routine. While the initializer
runs, fields may be used before they are ready; whether that counts is up to `loose`. When it has
come to its end all fields are ready, so in the entry routine nothing is loose.

Main statement: a run of a typed image stays as sketched up to its end (`Run.Fits.advance`).
-/

namespace OnePass

/-- A run in progress is as sketched. -/
def Execution.Fits (P : Plan) (image : Image) (H : Heap) (loose : Prop) (p : Execution) : Prop :=
  match p.stage with
  | .initializer => p.toCalls.Fits P image H loose ⟨.initializer P.arrays, ∅⟩
  | .entry => ∃ o, P.routines[image.entry.toNat]? = some o ∧
      p.toCalls.Fits (P.withExposed ∅) image H False ⟨o, ∅⟩

/-- A run is as sketched, or has ended as the outline of the entry routine says, or has failed for
a reason that typed code can have. -/
def Run.Fits (P : Plan) (image : Image) (loose : Prop) : Run → Prop
  | .active p => ∃ H, p.Fits P image H loose
  | .done (.ok v) st => (∃ H, st.Fits P H) ∧
      ∃ o, P.routines[image.entry.toNat]? = some o ∧ v.isSome = o.returns.isSome ∧
        ∀ w ∈ v, ∀ t ∈ o.returns, t.Valid w
  | .done (.error e) st => (∃ H, st.Fits P H) ∧ e.Allowed loose

section

variable {P : Plan} {image : Image} {H : Heap} {loose : Prop} {st : Store} {p : Execution} {r : Run}

theorem MachineError.Allowed.mono {loose loose' : Prop} {e : MachineError} (h : e.Allowed loose)
    (hl : loose → loose') : e.Allowed loose' := by
  cases e with
  | expected => exact hl h
  | stackUnderflow | badReference | missingReturn => exact h.elim
  | _ => trivial

theorem Store.Fits.withExposed (h : st.Fits P H) (X : Set Nat) : st.Fits (P.withExposed X) H :=
  ⟨h.size, h.fields, h.arrays, h.words⟩

theorem Store.Fits.of_withExposed {X : Set Nat} (h : st.Fits (P.withExposed X) H) : st.Fits P H :=
  ⟨h.size, h.fields, h.arrays, h.words⟩

/-- The store of a fresh machine is as every plan of its image says. -/
theorem Store.new_fits (himage : image.Typed P) (input : List UInt8) (limit : Option Nat)
    (random : Random) (caseless : Caseless) :
    (Store.new image input limit random caseless).Fits P [] := by
  refine ⟨?_, fun i s v _ hv => ?_, rfl, fun ref t a ht => by simp at ht⟩
  · rw [himage.fields]
    exact Array.size_replicate
  · have hv' : (Array.replicate image.fields.length Value.zero)[i]? = some v := hv
    rw [Array.getElem?_replicate] at hv'
    split at hv'
    · exact Option.some.inj hv' ▸ Value.zero_fits [] s
    · cases hv'

namespace Execution

/-- The arguments of an entry routine are as its parameters say. The induction is on the
parameters, with any arguments before them. -/
theorem entryArguments_fits (params : List Slot) {args : List Value} {cells : List Cell}
    (hst : st.Fits P H) (hargs : List.Forall₂ (Value.Fits H False) args cells) :
    ∃ H' args' arrays', params.foldl
        (fun (args, arrays) s =>
          if s.array then (args ++ [.array arrays.size], arrays.push #[])
          else (args ++ [.zero], arrays)) (args, st.arrays) = (args', arrays') ∧
      ({ st with arrays := arrays' } : Store).Fits P H' ∧
      Store.Evolves H st H' { st with arrays := arrays' } ∧
      List.Forall₂ (Value.Fits H' False) args' (cells ++ params.map .ofSlot) := by
  induction params generalizing st H args cells with
  | nil => exact ⟨H, args, st.arrays, rfl, hst, .refl _ _, by rwa [List.map_nil, List.append_nil]⟩
  | cons s params ih =>
    rw [List.foldl_cons, List.map_cons, List.append_cons]
    dsimp only
    split
    · rename_i ha
      have hnew := hst.newArray 0 s.type
      have hcell : (Value.array st.arrays.size).Fits (H ++ [s.type]) False (.ofSlot s) := by
        rw [Cell.ofSlot, if_pos ha, hst.arrays]
        exact .inl ⟨_, rfl, List.getElem?_concat_length⟩
      obtain ⟨H', args', arrays', hfold, hst', he, hargs'⟩ := ih hnew.1
        (List.rel_append (Value.Fits.mono_stack hargs hnew.2.heap) (.cons hcell .nil))
      exact ⟨H', args', arrays', hfold, hst', hnew.2.trans he, hargs'⟩
    · rename_i ha
      have hcell : Value.zero.Fits H False (.ofSlot s) := by
        rw [Cell.ofSlot, if_neg ha]
        exact Value.fits_word s.type.valid_zero
      exact ih hst (List.rel_append hargs (.cons hcell .nil))

/-- The entry routine begins as its outline says once all fields are ready. -/
theorem enter_fits (himage : image.Typed P) (hst : st.Fits P H)
    (hready : ∀ i ∈ P.arrays, st.Ready i) : (enter image st).Fits P image loose := by
  have hlinked := himage.linked ∅
  have hlt : image.entry.toNat < P.routines.length := himage.size ▸ himage.entry
  obtain ⟨o, ho⟩ : ∃ o, P.routines[image.entry.toNat]? = some o := ⟨_, List.getElem?_eq_getElem hlt⟩
  obtain ⟨rt, hrt⟩ : ∃ rt, image.routines[image.entry.toNat]? = some rt :=
    ⟨_, Array.getElem?_eq_getElem himage.entry⟩
  have htyped := hlinked.routines _ _ _ ho hrt
  obtain ⟨H', args', arrays', hfold, hst', he, hargs⟩ :=
    entryArguments_fits rt.params hst .nil
  rw [List.nil_append, ← htyped.args] at hargs
  unfold enter Image.entryRoutine?
  rw [hrt]
  dsimp only
  unfold entryArguments
  rw [hfold]
  refine ⟨H', _, ho, hst'.withExposed ∅, ⟨_, ∅⟩, ?_, .nil⟩
  refine Routine.stands hlinked ho hrt (OnePass.enter_fits htyped hargs fun i hi => .inl ?_)
  exact he.ready i (hready i (himage.before o (List.mem_of_getElem? ho) hi))

/-- A run begins as sketched. -/
theorem start_fits (himage : image.Typed P) (hst : st.Fits P H) :
    (start image st).Fits P image loose := by
  obtain ⟨S, L, ht⟩ := himage.initializer
  unfold start Image.entryRoutine?
  rw [Array.getElem?_eq_getElem himage.entry]
  refine ⟨H, hst, ⟨.initializer P.arrays, ∅⟩, ?_, .nil⟩
  refine ⟨.initializer rfl rfl, Set.empty_subset _, S, L, [], ∅, ∅, ht, ht.nonempty, ht.start, ?_⟩
  exact ⟨fun i s hs => by simp [Outline.initializer] at hs,
    fun i s hs => by simp [Outline.initializer] at hs, fun i hi => hi.elim, fun i hi => hi.elim,
    .nil, rfl, rfl⟩

/-- What an entry routine returns is a word or nothing, as its outline says. -/
theorem finish_fits {o : Outline} {v : Option Value}
    (hv : List.Forall₂ (Value.Fits H False) v.toList o.result) :
    ∃ w, finish v = .ok w ∧ w.isSome = o.returns.isSome ∧ ∀ x ∈ w, ∀ t ∈ o.returns, t.Valid x := by
  unfold Outline.result at hv
  cases v with
  | none =>
    cases hr : o.returns with
    | none => exact ⟨none, rfl, rfl, by simp⟩
    | some t => rw [hr] at hv; cases hv
  | some v =>
    cases hr : o.returns with
    | none => rw [hr] at hv; cases hv
    | some t =>
      rw [hr] at hv
      obtain ⟨w, rfl, hw⟩ := (List.forall₂_cons.mp hv).1
      exact ⟨some w, rfl, rfl, by simpa using hw⟩

/-- **A run stays as sketched.** -/
theorem Fits.step (hp : p.Fits P image H loose) (himage : image.Typed P)
    (hload : p.stage = .initializer → loose ∨ p.LoadsReady P) :
    (p.step image).Fits P image loose := by
  obtain ⟨c, stage⟩ := p
  unfold Execution.step
  cases stage with
  | initializer =>
    have hgoes := Calls.Fits.step hp (himage.linked P.exposed) (hload rfl) 0
    dsimp only
    generalize c.step image 0 = next at hgoes
    cases hgoes with
    | active hc => exact ⟨_, hc⟩
    | returned _ hafter =>
      exact enter_fits himage hp.store fun i hi => (hafter i hi).resolve_right id
    | failed he hst => exact ⟨⟨H, hst⟩, he⟩
  | entry =>
    obtain ⟨o, ho, hc⟩ := hp
    have hready : c.LoadsReady (P.withExposed ∅) := fun _ hk => hk.elim
    have hgoes := hc.step (himage.linked ∅) (.inr hready) 0
    dsimp only
    generalize c.step image 0 = next at hgoes
    cases hgoes with
    | active hc => exact ⟨_, o, ho, hc⟩
    | returned hv _ =>
      obtain ⟨w, hw, hreturns⟩ := finish_fits hv
      dsimp only [proceed]
      rw [hw]
      exact ⟨⟨H, hc.store.of_withExposed⟩, o, ho, hreturns⟩
    | failed he hst => exact ⟨⟨H, hst.of_withExposed⟩, he.mono False.elim⟩

end Execution

/-- **Runs stay as sketched up to their end.** -/
theorem Run.Fits.advance (hr : r.Fits P image loose) (himage : image.Typed P) (n : Nat)
    (hload : ∀ m p, m < n → Run.advance image m r = .active p → p.stage = .initializer →
      loose ∨ p.LoadsReady P) : (Run.advance image n r).Fits P image loose := by
  induction n generalizing r with
  | zero => exact hr
  | succ n ih =>
    cases r with
    | done result st => exact hr
    | active p =>
      obtain ⟨H, hp⟩ := hr
      refine ih (hp.step himage (hload 0 p n.succ_pos rfl)) fun m q hm hq => ?_
      exact hload (m + 1) q (Nat.succ_lt_succ hm) hq

end

end OnePass
