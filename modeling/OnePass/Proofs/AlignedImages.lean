import OnePass.Proofs.AlignedCode

/-!
# Images of both forms, piece by piece

Main statement: the images of a program in both forms differ at most in the code, and that
corresponds piece by piece (`compile_aligned`).
-/

namespace OnePass

/-- Routines that differ at most in their code, which corresponds piece by piece. -/
structure Routine.Aligned (r r' : Routine) : Prop where
  name : r'.name = r.name
  params : r'.params = r.params
  locals : r'.locals = r.locals
  code : ∃ ps, r.code.Aligned ps r'.code

/-- Images that differ at most in their code, which corresponds piece by piece. -/
structure Image.Aligned (i i' : Image) : Prop where
  fields : i'.fields = i.fields
  entry : i'.entry = i.entry
  initializer : ∃ ps, i.initializer.Aligned ps i'.initializer
  routines : ∀ n : Nat, Option.Rel Routine.Aligned i.routines[n]? i'.routines[n]?

/-! ## States -/

/-- Corresponding lists have corresponding elements in the same places. -/
theorem rel_getElem? {α β : Type} {R : α → β → Prop} {xs : List α} {ys : List β}
    (h : List.Forall₂ R xs ys) (n : Nat) : Option.Rel R xs[n]? ys[n]? := by
  induction h generalizing n with
  | nil => exact .none
  | cons hxy _ ih =>
    cases n with
    | zero => exact .some hxy
    | succ n => exact ih n

namespace Pairing

variable {P : Pairing} {g g' : Generator}

/-- The function that stands in for a missing entry function is the same in both forms. -/
theorem routines_emptyEntry (P : Pairing) : P.Routines emptyEntry emptyEntry :=
  ⟨rfl, rfl, rfl, rfl, _, _, P.emit P.empty (.same .ret),
    by simp [emptyEntry, Draft.toCode, Draft.empty, Draft.emit],
    by simp [emptyEntry, Draft.toCode, Draft.empty, Draft.emit]⟩

/-- The images of corresponding states agree in all that is not code. -/
theorem Paired.toImage (h : P.Paired g g') :
    g'.toImage.fields = g.toImage.fields ∧ g'.toImage.entry = g.toImage.entry ∧
      List.Forall₂ P.Routines g.toImage.routines.toList g'.toImage.routines.toList := by
  unfold Generator.toImage
  rw [h.functions, h.fields, h.size_routines]
  split
  · exact ⟨rfl, rfl, h.routines⟩
  · refine ⟨rfl, rfl, ?_⟩
    rw [Array.toList_push, Array.toList_push]
    exact List.rel_append h.routines (.cons P.routines_emptyEntry .nil)

/-- Routines correspond piece by piece where the longer one can be numbered. -/
theorem Routines.aligned {r r' : Routine} (h : aligned.Routines r r')
    (haddr : r'.code.Addressable) : r.Aligned r' := by
  obtain ⟨d, d', ⟨ps, hps⟩, hcode, hcode'⟩ := h.code
  rw [hcode'] at haddr
  refine ⟨h.name, h.params, h.locals, ps, ?_⟩
  rw [hcode, hcode']
  exact hps.toCode haddr.instructions

/-- **The images of corresponding states correspond piece by piece**, if 32 bits are enough for the
legacy form, which is the longer one. -/
theorem Paired.image_aligned (h : aligned.Paired g g') (haddr : g'.toImage.Addressable) :
    g.toImage.Aligned g'.toImage := by
  obtain ⟨hfields, hentry, hroutines⟩ := h.toImage
  refine ⟨hfields, hentry, ?_, fun n => ?_⟩
  · obtain ⟨ps, hps⟩ := h.initializer
    have hinitializer := haddr.initializer
    rw [Generator.initializer_toImage] at hinitializer ⊢
    rw [Generator.initializer_toImage]
    exact ⟨ps, hps.toCode hinitializer.instructions⟩
  · have hrel := rel_getElem? hroutines n
    rw [Array.getElem?_toList, Array.getElem?_toList] at hrel
    rcases hr : g.toImage.routines[n]? with _ | r <;>
      rcases hr' : g'.toImage.routines[n]? with _ | r' <;> rw [hr, hr'] at hrel
    · exact .none
    · cases hrel
    · cases hrel
    · obtain hrr' : aligned.Routines r r' := by
        cases hrel
        assumption
      exact .some (hrr'.aligned (haddr.routines r' (Array.mem_of_getElem? hr')))

end Pairing

/-! ## Whole sources -/

/-- **The images of a program in both forms correspond piece by piece**, if the index and the right
side of every compound subtraction and division are without effect. -/
theorem compile_aligned {name : String} {source : List UInt8} {c c' : Compilation}
    (h : compile name false source = .ok c) (h' : compile name true source = .ok c')
    (haddr : c'.image.Addressable)
    (hcalm : ∀ x ∈ c.tree.compounds, (∀ i ∈ x.1, i.calm) ∧ x.2.calm) :
    c.image.Aligned c'.image := by
  have htree : c'.tree = c.tree := by
    have halike := compile_alike name source
    rw [h, h'] at halike
    exact halike
  obtain ⟨g, hplain, himage⟩ := compile_ok h
  obtain ⟨g', hlegacy, himage'⟩ := compile_ok h'
  rw [htree] at hlegacy
  have halike := generate_alike (P := .aligned) c.tree.constructs fun x hx =>
    Pairing.aligned_allows (hcalm x hx).1 (hcalm x hx).2
  rw [hplain, hlegacy] at halike
  have hpaired : Pairing.aligned.Paired g g' := halike
  rw [himage'] at haddr ⊢
  rw [himage]
  -- the last function and the initializer are finished in both
  have hend := Gen.paired_finishFunction hpaired
  exact Pairing.Paired.image_aligned
    { hend with initializer := Pairing.aligned.emit hend.initializer (.same .ret) } haddr

end OnePass
