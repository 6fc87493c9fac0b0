import Mathlib.Data.List.Forall2
import OnePass.Proofs.Sketch
import OnePass.Proofs.InstructionEffect

/-!
# States that are as sketched

What it means for values, stores and frames to be as a plan and a sketch say. The types of the
words in the arrays made so far are a ghost: a `Heap`, which only grows.

An array slot of which it is not known that it is ready may still hold the word 0, and so may
whatever was loaded from it. Where `loose` does not hold this is excluded.
-/

namespace OnePass

/-- The types of the words of the arrays made so far, by reference. -/
abbrev Heap := List WordType

/-! ## Values -/

namespace Value

/-- A reference to an array of words of a type. -/
def IsArray (H : Heap) (t : WordType) (v : Value) : Prop := ∃ ref, v = .array ref ∧ H[ref]? = some t

/-- A value is as a cell says. -/
def Fits (H : Heap) (loose : Prop) (v : Value) : Cell → Prop
  | .word t => ∃ w, v = .word w ∧ t.Valid w
  | .array t => v.IsArray H t ∨ loose ∧ v = .zero
  | .fresh t => v.IsArray H t
  | .str => ∃ s, v = .str s
  | .boxed => ∃ t w, v = .boxed t w

variable {H H' : Heap} {loose loose' : Prop} {v : Value} {c : Cell} {t : WordType}

theorem IsArray.mono (h : v.IsArray H t) (hH : H <+: H') : v.IsArray H' t := by
  obtain ⟨ref, rfl, ht⟩ := h
  obtain ⟨more, rfl⟩ := hH
  exact ⟨ref, rfl, by rw [List.getElem?_append_left (List.getElem?_eq_some_iff.mp ht).1, ht]⟩

theorem Fits.mono (h : v.Fits H loose c) (hH : H <+: H') (hl : loose → loose') :
    v.Fits H' loose' c := by
  cases c with
  | word t => exact h
  | array t => exact h.imp (fun h => h.mono hH) (fun h => ⟨hl h.1, h.2⟩)
  | fresh t => exact IsArray.mono h hH
  | str => exact h
  | boxed => exact h

theorem fits_word {w : Int32} (h : t.Valid w) : (word w).Fits H loose (.word t) := ⟨w, rfl, h⟩

theorem fits_str (s : String) : (str s).Fits H loose .str := ⟨s, rfl⟩

theorem fits_boxed (t : WordType) (w : Int32) : (boxed t w).Fits H loose .boxed := ⟨t, w, rfl⟩

/-- What a fresh slot holds is as the slot says, as long as nothing is known to be ready. -/
theorem zero_fits (H : Heap) (s : Slot) : zero.Fits H True (.ofSlot s) := by
  unfold Cell.ofSlot
  split
  · exact .inr ⟨trivial, rfl⟩
  · exact ⟨0, rfl, s.type.valid_zero⟩

/-- An array in an array slot is one of words of its type. -/
theorem Fits.isArray {s : Slot} {ref : Nat} (h : (Value.array ref).Fits H loose (.ofSlot s)) :
    (Value.array ref).IsArray H s.type ∧ s.array = true := by
  unfold Cell.ofSlot at h
  split at h
  · rename_i ha
    rcases h with h | ⟨-, h⟩
    · exact ⟨h, ha⟩
    · cases h
  · obtain ⟨w, h, -⟩ := h
    cases h

end Value

/-! ## Stores -/

namespace Store

/-- A field holds an array. -/
def Ready (st : Store) (i : Nat) : Prop := ∃ ref, st.fields[i]? = some (.array ref)

/-- A store is as a plan says. -/
structure Fits (P : Plan) (H : Heap) (st : Store) : Prop where
  size : st.fields.size = P.fields.length
  fields : ∀ (i : Nat) (s : Slot) (v : Value), P.fields[i]? = some s → st.fields[i]? = some v →
    v.Fits H True (.ofSlot s)
  arrays : st.arrays.size = H.length
  words : ∀ (ref : Nat) (t : WordType) (a : Array Int32), H[ref]? = some t →
    st.arrays[ref]? = some a → ∀ w ∈ a, t.Valid w

/-- Later on, there may be more arrays, and more fields that are ready. -/
structure Evolves (H : Heap) (st : Store) (H' : Heap) (st' : Store) : Prop where
  heap : H <+: H'
  ready : ∀ i, st.Ready i → st'.Ready i

variable {P : Plan} {H H₁ H' : Heap} {st st₁ st' : Store}

theorem Evolves.refl (H : Heap) (st : Store) : Evolves H st H st :=
  ⟨List.prefix_rfl, fun _ h => h⟩

theorem Evolves.trans (h : Evolves H st H₁ st₁) (h' : Evolves H₁ st₁ H' st') :
    Evolves H st H' st' :=
  ⟨h.heap.trans h'.heap, fun i hi => h'.ready i (h.ready i hi)⟩

/-- There is a field for every slot of the plan. -/
theorem Fits.field (h : st.Fits P H) {i : Nat} {s : Slot} (hs : P.fields[i]? = some s) :
    ∃ v, st.fields[i]? = some v ∧ v.Fits H True (.ofSlot s) := by
  have hlt : i < st.fields.size := h.size ▸ (List.getElem?_eq_some_iff.mp hs).1
  exact ⟨_, Array.getElem?_eq_getElem hlt, h.fields i s _ hs (Array.getElem?_eq_getElem hlt)⟩

/-- What has nothing to do with fields and arrays may change. -/
theorem Fits.congr (h : st.Fits P H) (st' : Store) (hf : st'.fields = st.fields)
    (ha : st'.arrays = st.arrays) :
    st'.Fits P H ∧ Evolves H st H st' := by
  refine ⟨⟨hf ▸ h.size, hf ▸ h.fields, ha ▸ h.arrays, ha ▸ h.words⟩, List.prefix_rfl,
    fun i hi => ?_⟩
  unfold Ready
  rw [hf]
  exact hi

/-- A field gets a value as its slot says. If it was ready, it stays so. -/
theorem Fits.setField (h : st.Fits P H) {i : Nat} {s : Slot} {v : Value}
    (hs : P.fields[i]? = some s) (hv : v.Fits H False (.ofSlot s)) :
    ({ st with fields := st.fields.setIfInBounds i v } : Store).Fits P H ∧
      Evolves H st H { st with fields := st.fields.setIfInBounds i v } := by
  have hlt : i < st.fields.size := h.size ▸ (List.getElem?_eq_some_iff.mp hs).1
  refine ⟨⟨by rw [Array.size_setIfInBounds, h.size], fun j s' w hs' hw => ?_, h.arrays, h.words⟩,
    List.prefix_rfl, fun j hj => ?_⟩
  · rw [Array.getElem?_setIfInBounds] at hw
    split at hw
    · rename_i hij
      subst hij
      obtain rfl : v = w := by simpa [hlt] using hw
      obtain rfl := Option.some.inj (hs.symm.trans hs')
      exact hv.mono List.prefix_rfl fun h => h.elim
    · exact h.fields j s' w hs' hw
  · obtain ⟨ref, href⟩ := hj
    by_cases hij : i = j
    · subst hij
      have ha := (h.fields i s _ hs href).isArray.2
      unfold Cell.ofSlot at hv
      rw [if_pos ha] at hv
      obtain ⟨ref', rfl, -⟩ := hv.resolve_right fun h => h.1
      exact ⟨ref', by rw [Array.getElem?_setIfInBounds, if_pos rfl, if_pos hlt]⟩
    · exact ⟨ref, by rw [Array.getElem?_setIfInBounds, if_neg hij, href]⟩

/-- A new array of zeros is one of words of any type. -/
theorem Fits.newArray (h : st.Fits P H) (n : Nat) (t : WordType) :
    ({ st with arrays := st.arrays.push (Array.replicate n 0) } : Store).Fits P (H ++ [t]) ∧
      Evolves H st (H ++ [t]) { st with arrays := st.arrays.push (Array.replicate n 0) } := by
  refine ⟨⟨h.size, fun i s v hs hv => (h.fields i s v hs hv).mono (List.prefix_append ..) id, ?_,
    fun ref t' a ht ha w hw => ?_⟩, List.prefix_append .., fun i hi => hi⟩
  · rw [Array.size_push, h.arrays, List.length_append]
    rfl
  · rw [Array.getElem?_push, h.arrays] at ha
    split at ha
    · rename_i href
      subst href
      obtain rfl := Option.some.inj ha
      obtain rfl : t = t' := by simpa using ht
      rw [(Array.mem_replicate.mp hw).2]
      exact t.valid_zero
    · have hlt := (Array.getElem?_eq_some_iff.mp ha).1
      rw [List.getElem?_append_left (h.arrays ▸ hlt)] at ht
      exact h.words ref t' a ht ha w hw

/-- An element gets a value of its type. -/
theorem Fits.setElem (h : st.Fits P H) {ref : Nat} {t : WordType} (href : H[ref]? = some t)
    (n : Nat) {w : Int32} (hw : t.Valid w) :
    ({ st with arrays := st.arrays.modify ref fun a => a.setIfInBounds n w } : Store).Fits P H ∧
      Evolves H st H { st with arrays := st.arrays.modify ref fun a => a.setIfInBounds n w } := by
  refine ⟨⟨h.size, h.fields, by rw [Array.size_modify, h.arrays], fun ref' t' a ht ha x hx => ?_⟩,
    List.prefix_rfl, fun i hi => hi⟩
  rw [Array.getElem?_modify] at ha
  split at ha
  · rename_i heq
    subst heq
    obtain ⟨b, hb, rfl⟩ := Option.map_eq_some_iff.mp ha
    obtain rfl := Option.some.inj (href.symm.trans ht)
    rcases Array.mem_or_eq_of_mem_setIfInBounds hx with hx | rfl
    · exact h.words ref t b href hb x hx
    · exact hw
  · exact h.words ref' t' a ht ha x hx

/-- The words of an array are of its type. -/
theorem Fits.elem (h : st.Fits P H) {ref n : Nat} {t : WordType} (href : H[ref]? = some t) :
    t.Valid ((st.arrays.getD ref #[]).getD n 0) := by
  have hlt : ref < st.arrays.size := h.arrays ▸ (List.getElem?_eq_some_iff.mp href).1
  rw [Array.getD_eq_getD_getElem?, Array.getD_eq_getD_getElem?, Array.getElem?_eq_getElem hlt,
    Option.getD_some]
  cases hn : st.arrays[ref][n]? with
  | none => exact t.valid_zero
  | some w =>
    exact h.words ref t _ href (Array.getElem?_eq_getElem hlt) w (Array.mem_of_getElem? hn)

end Store

/-! ## Frames -/

/-- What is known of a frame from outside: the outline of its stream, and the fields of arrays
that it takes to be ready although they may not be. -/
structure Role where
  /-- its stream -/
  outline : Outline
  /-- the fields that may not be ready -/
  lax : Set Nat

/-- A frame is as a sketch says. -/
structure Frame.Fits (H : Heap) (loose : Prop) (st : Store) (r : Role) (f : Frame) (σ : Sketch) :
    Prop where
  args : ∀ (i : Nat) (s : Slot), r.outline.args[i]? = some s →
    ∃ v, f.args[i]? = some v ∧ v.Fits H loose (.ofSlot s)
  locals : ∀ (i : Nat) (s : Slot), r.outline.locals[i]? = some s →
    ∃ v, f.locals[i]? = some v ∧ v.Fits H True (.ofSlot s)
  ready : ∀ i ∈ σ.locals, ∃ ref, f.locals[i]? = some (.array ref)
  fields : ∀ i ∈ σ.fields, st.Ready i ∨ i ∈ r.lax
  stack : List.Forall₂ (Value.Fits H loose) f.stack σ.stack
  sizes : f.args.size = r.outline.args.length ∧ f.locals.size = r.outline.locals.length

theorem Value.Fits.mono_stack {H H' : Heap} {loose : Prop} {vs : List Value} {cs : List Cell}
    (h : List.Forall₂ (Value.Fits H loose) vs cs) (hH : H <+: H') :
    List.Forall₂ (Value.Fits H' loose) vs cs :=
  h.imp fun _ _ h => h.mono hH id

namespace Frame.Fits

variable {P : Plan} {H H' : Heap} {loose : Prop} {st st' : Store} {r : Role} {f : Frame}
  {σ τ : Sketch}

theorem weaken (h : f.Fits H loose st r σ) (hm : σ.Meets τ) : f.Fits H loose st r τ :=
  ⟨h.args, h.locals, fun i hi => h.ready i (hm.locals hi), fun i hi => h.fields i (hm.fields hi),
    hm.stack ▸ h.stack, h.sizes⟩

/-- A frame that waits is as before when more arrays and more fields are ready. -/
theorem evolve (h : f.Fits H loose st r σ) (he : Store.Evolves H st H' st') :
    f.Fits H' loose st' r σ := by
  refine ⟨fun i s hs => ?_, fun i s hs => ?_, h.ready,
    fun i hi => (h.fields i hi).imp_left (he.ready i), Value.Fits.mono_stack h.stack he.heap,
    h.sizes⟩
  · obtain ⟨v, hv, hfits⟩ := h.args i s hs
    exact ⟨v, hv, hfits.mono he.heap id⟩
  · obtain ⟨v, hv, hfits⟩ := h.locals i s hs
    exact ⟨v, hv, hfits.mono he.heap id⟩

/-- A frame with other values on its stack. -/
theorem withStack {s s' : List Cell} {l a : Set Nat} (h : f.Fits H loose st r ⟨s, l, a⟩)
    {vs : List Value} (hs : List.Forall₂ (Value.Fits H loose) vs s') :
    ({ f with stack := vs } : Frame).Fits H loose st r ⟨s', l, a⟩ :=
  ⟨h.args, h.locals, h.ready, h.fields, hs, h.sizes⟩

theorem withPosition (h : f.Fits H loose st r σ) (p : Nat) :
    ({ f with position := p } : Frame).Fits H loose st r σ :=
  ⟨h.args, h.locals, h.ready, h.fields, h.stack, h.sizes⟩

end Frame.Fits

/-- Slots with another value in one of them, which is as that slot says. -/
theorem slots_set {H : Heap} {loose : Prop} {slots : List Slot} {vs : Array Value} {i : Nat}
    {s : Slot} {v : Value} (h : ∀ (i : Nat) (s : Slot), slots[i]? = some s →
      ∃ v, vs[i]? = some v ∧ v.Fits H loose (.ofSlot s))
    (hs : slots[i]? = some s) (hv : v.Fits H loose (.ofSlot s)) (j : Nat) (s' : Slot)
    (hs' : slots[j]? = some s') :
    ∃ w, (vs.setIfInBounds i v)[j]? = some w ∧ w.Fits H loose (.ofSlot s') := by
  obtain ⟨w, hw, hfits⟩ := h j s' hs'
  by_cases hij : i = j
  · subst hij
    obtain rfl := Option.some.inj (hs.symm.trans hs')
    have hlt : i < vs.size := (Array.getElem?_eq_some_iff.mp hw).1
    exact ⟨v, by simp [hlt], hv⟩
  · exact ⟨w, by rw [Array.getElem?_setIfInBounds, if_neg hij, hw], hfits⟩

/-! ## Contexts -/

/-- A frame and the store are as a plan and a sketch say. -/
structure Context.Fits (P : Plan) (H : Heap) (loose : Prop) (r : Role) (c : Context) (σ : Sketch) :
    Prop where
  store : c.store.Fits P H
  frame : c.frame.Fits H loose c.store r σ

/-- Only the values of a frame have changed, and where it goes on. -/
structure Frame.Moves (f : Frame) (p : Nat) (f' : Frame) : Prop where
  name : f'.name = f.name
  code : f'.code = f.code
  position : f'.position = p

end OnePass
