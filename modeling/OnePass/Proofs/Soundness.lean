import OnePass.Proofs.TypedState

/-!
# Typed instructions do what their types say

Main statement: an instruction that takes the sketch of a frame leaves the frame as the next
sketch says, or goes to a label whose sketch is met, or calls a routine that is as its outline
says, or returns what it is to return; or it fails, but not for want of values, slots, labels or
routines (`Takes.comes`). That a value is of another kind than needed is excluded only where
nothing is `loose`.
-/

namespace OnePass

/-- A failure that typed code can end in. -/
def MachineError.Allowed (loose : Prop) : MachineError → Prop
  | .stackUnderflow _ => False
  | .badReference _ _ => False
  | .missingReturn _ => False
  | .expected _ _ => loose
  | _ => True

/-- What an instruction may come to that is at `c` and has `next` as the sketch behind it. -/
inductive Comes (P : Plan) (image : Image) (L : List Sketch) (H : Heap) (loose : Prop) (r : Role)
    (c : Context) (next : Option Sketch) : Except MachineError Transfer × Context → Prop where
  | onward {τ H' c'} : next = some τ → c'.Fits P H' loose r τ →
      Store.Evolves H c.store H' c'.store → c.frame.Moves c.frame.position c'.frame →
      Comes P image L H loose r c next (.ok .onward, c')
  | branch {n p : Nat} {τ c'} :
      L[n]? = some τ → (c.frame.code.labels[n]?).map UInt32.toNat = some p →
      c'.Fits P H loose r τ → c'.store = c.store → c.frame.Moves p c'.frame →
      Comes P image L H loose r c next (.ok .onward, c')
  | call {n : Nat} {o rt s l f args c'} : P.routines[n]? = some o → image.routines[n]? = some rt →
      next = some ⟨o.result ++ s, l, f⟩ → c'.Fits P H loose r ⟨s, l, f⟩ → c'.store = c.store →
      c.frame.Moves c.frame.position c'.frame →
      (Frame.enter rt.name rt.code args rt.locals).Fits H loose c.store ⟨o, P.exposed⟩ o.start →
      Comes P image L H loose r c next (.ok (.call (.enter rt.name rt.code args rt.locals)), c')
  | ret : List.Forall₂ (Value.Fits H loose) c.frame.stack r.outline.result →
      (∀ i ∈ r.outline.after, c.store.Ready i ∨ i ∈ r.lax) →
      Comes P image L H loose r c next (.ok (.ret c.frame.stack.head?), c)
  | fail {e c'} : e.Allowed loose → c'.store.Fits P H → Store.Evolves H c.store H c'.store →
      Comes P image L H loose r c next (.error e, c')

section

variable {P : Plan} {image : Image} {L : List Sketch} {H : Heap} {loose : Prop} {r : Role}
  {c : Context} {vs : List Value} {next : Option Sketch} {s : List Cell} {l a : Set Nat}

namespace Context.Fits

/-- A context fits with any stack that fits. -/
theorem withStack {vs' : List Value} {s' : List Cell}
    (h : (c.withStack vs).Fits P H loose r ⟨s, l, a⟩)
    (hs : List.Forall₂ (Value.Fits H loose) vs' s') :
    (c.withStack vs').Fits P H loose r ⟨s', l, a⟩ := ⟨h.store, h.frame.withStack hs⟩

end Context.Fits

/-- The stack changes, and nothing else. -/
theorem Comes.stack {vs' : List Value} {s' : List Cell}
    (h : (c.withStack vs).Fits P H loose r ⟨s, l, a⟩)
    (hs : List.Forall₂ (Value.Fits H loose) vs' s') (hn : next = some ⟨s', l, a⟩) :
    Comes P image L H loose r (c.withStack vs) next (.ok .onward, c.withStack vs') :=
  .onward hn (h.withStack hs) (.refl _ _) ⟨rfl, rfl, rfl⟩

/-- A failure that changes only the stack. -/
theorem Comes.failure {vs' : List Value} {σ : Sketch} {e : MachineError}
    (h : (c.withStack vs).Fits P H loose r σ) (he : e.Allowed loose) :
    Comes P image L H loose r (c.withStack vs) next (.error e, c.withStack vs') :=
  .fail he h.store (.refl _ _)

/-! ## Slots -/

/-- Where an array slot holds an array, nothing is loose. -/
theorem Value.Fits.strict {v : Value} {slot : Slot} {loose : Prop}
    (h : v.Fits H True (.ofSlot slot))
    (ha : slot.array → ∃ ref, v = .array ref) : v.Fits H loose (.ofSlot slot) := by
  unfold Cell.ofSlot at h ⊢
  split at h
  · rename_i harray
    obtain ⟨ref, rfl⟩ := ha harray
    rw [if_pos harray]
    rcases h with h | ⟨-, h⟩
    · exact .inl h
    · cases h
  · rename_i harray
    rw [if_neg harray]
    exact h

/-- A local slot gets a value as it says. A slot that was ready stays so. -/
theorem Context.Fits.setLocal {i : UInt32} {slot : Slot} {v : Value} {l' : Set Nat}
    (hi : r.outline.locals[i.toNat]? = some slot)
    (hc : (c.withStack (v :: vs)).Fits P H loose r ⟨.ofSlot slot :: s, l, a⟩)
    (hv : v.Fits H False (.ofSlot slot)) (hl : ∀ j ∈ l', j ∈ l ∨ j = i.toNat ∧ slot.array) :
    i.toNat < c.frame.locals.size ∧
      ((c.withLocals (c.frame.locals.setIfInBounds i.toNat v)).withStack vs).Fits P H loose r
        ⟨s, l', a⟩ := by
  obtain ⟨old, hold, hfits⟩ := hc.frame.locals _ _ hi
  have hlt : i.toNat < c.frame.locals.size := (Array.getElem?_eq_some_iff.mp hold).1
  have harray (ha : slot.array) : ∃ ref, v = .array ref := by
    rw [Cell.ofSlot, if_pos ha] at hv
    obtain ⟨ref, rfl, -⟩ := hv.resolve_right fun h => h.1
    exact ⟨ref, rfl⟩
  refine ⟨hlt, hc.store, hc.frame.args, ?_, fun j hj => ?_, hc.frame.fields, ?_,
    hc.frame.sizes.1, (Array.size_setIfInBounds ..).trans hc.frame.sizes.2⟩
  · exact slots_set hc.frame.locals hi (hv.mono List.prefix_rfl fun h => h.elim)
  · show ∃ ref, (c.frame.locals.setIfInBounds i.toNat v)[j]? = some (.array ref)
    by_cases hij : i.toNat = j
    · subst hij
      have ha : slot.array := by
        rcases hl _ hj with hj | hj
        · obtain ⟨ref, href⟩ := hc.frame.ready _ hj
          obtain rfl := Option.some.inj (hold.symm.trans href)
          exact hfits.isArray.2
        · exact hj.2
      obtain ⟨ref, rfl⟩ := harray ha
      exact ⟨ref, by simp [hlt]⟩
    · obtain ⟨ref, href⟩ := hc.frame.ready j ((hl j hj).resolve_right fun h => hij h.1.symm)
      exact ⟨ref, by rw [Array.getElem?_setIfInBounds, if_neg hij]; exact href⟩
  · exact (List.forall₂_cons.mp hc.frame.stack).2

/-- A field gets a value as its slot says. -/
theorem Context.Fits.setField {i : UInt32} {slot : Slot} {v : Value} {a' : Set Nat}
    (hi : P.fields[i.toNat]? = some slot)
    (hc : (c.withStack (v :: vs)).Fits P H loose r ⟨.ofSlot slot :: s, l, a⟩)
    (hv : v.Fits H False (.ofSlot slot)) (ha : ∀ j ∈ a', j ∈ a ∨ j = i.toNat ∧ slot.array) :
    i.toNat < c.store.fields.size ∧
      ((c.withStore { c.store with
        fields := c.store.fields.setIfInBounds i.toNat v }).withStack vs).Fits P H loose r
          ⟨s, l, a'⟩ ∧
      Store.Evolves H c.store H { c.store with
        fields := c.store.fields.setIfInBounds i.toNat v } := by
  have hst := hc.store.setField hi hv
  have hlt : i.toNat < c.store.fields.size := by
    rw [show c.store.fields.size = _ from hc.store.size]
    exact (List.getElem?_eq_some_iff.mp hi).1
  refine ⟨hlt, ⟨hst.1, ?_⟩, hst.2⟩
  have hframe := hc.frame.evolve hst.2
  refine ⟨hframe.args, hframe.locals, hframe.ready, fun j hj => ?_,
    (List.forall₂_cons.mp hframe.stack).2, hframe.sizes⟩
  rcases ha j hj with hj | ⟨rfl, harray⟩
  · exact hframe.fields j hj
  · rw [Cell.ofSlot, if_pos harray] at hv
    obtain ⟨ref, rfl, -⟩ := hv.resolve_right fun h => h.1
    exact .inl ⟨ref, by simp [Context.withStack, Context.withStore, hlt]⟩

/-- A word on top is stored to a local variable of its type. -/
theorem comes_storeLocal {i : UInt32} {t : WordType}
    (hi : r.outline.locals[i.toNat]? = some (.scalar t))
    (hc : (c.withStack vs).Fits P H loose r ⟨.word t :: s, l, a⟩) :
    Comes P image L H loose r (c.withStack vs) (some ⟨s, l, a⟩)
      (Exec.outcome image (.storeLocal i) (c.withStack vs)) := by
  obtain ⟨v, rest, hv, -, rfl⟩ := List.forall₂_cons_right_iff.mp hc.frame.stack
  obtain ⟨hlt, hfits⟩ := hc.setLocal hi hv fun _ hj => .inl hj
  rw [Exec.outcome_storeLocal hlt]
  exact .onward rfl hfits (.refl _ _) ⟨rfl, rfl, rfl⟩

/-- A new array is stored to a local variable, which is ready from then on. -/
theorem comes_setLocal {i : UInt32} {t : WordType}
    (hi : r.outline.locals[i.toNat]? = some (.ofArray t))
    (hc : (c.withStack vs).Fits P H loose r ⟨.fresh t :: s, l, a⟩) :
    Comes P image L H loose r (c.withStack vs) (some ⟨s, insert i.toNat l, a⟩)
      (Exec.outcome image (.storeLocal i) (c.withStack vs)) := by
  obtain ⟨v, rest, hv, hs, rfl⟩ := List.forall₂_cons_right_iff.mp hc.frame.stack
  have hc' : (c.withStack (v :: rest)).Fits P H loose r ⟨.ofSlot (.ofArray t) :: s, l, a⟩ :=
    hc.withStack (.cons (.inl hv) hs)
  have hinsert : ∀ j ∈ insert i.toNat l, j ∈ l ∨ j = i.toNat ∧ (Slot.ofArray t).array :=
    fun j hj => hj.elim (fun h => .inr ⟨h, rfl⟩) .inl
  obtain ⟨hlt, hfits⟩ := hc'.setLocal hi (.inl hv) hinsert
  rw [Exec.outcome_storeLocal hlt]
  exact .onward rfl hfits (.refl _ _) ⟨rfl, rfl, rfl⟩

/-- A word on top is stored to an argument of its type. -/
theorem comes_storeArg {i : UInt32} {t : WordType}
    (hi : r.outline.args[i.toNat]? = some (.scalar t))
    (hc : (c.withStack vs).Fits P H loose r ⟨.word t :: s, l, a⟩) :
    Comes P image L H loose r (c.withStack vs) (some ⟨s, l, a⟩)
      (Exec.outcome image (.storeArg i) (c.withStack vs)) := by
  obtain ⟨v, rest, hv, hs, rfl⟩ := List.forall₂_cons_right_iff.mp hc.frame.stack
  obtain ⟨old, hold, -⟩ := hc.frame.args _ _ hi
  have hlt : i.toNat < c.frame.args.size := (Array.getElem?_eq_some_iff.mp hold).1
  rw [Exec.outcome_storeArg hlt]
  refine .onward rfl ⟨hc.store, ?_, hc.frame.locals, hc.frame.ready, hc.frame.fields, hs,
    (Array.size_setIfInBounds ..).trans hc.frame.sizes.1, hc.frame.sizes.2⟩ (.refl _ _)
    ⟨rfl, rfl, rfl⟩
  exact slots_set hc.frame.args hi hv

/-- A word on top is stored to a field of its type. -/
theorem comes_storeField {i : UInt32} {t : WordType} (hi : P.fields[i.toNat]? = some (.scalar t))
    (hc : (c.withStack vs).Fits P H loose r ⟨.word t :: s, l, a⟩) :
    Comes P image L H loose r (c.withStack vs) (some ⟨s, l, a⟩)
      (Exec.outcome image (.storeField i) (c.withStack vs)) := by
  obtain ⟨v, rest, hv, -, rfl⟩ := List.forall₂_cons_right_iff.mp hc.frame.stack
  obtain ⟨hlt, hfits, he⟩ := hc.setField hi hv fun _ hj => .inl hj
  rw [Exec.outcome_storeField hlt]
  exact .onward rfl hfits he ⟨rfl, rfl, rfl⟩

/-- A new array is stored to a field, which is ready from then on. -/
theorem comes_setField {i : UInt32} {t : WordType} (hi : P.fields[i.toNat]? = some (.ofArray t))
    (hc : (c.withStack vs).Fits P H loose r ⟨.fresh t :: s, l, a⟩) :
    Comes P image L H loose r (c.withStack vs) (some ⟨s, l, insert i.toNat a⟩)
      (Exec.outcome image (.storeField i) (c.withStack vs)) := by
  obtain ⟨v, rest, hv, hs, rfl⟩ := List.forall₂_cons_right_iff.mp hc.frame.stack
  have hc' : (c.withStack (v :: rest)).Fits P H loose r ⟨.ofSlot (.ofArray t) :: s, l, a⟩ :=
    hc.withStack (.cons (.inl hv) hs)
  have hinsert : ∀ j ∈ insert i.toNat a, j ∈ a ∨ j = i.toNat ∧ (Slot.ofArray t).array :=
    fun j hj => hj.elim (fun h => .inr ⟨h, rfl⟩) .inl
  obtain ⟨hlt, hfits, he⟩ := hc'.setField hi (.inl hv) hinsert
  rw [Exec.outcome_storeField hlt]
  exact .onward rfl hfits he ⟨rfl, rfl, rfl⟩

/-- A local variable is loaded, if it is a word or ready. -/
theorem comes_loadLocal {i : UInt32} {slot : Slot} (hi : r.outline.locals[i.toNat]? = some slot)
    (hl : slot.array → i.toNat ∈ l) (hc : (c.withStack vs).Fits P H loose r ⟨s, l, a⟩) :
    Comes P image L H loose r (c.withStack vs) (some ⟨.ofSlot slot :: s, l, a⟩)
      (Exec.outcome image (.loadLocal i) (c.withStack vs)) := by
  obtain ⟨v, hv, hfits⟩ := hc.frame.locals _ _ hi
  have hstrict : v.Fits H loose (.ofSlot slot) := by
    refine hfits.strict fun ha => ?_
    obtain ⟨ref, href⟩ := hc.frame.ready _ (hl ha)
    exact ⟨ref, Option.some.inj (hv.symm.trans href)⟩
  rw [Exec.outcome_loadLocal (c := c) hv]
  exact .stack hc (.cons hstrict hc.frame.stack) rfl

/-- An argument is always ready. -/
theorem comes_loadArg {i : UInt32} {slot : Slot} (hi : r.outline.args[i.toNat]? = some slot)
    (hc : (c.withStack vs).Fits P H loose r ⟨s, l, a⟩) :
    Comes P image L H loose r (c.withStack vs) (some ⟨.ofSlot slot :: s, l, a⟩)
      (Exec.outcome image (.loadArg i) (c.withStack vs)) := by
  obtain ⟨v, hv, hfits⟩ := hc.frame.args _ _ hi
  rw [Exec.outcome_loadArg (c := c) hv]
  exact .stack hc (.cons hfits hc.frame.stack) rfl

/-- A field that is loaded is ready, or it is exposed. -/
theorem comes_loadField {i : UInt32} {slot : Slot} (hi : P.fields[i.toNat]? = some slot)
    (ha : slot.array → i.toNat ∈ a ∪ P.exposed) (hlax : r.lax ⊆ P.exposed)
    (hload : loose ∨ (i.toNat ∈ P.exposed → slot.array → c.store.Ready i.toNat))
    (hc : (c.withStack vs).Fits P H loose r ⟨s, l, a⟩) :
    Comes P image L H loose r (c.withStack vs) (some ⟨.ofSlot slot :: s, l, a⟩)
      (Exec.outcome image (.loadField i) (c.withStack vs)) := by
  obtain ⟨v, hv, hfits⟩ := hc.store.field hi
  have hstrict : v.Fits H loose (.ofSlot slot) := by
    rcases hload with hloose | hready
    · exact hfits.mono List.prefix_rfl fun _ => hloose
    refine hfits.strict fun harray => ?_
    have hr : c.store.Ready i.toNat := by
      rcases ha harray with hi | hi
      · rcases hc.frame.fields _ hi with h | h
        · exact h
        · exact hready (hlax h) harray
      · exact hready hi harray
    obtain ⟨ref, href⟩ := hr
    exact ⟨ref, Option.some.inj (hv.symm.trans href)⟩
  rw [Exec.outcome_loadField (c := c) hv]
  exact .stack hc (.cons hstrict hc.frame.stack) rfl

/-! ## Arrays -/

/-- A new array fits every type, since its words are zero. -/
theorem comes_newArray {n : UInt32} {t : WordType}
    (hc : (c.withStack vs).Fits P H loose r ⟨s, l, a⟩) :
    Comes P image L H loose r (c.withStack vs) (some ⟨.fresh t :: s, l, a⟩)
      (Exec.outcome image (.newArray n) (c.withStack vs)) := by
  have hst := hc.store.newArray n.toNat t
  rw [Exec.outcome_newArray]
  refine .onward rfl ⟨hst.1, (hc.frame.evolve hst.2).withStack (.cons ⟨_, rfl, ?_⟩ ?_)⟩ hst.2
    ⟨rfl, rfl, rfl⟩
  · rw [show c.store.arrays.size = _ from hc.store.arrays]
    exact List.getElem?_concat_length
  · exact Value.Fits.mono_stack hc.frame.stack hst.2.heap

/-- What is taken for an array is one, or it is the word 0 and all is loose. -/
theorem comes_loadElem {t : WordType}
    (hc : (c.withStack vs).Fits P H loose r ⟨.word .int :: .array t :: s, l, a⟩) :
    Comes P image L H loose r (c.withStack vs) (some ⟨.word t :: s, l, a⟩)
      (Exec.outcome image .loadElem (c.withStack vs)) := by
  obtain ⟨_, _, ⟨x, rfl, -⟩, hs₁, rfl⟩ := List.forall₂_cons_right_iff.mp hc.frame.stack
  obtain ⟨v, rest, hv, hs, rfl⟩ := List.forall₂_cons_right_iff.mp hs₁
  obtain ⟨ref, rfl, href⟩ | ⟨hloose, rfl⟩ := hv
  · rw [Exec.outcome_loadElem]
    cases Exec.offset? x (c.store.arrays.getD ref #[]).size with
    | some n => exact .stack hc (.cons (Value.fits_word (hc.store.elem href)) hs) rfl
    | none => exact .failure hc trivial
  · rw [Value.zero, Exec.outcome_loadElem_word]
    exact .failure hc hloose

/-- A word is stored to an element of an array of its type. -/
theorem comes_storeElem {t : WordType}
    (hc : (c.withStack vs).Fits P H loose r ⟨.word t :: .word .int :: .array t :: s, l, a⟩) :
    Comes P image L H loose r (c.withStack vs) (some ⟨s, l, a⟩)
      (Exec.outcome image .storeElem (c.withStack vs)) := by
  obtain ⟨_, _, ⟨w, rfl, hw⟩, hs₁, rfl⟩ := List.forall₂_cons_right_iff.mp hc.frame.stack
  obtain ⟨_, _, ⟨x, rfl, -⟩, hs₂, rfl⟩ := List.forall₂_cons_right_iff.mp hs₁
  obtain ⟨v, rest, hv, hs, rfl⟩ := List.forall₂_cons_right_iff.mp hs₂
  obtain ⟨ref, rfl, href⟩ | ⟨hloose, rfl⟩ := hv
  · rw [Exec.outcome_storeElem]
    cases Exec.offset? x (c.store.arrays.getD ref #[]).size with
    | some n =>
      have hst := hc.store.setElem href n hw
      exact .onward rfl ⟨hst.1, (hc.frame.evolve hst.2).withStack hs⟩ hst.2 ⟨rfl, rfl, rfl⟩
    | none => exact .failure hc trivial
  · rw [Value.zero, Exec.outcome_storeElem_word]
    exact .failure hc hloose

/-- The length of an array is an integer. -/
theorem comes_arrayLen {t : WordType}
    (hc : (c.withStack vs).Fits P H loose r ⟨.array t :: s, l, a⟩) :
    Comes P image L H loose r (c.withStack vs) (some ⟨.word .int :: s, l, a⟩)
      (Exec.outcome image .arrayLen (c.withStack vs)) := by
  obtain ⟨v, rest, hv, hs, rfl⟩ := List.forall₂_cons_right_iff.mp hc.frame.stack
  obtain ⟨ref, rfl, href⟩ | ⟨hloose, rfl⟩ := hv
  · rw [Exec.outcome_arrayLen]
    exact .stack hc (.cons (Value.fits_word (WordType.valid_int _)) hs) rfl
  · rw [Value.zero, Exec.outcome_arrayLen_word]
    exact .failure hc hloose

/-! ## Words -/

/-- An operation on words of the types it is for yields a word of its type, unless it fails. -/
theorem BinaryOp.Types.result {op : BinaryOp} {t u : WordType} {q : Prop} (h : op.Types t u)
    {x y : Int32}
    (hx : t.Valid x) (hy : t.Valid y) :
    match Exec.binary op x y with
    | .ok w => u.Valid w
    | .error e => e.Allowed q := by
  have hdivide (w : Int32) : match (if y = 0 then .error .divideByZero
      else if x = Int32.minValue ∧ y = -1 then .error .overflow else .ok w :
        Except MachineError Int32) with
      | .ok w => WordType.int.Valid w
      | .error e => e.Allowed q := by
    split_ifs <;> trivial
  cases op with
  | add | sub | mul | min | max => obtain ⟨-, rfl⟩ := h; trivial
  | div | rem => obtain ⟨-, rfl⟩ := h; exact hdivide _
  | and | or =>
    obtain ⟨rfl, rfl⟩ := h
    rcases hx with rfl | rfl <;> rcases hy with rfl | rfl <;>
      first
        | exact .inl (by decide)
        | exact .inr (by decide)
  | eq | lt | gt => obtain rfl := h; exact WordType.valid_ofBool _

/-- An operator makes a word of its type. -/
theorem comes_binary {op : BinaryOp} {t u : WordType} (h : op.Types t u)
    (hc : (c.withStack vs).Fits P H loose r ⟨.word t :: .word t :: s, l, a⟩) :
    Comes P image L H loose r (c.withStack vs) (some ⟨.word u :: s, l, a⟩)
      (Exec.outcome image (.binary op) (c.withStack vs)) := by
  obtain ⟨_, _, ⟨y, rfl, hy⟩, hs₁, rfl⟩ := List.forall₂_cons_right_iff.mp hc.frame.stack
  obtain ⟨_, rest, ⟨x, rfl, hx⟩, hs, rfl⟩ := List.forall₂_cons_right_iff.mp hs₁
  have hresult := h.result (q := loose) hx hy
  rw [Exec.outcome_binary]
  cases hb : Exec.binary op x y with
  | ok w =>
    rw [hb] at hresult
    exact .stack hc (.cons (Value.fits_word hresult) hs) rfl
  | error e =>
    rw [hb] at hresult
    exact .failure hc hresult

/-! ## Jumps and calls -/

/-- Control goes to a label whose sketch is met. -/
theorem Comes.jump {vs' : List Value} {σ τ : Sketch} {n p : Nat}
    (hc : (c.withStack vs').Fits P H loose r σ) (hn : L[n]? = some τ) (hm : σ.Meets τ)
    (hp : (c.frame.code.labels[n]?).map UInt32.toNat = some p) :
    Comes P image L H loose r (c.withStack vs) next
      (.ok .onward, (c.withPosition p).withStack vs') :=
  .branch hn hp ⟨hc.store, (hc.frame.weaken hm).withPosition p⟩ rfl ⟨rfl, rfl, rfl⟩

/-- A jump that may be taken meets what is sketched at its label. -/
theorem comes_jumpIfFalse {t : WordType} {τ : Sketch} {n : UInt32} {p : Nat}
    (hn : L[n.toNat]? = some τ) (hm : Sketch.Meets ⟨s, l, a⟩ τ)
    (hp : c.frame.code.target? n = some p)
    (hc : (c.withStack vs).Fits P H loose r ⟨.word t :: s, l, a⟩) :
    Comes P image L H loose r (c.withStack vs) (some ⟨s, l, a⟩)
      (Exec.outcome image (.jumpIfFalse n) (c.withStack vs)) := by
  obtain ⟨_, rest, ⟨w, rfl, -⟩, hrest, rfl⟩ := List.forall₂_cons_right_iff.mp hc.frame.stack
  rw [Exec.outcome_jumpIfFalse hp]
  split
  · exact .jump (hc.withStack hrest) hn hm hp
  · exact .stack hc hrest rfl

/-- A jump that may be taken meets what is sketched at its label. -/
theorem comes_jumpIfTrue {t : WordType} {τ : Sketch} {n : UInt32} {p : Nat}
    (hn : L[n.toNat]? = some τ) (hm : Sketch.Meets ⟨s, l, a⟩ τ)
    (hp : c.frame.code.target? n = some p)
    (hc : (c.withStack vs).Fits P H loose r ⟨.word t :: s, l, a⟩) :
    Comes P image L H loose r (c.withStack vs) (some ⟨s, l, a⟩)
      (Exec.outcome image (.jumpIfTrue n) (c.withStack vs)) := by
  obtain ⟨_, rest, ⟨w, rfl, -⟩, hrest, rfl⟩ := List.forall₂_cons_right_iff.mp hc.frame.stack
  rw [Exec.outcome_jumpIfTrue hp]
  split
  · exact .jump (hc.withStack hrest) hn hm hp
  · exact .stack hc hrest rfl

/-- What is behind a list of cells is behind a list of values as well. -/
theorem forall₂_append_right {α β : Type} {R : α → β → Prop} {xs : List α} {ys zs : List β}
    (h : List.Forall₂ R xs (ys ++ zs)) :
    ∃ xs₁ xs₂, xs = xs₁ ++ xs₂ ∧ List.Forall₂ R xs₁ ys ∧ List.Forall₂ R xs₂ zs :=
  ⟨_, _, (List.take_append_drop ys.length xs).symm, List.forall₂_take_append _ _ _ h,
    List.forall₂_drop_append _ _ _ h⟩

/-- Of lists that correspond, members at the same index do. -/
theorem forall₂_getElem? {α β : Type} {R : α → β → Prop} {xs : List α} {ys : List β}
    (h : List.Forall₂ R xs ys) {i : Nat} {y : β} (hy : ys[i]? = some y) :
    ∃ x, xs[i]? = some x ∧ R x y := by
  induction h generalizing i with
  | nil => cases hy
  | cons hxy _ ih =>
    cases i with
    | zero => exact ⟨_, rfl, Option.some.inj hy ▸ hxy⟩
    | succ i => exact ih hy

/-- A call begins as the outline of its routine says. -/
theorem enter_fits {o : Outline} {rt : Routine} {args : List Value} {lax : Set Nat} {st : Store}
    (hr : rt.Typed P o)
    (hargs : List.Forall₂ (Value.Fits H loose) args (o.args.map .ofSlot))
    (hbefore : ∀ i ∈ o.before, st.Ready i ∨ i ∈ lax) :
    (Frame.enter rt.name rt.code args rt.locals).Fits H loose st ⟨o, lax⟩ o.start := by
  refine ⟨fun i slot hi => ?_, fun i slot hi => ?_, fun i hi => hi.elim, hbefore, .nil, ?_, ?_⟩
  · have hcell : (o.args.map Cell.ofSlot)[i]? = some (.ofSlot slot) := by
      rw [List.getElem?_map, hi]
      rfl
    obtain ⟨v, hv, hfits⟩ := forall₂_getElem? hargs hcell
    exact ⟨v, by simpa [Frame.enter] using hv, hfits⟩
  · have hlt : i < rt.locals.toNat := hr.locals ▸ (List.getElem?_eq_some_iff.mp hi).1
    exact ⟨.zero, by simp [Frame.enter, hlt], Value.zero_fits H slot⟩
  · simpa [Frame.enter] using hargs.length_eq
  · simpa [Frame.enter] using hr.locals.symm

/-- A call passes arguments that fit, and what it needs to be ready is so. -/
theorem comes_call {n : UInt32} {o : Outline} (hlinked : image.Linked P)
    (ho : P.routines[n.toNat]? = some o) (hbefore : o.before ⊆ a ∪ P.exposed)
    (hlax : r.lax ⊆ P.exposed)
    (hc : (c.withStack vs).Fits P H loose r ⟨(o.args.map .ofSlot).reverse ++ s, l, a⟩) :
    Comes P image L H loose r (c.withStack vs) (some ⟨o.result ++ s, l, a⟩)
      (Exec.outcome image (.call n) (c.withStack vs)) := by
  have hlt : n.toNat < image.routines.size := hlinked.size ▸ (List.getElem?_eq_some_iff.mp ho).1
  have hrt := Array.getElem?_eq_getElem hlt
  have hr := hlinked.routines _ o _ ho hrt
  obtain ⟨args, rest, rfl, hargs, hs⟩ := forall₂_append_right hc.frame.stack
  have hargs' := List.rel_reverse hargs
  rw [List.reverse_reverse] at hargs'
  have hlen : args.reverse.length = (image.routines[n.toNat]).params.length := by
    rw [hargs'.length_eq, List.length_map, hr.args]
  rw [← List.reverse_reverse args, Exec.outcome_call hrt hlen]
  refine .call ho hrt rfl (hc.withStack hs) rfl ⟨rfl, rfl,
    rfl⟩ (enter_fits hr hargs' fun i hi => ?_)
  rcases hbefore hi with hi | hi
  · exact (hc.frame.fields i hi).imp_right fun h => hlax h
  · exact .inr hi

/-! ## Input and output -/

/-- An output leaves all values as they are, or fails. -/
theorem comes_written {t : String}
    (hc : (c.withStack vs).Fits P H loose r ⟨s, l, a⟩) {vs' : List Value} :
    Comes P image L H loose r (c.withStack vs') (some ⟨s, l, a⟩)
      ((Exec.written t c.store).1.map fun _ => .onward,
        (c.withStore (Exec.written t c.store).2).withStack vs) := by
  have hst := hc.store.congr (Exec.written t c.store).2 rfl rfl
  unfold Exec.written
  dsimp only
  split
  · exact .onward rfl ⟨hst.1, hc.frame.evolve hst.2⟩ hst.2 ⟨rfl, rfl, rfl⟩
  · exact .fail trivial hst.1 hst.2

/-- A word is taken and written. -/
theorem comes_print {t : WordType}
    (hc : (c.withStack vs).Fits P H loose r ⟨.word t :: s, l, a⟩) :
    Comes P image L H loose r (c.withStack vs) (some ⟨s, l, a⟩)
      (Exec.outcome image (.print t) (c.withStack vs)) := by
  obtain ⟨_, rest, ⟨w, rfl, -⟩, hrest, rfl⟩ := List.forall₂_cons_right_iff.mp hc.frame.stack
  rw [Exec.outcome_print]
  exact comes_written (hc.withStack hrest)

theorem comes_printStr (hc : (c.withStack vs).Fits P H loose r ⟨.str :: s, l, a⟩) :
    Comes P image L H loose r (c.withStack vs) (some ⟨s, l, a⟩)
      (Exec.outcome image .printStr (c.withStack vs)) := by
  obtain ⟨_, rest, ⟨t, rfl⟩, hrest, rfl⟩ := List.forall₂_cons_right_iff.mp hc.frame.stack
  rw [Exec.outcome_printStr]
  exact comes_written (hc.withStack hrest)

/-- The arguments of a format are popped in the order opposite to that of the text. -/
theorem comes_printFormat {n : UInt32} {cs : List Cell} (hlen : cs.length = n.toNat)
    (hc : (c.withStack vs).Fits P H loose r ⟨cs ++ .str :: s, l, a⟩) :
    Comes P image L H loose r (c.withStack vs) (some ⟨s, l, a⟩)
      (Exec.outcome image (.printFormat n) (c.withStack vs)) := by
  obtain ⟨args, _, rfl, hargs, hs⟩ := forall₂_append_right hc.frame.stack
  obtain ⟨_, rest, ⟨f, rfl⟩, hrest, rfl⟩ := List.forall₂_cons_right_iff.mp hs
  have hn : args.reverse.length = n.toNat :=
    List.length_reverse.trans (hargs.length_eq.trans hlen)
  have hout : Exec.outcome image (.printFormat n)
      (c.withStack (args.reverse.reverse ++ .str f :: rest)) = _ := Exec.outcome_printFormat hn
  rw [List.reverse_reverse] at hout
  rw [hout]
  cases compose f args.reverse with
  | some t => exact comes_written (hc.withStack hrest)
  | none => exact .failure hc trivial

/-- Input fails only for reasons that lie in the input. -/
theorem Exec.lineRead_allowed {st : Store} {e : MachineError} (loose : Prop)
    (h : (Exec.lineRead st).1 = .error e) : e.Allowed loose := by
  unfold Exec.lineRead at h
  split at h
  · obtain rfl := Except.error.inj h
    trivial
  · dsimp only at h
    split at h
    · cases h
    · obtain rfl := Except.error.inj h
      trivial

/-- A line that is read is a text. -/
theorem comes_readLine (hc : (c.withStack vs).Fits P H loose r ⟨s, l, a⟩) :
    Comes P image L H loose r (c.withStack vs) (some ⟨.str :: s, l, a⟩)
      (Exec.outcome image .readLine (c.withStack vs)) := by
  have hread : (Exec.lineRead c.store).2.fields = c.store.fields ∧
      (Exec.lineRead c.store).2.arrays = c.store.arrays := by
    unfold Exec.lineRead
    split <;> exact ⟨rfl, rfl⟩
  have hst := hc.store.congr _ hread.1 hread.2
  rw [Exec.outcome_readLine]
  split
  · rename_i t st hl
    rw [hl] at hst
    exact .onward rfl ⟨hst.1, (hc.frame.evolve hst.2).withStack
      (.cons (Value.fits_str _) hc.frame.stack)⟩ hst.2 ⟨rfl, rfl, rfl⟩
  · rename_i e st hl
    rw [hl] at hst
    exact .fail (Exec.lineRead_allowed loose (congrArg Prod.fst hl)) hst.1 hst.2

/-- The word that a line denotes is a value of the type that it was read as. -/
theorem WordType.valid_of_parse? {caseless : Caseless} {t : WordType} {text : List Char} {w : Int32}
    (h : t.parse? caseless text = some w) : t.Valid w := by
  cases t with
  | int => trivial
  | bool =>
    simp only [WordType.parse?] at h
    split_ifs at h
    · exact Option.some.inj h ▸ WordType.valid_ofBool _
    · exact Option.some.inj h ▸ WordType.valid_ofBool _
  | char =>
    match text, h with
    | [c], h => exact Option.some.inj h ▸ WordType.valid_ofChar c

/-- What is parsed is a word of the type. -/
theorem comes_parse {t : WordType} (hc : (c.withStack vs).Fits P H loose r ⟨.str :: s, l, a⟩) :
    Comes P image L H loose r (c.withStack vs) (some ⟨.word t :: s, l, a⟩)
      (Exec.outcome image (.parse t) (c.withStack vs)) := by
  obtain ⟨_, rest, ⟨text, rfl⟩, hrest, rfl⟩ := List.forall₂_cons_right_iff.mp hc.frame.stack
  rw [Exec.outcome_parse]
  cases hp : t.parse? c.store.caseless text.toList with
  | some w => exact .stack hc (.cons (Value.fits_word (WordType.valid_of_parse? hp)) hrest) rfl
  | none => exact .failure hc trivial

/-- A random number is an integer. -/
theorem comes_random (hc : (c.withStack vs).Fits P H loose r ⟨.word .int :: s, l, a⟩) :
    Comes P image L H loose r (c.withStack vs) (some ⟨.word .int :: s, l, a⟩)
      (Exec.outcome image .random (c.withStack vs)) := by
  obtain ⟨_, rest, ⟨w, rfl, -⟩, hrest, rfl⟩ := List.forall₂_cons_right_iff.mp hc.frame.stack
  have hst := hc.store.congr { c.store with random := (Random.below w c.store.random).2 } rfl rfl
  rw [Exec.outcome_random]
  exact .onward rfl ⟨hst.1, (hc.frame.evolve hst.2).withStack
    (.cons (Value.fits_word (WordType.valid_int _)) hrest)⟩ hst.2 ⟨rfl, rfl, rfl⟩

/-! ## All instructions -/

/-- **Typed instructions do what their types say.** -/
theorem Takes.comes {σ : Sketch} {i : Instruction} (h : Takes P r.outline L i σ next)
    (hc : (c.withStack vs).Fits P H loose r σ) (hlinked : image.Linked P)
    (hlax : r.lax ⊆ P.exposed)
    (hlabels : ∀ (n : Nat) (τ : Sketch), L[n]? = some τ →
      ∃ p, (c.frame.code.labels[n]?).map UInt32.toNat = some p)
    (hload : loose ∨ ∀ k slot, i = .loadField k → P.fields[k.toNat]? = some slot →
      k.toNat ∈ P.exposed → slot.array → c.store.Ready k.toNat) :
    Comes P image L H loose r (c.withStack vs) next (Exec.outcome image i (c.withStack vs)) := by
  have hs := hc.frame.stack
  -- Most instructions change the stack only. Loads and stores look at what is ready.
  cases h with
  | pushInt hw => exact .stack hc (.cons (Value.fits_word hw) hs) rfl
  | pushStr => exact .stack hc (.cons (Value.fits_str _) hs) rfl
  | pop =>
    obtain ⟨v, rest, -, hrest, rfl⟩ := List.forall₂_cons_right_iff.mp hs
    exact .stack hc hrest rfl
  | dup =>
    obtain ⟨v, rest, hv, hrest, rfl⟩ := List.forall₂_cons_right_iff.mp hs
    exact .stack hc (.cons hv (.cons hv hrest)) rfl
  | swap =>
    obtain ⟨v, _, hv, hs₁, rfl⟩ := List.forall₂_cons_right_iff.mp hs
    obtain ⟨w, rest, hw, hrest, rfl⟩ := List.forall₂_cons_right_iff.mp hs₁
    exact .stack hc (.cons hw (.cons hv hrest)) rfl
  | loadLocal hi hl => exact comes_loadLocal hi hl hc
  | storeLocal hi => exact comes_storeLocal hi hc
  | setLocal hi => exact comes_setLocal hi hc
  | loadArg hi => exact comes_loadArg hi hc
  | storeArg hi => exact comes_storeArg hi hc
  -- A field may be loaded early, by a call during initialization; then the array must be there.
  | loadField hi ha =>
    exact comes_loadField hi ha hlax (hload.imp_right fun h => h _ _ rfl hi) hc
  | storeField hi => exact comes_storeField hi hc
  | setField hi => exact comes_setField hi hc
  | newArray => exact comes_newArray hc
  | loadElem => exact comes_loadElem hc
  | storeElem => exact comes_storeElem hc
  | arrayLen => exact comes_arrayLen hc
  | binary hop => exact comes_binary hop hc
  | neg =>
    obtain ⟨_, rest, ⟨w, rfl, -⟩, hrest, rfl⟩ := List.forall₂_cons_right_iff.mp hs
    exact .stack hc (.cons (Value.fits_word (WordType.valid_int _)) hrest) rfl
  -- Where a jump may lead, the stack is as sketched at its label.
  | jump hn hm =>
    obtain ⟨p, hp⟩ := hlabels _ _ hn
    rw [Exec.outcome_jump hp]
    exact .jump hc hn hm hp
  | jumpIfFalse hn hm =>
    obtain ⟨p, hp⟩ := hlabels _ _ hn
    exact comes_jumpIfFalse hn hm hp hc
  | jumpIfTrue hn hm =>
    obtain ⟨p, hp⟩ := hlabels _ _ hn
    exact comes_jumpIfTrue hn hm hp hc
  | call ho hbefore => exact comes_call hlinked ho hbefore hlax hc
  -- What is promised behind a routine holds when it returns.
  | ret hresult hafter =>
    rw [Exec.outcome_ret]
    exact .ret (hresult ▸ hs) fun i hi => hc.frame.fields i (hafter hi)
  | random => exact comes_random hc
  | box =>
    obtain ⟨_, rest, ⟨w, rfl, -⟩, hrest, rfl⟩ := List.forall₂_cons_right_iff.mp hs
    exact .stack hc (.cons (Value.fits_boxed _ w) hrest) rfl
  | print => exact comes_print hc
  | printStr => exact comes_printStr hc
  | printFormat hlen => exact comes_printFormat hlen hc
  | readLine => exact comes_readLine hc
  | parse => exact comes_parse hc

end

end OnePass
