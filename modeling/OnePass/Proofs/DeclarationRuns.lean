import OnePass.Proofs.ControlRuns

/-!
# Code for declarations makes variables ready

Main statement: the code behind the name of a declared variable makes the slot of that variable
ready, and gives it its first value (`Site.performs_prepare`).
-/

namespace OnePass

namespace Site

variable {w : Site} {H : Heap} {m : Memory} {s : List Value} {g g₁ g' : Generator} {u u' : Unit}
  {v : Symbol} (hv : w.Offers v)

include hv

/-- A variable gets an array that there was not before. -/
theorem does_newArray {n : UInt32} (ha : v.isArray = true) (hf : w.Fits g)
    (hnew : Gen.Makes (Gen.emit w.target (.newArray n)) g u g₁)
    (hstore : Gen.Makes (Gen.store w.target v) g₁ u' g') (hcode : w.Continues (g'.draft w.target))
    (hst : w.Consistent H m) :
    w.Does (w.stand (g.draft w.target).position s m)
      ((do let a ← Eval.newArray n; modify fun m => m.set v.handle a : Eval Unit).run.run m)
      (fun _ m' => .active (w.stand (g'.draft w.target).position s m'))
      (fun _ m' => w.Keeps H m' fun _ => True) := by
  have hcode₁ := hcode.extends (Gen.extends_store v) hstore
  have hf₁ := hf.extends (Gen.extends_emit _) hnew
  have hst₁ := hst.evolve (hst.store.newArray n.toNat v.type).1 (List.prefix_append ..)
  have harray : (Value.array m.store.arrays.size).Fits (H ++ [v.type]) False (.ofSlot v.slot) := by
    rw [Rules.cell_of_array ha]
    refine .inl ⟨_, rfl, ?_⟩
    rw [hst.store.arrays]
    exact List.getElem?_concat_length
  have hmade : w.Reaches (w.stand (g.draft w.target).position s m)
      (.active (w.stand (g₁.draft w.target).position (.array m.store.arrays.size :: s)
        (m.newArray n))) := reaches_emit hf hnew hcode₁ fun _ => Exec.outcome_newArray
  exact ⟨hmade.trans (reaches_store hv hf₁ hstore hcode hst₁), _, hst₁.set hv harray,
    List.prefix_append .., trivial⟩

/-- The code that gives one element its first value. -/
theorem performs_element (ha : v.isArray = true) {code : Gen Unit} {ev : Eval Int32}
    (hc : w.Pushes code v.type ev) (hx : Gen.Extends w.target code) (k : UInt32) :
    w.Performs (do
      Gen.load w.target v
      Gen.emit w.target (.pushInt k.toInt32)
      code
      Gen.emit w.target .storeElem) (do
      let a ← Eval.read v.handle
      Eval.store (.element a k.toInt32) (← ev)) := by
  intro g u g' H m s hf hm hcode hst
  obtain ⟨_, g₁, hload, hrest⟩ := Gen.makes_bind.mp hm
  obtain ⟨_, g₂, hindex, hrest⟩ := Gen.makes_bind.mp hrest
  obtain ⟨_, g₃, hvalue, hstore⟩ := Gen.makes_bind.mp hrest
  have hcode₃ := hcode.extends (Gen.extends_emit _) hstore
  have hcode₂ := hcode₃.extends hx hvalue
  have hcode₁ := hcode₂.extends (Gen.extends_emit _) hindex
  have hf₁ := hf.extends (Gen.extends_load v) hload
  have hf₂ := hf₁.extends (Gen.extends_emit _) hindex
  refine (does_load hv hf hload hcode₁ hst).bind fun a m₁ ⟨hm₁, harray⟩ => ?_
  subst hm₁
  refine Does.after ?_ (reaches_emit hf₁ hindex hcode₂ fun _ => Exec.outcome_pushInt)
  refine (hc g₂ _ g₃ H _ _ hf₂ hvalue hcode₃ hst).bind fun y m₂ ⟨H₂, hst₂, hH₂, hy⟩ => ?_
  rw [Rules.cell_of_array ha] at harray
  exact (does_storeElem (harray.mono hH₂ id) hy (hf₂.extends hx hvalue) hstore hcode hst₂).imp
    fun _ _ h => h.trans hH₂

/-- One element after another gets its first value. -/
theorem performs_fill (ha : v.isArray = true) {code : Gen Unit} {ev : Eval Int32}
    (hc : w.Pushes code v.type ev) (hx : Gen.Extends w.target code) (start n : Nat) :
    w.Performs (Gen.forBelow (fun k => do
      Gen.load w.target v
      Gen.emit w.target (.pushInt k.toInt32)
      code
      Gen.emit w.target .storeElem) start n) (Eval.fill v.handle ev start n) := by
  have honex (k : UInt32) : Gen.Extends w.target (do
      Gen.load w.target v
      Gen.emit w.target (.pushInt k.toInt32)
      code
      Gen.emit w.target .storeElem) :=
    (Gen.extends_load v).bind fun _ => (Gen.extends_emit _).bind fun _ =>
      hx.bind fun _ => Gen.extends_emit _
  have hone (k : Nat) := performs_element hv ha hc hx (.ofNat k)
  refine Performs.forBelow honex hone (fun _ => rfl) (fun _ _ => ?_) start n
  simp only [Eval.fill, bind_assoc]

/-- **The code of a declaration makes its variable ready.** -/
theorem performs_prepare (hd : v.Declared) (init : Option Expr)
    (hc : ∀ e : Expr, w.Computes (e.operand w.target).compile (e.evaluate w.situation)) :
    w.Performs (prepareCode w.target v init) (w.situation.prepare v init) := by
  intro g u g' H m s hf hm hcode hst
  unfold prepareCode at hm
  -- A variable that is declared is a word, or an array with a length.
  obtain ⟨hs, ha⟩ | ⟨n, hs, ha⟩ := hd
  · rw [hs] at hm
    cases init with
    | none =>
      obtain ⟨-, rfl⟩ := Gen.makes_pure.mp hm
      unfold Situation.prepare
      rw [hs]
      exact Does.pure (.refl _ _) (.of_consistent hst trivial)
    | some e =>
      dsimp only at hm
      unfold Gen.initialise Gen.fill at hm
      unfold Situation.prepare
      rw [hs] at hm ⊢
      obtain ⟨_, g₁, hvalue, hstore⟩ := Gen.makes_bind.mp hm
      have hx := (Expr.operand_extends w.target e).compileAs (.scalar v.type)
      have hcode₁ := hcode.extends (Gen.extends_store v) hstore
      have hboth : w.Does (w.stand (g.draft w.target).position s m)
          (((e.evaluate w.situation >>= Eval.word) >>= fun y =>
            Eval.store (.slot v.handle) y : Eval Unit).run.run m)
          (fun _ m' => .active (w.stand (g'.draft w.target).position s m'))
          (fun _ m' => w.Keeps H m' fun _ => True) := by
        -- The value is computed in front of the store, and the store reaches its end.
        refine ((hc e).compileAs v.type g _ g₁ H m s hf hvalue hcode₁ hst).bind
          fun y m₁ ⟨H₁, hst₁, hH₁, hy⟩ => ?_
        have hword : (Value.word y).Fits H₁ False (.ofSlot v.slot) := by
          rw [Rules.cell_of_scalar ha]
          exact Value.fits_word hy
        exact ⟨reaches_store hv (hf.extends hx hvalue) hstore hcode hst₁, H₁, hst₁.set hv hword,
          hH₁, trivial⟩
      simpa only [bind_assoc] using hboth
  · rw [hs] at hm
    obtain ⟨_, g₁, hnew, hrest⟩ := Gen.makes_bind.mp hm
    obtain ⟨_, g₂, hstore, hrest⟩ := Gen.makes_bind.mp hrest
    have hf₂ := (hf.extends (Gen.extends_emit _) hnew).extends (Gen.extends_store v) hstore
    cases init with
    | none =>
      obtain ⟨-, rfl⟩ := Gen.makes_pure.mp hrest
      unfold Situation.prepare
      rw [hs]
      exact does_newArray hv ha hf hnew hstore hcode hst
    | some e =>
      have hx := extends_initialise w.target v e
      have hcode₂ := hcode.extends hx hrest
      dsimp only at hrest
      unfold Gen.initialise Gen.fill at hrest
      unfold Situation.prepare
      rw [hs] at hrest ⊢
      -- A new array has no element yet that is not zero, so it can be filled at once.
      have hboth := (does_newArray hv ha hf hnew hstore hcode₂ hst).bind
        fun _ m₁ ⟨H₁, hst₁, hH₁, _⟩ => (performs_fill hv ha ((hc e).compileAs v.type)
          ((Expr.operand_extends w.target e).compileAs _) 0 n.toNat g₂ _ g' H₁ m₁ s hf₂ hrest hcode
          hst₁).imp fun _ _ h => h.trans hH₁
      simpa only [bind_assoc] using hboth

end Site

end OnePass
