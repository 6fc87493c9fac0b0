import OnePass.Proofs.Safety
import OnePass.Proofs.Site

/-!
# Code for expressions computes their values

Main statement: running the code for an expression pushes the value of the expression, or fails as
its evaluation does, whatever code it stands in (`Expr.computes`).
-/

namespace OnePass

namespace Operand

variable {o : Operand} {g g' : Generator} {u : Unit}

theorem makes_compileAs {expected : ExprType} (h : Gen.Makes (o.compileAs expected) g u g') :
    Gen.Makes o.compile g expected g' := by
  obtain ⟨found, g₁, hm, hcheck⟩ := Gen.makes_bind.mp h
  unfold Gen.expectType at hcheck
  split at hcheck
  · rename_i heq
    obtain ⟨-, rfl⟩ := Gen.makes_pure.mp hcheck
    exact heq ▸ hm
  · exact absurd hcheck Gen.not_makes_fail

theorem makes_compileUnder {op : Token} (h : Gen.Makes (o.compileUnder op) g u g') :
    Gen.Makes o.compile g (.scalar .int) g' := by
  obtain ⟨found, g₁, hm, hcheck⟩ := Gen.makes_bind.mp h
  split at hcheck
  · exact absurd hcheck Gen.not_makes_fail
  · rename_i heq
    obtain ⟨-, rfl⟩ := Gen.makes_pure.mp hcheck
    exact Decidable.not_not.mp heq ▸ hm

end Operand

namespace Rules

variable {positive done : UInt32} {d : Draft}

/-- The instructions for a random number below the top. -/
def randomInstructions (positive done : UInt32) : List Instruction :=
  [.dup, .pushInt 0, .binary .lt, .jumpIfFalse positive, .neg, .random, .neg, .jump done, .random]

theorem toList_randomCode : (randomCode positive done d).instructions.toList =
    d.instructions.toList ++ randomInstructions positive done := by
  simp [randomCode, randomInstructions, Draft.mark, Draft.emit, Draft.emitAll, Draft.addLabel]

theorem getElem?_randomCode {k : Nat} {i : Instruction}
    (hk : (randomInstructions positive done)[k]? = some i) :
    (randomCode positive done d).instructions.toList[d.position + k]? = some i := by
  rw [toList_randomCode, List.getElem?_append_right (by simp [Draft.position]), Array.length_toList,
    Draft.position, Nat.add_sub_cancel_left]
  exact hk

theorem labels_randomCode : (randomCode positive done d).labels =
    (((d.labels.push none).push none).setIfInBounds positive.toNat (some (.ofNat (d.position + 8)))
      ).setIfInBounds done.toNat (some (.ofNat (d.position + 9))) := by
  simp [randomCode, Draft.mark, Draft.emit, Draft.emitAll, Draft.addLabel, Draft.position,
    -UInt32.ofNat_add]

theorem randomCode_positive (hp : positive.toNat = d.labels.size)
    (hd : done.toNat = d.labels.size + 1) :
    (randomCode positive done d).labels[positive.toNat]? =
    some (some (.ofNat (d.position + 8))) := by
  rw [labels_randomCode, hp, hd, Array.getElem?_setIfInBounds, if_neg (by omega),
    Array.getElem?_setIfInBounds, if_pos rfl,
      if_pos (by rw [Array.size_push, Array.size_push]; omega)]

theorem randomCode_done (hp : positive.toNat = d.labels.size)
    (hd : done.toNat = d.labels.size + 1) :
    (randomCode positive done d).labels[done.toNat]? = some (some (.ofNat (d.position + 9))) := by
  rw [labels_randomCode, hp, hd, Array.getElem?_setIfInBounds, if_pos rfl, if_pos (by simp)]

/-- What a call is compiled to is up to what its name stands for. -/
theorem makes_call {t : Target} {span : Span} {name : Name} {args : List Operand}
    {g g' : Generator} {type : ExprType} (h : Gen.Makes (call t span name args) g type g') :
    ∃ f, g.functions.lookup name.value = some f ∧
      match f.body with
      | .intrinsic .print => Gen.Makes (print t name args) g type g'
      | .intrinsic .put => Gen.Makes (put t name args) g type g'
      | .routine n => args.length = f.params.length ∧
          type = (f.returns.map ExprType.scalar).getD .void ∧
          ∃ g₁, Gen.Makes (arguments args f.params) g ⟨⟩ g₁ ∧
            Gen.Makes (Gen.emit t (.call n)) g₁ ⟨⟩ g' := by
  obtain ⟨_, g₁, h₁, hrest⟩ := Gen.makes_bind.mp h
  obtain ⟨f, g₂, h₂, hcode⟩ := Gen.makes_bind.mp hrest
  obtain ⟨hg, hg₁⟩ := Gen.makes_get.mp h₁
  obtain ⟨hresolve, hg₂⟩ := Gen.makes_lift.mp h₂
  subst hg hg₂ hg₁
  refine ⟨f, Functions.lookup_of_resolve hresolve, ?_⟩
  generalize f.body = body at hcode ⊢
  match body, hcode with
  | .intrinsic .print, hcode => exact hcode
  | .intrinsic .put, hcode => exact hcode
  | .routine n, hcode =>
    rw [Gen.makes_check] at hcode
    obtain ⟨hlen, hcode⟩ := hcode
    obtain ⟨_, g₃, hargs, hcode⟩ := Gen.makes_bind.mp hcode
    obtain ⟨_, g₄, hcall, hcode⟩ := Gen.makes_bind.mp hcode
    obtain ⟨rfl, rfl⟩ := Gen.makes_pure.mp hcode
    exact ⟨Decidable.not_not.mp hlen, rfl, g₃, hargs, hcall⟩

end Rules

/-- A random word between 0 and a word, 0 included and the word not, and the generator behind it:
below a negative word it is the negative of one below the opposite. -/
def Random.toward (x : Int32) (r : Random) : Int32 × Random :=
  if x.toInt < 0 then (-(below (-x) r).1, (below (-x) r).2) else below x r

namespace Site

variable {w : Site} {H : Heap} {m : Memory} {s : List Value} {g g' : Generator} {u : Unit}

theorem Yields.mono {H' : Heap} {type : ExprType} {p : Nat} {c : Calls}
    {x : Option (Except MachineError Value × Memory)} (h : w.Yields H' type p s c x)
    (hH : H <+: H') : w.Yields H type p s c x := Does.imp h fun _ _ h => h.trans hH

/-- An operand that must be a word leaves one. -/
theorem Computes.word {code : Gen ExprType} {ev : Eval Value} (h : w.Computes code ev)
    {t : WordType}
    (hf : w.Fits g) (hm : Gen.Makes code g (.scalar t) g')
    (hcode : w.Continues (g'.draft w.target)) (hst : w.Consistent H m) :
    w.Does (w.stand (g.draft w.target).position s m) ((ev >>= Eval.word).run.run m)
      (fun x m' => .active (w.stand (g'.draft w.target).position (.word x :: s) m'))
      (fun x m' => w.Keeps H m' fun _ => t.Valid x) := by
  refine (h g _ g' H m s hf hm rfl hcode hst).bind fun v m' ⟨H', hst', hH, hv⟩ => ?_
  obtain ⟨x, rfl, hx⟩ := hv (.word t) (.head _)
  exact Does.pure (.refl _ _) ⟨H', hst', hH, hx⟩

/-- A value that has been computed. -/
theorem does_pure {c : Calls} {v : Value} {type : ExprType} {k : Cell} {p : Nat}
    (hreach : w.Reaches c (.active (w.stand p (v :: s) m))) (hcells : type.cells = [k])
    (hst : w.Consistent H m) (hv : v.Fits H True k) :
    w.Yields H type p s c ((pure v : Eval Value).run.run m) := by
  refine Does.pure hreach (.of_consistent hst fun k' hk' => ?_)
  rw [hcells, List.mem_singleton] at hk'
  exact hk' ▸ hv

/-! ## Operators -/

/-- An operation on the two topmost words. -/
theorem does_binary {op : BinaryOp} {x y : Int32} {k : WordType} (hf : w.Fits g)
    (hm : Gen.Makes (Gen.emit w.target (.binary op)) g u g')
    (hcode : w.Continues (g'.draft w.target)) (hst : w.Consistent H m)
    (hresult : ∀ z, Exec.binary op x y = .ok z → k.Valid z) :
    w.Yields H (.scalar k) (g'.draft w.target).position s
      (w.stand (g.draft w.target).position (.word y :: .word x :: s) m)
      ((do return .word (← Exec.binary op x y) : Eval Value).run.run m) := by
  have hout (p : Nat) : Exec.outcome w.program.image (.binary op)
      ((w.context p m).withStack (.word y :: .word x :: s)) = _ := Exec.outcome_binary
  cases hb : Exec.binary op x y with
  | ok z =>
    rw [hb] at hout
    exact does_pure (reaches_emit hf hm hcode hout) rfl hst (Value.fits_word (hresult z hb))
  | error e =>
    rw [hb] at hout
    exact fails_emit hf hm hcode hout

/-- A truth value is replaced by its opposite. -/
theorem reaches_invert {b : Bool} (hf : w.Fits g) (hm : Gen.Makes (Rules.invert w.target) g u g')
    (hcode : w.Continues (g'.draft w.target)) :
    w.Reaches (w.stand (g.draft w.target).position (.word (Word.ofBool b) :: s) m)
      (.active (w.stand (g'.draft w.target).position (.word (Word.ofBool !b) :: s) m)) := by
  obtain ⟨g₁, hpush, hrest⟩ := Gen.makes_forM_cons.mp hm
  have hcompare := Gen.makes_forM_one.mp hrest
  have hcode₁ := hcode.extends (Gen.extends_emit _) hcompare
  refine (reaches_emit hf hpush hcode₁ fun _ => Exec.outcome_pushInt).trans
    (reaches_emit (hf.extends (Gen.extends_emit _) hpush) hcompare hcode fun p => ?_)
  have hout : Exec.outcome w.program.image (.binary .eq)
      ((w.context p m).withStack (.word 0 :: .word (Word.ofBool b) :: s)) = _ :=
    Exec.outcome_binary
  exact hout.trans (by rw [Exec.binary, Word.ofBool_eq_zero])

/-- Two words are compared. -/
theorem reaches_comparison (op : RelOp) {x y : Int32} (hf : w.Fits g)
    (hm : Gen.Makes (Gen.emitAll w.target (Rules.comparison op)) g u g')
    (hcode : w.Continues (g'.draft w.target)) :
    w.Reaches (w.stand (g.draft w.target).position (.word y :: .word x :: s) m)
      (.active (w.stand (g'.draft w.target).position (.word (Word.ofBool (op.meaning x y)) ::
        s) m)) := by
  have hstep {b : BinaryOp} {k : RelOp} {g₁ : Generator}
      (h₁ : Gen.Makes (Gen.emit w.target (.binary b)) g ⟨⟩ g₁)
      (hb : Exec.binary b x y = .ok (Word.ofBool (k.meaning x y)))
      (hcode₁ : w.Continues (g₁.draft w.target)) :
      w.Reaches (w.stand (g.draft w.target).position (.word y :: .word x :: s) m)
        (.active (w.stand (g₁.draft w.target).position (.word (Word.ofBool (k.meaning x y))
          :: s) m)) :=
    reaches_emit hf h₁ hcode₁ fun _ => Exec.outcome_binary.trans (by rw [hb])
  have hinverted {b : BinaryOp} {k : RelOp}
      (h : Gen.Makes (Gen.emitAll w.target [.binary b, .pushInt 0, .binary .eq]) g u g')
      (hb : Exec.binary b x y = .ok (Word.ofBool (k.meaning x y))) :
      w.Reaches (w.stand (g.draft w.target).position (.word y :: .word x :: s) m)
        (.active (w.stand (g'.draft w.target).position
          (.word (Word.ofBool !k.meaning x y) :: s) m)) := by
    obtain ⟨g₁, h₁, h₂⟩ := Gen.makes_forM_cons.mp h
    exact (hstep h₁ hb (hcode.extends (Gen.extends_emitAll _) h₂)).trans
      (reaches_invert (hf.extends (Gen.extends_emit _) h₁) h₂ hcode)
  cases op with
  | eq => exact hstep (Gen.makes_forM_one.mp hm) (Exec.binary_eq x y) hcode
  | lt => exact hstep (Gen.makes_forM_one.mp hm) (Exec.binary_lt x y) hcode
  | gt => exact hstep (Gen.makes_forM_one.mp hm) (Exec.binary_gt x y) hcode
  | ne => exact RelOp.meaning_ne x y ▸ hinverted hm (Exec.binary_eq x y)
  | ge => exact RelOp.meaning_ge x y ▸ hinverted hm (Exec.binary_lt x y)
  | le => exact RelOp.meaning_le x y ▸ hinverted hm (Exec.binary_gt x y)

/-- The value of a random expression is drawn toward its operand. -/
theorem run_random (x : Int32) (m : Memory) :
    ((do return .word (← Eval.lead .random (.word x)) : Eval Value).run.run m) =
      some (.ok (.word (Random.toward x m.store.random).1),
        { m with store := { m.store with random := (Random.toward x m.store.random).2 } }) := by
  show (((if x.toInt < 0 then do return -(← Eval.below (-x)) else Eval.below x : Eval Int32) >>=
    fun z => pure (.word z) : Eval Value).run.run m) = _
  unfold Random.toward
  split <;> rfl

/-- The code for a random number replaces the topmost word by one that is drawn toward it: it takes
one way for negative words and another one for the rest, and both meet at its end. -/
theorem reaches_random {x : Int32} (hf : w.Fits g) (hm : Gen.Makes (Rules.random w.target) g u g')
    (hcode : w.Continues (g'.draft w.target)) :
    w.Reaches (w.stand (g.draft w.target).position (.word x :: s) m)
      (.active (w.stand (g'.draft w.target).position
        (.word (Random.toward x m.store.random).1 :: s)
        { m with store := { m.store with random := (Random.toward x m.store.random).2 } })) := by
  obtain ⟨positive, done, rfl, hlabels⟩ := Rules.makes_random hm
  -- The two labels are its own as long as the stream can be numbered.
  obtain ⟨hpositive, hdone⟩ := hlabels hcode.code.addressable.labels
  have hend := hcode.code.addressable.position
  have hfirst := hf.first
  rw [Generator.draft_onDraft] at hcode hend ⊢
  rw [Rules.position_randomCode] at hend
  clear hm hlabels
  generalize g.draft w.target = d at *
  have hlast := hcode.last
  rw [Rules.position_randomCode] at hlast
  have hpos : w.code.target? positive = some (d.position + 8) := by
    rw [hcode.code.labels _ _ (Rules.randomCode_positive hpositive hdone),
      UInt32.toNat_ofNat_of_lt' (by omega)]
  have hbehind : w.code.target? done = some (d.position + 9) := by
    rw [hcode.code.labels _ _ (Rules.randomCode_done hpositive hdone),
      UInt32.toNat_ofNat_of_lt' hend]
  -- Every one of the nine instructions stands where it was written.
  have hi {k : Nat} {i : Instruction} (hk : (Rules.randomInstructions positive done)[k]? = some i) :
      w.code.instructions[d.position + k]? = some i := by
    rw [← Array.getElem?_toList]
    exact getElem?_mono hcode.code.instructions (Rules.getElem?_randomCode hk)
  have hp {k : Nat} (hk : k < 9) : w.first ≤ d.position + k ∧ d.position + k < w.last := by omega
  rw [Rules.position_randomCode]
  have hlt : Word.ofBool (x < 0) = 0 ↔ ¬ x.toInt < 0 := by
    by_cases h : x.toInt < 0 <;> simp [Word.ofBool, Int32.lt_iff_toInt_lt, h]
  -- Both ways draw a number, from the bound or from its opposite.
  have hdraw (y : Int32) {k : Nat} (hk : k < 9)
      (hrandom : (Rules.randomInstructions positive done)[k]? = some .random) :
      w.Reaches (w.stand (d.position + k) (.word y :: s) m) (.active (w.stand (d.position + k + 1)
        (.word (Random.below y m.store.random).1 :: s)
        { m with store := { m.store with random := (Random.below y m.store.random).2 } })) :=
    reaches_of_outcome (hp hk) (hi hrandom) Exec.outcome_random
  -- The first four instructions tell the sign of the bound.
  have htest : w.Reaches (w.stand d.position (.word x :: s) m)
      (.active (w.stand (if x.toInt < 0 then d.position + 4 else d.position + 8)
        (.word x :: s) m)) := by
    refine (reaches_of_outcome (hp (k := 0) (by decide)) (hi rfl) Exec.outcome_dup).trans ?_
    refine (reaches_of_outcome (hp (k := 1) (by decide)) (hi rfl) Exec.outcome_pushInt).trans ?_
    refine (reaches_of_outcome (hp (k := 2) (by decide)) (hi rfl) Exec.outcome_binary).trans ?_
    refine reaches_of_outcome (hp (k := 3) (by decide)) (hi rfl) ?_
    refine (Exec.outcome_jumpIfFalse hpos).trans ?_
    split
    · rename_i h
      rw [if_neg (hlt.mp h)]
      rfl
    · rename_i h
      rw [if_pos (not_not.mp fun hneg => h (hlt.mpr hneg))]
  unfold Random.toward
  split
  · rename_i hneg
    rw [if_pos hneg] at htest
    exact htest.trans <|
      (reaches_of_outcome (hp (k := 4) (by decide)) (hi rfl) Exec.outcome_neg).trans <|
      (hdraw (-x) (k := 5) (by decide) rfl).trans <|
      (reaches_of_outcome (hp (k := 6) (by decide)) (hi rfl) Exec.outcome_neg).trans <|
      reaches_of_outcome (hp (k := 7) (by decide)) (hi rfl) (Exec.outcome_jump hbehind)
  · rename_i hneg
    rw [if_neg hneg] at htest
    exact htest.trans (hdraw x (k := 8) (by decide) rfl)

theorem does_random {x : Int32} (hf : w.Fits g) (hm : Gen.Makes (Rules.random w.target) g u g')
    (hcode : w.Continues (g'.draft w.target)) (hst : w.Consistent H m) :
    w.Yields H (.scalar .int) (g'.draft w.target).position s
      (w.stand (g.draft w.target).position (.word x :: s) m)
      ((do return .word (← Eval.lead .random (.word x)) : Eval Value).run.run m) := by
  rw [run_random]
  refine ⟨reaches_random hf hm hcode, .of_consistent (hst.congr _ rfl rfl) fun k hk => ?_⟩
  obtain rfl := List.mem_singleton.mp hk
  exact Value.fits_word (WordType.valid_int _)

/-- Code that pushes a word of a type, whatever is on the stack. -/
def Pushes (w : Site) (code : Gen Unit) (t : WordType) (ev : Eval Int32) : Prop :=
  ∀ g u g' H m s, w.Fits g → Gen.Makes code g u g' → w.Continues (g'.draft w.target) →
    w.Consistent H m →
    w.Does (w.stand (g.draft w.target).position s m) (ev.run.run m)
      (fun x m' => .active (w.stand (g'.draft w.target).position (.word x :: s) m'))
      (fun x m' => w.Keeps H m' fun _ => t.Valid x)

theorem Computes.compileAs {o : Operand} {ev : Eval Value} (h : w.Computes o.compile ev)
    (t : WordType) : w.Pushes (o.compileAs (.scalar t)) t (ev >>= Eval.word) :=
  fun _ _ _ _ _ _ hf hm hcode hst => h.word hf (Operand.makes_compileAs hm) hcode hst

theorem Computes.compileUnder {o : Operand} {ev : Eval Value} (h : w.Computes o.compile ev)
    (op : Token) : w.Pushes (o.compileUnder op) .int (ev >>= Eval.word) :=
  fun _ _ _ _ _ _ hf hm hcode hst => h.word hf (Operand.makes_compileUnder hm) hcode hst

/-- One word and then another one. -/
theorem Pushes.both {l r : Gen Unit} {t t' : WordType} {el er : Eval Int32} (hl : w.Pushes l t el)
    (hr : w.Pushes r t' er) (hlx : Gen.Extends w.target l) (hrx : Gen.Extends w.target r)
    {g₁ : Generator} {type : ExprType} {f : Int32 → Int32 → Eval Value} {p : Nat} (hf : w.Fits g)
    (h₁ : Gen.Makes l g ⟨⟩ g₁) (h₂ : Gen.Makes r g₁ ⟨⟩ g')
    (hcode : w.Continues (g'.draft w.target)) (hst : w.Consistent H m)
    (hrest : ∀ H' m' x y, w.Fits g' → w.Consistent H' m' → t.Valid x → t'.Valid y →
      w.Yields H' type p s (w.stand (g'.draft w.target).position (.word y :: .word x :: s) m')
        ((f x y).run.run m')) :
    w.Yields H type p s (w.stand (g.draft w.target).position s m)
      ((el >>= fun x => er >>= f x : Eval Value).run.run m) := by
  refine (hl g _ g₁ H m s hf h₁ (hcode.extends hrx h₂) hst).bind fun x m₁ ⟨H₁, hst₁, hH₁, hx⟩ => ?_
  have hf₁ := hf.extends hlx h₁
  refine (hr g₁ _ g' H₁ m₁ _ hf₁ h₂ hcode hst₁).bind fun y m₂ ⟨H₂, hst₂, hH₂, hy⟩ => ?_
  exact (hrest H₂ m₂ x y (hf₁.extends hrx h₂) hst₂ hx hy).mono (hH₁.trans hH₂)

section Operators

variable {o l r : Operand} {e el er : Eval Value} (ho : w.Computes o.compile e)
  (hl : w.Computes l.compile el) (hr : w.Computes r.compile er)
  (hox : o.Extends w.target) (hlx : l.Extends w.target) (hrx : r.Extends w.target)

include hl hr hlx hrx

theorem computes_arith (op : ArithOp) : w.Computes (Rules.arith w.target l op r) (do
    let x ← Eval.word (← el)
    let y ← Eval.word (← er)
    return .word (← op.meaning x y)) := by
  intro g type g' H m s hf hm _ hcode hst
  obtain ⟨_, g₁, h₁, hm⟩ := Gen.makes_bind.mp hm
  obtain ⟨_, g₂, h₂, hm⟩ := Gen.makes_bind.mp hm
  obtain ⟨_, g₃, h₃, hm⟩ := Gen.makes_bind.mp hm
  obtain ⟨rfl, rfl⟩ := Gen.makes_pure.mp hm
  have hcode₂ := hcode.extends (Gen.extends_emit _) h₃
  have hboth := (hl.compileUnder op.token).both (s := s) (hr.compileUnder op.token)
    (hlx.compileUnder _)
    (hrx.compileUnder _) (f := fun x y => do return .word (← op.meaning x y)) hf h₁ h₂ hcode₂ hst
    fun H' m' x y hf₂ hst' _ _ => by
      rw [← ArithOp.binary_eq]
      exact does_binary hf₂ h₃ hcode hst' fun _ _ => WordType.valid_int _
  simpa only [bind_assoc] using hboth

theorem computes_logic (op : LogicOp) : w.Computes (Rules.logic w.target op l r) (do
    let x ← Eval.word (← el)
    let y ← Eval.word (← er)
    return .word (Word.ofBool (op.meaning (x ≠ 0) (y ≠ 0)))) := by
  intro g type g' H m s hf hm _ hcode hst
  obtain ⟨_, g₁, h₁, hm⟩ := Gen.makes_bind.mp hm
  obtain ⟨_, g₂, h₂, hm⟩ := Gen.makes_bind.mp hm
  obtain ⟨_, g₃, h₃, hm⟩ := Gen.makes_bind.mp hm
  obtain ⟨rfl, rfl⟩ := Gen.makes_pure.mp hm
  have hcode₂ := hcode.extends (Gen.extends_emit _) h₃
  have hboth : w.Yields H (.scalar .bool) (g'.draft w.target).position s _ _ :=
    (hl.compileAs .bool).both (hr.compileAs .bool) (hlx.compileAs _) (hrx.compileAs _)
    (f := fun x y => do return .word (Word.ofBool (op.meaning (x ≠ 0) (y ≠ 0))))
    hf h₁ h₂ hcode₂ hst fun H' m' x y hf₂ hst' hx hy => by
      refine does_pure (reaches_emit hf₂ h₃ hcode fun _ => Exec.outcome_binary.trans ?_) rfl hst'
        (Value.fits_word (WordType.valid_ofBool _))
      rw [LogicOp.binary_eq op hx hy]
  simpa only [bind_assoc] using hboth

theorem computes_compare (op : RelOp) : w.Computes (Rules.compare w.target l op r) (do
    let x ← Eval.word (← el)
    let y ← Eval.word (← er)
    return .word (Word.ofBool (op.meaning x y))) := by
  intro g type g' H m s hf hm _ hcode hst
  obtain ⟨left, g₁, h₁, hm⟩ := Gen.makes_bind.mp hm
  obtain ⟨right, g₂, h₂, hm⟩ := Gen.makes_bind.mp hm
  split at hm
  -- Only words are compared, and both sides have the same type.
  · rename_i hcomparable
    obtain ⟨t, rfl⟩ := Rules.scalar_of_comparable hcomparable
    obtain ⟨_, g₃, hcheck, hm⟩ := Gen.makes_bind.mp hm
    obtain ⟨_, g₄, h₃, hm⟩ := Gen.makes_bind.mp hm
    obtain ⟨rfl, rfl⟩ := Gen.makes_pure.mp hm
    unfold Gen.expectType at hcheck
    split at hcheck
    · rename_i heq
      obtain ⟨-, rfl⟩ := Gen.makes_pure.mp hcheck
      subst heq
      have hcode₂ := hcode.extends (Gen.extends_emitAll _) h₃
      have hleft := hl.word (s := s) hf h₁ (hcode₂.extends hrx.compile h₂) hst
      have hboth : w.Yields H (.scalar .bool) (g'.draft w.target).position s
          (w.stand (g.draft w.target).position s m) (((el >>= Eval.word) >>= fun x =>
            (er >>= Eval.word) >>= fun y => pure (.word (Word.ofBool (op.meaning x y))) :
              Eval Value).run.run m) := by
        -- First the left side is evaluated, then the right side, then both are compared.
        refine hleft.bind fun x m₁ ⟨H₁, hst₁, hH₁, _⟩ => ?_
        have hf₁ := hf.extends hlx.compile h₁
        refine (hr.word hf₁ h₂ hcode₂ hst₁).bind fun y m₂ ⟨H₂, hst₂, hH₂, _⟩ => ?_
        exact (does_pure (reaches_comparison op (hf₁.extends hrx.compile h₂) h₃ hcode) rfl hst₂
          (Value.fits_word (WordType.valid_ofBool _))).mono (hH₁.trans hH₂)
      simpa only [bind_assoc] using hboth
    · exact absurd hcheck Gen.not_makes_fail
  · exact absurd hm Gen.not_makes_fail

omit hl hr hlx hrx
include ho hox

theorem computes_negate : w.Computes (Rules.negate w.target o) (do
    let x ← Eval.word (← e)
    return .word (Word.ofBool (x = 0))) := by
  intro g type g' H m s hf hm _ hcode hst
  obtain ⟨_, g₁, h₁, hm⟩ := Gen.makes_bind.mp hm
  obtain ⟨_, g₂, h₂, hm⟩ := Gen.makes_bind.mp hm
  obtain ⟨rfl, rfl⟩ := Gen.makes_pure.mp hm
  have hcode₁ := hcode.extends (Gen.extends_emitAll _) h₂
  have hf₁ := hf.extends (hox.compileAs _) h₁
  have hword := ho.compileAs .bool g _ g₁ H m s hf h₁ hcode₁ hst
  rw [← bind_assoc]
  refine hword.bind fun x m' ⟨H', hst', hH, hx⟩ => ?_
  have hinvert : w.Reaches
      (w.stand (g₁.draft w.target).position (.word (Word.ofBool (x ≠ 0)) :: s) m')
      (.active (w.stand (g'.draft w.target).position
        (.word (Word.ofBool !decide (x ≠ 0)) :: s) m')) := reaches_invert hf₁ h₂ hcode
  have hopposite : (!decide (x ≠ 0)) = decide (x = 0) := by simp
  rw [← WordType.eq_ofBool_of_valid hx, hopposite] at hinvert
  exact (does_pure hinvert rfl hst' (Value.fits_word (WordType.valid_ofBool _))).mono hH

/-- Of an array that is not ready there is no length. -/
theorem computes_lead (op : LeadOp) : w.Computes (Rules.lead w.target op o) (do
    return .word (← Eval.lead op (← e))) := by
  intro g type g' H m s hf hm _ hcode hst
  -- A minus is an instruction, and agrees with the wrapping of integers.
  cases op with
  | negative =>
    obtain ⟨_, g₁, h₁, hm⟩ := Gen.makes_bind.mp hm
    obtain ⟨_, g₂, h₂, hm⟩ := Gen.makes_bind.mp hm
    obtain ⟨rfl, rfl⟩ := Gen.makes_pure.mp hm
    have hcode₁ := hcode.extends (Gen.extends_emit _) h₂
    have hboth : w.Yields H (.scalar .int) (g'.draft w.target).position s
        (w.stand (g.draft w.target).position s m)
        (((e >>= Eval.word) >>= fun x => pure (.word (.ofInt (-x.toInt))) : Eval
          Value).run.run m) := by
      refine (ho.compileUnder _ g _ g₁ H m s hf h₁ hcode₁ hst).bind
        fun x m' ⟨H', hst', hH, _⟩ => ?_
      refine (does_pure (reaches_emit (hf.extends (hox.compileUnder _) h₁) h₂ hcode
        fun _ => Exec.outcome_neg.trans ?_) rfl hst'
        (Value.fits_word (WordType.valid_int _))).mono hH
      rw [Int32.ofInt_neg, Int32.ofInt_toInt]
    simpa only [Eval.lead, bind_assoc, pure_bind] using hboth
  -- Only a length looks at an array, which may not be there yet.
  | length =>
    obtain ⟨found, g₁, h₁, hm⟩ := Gen.makes_bind.mp hm
    split at hm
    · rename_i t
      obtain ⟨_, g₂, h₂, hm⟩ := Gen.makes_bind.mp hm
      obtain ⟨rfl, rfl⟩ := Gen.makes_pure.mp hm
      have hcode₁ := hcode.extends (Gen.extends_emit _) h₂
      have hf₁ := hf.extends hox.compile h₁
      refine (ho g _ g₁ H m s hf h₁ rfl hcode₁ hst).bind fun v m' ⟨H', hst', hH, hv⟩ => ?_
      obtain ⟨ref, rfl, -⟩ | ⟨-, rfl⟩ := hv (.array t) (.head _)
      · exact (does_pure (reaches_emit hf₁ h₂ hcode fun _ => Exec.outcome_arrayLen) rfl hst'
          (Value.fits_word (WordType.valid_int _))).mono hH
      · exact fails_emit hf₁ h₂ hcode fun _ => Exec.outcome_arrayLen_word
    · exact absurd hm Gen.not_makes_fail
  -- A random number moves the generator of the store on.
  | random =>
    obtain ⟨_, g₁, h₁, hm⟩ := Gen.makes_bind.mp hm
    obtain ⟨_, g₂, h₂, hm⟩ := Gen.makes_bind.mp hm
    obtain ⟨rfl, rfl⟩ := Gen.makes_pure.mp hm
    have hcode₁ := hcode.extends Rules.extends_random h₂
    have hboth : w.Yields H (.scalar .int) (g'.draft w.target).position s
        (w.stand (g.draft w.target).position s m)
        (((e >>= Eval.word) >>= fun x => do return .word (← Eval.lead .random (.word x)) :
          Eval Value).run.run m) :=
      (ho.compileUnder _ g _ g₁ H m s hf h₁ hcode₁ hst).bind fun x m' ⟨H', hst', hH, _⟩ =>
        (does_random (hf.extends (hox.compileUnder _) h₁) h₂ hcode hst').mono hH
    simpa only [Eval.lead, Eval.word, bind_assoc, pure_bind] using hboth

end Operators

/-! ## Variables and elements -/

section Places

variable {v : Symbol}

/-- A variable is resolved to one that the site offers. -/
theorem Sound.offers (hw : w.Sound) (hf : w.Fits g) {name : Name}
    (h : Gen.Makes (Gen.resolve w.target name) g v g') :
    g' = g ∧ w.scopes.lookup name.value = some v ∧ w.Offers v := by
  obtain ⟨rfl, hl, hfield⟩ := Gen.makes_resolve h
  exact ⟨rfl, hf.scopes ▸ hl, hw.slots _ _ (hf.scopes ▸ hl) hfield⟩

/-- What a variable holds is loaded. -/
theorem does_load (hv : w.Offers v) (hf : w.Fits g) (hm : Gen.Makes (Gen.load w.target v) g u g')
    (hcode : w.Continues (g'.draft w.target)) (hst : w.Consistent H m) :
    w.Does (w.stand (g.draft w.target).position s m) ((Eval.read v.handle).run.run m)
      (fun x m' => .active (w.stand (g'.draft w.target).position (x :: s) m'))
      (fun x m' => m' = m ∧ x.Fits H True (.ofSlot v.slot)) := by
  obtain ⟨x, hx, hfits⟩ := hst.read hv
  rw [Eval.run_read hx]
  refine ⟨?_, rfl, hfits⟩
  unfold Gen.load at hm
  unfold Memory.get? at hx
  cases hh : v.handle with
  | field i =>
    rw [hh] at hm hx
    exact reaches_emit hf hm hcode fun _ => Exec.outcome_loadField hx
  | «local» i =>
    rw [hh] at hm hx
    exact reaches_emit hf hm hcode fun _ => Exec.outcome_loadLocal hx
  | argument i =>
    rw [hh] at hm hx
    exact reaches_emit hf hm hcode fun _ => Exec.outcome_loadArg hx

theorem computes_var (hw : w.Sound) (n : Name) :
    w.Computes (Rules.var w.target n) (w.situation.valueOf n) := by
  intro g type g' H m s hf hm _ hcode hst
  obtain ⟨v, g₁, hv, hrest⟩ := Gen.makes_bind.mp hm
  obtain ⟨rfl, hlookup, hoffers⟩ := hw.offers hf hv
  obtain ⟨_, g₂, hload, hdone⟩ := Gen.makes_bind.mp hrest
  obtain ⟨rfl, rfl⟩ := Gen.makes_pure.mp hdone
  have hvalue : w.situation.valueOf n = _ := Situation.valueOf_of_lookup hlookup
  rw [hvalue]
  refine (does_load hoffers hf hload hcode hst).imp fun x m' ⟨hm', hx⟩ => ?_
  refine .of_consistent (hm' ▸ hst) fun k hk => ?_
  have hcell : Cell.ofSlot v.slot = k := by
    cases ha : v.isArray <;> simp only [ha, if_true, Bool.false_eq_true, if_false, ExprType.cells,
      List.mem_singleton] at hk
    · rw [hk, Rules.cell_of_scalar ha]
    · rw [hk, Rules.cell_of_array ha]
  exact hcell ▸ hx

/-- Reading an element, the array and the index being on the stack. An array that is not ready has
none. -/
theorem does_loadElem {a : Value} {x : Int32} {t : WordType} (hf : w.Fits g)
    (hm : Gen.Makes (Gen.emit w.target .loadElem) g u g')
    (hcode : w.Continues (g'.draft w.target)) (hst : w.Consistent H m)
    (ha : a.Fits H True (.array t)) :
    w.Does (w.stand (g.draft w.target).position (.word x :: a :: s) m)
      ((Eval.element a x).run.run m)
      (fun y m' => .active (w.stand (g'.draft w.target).position (.word y :: s) m'))
      (fun y m' => w.Keeps H m' fun _ => t.Valid y) := by
  obtain ⟨ref, rfl, href⟩ | ⟨-, rfl⟩ := ha
  · have hout (p : Nat) : Exec.outcome w.program.image .loadElem
        ((w.context p m).withStack (.word x :: .array ref :: s)) = _ := Exec.outcome_loadElem
    rw [Eval.run_element]
    simp only [Exec.offset?_eq] at hout
    split
    · rename_i hin
      refine ⟨reaches_emit hf hm hcode fun p => (hout p).trans ?_,
        .of_consistent hst (hst.store.elem href)⟩
      rw [show (w.context p m).store.arrays.getD ref #[] = m.words ref from rfl, if_pos hin]
    · rename_i hout'
      refine fails_emit hf hm hcode fun p =>
        (hout p).trans (?_ : _ = (_, (w.context p m).withStack s))
      rw [show (w.context p m).store.arrays.getD ref #[] = m.words ref from rfl, if_neg hout']
  · exact fails_emit hf hm hcode fun _ => Exec.outcome_loadElem_word

/-- An element is read where the variable is an array. -/
theorem computes_elem (hw : w.Sound) (span : Span) (n : Name) {o : Operand} {ev : Eval Value}
    (ho : w.Computes o.compile ev) (hox : o.Extends w.target) :
    w.Computes (Rules.elem w.target span n o.compileInt) (do
      let a ← w.situation.valueOf n
      let x ← Eval.word (← ev)
      return .word (← Eval.element a x)) := by
  intro g type g' H m s hf hm _ hcode hst
  obtain ⟨v, g₁, hv, hrest⟩ := Gen.makes_bind.mp hm
  obtain ⟨rfl, hlookup, hoffers⟩ := hw.offers hf hv
  obtain ⟨_, g₂, hload, hrest⟩ := Gen.makes_bind.mp hrest
  split at hrest
  -- A name in front of brackets is an array, or it is refused.
  · rename_i harray
    obtain ⟨_, g₃, hindex, hrest⟩ := Gen.makes_bind.mp hrest
    obtain ⟨_, g₄, helem, hrest⟩ := Gen.makes_bind.mp hrest
    obtain ⟨rfl, rfl⟩ := Gen.makes_pure.mp hrest
    have hcode₃ := hcode.extends (Gen.extends_emit _) helem
    have hcode₂ := hcode₃.extends (hox.compileAs _) hindex
    have hvalue : w.situation.valueOf n = _ := Situation.valueOf_of_lookup hlookup
    have hall : w.Yields H (.scalar v.type) (g'.draft w.target).position s
        (w.stand (g₁.draft w.target).position s m) ((Eval.read v.handle >>= fun a =>
          (ev >>= Eval.word) >>= fun x => do return .word (← Eval.element a x) :
            Eval Value).run.run m) := by
      -- The array is loaded first, so an index that fails fails behind it.
      refine (does_load hoffers hf hload hcode₂ hst).bind fun a m₁ ⟨hm₁, ha⟩ => ?_
      subst hm₁
      have hf₂ := hf.extends (Gen.extends_load v) hload
      refine (ho.compileAs .int _ _ _ H _ _ hf₂ hindex hcode₃ hst).bind fun x m₂ ⟨H₂, hst₂,
        hH₂, _⟩ => ?_
      rw [Rules.cell_of_array harray] at ha
      refine (does_loadElem (hf₂.extends (hox.compileAs _) hindex) helem hcode hst₂
        (ha.mono hH₂ id)).bind
        fun y m₃ ⟨H₃, hst₃, hH₃, hy⟩ => ?_
      exact (does_pure (.refl _ _) rfl hst₃ (Value.fits_word hy)).mono (hH₂.trans hH₃)
    rw [hvalue]
    simpa only [bind_assoc] using hall
  · exact absurd hrest Gen.not_makes_fail

end Places

/-! ## Calls -/

section CallRules

/-- The values of arguments, the first one lowest on the stack. -/
theorem does_arguments {args : List Expr} {params : List Slot}
    (ha : ∀ e ∈ args, w.Computes (e.operand w.target).compile (e.evaluate w.situation))
    (hlen : args.length = params.length) (hf : w.Fits g)
    (hm : Gen.Makes (Rules.arguments (Expr.operands w.target args) params) g u g')
    (hcode : w.Continues (g'.draft w.target)) (hst : w.Consistent H m) :
    w.Does (w.stand (g.draft w.target).position s m)
      ((Expr.evaluateAll w.situation args).run.run m)
      (fun vs m' => .active (w.stand (g'.draft w.target).position (vs.reverse ++ s) m'))
      (fun vs m' => w.Keeps H m' fun H' =>
        List.Forall₂ (Value.Fits H' True) vs (params.map .ofSlot)) := by
  -- The induction is on the arguments, whose values pile up on the stack.
  induction args generalizing params g H m s with
  | nil =>
    obtain rfl : params = [] := List.length_eq_zero_iff.mp hlen.symm
    obtain ⟨-, rfl⟩ := Gen.makes_pure.mp hm
    exact Does.pure (.refl _ _) (.of_consistent hst .nil)
  | cons e es ih =>
    obtain - | ⟨slot, params⟩ := params
    · cases hlen
    obtain ⟨_, g₁, h₁, hrest⟩ := Gen.makes_bind.mp hm
    have hes : ∀ a ∈ es, w.Computes (a.operand w.target).compile (a.evaluate w.situation) :=
      fun a h => ha a (.tail _ h)
    have hx := Expr.operand_extends w.target e
    have hrestx : Gen.Extends w.target (Rules.arguments (Expr.operands w.target es) params) := by
      refine Rules.extends_arguments (fun o ho => ?_) params
      obtain ⟨a, -, rfl⟩ := Expr.mem_operands.mp ho
      exact Expr.operand_extends w.target a
    -- Every parameter takes a value.
    have hvalue : (ExprType.ofSlot slot).hasValue = true := by
      unfold ExprType.ofSlot
      split <;> rfl
    refine (ha e (.head _) g _ g₁ H m s hf (Operand.makes_compileAs h₁) hvalue
      (hcode.extends hrestx hrest) hst).bind fun v m₁ ⟨H₁, hst₁, hH₁, hv⟩ => ?_
    refine (ih hes (Nat.succ.inj hlen) (hf.extends (hx.compileAs _) h₁) hrest hst₁).bind
      fun vs m₂ ⟨H₂, hst₂, hH₂, hvs⟩ => ?_
    have hv₂ : v.Fits H₂ True (.ofSlot slot) :=
      (hv (.ofSlot slot) (by rw [ExprType.cells_ofSlot]; exact .head _)).mono hH₂ id
    refine Does.pure ?_ ⟨H₂, hst₂, hH₁.trans hH₂, .cons hv₂ hvs⟩
    rw [List.reverse_cons, List.append_assoc]
    exact .refl _ _

/-- A call that ends above a frame that waits for it. -/
theorem reaches_done {c : Calls} {n : Nat} {result : Except MachineError (Option Value)}
    {st : Store}
    (f : Frame)
    (h : Calls.advance w.program.image (w.callers.length + 1) n (.active c) = .done result st) :
    w.Reaches { c with callers := c.callers ++ f :: w.callers }
      (Progress.above f w.callers (.done result st)) := by
  rw [← Nat.zero_add w.callers.length] at h
  obtain ⟨m, hm, hwait⟩ := Calls.advance_above_done h
  refine ⟨m, hm, fun k hk => ?_⟩
  obtain ⟨d, hd⟩ := hwait k hk
  exact ⟨_, hd, .inr ⟨f, List.suffix_append ..⟩⟩

/-- A call that has not ended, above a frame that waits for it. -/
theorem passes_active {c c' : Calls} {n : Nat} (f : Frame)
    (h : Calls.advance w.program.image (w.callers.length + 1) n (.active c) = .active c') :
    w.Passes n { c with callers := c.callers ++ f :: w.callers }
      (Progress.above f w.callers (.active c')) := by
  rw [← Nat.zero_add w.callers.length] at h
  refine ⟨Calls.advance_above_active h, fun k hk => ?_⟩
  obtain ⟨d, hd⟩ := Calls.active_of_le h hk.le
  exact ⟨_, Calls.advance_above_active hd, .inr ⟨f, List.suffix_append ..⟩⟩

/-- A routine of a compiled program runs on arguments as it does on its own, above the frame that
calls it. It hands back what it is declared to return. -/
theorem does_call (hp : w.program.image.Typed w.program.tree.plan) {n : UInt32} {r : Routine}
    (hr : w.program.image.routines[n.toNat]? = some r) {args : List Value}
    (hargs : List.Forall₂ (Value.Fits H True) args (r.params.map .ofSlot)) (hf : w.Fits g)
    (hm : Gen.Makes (Gen.emit w.target (.call n)) g u g')
    (hcode : w.Continues (g'.draft w.target)) (hst : w.Consistent H m) :
    w.Does (w.stand (g.draft w.target).position (args.reverse ++ s) m)
      ((w.situation.run r args).run.run m)
      (fun v m' => .active (w.stand (g'.draft w.target).position (v.toList ++ s) m'))
      (fun v m' => w.Keeps H m' fun H' =>
        List.Forall₂ (Value.Fits H' True) v.toList (r.returns.toList.map .word)) := by
  obtain ⟨hwithin, hi⟩ := within_emit hf hm hcode
  obtain rfl := Gen.makes_emit.mp hm
  rw [Generator.draft_onDraft, Draft.position_emit]
  clear hm hcode hf
  generalize (g.draft w.target).position = p at *
  have hlen : args.length = r.params.length := by simpa using hargs.length_eq
  have hstep := passes_one (m := m) hwithin hi
    (Exec.outcome_call (c := w.context (p + 1) m) (s := s) hr hlen)
  unfold after at hstep
  dsimp only at hstep
  rw [Situation.run_eq]
  split
  · rename_i hfull
    rw [if_pos (show w.callers.length + 1 = maxDepth from hfull)] at hstep
    exact ⟨1, hstep⟩
  · rename_i hroom
    rw [if_neg (show ¬ w.callers.length + 1 = maxDepth from hroom)] at hstep
    -- all fields are exposed, so that nothing needs to be known of which arrays are ready
    have hsize : n.toNat < w.program.tree.plan.routines.length :=
      hp.size ▸ (Array.getElem?_eq_some_iff.mp hr).1
    have ho := List.getElem?_eq_getElem hsize
    generalize w.program.tree.plan.routines[n.toNat] = o at ho
    have htyped := hp.routines Set.univ _ o r ho hr
    have hfits : (Calls.advance w.situation.image w.situation.depth w.situation.fuel
        (.active ⟨.enter r.name r.code args r.locals, [], m.store⟩)).Fits
        (w.program.tree.plan.withExposed Set.univ) w.program.image H ⟨o, Set.univ⟩ m.store :=
      Calls.Fits.advance ⟨hst.store.withExposed Set.univ, ⟨o, Set.univ⟩,
        Routine.stands (hp.linked Set.univ) ho hr
          (enter_fits htyped (htyped.args ▸ hargs) fun _ _ => .inr trivial), .nil⟩
        (hp.linked Set.univ) _
    rcases hgo : Calls.advance w.situation.image w.situation.depth w.situation.fuel
      (.active ⟨.enter r.name r.code args r.locals, [], m.store⟩) with c | ⟨e | v, st⟩
    · exact ⟨1 + w.fuel, _, Nat.le_add_left .., hstep.trans (passes_active _ hgo)⟩
    · exact Reaches.trans ⟨1, hstep⟩ (reaches_done _ hgo)
    · rw [hgo] at hfits
      obtain ⟨H', hst', he, hv⟩ := hfits
      have hreturns : o.returns = r.returns := htyped.returns
      exact ⟨Reaches.trans ⟨1, hstep⟩ (reaches_done _ hgo), H',
        hst.evolve hst'.of_withExposed he.heap, he.heap, hreturns ▸ hv⟩

/-- A function is called with the values of its arguments. -/
theorem does_function (hw : w.Sound) (hp : w.program.image.Typed w.program.tree.plan) {name : Name}
    {f : FunctionSymbol} {n : UInt32} {args : List Expr} {g₁ : Generator}
    (hlookup : w.functions.lookup name.value = some f) (hbody : f.body = .routine n)
    (ha : ∀ e ∈ args, w.Computes (e.operand w.target).compile (e.evaluate w.situation))
    (hlen : args.length = f.params.length) (hf : w.Fits g)
    (hargs : Gen.Makes (Rules.arguments (Expr.operands w.target args) f.params) g ⟨⟩ g₁)
    (hcall : Gen.Makes (Gen.emit w.target (.call n)) g₁ ⟨⟩ g')
    (hcode : w.Continues (g'.draft w.target)) (hst : w.Consistent H m) :
    w.Does (w.stand (g.draft w.target).position s m)
      ((Expr.evaluateAll w.situation args >>= w.situation.call name).run.run m)
      (fun v m' => .active (w.stand (g'.draft w.target).position (v.toList ++ s) m'))
      (fun v m' => w.Keeps H m' fun H' =>
        List.Forall₂ (Value.Fits H' True) v.toList (f.returns.toList.map .word)) := by
  obtain ⟨r, hr, hparams, hreturns⟩ := hw.functions _ _ _ hlookup hbody
  have hroutine : w.situation.call name = _ := Situation.call_of_lookup hlookup hbody hr
  rw [hroutine]
  have hargsx : Gen.Extends w.target
      (Rules.arguments (Expr.operands w.target args) f.params) := by
    refine Rules.extends_arguments (fun o ho => ?_) _
    obtain ⟨a, -, rfl⟩ := Expr.mem_operands.mp ho
    exact Expr.operand_extends w.target a
  refine (does_arguments ha hlen hf hargs (hcode.extends (Gen.extends_emit _) hcall) hst).bind
    fun vs m₁ ⟨H₁, hst₁, hH₁, hvs⟩ => ?_
  refine (does_call hp hr (hparams ▸ hvs) (hf.extends hargsx hargs) hcall hcode hst₁).imp fun v
    m₂ hv => ?_
  exact (hreturns ▸ hv : w.Keeps H₁ m₂ _).trans hH₁

theorem computes_call (hw : w.Sound) (hp : w.program.image.Typed w.program.tree.plan) (span : Span)
    (name : Name) {args : List Expr}
    (ha : ∀ e ∈ args, w.Computes (e.operand w.target).compile (e.evaluate w.situation)) :
    w.Computes (Rules.call w.target span name (Expr.operands w.target args)) (do
      match ← w.situation.call name (← Expr.evaluateAll w.situation args) with
      | some v => return v
      | none => Eval.nothing) := by
  intro g type g' H m s hf hm hvalue hcode hst
  obtain ⟨f, hlookup, hrule⟩ := Rules.makes_call hm
  rw [hf.functions] at hlookup
  -- What `print` and `put` make is no value.
  split at hrule
  · rw [Rules.returns_print _ _ _ _ _ hrule] at hvalue
    cases hvalue
  · rw [Rules.returns_put _ _ _ _ _ hrule] at hvalue
    cases hvalue
  -- A function of the program pushes what it returns, if it has a type.
  · rename_i n hbody
    obtain ⟨hlen, htype, g₁, hargs, hcall⟩ := hrule
    have hlen' : args.length = f.params.length := by
      rw [← hlen, Expr.length_operands]
    have hboth : w.Yields H type (g'.draft w.target).position s
        (w.stand (g.draft w.target).position s m)
        (((Expr.evaluateAll w.situation args >>= w.situation.call name) >>= fun
          | some v => pure v
          | none => Eval.nothing : Eval Value).run.run m) := by
      refine (does_function hw hp hlookup hbody ha hlen' hf hargs hcall hcode hst).bind
        fun v m' ⟨H', hst', hH, hv⟩ => ?_
      cases hreturns : f.returns with
      | none =>
        rw [htype, hreturns] at hvalue
        cases hvalue
      | some t =>
        rw [hreturns] at hv
        obtain - | v := v
        · cases hv
        · obtain - | ⟨hv, -⟩ := hv
          rw [htype, hreturns]
          exact (does_pure (.refl _ _) rfl hst' hv).mono hH
    simpa only [bind_assoc] using hboth

end CallRules

theorem computes_literal (l : Literal) : w.Computes (Rules.literal w.target l)
    (pure l.meaning) := by
  intro g type g' H m s hf hm _ hcode hst
  cases l with
  | int n =>
    obtain ⟨_, g₁, h₁, hm⟩ := Gen.makes_bind.mp hm
    obtain ⟨rfl, rfl⟩ := Gen.makes_pure.mp hm
    exact does_pure (reaches_emit hf h₁ hcode fun _ => Exec.outcome_pushInt) rfl hst
      (Value.fits_word (WordType.valid_int n))
  | bool b =>
    obtain ⟨_, g₁, h₁, hm⟩ := Gen.makes_bind.mp hm
    obtain ⟨rfl, rfl⟩ := Gen.makes_pure.mp hm
    exact does_pure (reaches_emit hf h₁ hcode fun _ => Exec.outcome_pushInt) rfl hst
      (Value.fits_word (WordType.valid_ofBool b))
  | char c =>
    obtain ⟨_, g₁, h₁, hm⟩ := Gen.makes_bind.mp hm
    obtain ⟨rfl, rfl⟩ := Gen.makes_pure.mp hm
    exact does_pure (reaches_emit hf h₁ hcode fun _ => Exec.outcome_pushInt) rfl hst
      (Value.fits_word (WordType.valid_ofChar c))
  | str t =>
    obtain ⟨_, g₁, h₁, hm⟩ := Gen.makes_bind.mp hm
    obtain ⟨rfl, rfl⟩ := Gen.makes_pure.mp hm
    exact does_pure (reaches_emit hf h₁ hcode fun _ => Exec.outcome_pushStr) rfl hst ⟨t, rfl⟩

/-- **Code for an expression computes its value.** -/
theorem computes (hw : w.Sound) (hp : w.program.image.Typed w.program.tree.plan) (e : Expr) :
    w.Computes (e.operand w.target).compile (e.evaluate w.situation) := by
  induction e using Expr.induct with
  | literal v => exact computes_literal v.value
  | var n => exact computes_var hw n
  | elem n i ih => exact computes_elem hw _ n ih (Expr.operand_extends w.target i)
  | paren e ih => exact ih
  | call n args ih => exact computes_call hw hp _ n ih
  | lead op e ih => exact computes_lead ih (Expr.operand_extends w.target e) op.value
  | arith l op r hl hr =>
    exact computes_arith hl hr (Expr.operand_extends w.target l) (Expr.operand_extends w.target r) _
  | compare l op r hl hr =>
    exact computes_compare hl hr (Expr.operand_extends w.target l) (Expr.operand_extends
      w.target r) _
  | negate word e ih => exact computes_negate ih (Expr.operand_extends w.target e)
  | logic op l r hl hr =>
    exact computes_logic hl hr (Expr.operand_extends w.target l) (Expr.operand_extends w.target r) _
  | step p op ih =>
    intro g type g' H m s _ hm hvalue _ _
    rw [(Rules.makes_step hm).1] at hvalue
    cases hvalue
  | assign p op v hp hv =>
    intro g type g' H m s _ hm hvalue _ _
    rw [(Rules.makes_assign hm).1] at hvalue
    cases hvalue

end Site

section

variable {name : String} {legacy : Bool} {source : List UInt8} {w : Site}

/-- **Compiled expressions compute their values.** Wherever the code for an expression with a value
stands in a stream of a compiled program, calls that get to its first instruction with slots that
are as the visible variables say get behind it with exactly the value of the expression on top of
the stack, and with the memory as evaluation leaves it; or they fail as evaluation does. That is so
as long as 32 bits are enough for the program and for the positions up to the end of the code. -/
theorem compile_computes (hprogram : compile name legacy source = .ok w.program)
    (hsource : source.length < UInt32.size) (haddr : w.program.image.Addressable) (hw : w.Sound)
    (e : Expr) : w.Computes (e.compile w.target) (e.evaluate w.situation) :=
  Site.computes hw (compile_typed hprogram (compile_addressable hprogram hsource haddr)) e

/-- What `main` is compiled to that returns `7 / a`. -/
def quotientCode : Code :=
  ⟨#[.pushInt 7, .loadField 0, .binary .div, .ret, .pushInt 0, .ret], #[]⟩

/-- Division by a global variable that is still 0. -/
theorem compile_computes_division :
    ∃ c r, compile "" false "int a; int main() \x7b return 7 / a; \x7d".toUTF8.toList = .ok c ∧
      c.image.routines[0]? = some r ∧
      ∃ n, Calls.advance c.image 0 n (.active ⟨⟨"main", r.code, 0, #[], #[], [.word 1]⟩, [],
          .trial c.image []⟩) =
        .done (.error .divideByZero) (.trial c.image []) := by
  obtain ⟨c, hc, haddr, hq⟩ := exists_compilation
    (q := fun c => c.tree.plan.fields = [.scalar .int] ∧ c.image.fields.length = 1 ∧
      c.image.routines[0]?.map Routine.code = some quotientCode)
    (show (compile "" false "int a; int main() \x7b return 7 / a; \x7d".toUTF8.toList
      ).toOption.any _ = true by decide +kernel)
  obtain ⟨hfields, hlength, hroutine⟩ := of_decide_eq_true hq
  obtain ⟨r, hr, hcode⟩ := Option.map_eq_some_iff.mp hroutine
  refine ⟨c, r, hc, hr, ?_⟩
  rw [hcode]
  let span : Span := .single .origin
  let a : Symbol := ⟨.int, .global, 0, .scalar, .field 0⟩
  let e : Expr := .arith (.literal ⟨.int 7, span⟩) ⟨.div, span⟩ (.var ⟨"a", span⟩)
  let w : Site := ⟨c, .function, ⟨[], Scope.empty.insert "a" a⟩, .new, false, "main", quotientCode,
    [], [], [], 0, 3, 0⟩
  have hstore : Store.trial c.image [] = ⟨#[.zero], #[], [], ⟨#[], none⟩, .ofSeed 0, .simple⟩ := by
    rw [Store.trial, Store.new, hlength]
    rfl
  let m : Memory := ⟨#[], #[], ⟨#[.zero], #[], [], ⟨#[], none⟩, .ofSeed 0, .simple⟩⟩
  have hw : w.Sound := by
    refine Site.sound_of_single (v := a) rfl rfl ?_
    show c.tree.plan.fields[0]? = some a.slot
    rw [hfields]
    rfl
  have htyped := compile_typed hc (compile_addressable hc (by decide +kernel) haddr)
  have hfits : (Store.trial c.image []).Fits c.tree.plan [] := Store.new_fits htyped [] none _ _
  rw [hstore] at hfits
  have hst : w.Consistent [] m := ⟨hfits, Site.slotsFit_nil _, Site.slotsFit_nil _⟩
  -- the code for the division is the beginning of that of `main`
  have hbegins : w.code.instructions.toList.take 3 <+: w.code.instructions.toList :=
    List.take_prefix ..
  have hruns := compile_computes (w := w) hc (by decide +kernel) haddr hw e
    { Generator.new false with scopes := w.scopes } (.scalar .int) _ [] m [.word 1]
    ⟨rfl, rfl, rfl, Nat.zero_le _⟩ rfl rfl
    ⟨⟨⟨show 3 < UInt32.size by decide, Nat.zero_le _⟩, hbegins, fun l p h => by cases h⟩,
      le_rfl⟩ hst
  have hvalue : (e.evaluate w.situation).run.run m = some (.error .divideByZero, m) := rfl
  rw [hvalue] at hruns
  rw [hstore]
  obtain ⟨n, hn, -⟩ := hruns
  exact ⟨n, hn⟩

end

end OnePass
