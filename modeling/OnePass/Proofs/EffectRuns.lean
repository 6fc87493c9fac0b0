import OnePass.Proofs.Effects
import OnePass.Proofs.ExpressionRuns

/-!
# Code for expressions does what they do

Main statement: running the code for an expression, and dropping its value if it has one, does what
the expression does (`Site.performs`).

An assignment has its array and its index below the new value on the stack
(`Designation.cells`), as long as that is computed.
-/

namespace OnePass

/-- What stands for a designation on the stack. -/
def Designation.cells : Designation → List Value
  | .slot _ => []
  | .element a x => [.word x, a]

/-- The code for an index. -/
def Expr.indexCode (t : Target) (index : Option Expr) : Option (Gen Unit) :=
  index.map fun i => (i.operand t).compileInt

/-- The places that are assigned to are variables and elements of them. -/
theorem Expr.place?_of_operand {t : Target} {e : Expr} {name : Name} {index : Option (Gen Unit)}
    (h : (e.operand t).place? = some ⟨name, index⟩) :
    ∃ i, e.place? = some (name, i) ∧ index = indexCode t i := by
  cases e <;> cases h
  · exact ⟨none, rfl, rfl⟩
  · exact ⟨some _, rfl, rfl⟩

namespace Rules

/-- The code for an expression whose value is dropped, if it has one. -/
def dropped (t : Target) (o : Operand) : Gen Unit := do
  let found ← o.compile
  if found.hasValue then Gen.emit t .pop

/-- The code that copies one element. -/
def copyElement (t : Target) (target source : Symbol) (n : UInt32) : Gen Unit := do
  Gen.load t target
  Gen.emit t (.pushInt n.toInt32)
  Gen.load t source
  Gen.emitAll t [.pushInt n.toInt32, .loadElem, .storeElem]

theorem extends_copyElement (t : Target) (target source : Symbol) (n : UInt32) :
    Gen.Extends t (copyElement t target source n) :=
  (Gen.extends_load _).bind fun _ => (Gen.extends_emit _).bind fun _ =>
    (Gen.extends_load _).bind fun _ => Gen.extends_emitAll _

/-- Only whole arrays of one type and of declared lengths are assigned to each other. -/
theorem makes_copyArray {t : Target} {a : Symbol} {name : Name} {o : Operand} {g g' : Generator}
    {u : Unit} (h : Gen.Makes (copyArray t a name o) g u g') :
    ∃ source b, o.place? = some ⟨source, none⟩ ∧ Gen.Makes (Gen.resolve t source) g b g ∧
      b.isArray = true ∧ b.type = a.type ∧
      (∃ p q, a.shape = .array (some p) ∧ b.shape = .array (some q)) ∧
      Gen.Makes (Gen.forBelow (copyElement t a b) 0 (Situation.copyLength a b)) g ⟨⟩ g' := by
  unfold copyArray at h
  split at h
  · rename_i source hplace
    obtain ⟨b, g₁, hb, hrest⟩ := Gen.makes_bind.mp h
    have hsame := (Gen.makes_resolve hb).1
    subst hsame
    rw [Gen.makes_check] at hrest
    obtain ⟨harray, hrest⟩ := hrest
    rw [Gen.makes_check] at hrest
    obtain ⟨htype, hrest⟩ := hrest
    obtain ⟨n, g₂, hlength, hcode⟩ := Gen.makes_bind.mp hrest
    obtain ⟨rfl, p, q, hp, hq, hn⟩ := makes_copyLength hlength
    refine ⟨source, b, hplace, hb, by simpa using harray, Decidable.not_not.mp htype,
      ⟨p, q, hp, hq⟩, ?_⟩
    rw [Situation.copyLength, hp, hq]
    dsimp only
    rw [← hn]
    exact hcode
  · exact absurd h Gen.not_makes_fail

end Rules

theorem Expr.extends_indexCode (t : Target) (index : Option Expr) (code : Gen Unit)
    (h : indexCode t index = some code) : Gen.Extends t code := by
  obtain ⟨i, rfl, rfl⟩ := Option.map_eq_some_iff.mp h
  exact (Expr.operand_extends t i).compileAs _

theorem Expr.extends_operands (t : Target) (es : List Expr) (o : Operand)
    (ho : o ∈ Expr.operands t es) : o.Extends t := by
  obtain ⟨a, -, rfl⟩ := Expr.mem_operands.mp ho
  exact Expr.operand_extends t a

namespace Site

variable {w : Site} {H H' : Heap} {m : Memory} {s : List Value} {g g' : Generator} {u : Unit}
  {v : Symbol} {t : WordType} {y : Int32}

/-! ## Memory -/

/-- A slot gets a value as it says. -/
theorem Consistent.set (h : w.Consistent H m) (hv : w.Offers v) {x : Value}
    (hx : x.Fits H False (.ofSlot v.slot)) : w.Consistent H (m.set v.handle x) := by
  unfold Offers at hv
  unfold Memory.set
  cases hh : v.handle with
  | field i =>
    rw [hh] at hv
    exact ⟨(h.store.setField hv hx).1, h.args, h.locals⟩
  | «local» i =>
    rw [hh] at hv
    exact ⟨h.store, h.args, slots_set h.locals hv (hx.mono List.prefix_rfl False.elim)⟩
  | argument i =>
    rw [hh] at hv
    exact ⟨h.store, slots_set h.args hv (hx.mono List.prefix_rfl False.elim), h.locals⟩

/-- A value is stored in the slot of a variable. -/
theorem reaches_store (hv : w.Offers v) {x : Value} (hf : w.Fits g)
    (hm : Gen.Makes (Gen.store w.target v) g u g')
    (hcode : w.Continues (g'.draft w.target)) (hst : w.Consistent H m) :
    w.Reaches (w.stand (g.draft w.target).position (x :: s) m)
      (.active (w.stand (g'.draft w.target).position s (m.set v.handle x))) := by
  obtain ⟨old, hold, -⟩ := hst.read hv
  unfold Gen.store at hm
  unfold Memory.get? at hold
  unfold Memory.set
  cases hh : v.handle with
  | field i =>
    rw [hh] at hm hold
    exact reaches_emit hf hm hcode fun _ =>
      Exec.outcome_storeField (Array.getElem?_eq_some_iff.mp hold).1
  | «local» i =>
    rw [hh] at hm hold
    exact reaches_emit hf hm hcode fun _ =>
      Exec.outcome_storeLocal (Array.getElem?_eq_some_iff.mp hold).1
  | argument i =>
    rw [hh] at hm hold
    exact reaches_emit hf hm hcode fun _ =>
      Exec.outcome_storeArg (Array.getElem?_eq_some_iff.mp hold).1

/-- An element gets a word. An array that is not ready has none. -/
theorem does_storeElem {a : Value} {x : Int32} (ha : a.Fits H True (.array t)) (hy : t.Valid y)
    (hf : w.Fits g) (hm : Gen.Makes (Gen.emit w.target .storeElem) g u g')
    (hcode : w.Continues (g'.draft w.target)) (hst : w.Consistent H m) :
    w.Does (w.stand (g.draft w.target).position (.word y :: .word x :: a :: s) m)
      ((Eval.store (.element a x) y).run.run m)
      (fun _ m' => .active (w.stand (g'.draft w.target).position s m'))
      (fun _ m' => w.Keeps H m' fun _ => True) := by
  obtain ⟨ref, rfl, href⟩ | ⟨-, rfl⟩ := ha
  · have hout (p : Nat) : Exec.outcome w.program.image .storeElem
        ((w.context p m).withStack (.word y :: .word x :: .array ref :: s)) = _ :=
      Exec.outcome_storeElem
    rw [Eval.run_store_element]
    simp only [Exec.offset?_eq] at hout
    split
    · rename_i hin
      refine ⟨reaches_emit hf hm hcode fun p => (hout p).trans ?_, .of_consistent
        (hst.evolve (hst.store.setElem href _ hy).1 List.prefix_rfl) trivial⟩
      rw [show (w.context p m).store.arrays.getD ref #[] = m.words ref from rfl, if_pos hin]
      rfl
    · rename_i hout'
      refine fails_emit hf hm hcode fun p =>
        (hout p).trans (?_ : _ = (_, (w.context p m).withStack s))
      rw [show (w.context p m).store.arrays.getD ref #[] = m.words ref from rfl, if_neg hout']
  · exact fails_emit hf hm hcode fun _ => Exec.outcome_storeElem_word

/-- An operation on two integers. -/
theorem does_operation {o : ArithOp} {x : Int32} (hf : w.Fits g)
    (hm : Gen.Makes (Gen.emit w.target (.binary (Rules.arithInstruction o))) g u g')
    (hcode : w.Continues (g'.draft w.target)) (hst : w.Consistent H m) :
    w.Does (w.stand (g.draft w.target).position (.word y :: .word x :: s) m)
      ((liftM (o.meaning x y) : Eval Int32).run.run m)
      (fun z m' => .active (w.stand (g'.draft w.target).position (.word z :: s) m'))
      (fun z m' => w.Keeps H m' fun _ => WordType.int.Valid z) := by
  have hout (p : Nat) : Exec.outcome w.program.image (.binary (Rules.arithInstruction o))
      ((w.context p m).withStack (.word y :: .word x :: s)) = _ := Exec.outcome_binary
  rw [ArithOp.binary_eq] at hout
  cases hb : o.meaning x y with
  | ok z =>
    rw [hb] at hout
    exact ⟨reaches_emit hf hm hcode hout, .of_consistent hst (WordType.valid_int z)⟩
  | error e =>
    rw [hb] at hout
    exact fails_emit hf hm hcode hout

/-- Code that leaves the stack as it was. -/
def Performs (w : Site) (code : Gen Unit) (ev : Eval Unit) : Prop :=
  ∀ g u g' H m s, w.Fits g → Gen.Makes code g u g' → w.Continues (g'.draft w.target) →
    w.Consistent H m →
    w.Does (w.stand (g.draft w.target).position s m) (ev.run.run m)
      (fun _ m' => .active (w.stand (g'.draft w.target).position s m'))
      (fun _ m' => w.Keeps H m' fun _ => True)

/-- Code for one number after another does what `all` says, if the code for `k` does `one k`. -/
theorem Performs.forBelow {w : Site} {code : UInt32 → Gen Unit} {one : Nat → Eval Unit}
    {all : Nat → Nat → Eval Unit} (hx : ∀ k, Gen.Extends w.target (code k))
    (hone : ∀ k, w.Performs (code (.ofNat k)) (one k)) (hzero : ∀ start, all start 0 = pure ⟨⟩)
    (hsucc : ∀ start n, all start (n + 1) = one start >>= fun _ => all (start + 1) n)
    (start n : Nat) : w.Performs (Gen.forBelow code start n) (all start n) := by
  induction n generalizing start with
  | zero =>
    intro g u g' H m s _ hm _ hst
    obtain ⟨-, rfl⟩ := Gen.makes_pure.mp hm
    rw [hzero]
    exact Does.pure (.refl _ _) (.of_consistent hst trivial)
  | succ n ih =>
    intro g u g' H m s hf hm hcode hst
    obtain ⟨_, g₁, hfirst, hrest⟩ := Gen.makes_bind.mp hm
    rw [hsucc]
    refine (hone start g _ g₁ H m s hf hfirst
      (hcode.extends (Gen.extends_forBelow hx _ _) hrest) hst).bind
        fun _ m₁ ⟨H₁, hst₁, hH₁, _⟩ => ?_
    exact (ih _ g₁ _ g' H₁ m₁ s (hf.extends (hx _) hfirst) hrest hcode hst₁).imp
      fun _ _ h => h.trans hH₁

/-! ## Types -/

/-- What an expression is compiled with is its type. -/
theorem type_eq (e : Expr) {type : ExprType} (hf : w.Fits g)
    (h : Gen.Makes (e.operand w.target).compile g type g') : type = e.typeIn w.situation := by
  induction e using Expr.induct generalizing type with
  | literal l =>
    obtain ⟨l, span⟩ := l
    cases l <;> exact (Gen.Returns.bind fun _ => Gen.returns_pure) _ _ _ h
  -- Names are looked up in the scopes of the site, which are those of the generator.
  | var n =>
    obtain ⟨v, g₁, hv, hrest⟩ := Gen.makes_bind.mp h
    have htype := (Gen.Returns.bind fun _ => Gen.returns_pure) _ _ _ hrest
    have hlookup : w.scopes.lookup n.value = some v := hf.scopes ▸ (Gen.makes_resolve hv).2.1
    rw [Expr.typeIn, show w.situation.scopes.lookup n.value = some v from hlookup]
    exact htype
  | elem n i ih =>
    obtain ⟨v, g₁, hv, hrest⟩ := Gen.makes_bind.mp h
    have hlookup : w.scopes.lookup n.value = some v := hf.scopes ▸ (Gen.makes_resolve hv).2.1
    rw [Expr.typeIn, show w.situation.scopes.lookup n.value = some v from hlookup]
    obtain ⟨_, g₂, -, hrest⟩ := Gen.makes_bind.mp hrest
    split at hrest
    · exact (Gen.Returns.bind fun _ => .bind fun _ => Gen.returns_pure) _ _ _ hrest
    · exact absurd hrest Gen.not_makes_fail
  | paren e ih => exact ih h
  | call n args ih =>
    obtain ⟨f, hlookup, hrule⟩ := Rules.makes_call h
    rw [hf.functions] at hlookup
    rw [Expr.typeIn, show w.situation.functions.lookup n.value = some f from hlookup]
    obtain ⟨params, returns, body⟩ := f
    cases body with
    -- What `print` and `put` make is known without looking at the arguments.
    | intrinsic k =>
      cases k with
      | print => exact Rules.returns_print _ _ _ _ _ hrule
      | put => exact Rules.returns_put _ _ _ _ _ hrule
    | routine r => exact hrule.2.1
  | lead op e ih => exact Rules.returns_lead _ _ _ _ _ _ h
  | arith l op r hl hr =>
    exact (Gen.Returns.bind fun _ => .bind fun _ => .bind fun _ => Gen.returns_pure) _ _ _ h
  | compare l op r hl hr => exact Rules.returns_compare _ _ _ _ _ _ _ h
  | negate word e ih =>
    exact (Gen.Returns.bind fun _ => .bind fun _ => Gen.returns_pure) _ _ _ h
  | logic op l r hl hr =>
    exact (Gen.Returns.bind fun _ => .bind fun _ => .bind fun _ => Gen.returns_pure) _ _ _ h
  | step p op ih => exact (Rules.makes_step h).1
  | assign p op v hp hv => exact (Rules.makes_assign h).1

/-! ## Places -/

section Places

/-- A designation is one of a variable or of an element of it. -/
def Designates (v : Symbol) (H : Heap) : Designation → Prop
  | .slot h => h = v.handle ∧ v.isArray = false
  | .element a _ => v.isArray = true ∧ a.Fits H True (.array v.type)

theorem Designates.mono {d : Designation} (h : Designates v H d) (hH : H <+: H') :
    Designates v H' d := by
  cases d with
  | slot h' => exact h
  | element a x => exact ⟨h.1, h.2.mono hH id⟩

theorem valueOf_eq {n : Name} (hlookup : w.scopes.lookup n.value = some v) :
    w.situation.valueOf n = Eval.read v.handle := Situation.valueOf_of_lookup hlookup

variable {n : Name} {index : Option Expr} (hlookup : w.scopes.lookup n.value = some v)
  (hv : w.Offers v) (harray : v.isArray = index.isSome)
  (hindex : ∀ i, index = some i → w.Computes (i.operand w.target).compile (i.evaluate w.situation))

include hlookup hv harray hindex

/-- The array and the index are pushed before the new value is computed. -/
theorem does_designate (hf : w.Fits g)
    (hm : Gen.Makes (Rules.beforeValue w.target v (Expr.indexCode w.target index)) g u g')
    (hcode : w.Continues (g'.draft w.target)) (hst : w.Consistent H m) :
    w.Does (w.stand (g.draft w.target).position s m)
      ((w.situation.designate n index).run.run m)
      (fun d m' => .active (w.stand (g'.draft w.target).position (d.cells ++ s) m'))
      (fun d m' => w.Keeps H m' fun H' => Designates v H' d) := by
  cases index with
  | none =>
    obtain ⟨-, rfl⟩ := Gen.makes_pure.mp hm
    have hslot : w.situation.designate n none = _ := Situation.designate_of_lookup hlookup
    rw [hslot]
    exact Does.pure (.refl _ _) (.of_consistent hst ⟨rfl, harray⟩)
  | some i =>
    obtain ⟨_, g₁, hload, hrest⟩ := Gen.makes_bind.mp hm
    have hx := Expr.operand_extends w.target i
    have hcode₁ := hcode.extends (hx.compileAs _) hrest
    have heq : w.situation.designate n (some i) = Eval.read v.handle >>= fun a =>
        (i.evaluate w.situation >>= Eval.word) >>= fun x => pure (.element a x) := by
      rw [← valueOf_eq hlookup]
      simp only [Situation.designate, bind_assoc]
    rw [heq]
    refine (does_load hv hf hload hcode₁ hst).bind fun a m₁ ⟨hm₁, ha⟩ => ?_
    subst hm₁
    rw [Rules.cell_of_array harray] at ha
    refine ((hindex i rfl).compileAs .int _ _ _ H _ _ (hf.extends (Gen.extends_load v) hload) hrest
      hcode hst).bind fun x m₂ ⟨H₂, hst₂, hH₂, _⟩ => ?_
    exact Does.pure (.refl _ _) ⟨H₂, hst₂, hH₂, harray, ha.mono hH₂ id⟩

/-- The present value of a place is pushed, its index being evaluated once more. -/
theorem pushes_present : w.Pushes (Rules.presentValue w.target v (Expr.indexCode w.target index))
    v.type (w.situation.present n index) := by
  intro g u g' H m s hf hm hcode hst
  obtain ⟨_, g₁, hload, hrest⟩ := Gen.makes_bind.mp hm
  -- A variable is loaded, an element by its array and its index.
  cases index with
  | none =>
    obtain ⟨-, rfl⟩ := Gen.makes_pure.mp hrest
    have heq : w.situation.present n none = Eval.read v.handle >>= Eval.word := by
      rw [← valueOf_eq hlookup, Situation.present]
    rw [heq]
    refine (does_load hv hf hload hcode hst).bind fun a m₁ ⟨hm₁, ha⟩ => ?_
    subst hm₁
    rw [Rules.cell_of_scalar harray] at ha
    obtain ⟨x, rfl, hx⟩ := ha
    exact Does.pure (.refl _ _) (.of_consistent hst hx)
  | some i =>
    obtain ⟨_, g₂, hcompile, helem⟩ := Gen.makes_bind.mp hrest
    have hx := Expr.operand_extends w.target i
    have hcode₂ := hcode.extends (Gen.extends_emit _) helem
    have hcode₁ := hcode₂.extends (hx.compileAs _) hcompile
    have heq : w.situation.present n (some i) = Eval.read v.handle >>= fun a =>
        (i.evaluate w.situation >>= Eval.word) >>= fun x => Eval.element a x := by
      rw [← valueOf_eq hlookup]
      simp only [Situation.present, bind_assoc]
    rw [heq]
    refine (does_load hv hf hload hcode₁ hst).bind fun a m₁ ⟨hm₁, ha⟩ => ?_
    subst hm₁
    rw [Rules.cell_of_array harray] at ha
    have hf₁ := hf.extends (Gen.extends_load v) hload
    refine ((hindex i rfl).compileAs .int _ _ _ H _ _ hf₁ hcompile hcode₂ hst).bind
      fun x m₂ ⟨H₂, hst₂, hH₂, _⟩ => ?_
    exact (does_loadElem (hf₁.extends (hx.compileAs _) hcompile) helem hcode hst₂
      (ha.mono hH₂ id)).imp fun _ _ h => h.trans hH₂

omit hlookup hindex

/-- The new value is stored where it was designated to be stored. -/
theorem does_store {d : Designation} (hd : Designates v H d) (hy : v.type.Valid y)
    (hf : w.Fits g) (hm : Gen.Makes (Rules.afterValue w.target v (Expr.indexCode w.target index)) g
      u g')
    (hcode : w.Continues (g'.draft w.target)) (hst : w.Consistent H m) :
    w.Does (w.stand (g.draft w.target).position (.word y :: (d.cells ++ s)) m)
      ((Eval.store d y).run.run m)
      (fun _ m' => .active (w.stand (g'.draft w.target).position s m'))
      (fun _ m' => w.Keeps H m' fun _ => True) := by
  cases index with
  | none =>
    cases d with
    | element a x => exact absurd (harray.symm.trans hd.1) Bool.false_ne_true
    | slot h =>
      obtain ⟨rfl, -⟩ := hd
      have hword : (Value.word y).Fits H False (.ofSlot v.slot) := by
        rw [Rules.cell_of_scalar harray]
        exact Value.fits_word hy
      exact ⟨reaches_store hv hf hm hcode hst, .of_consistent (hst.set hv hword) trivial⟩
  | some i =>
    cases d with
    | slot h => exact absurd (hd.2.symm.trans harray) Bool.false_ne_true
    | element a x => exact does_storeElem hd.2 hy hf hm hcode hst

include hlookup hindex

variable {o : Operand} {ev : Eval Value} {value : Expr}
  (hvalue : w.Computes (value.operand w.target).compile (value.evaluate w.situation))

include hvalue

/-- For sums and products it does not matter that the present value comes last. -/
theorem pushes_commuted (o : ArithOp)
    (hcomm : ∀ x y, o.meaning x y = o.meaning y x) :
    w.Pushes (do
      (value.operand w.target).compileInt
      Rules.presentValue w.target v (Expr.indexCode w.target index)
      Gen.emit w.target (.binary (Rules.arithInstruction o))) .int
      ((value.evaluate w.situation >>= Eval.word) >>= fun y =>
        w.situation.present n index >>= fun x => o.meaning x y) := by
  intro g u g' H m s hf hm hcode hst
  obtain ⟨_, g₁, h₁, hm⟩ := Gen.makes_bind.mp hm
  obtain ⟨_, g₂, h₂, h₃⟩ := Gen.makes_bind.mp hm
  have hvx := (Expr.operand_extends w.target value).compileAs (.scalar .int)
  have hpx : Gen.Extends w.target (Rules.presentValue w.target v (Expr.indexCode w.target index)) :=
    Rules.extends_presentValue (Expr.extends_indexCode _ _)
  have hcode₂ := hcode.extends (Gen.extends_emit _) h₃
  have hcode₁ := hcode₂.extends hpx h₂
  refine (hvalue.compileAs .int g _ g₁ H m s hf h₁ hcode₁ hst).bind fun y m₁ ⟨H₁, hst₁,
    hH₁, _⟩ => ?_
  have hf₁ := hf.extends hvx h₁
  refine (pushes_present hlookup hv harray hindex g₁ _ g₂ H₁ m₁ _ hf₁ h₂ hcode₂ hst₁).bind
    fun x m₂ ⟨H₂, hst₂, hH₂, _⟩ => ?_
  rw [hcomm]
  exact (does_operation (hf₁.extends hpx h₂) h₃ hcode hst₂).imp fun _ _ h => h.trans (hH₁.trans hH₂)

/-- For differences and quotients the present value is brought below the new one, or the right side
is evaluated once more. -/
theorem pushes_ordered (o : ArithOp) :
    w.Pushes (Rules.compound.ordered w.target v (Expr.indexCode w.target index)
      (value.operand w.target) (Rules.arithInstruction o)) .int
      ((value.evaluate w.situation >>= Eval.word) >>= fun y =>
        w.situation.present n index >>= fun x =>
          if w.legacy then (value.evaluate w.situation >>= Eval.word) >>= fun y => o.meaning x y
          else o.meaning x y) := by
  intro g u g' H m s hf hm hcode hst
  obtain ⟨_, g₁, h₁, hm⟩ := Gen.makes_bind.mp hm
  obtain ⟨_, g₂, hget, hrest⟩ := Gen.makes_bind.mp hm
  clear hm
  obtain ⟨rfl, rfl⟩ := Gen.makes_get.mp hget
  have hvx := (Expr.operand_extends w.target value).compileAs (.scalar .int)
  have hpx : Gen.Extends w.target (Rules.presentValue w.target v (Expr.indexCode w.target index)) :=
    Rules.extends_presentValue (Expr.extends_indexCode _ _)
  have hf₁ := hf.extends hvx h₁
  rw [hf₁.legacy] at hrest
  dsimp only at hrest
  cases hl : w.legacy with
  | true =>
    rw [hl, if_pos rfl] at hrest
    obtain ⟨_, g₃, hpop, hrest⟩ := Gen.makes_bind.mp hrest
    obtain ⟨_, g₄, hpresent, hrest⟩ := Gen.makes_bind.mp hrest
    obtain ⟨type, g₅, hagain, hop⟩ := Gen.makes_bind.mp hrest
    have hf₃ := hf₁.extends (Gen.extends_emit _) hpop
    have hf₄ := hf₃.extends hpx hpresent
    -- the second time the right side has the type that it had the first time
    obtain rfl : type = .scalar .int :=
      (type_eq value hf₄ hagain).trans (type_eq value hf (Operand.makes_compileAs h₁)).symm
    have hcode₅ := hcode.extends (Gen.extends_emit _) hop
    have hcode₄ := hcode₅.extends (Expr.operand_extends w.target value).compile hagain
    have hcode₃ := hcode₄.extends hpx hpresent
    have hcode₂ := hcode₃.extends (Gen.extends_emit _) hpop
    refine (hvalue.compileAs .int g _ _ H m s hf h₁ hcode₂ hst).bind fun y m₁ ⟨H₁, hst₁,
      hH₁, _⟩ => ?_
    refine Does.after ?_ (reaches_emit hf₁ hpop hcode₃ fun _ => Exec.outcome_pop)
    refine (pushes_present hlookup hv harray hindex _ _ _ H₁ m₁ s hf₃ hpresent hcode₄
      hst₁).bind fun x m₂ ⟨H₂, hst₂, hH₂, _⟩ => ?_
    rw [if_pos rfl]
    refine (hvalue.word hf₄ hagain hcode₅ hst₂).bind fun y' m₃ ⟨H₃, hst₃, hH₃, _⟩ => ?_
    have hf₅ := hf₄.extends (Expr.operand_extends w.target value).compile hagain
    exact (does_operation hf₅ hop hcode hst₃).imp fun _ _ h => h.trans (hH₁.trans (hH₂.trans hH₃))
  | false =>
    rw [hl, if_neg Bool.false_ne_true] at hrest
    obtain ⟨_, g₃, hpresent, hrest⟩ := Gen.makes_bind.mp hrest
    obtain ⟨_, g₄, hswap, hop⟩ := Gen.makes_bind.mp hrest
    have hcode₄ := hcode.extends (Gen.extends_emit _) hop
    have hcode₃ := hcode₄.extends (Gen.extends_emit _) hswap
    have hcode₂ := hcode₃.extends hpx hpresent
    refine (hvalue.compileAs .int g _ _ H m s hf h₁ hcode₂ hst).bind fun y m₁ ⟨H₁, hst₁,
      hH₁, _⟩ => ?_
    refine (pushes_present hlookup hv harray hindex _ _ _ H₁ m₁ _ hf₁ hpresent hcode₃
      hst₁).bind fun x m₂ ⟨H₂, hst₂, hH₂, _⟩ => ?_
    have hf₃ := hf₁.extends hpx hpresent
    refine Does.after ?_ (reaches_emit hf₃ hswap hcode₄ fun _ => Exec.outcome_swap)
    rw [if_neg Bool.false_ne_true]
    exact (does_operation (hf₃.extends (Gen.extends_emit _) hswap) hop hcode hst₂).imp fun _ _ h =>
      h.trans (hH₁.trans hH₂)

/-- The word that an assignment stores. -/
theorem pushes_newValue (op : AssignOp) (hop : op = .set ∨ v.type = .int) :
    w.Pushes (Rules.compound w.target v (Expr.indexCode w.target index) op (value.operand w.target))
      v.type (w.situation.newValue n index op value) := by
  have hsum (x y : Int32) : ArithOp.add.meaning x y = ArithOp.add.meaning y x := by
    rw [ArithOp.meaning, ArithOp.meaning, Int.add_comm]
  have hproduct (x y : Int32) : ArithOp.mul.meaning x y = ArithOp.mul.meaning y x := by
    rw [ArithOp.meaning, ArithOp.meaning, Int.mul_comm]
  have hcommuted := pushes_commuted hlookup hv harray hindex hvalue
  have hordered := pushes_ordered hlookup hv harray hindex hvalue
  cases op with
  | set =>
    have hnew : w.situation.newValue n index .set value = value.evaluate w.situation >>=
      Eval.word := by
      simp [Situation.newValue, AssignOp.arith?]
    rw [hnew]
    exact hvalue.compileAs v.type
  | add =>
    rw [hop.resolve_left (by decide)]
    simpa [Situation.newValue, AssignOp.arith?, bind_assoc] using! hcommuted .add hsum
  | mul =>
    rw [hop.resolve_left (by decide)]
    simpa [Situation.newValue, AssignOp.arith?, bind_assoc] using! hcommuted .mul hproduct
  | sub =>
    rw [hop.resolve_left (by decide)]
    simpa [Situation.newValue, AssignOp.arith?, situation, bind_assoc] using! hordered .sub
  | div =>
    rw [hop.resolve_left (by decide)]
    simpa [Situation.newValue, AssignOp.arith?, situation, bind_assoc] using! hordered .div

/-- An assignment of a word. -/
theorem performs_assign (op : AssignOp) (hop : op = .set ∨ v.type = .int) :
    w.Performs (Rules.assignCode w.target v (Expr.indexCode w.target index) op
      (value.operand w.target)) (w.situation.assign n index op value) := by
  intro g u g' H m s hf hm hcode hst
  obtain ⟨_, g₁, hbefore, hrest⟩ := Gen.makes_bind.mp hm
  obtain ⟨_, g₂, hnew, hafter⟩ := Gen.makes_bind.mp hrest
  have hix := Expr.extends_indexCode w.target index
  have hcode₂ := hcode.extends Rules.extends_afterValue hafter
  have hnewx := Rules.extends_compound (v := v) hix (Expr.operand_extends w.target value) op
  have hcode₁ := hcode₂.extends hnewx hnew
  have hf₁ := hf.extends (Rules.extends_beforeValue hix) hbefore
  refine (does_designate hlookup hv harray hindex hf hbefore hcode₁ hst).bind
    fun d m₁ ⟨H₁, hst₁, hH₁, hd⟩ => ?_
  refine (pushes_newValue hlookup hv harray hindex hvalue op hop g₁ _ g₂ H₁ m₁ _ hf₁ hnew hcode₂
    hst₁).bind fun y m₂ ⟨H₂, hst₂, hH₂, hy⟩ => ?_
  exact (does_store hv harray (hd.mono hH₂) hy (hf₁.extends hnewx hnew) hafter hcode hst₂).imp
    fun _ _ h => h.trans (hH₁.trans hH₂)

omit hvalue

/-- `++` and `--`. -/
theorem performs_step (op : StepOp) (hint : v.type = .int) :
    w.Performs (Rules.stepCode w.target v (Expr.indexCode w.target index) op)
      (w.situation.step n index op) := by
  intro g u g' H m s hf hm hcode hst
  obtain ⟨_, g₁, hbefore, hrest⟩ := Gen.makes_bind.mp hm
  obtain ⟨_, g₂, hpresent, hrest⟩ := Gen.makes_bind.mp hrest
  obtain ⟨_, g₃, hone, hrest⟩ := Gen.makes_bind.mp hrest
  obtain ⟨_, g₄, hop, hafter⟩ := Gen.makes_bind.mp hrest
  have hinstruction : Gen.Makes (Gen.emit w.target (.binary (Rules.arithInstruction op.arith))) g₃
    ⟨⟩ g₄ := by
    cases op <;> exact hop
  have hix := Expr.extends_indexCode w.target index
  have hcode₄ := hcode.extends Rules.extends_afterValue hafter
  have hcode₃ := hcode₄.extends (Gen.extends_emit _) hinstruction
  have hcode₂ := hcode₃.extends (Gen.extends_emit _) hone
  have hcode₁ := hcode₂.extends (Rules.extends_presentValue hix) hpresent
  have hf₁ := hf.extends (Rules.extends_beforeValue hix) hbefore
  have hf₂ := hf₁.extends (Rules.extends_presentValue hix) hpresent
  have hf₃ := hf₂.extends (Gen.extends_emit _) hone
  have hf₄ := hf₃.extends (Gen.extends_emit _) hinstruction
  refine (does_designate hlookup hv harray hindex hf hbefore hcode₁ hst).bind
    fun d m₁ ⟨H₁, hst₁, hH₁, hd⟩ => ?_
  refine (pushes_present hlookup hv harray hindex g₁ _ g₂ H₁ m₁ _ hf₁ hpresent hcode₂ hst₁).bind
    fun x m₂ ⟨H₂, hst₂, hH₂, _⟩ => ?_
  refine Does.after ?_ (reaches_emit hf₂ hone hcode₃ fun _ => Exec.outcome_pushInt)
  refine (does_operation hf₃ hinstruction hcode₄ hst₂).bind fun y m₃ ⟨H₃, hst₃, hH₃, hy⟩ => ?_
  exact (does_store hv harray ((hd.mono hH₂).mono hH₃) (hint ▸ hy) hf₄ hafter hcode hst₃).imp
    fun _ _ h => h.trans (hH₁.trans (hH₂.trans hH₃))

end Places

/-! ## Whole arrays -/

section Copies

variable {a b : Symbol} (ha : w.Offers a) (hb : w.Offers b) (haa : a.isArray = true)
  (hba : b.isArray = true) (htype : b.type = a.type)

include ha hb haa hba htype

/-- One element is copied. -/
theorem performs_copyElement (k : UInt32) :
    w.Performs (Rules.copyElement w.target a b k) (do
      let x ← Eval.read a.handle
      let y ← Eval.element (← Eval.read b.handle) k.toInt32
      Eval.store (.element x k.toInt32) y) := by
  intro g u g' H m s hf hm hcode hst
  obtain ⟨_, g₁, htarget, hrest⟩ := Gen.makes_bind.mp hm
  obtain ⟨_, g₂, hindex, hrest⟩ := Gen.makes_bind.mp hrest
  obtain ⟨_, g₃, hsource, hrest⟩ := Gen.makes_bind.mp hrest
  obtain ⟨g₄, hagain, hrest⟩ := Gen.makes_forM_cons.mp hrest
  obtain ⟨g₅, hload, hrest⟩ := Gen.makes_forM_cons.mp hrest
  have hstore := Gen.makes_forM_one.mp hrest
  have hcode₅ := hcode.extends (Gen.extends_emit _) hstore
  have hcode₄ := hcode₅.extends (Gen.extends_emit _) hload
  have hcode₃ := hcode₄.extends (Gen.extends_emit _) hagain
  have hcode₂ := hcode₃.extends (Gen.extends_load b) hsource
  have hcode₁ := hcode₂.extends (Gen.extends_emit _) hindex
  have hf₁ := hf.extends (Gen.extends_load a) htarget
  have hf₂ := hf₁.extends (Gen.extends_emit _) hindex
  have hf₃ := hf₂.extends (Gen.extends_load b) hsource
  have hf₄ := hf₃.extends (Gen.extends_emit _) hagain
  refine (does_load ha hf htarget hcode₁ hst).bind fun x m₁ ⟨hm₁, hx⟩ => ?_
  subst hm₁
  refine Does.after ?_ (reaches_emit hf₁ hindex hcode₂ fun _ => Exec.outcome_pushInt)
  refine (does_load hb hf₂ hsource hcode₃ hst).bind fun z m₁ ⟨hm₁, hz⟩ => ?_
  subst hm₁
  refine Does.after ?_ (reaches_emit hf₃ hagain hcode₄ fun _ => Exec.outcome_pushInt)
  rw [Rules.cell_of_array haa] at hx
  rw [Rules.cell_of_array hba, htype] at hz
  refine (does_loadElem hf₄ hload hcode₅ hst hz).bind fun y m₂ ⟨H₂, hst₂, hH₂, hy⟩ => ?_
  exact (does_storeElem (hx.mono hH₂ id) hy (hf₄.extends (Gen.extends_emit _) hload) hstore hcode
    hst₂).imp fun _ _ h => h.trans hH₂

/-- One element after another is copied. -/
theorem performs_copy (start n : Nat) :
    w.Performs (Gen.forBelow (Rules.copyElement w.target a b) start n)
      (Eval.copy a.handle b.handle start n) :=
  .forBelow (Rules.extends_copyElement w.target a b)
    (fun _ => performs_copyElement ha hb haa hba htype _) (fun _ => rfl)
    (fun _ _ => by simp only [Eval.copy, bind_assoc]) start n

end Copies

/-! ## Output -/

/-- Output either is taken to its end or fails. -/
theorem does_write {i : Instruction} {text : String} {s' : List Value}
    (hout : ∀ p, Exec.outcome w.program.image i ((w.context p m).withStack s') =
      ((Exec.written text m.store).1.map fun _ => .onward,
        ((w.context p m).withStore (Exec.written text m.store).2).withStack s))
    (hf : w.Fits g) (hm : Gen.Makes (Gen.emit w.target i) g u g')
    (hcode : w.Continues (g'.draft w.target))
    (hst : w.Consistent H m) :
    w.Does (w.stand (g.draft w.target).position s' m) ((Eval.write text).run.run m)
      (fun _ m' => .active (w.stand (g'.draft w.target).position s m'))
      (fun _ m' => w.Keeps H m' fun _ => True) := by
  rw [Eval.run_write]
  cases hw : (Exec.written text m.store).1 with
  | ok _ =>
    rw [hw] at hout
    exact ⟨reaches_emit hf hm hcode hout, .of_consistent (hst.congr _ rfl rfl) trivial⟩
  | error e =>
    rw [hw] at hout
    exact fails_emit hf hm hcode hout

/-- A value that must be a string. -/
theorem Computes.string {code : Gen ExprType} {ev : Eval Value} (h : w.Computes code ev)
    (hf : w.Fits g) (hm : Gen.Makes code g .str g') (hcode : w.Continues (g'.draft w.target))
    (hst : w.Consistent H m) :
    w.Does (w.stand (g.draft w.target).position s m) ((ev >>= Eval.string).run.run m)
      (fun t m' => .active (w.stand (g'.draft w.target).position (.str t :: s) m'))
      (fun _ m' => w.Keeps H m' fun _ => True) := by
  refine (h g _ g' H m s hf hm rfl hcode hst).bind fun v m' ⟨H', hst', hH, hv⟩ => ?_
  obtain ⟨t, rfl⟩ := hv .str (.head _)
  exact Does.pure (.refl _ _) ⟨H', hst', hH, trivial⟩

section Output

/-- One value is pushed, with its type if it is a word. -/
theorem does_box {e : Expr} {es : List Operand}
    (he : w.Computes (e.operand w.target).compile (e.evaluate w.situation)) (hf : w.Fits g)
    (hm : Gen.Makes (Rules.formatArguments w.target (e.operand w.target :: es)) g u g')
    (hes : Gen.Extends w.target (Rules.formatArguments w.target es))
    (hcode : w.Continues (g'.draft w.target)) (hst : w.Consistent H m) :
    ∃ g₁, w.Fits g₁ ∧ Gen.Makes (Rules.formatArguments w.target es) g₁ u g' ∧
      w.Does (w.stand (g.draft w.target).position s m) ((w.situation.box e).run.run m)
        (fun v m' => .active (w.stand (g₁.draft w.target).position (v :: s) m'))
        (fun _ m' => w.Keeps H m' fun _ => True) := by
  obtain ⟨type, g₁, h₁, hrest⟩ := Gen.makes_bind.mp hm
  have htype := type_eq e hf h₁
  have hf₁ := hf.extends (Expr.operand_extends w.target e).compile h₁
  unfold Situation.box
  rw [← htype]
  dsimp only at hrest
  split at hrest
  · rename_i t
    obtain ⟨_, g₂, hbox, hrest⟩ := Gen.makes_bind.mp hrest
    have hcode₂ := hcode.extends hes hrest
    have hboth : w.Does _ (((e.evaluate w.situation >>= Eval.word) >>= fun x =>
        pure (.boxed t x) : Eval Value).run.run m) _ _ :=
      (he.word (s := s) hf h₁ (hcode₂.extends (Gen.extends_emit _) hbox) hst).bind
        fun x m₁ ⟨H₁, hst₁, hH₁, _⟩ =>
          (Does.pure (reaches_emit hf₁ hbox hcode₂ fun _ => Exec.outcome_box) ⟨H₁, hst₁, hH₁,
            trivial⟩ :
            w.Does _ ((pure (.boxed t x) : Eval Value).run.run m₁)
              (fun v m' => .active (w.stand (g₂.draft w.target).position (v :: s) m'))
              (fun _ m' => w.Keeps H m' fun _ => True))
    exact ⟨g₂, hf₁.extends (Gen.extends_emit _) hbox, hrest, by simpa only [bind_assoc] using hboth⟩
  · exact ⟨g₁, hf₁, hrest, (he g _ g₁ H m s hf h₁ rfl (hcode.extends hes hrest) hst).imp
      fun _ _ ⟨H₁, hst₁, hH₁, _⟩ => ⟨H₁, hst₁, hH₁, trivial⟩⟩
  · exact absurd hrest Gen.not_makes_fail_bind

variable {args : List Expr}
  (ha : ∀ e ∈ args, w.Computes (e.operand w.target).compile (e.evaluate w.situation))

include ha

/-- The values behind a format string are pushed with their types, the first one lowest. -/
theorem does_boxes (hf : w.Fits g)
    (hm : Gen.Makes (Rules.formatArguments w.target (Expr.operands w.target args)) g u g')
    (hcode : w.Continues (g'.draft w.target)) (hst : w.Consistent H m) :
    w.Does (w.stand (g.draft w.target).position s m) ((w.situation.boxes args).run.run m)
      (fun vs m' => .active (w.stand (g'.draft w.target).position (vs.reverse ++ s) m'))
      (fun vs m' => w.Keeps H m' fun _ => vs.length = args.length) := by
  induction args generalizing g H m s with
  | nil =>
    obtain ⟨-, rfl⟩ := Gen.makes_pure.mp hm
    exact Does.pure (.refl _ _) (.of_consistent hst rfl)
  | cons e es ih =>
    have hes : Gen.Extends w.target (Rules.formatArguments w.target (Expr.operands w.target es)) :=
      Rules.extends_formatArguments (Expr.extends_operands w.target es)
    obtain ⟨g₁, hf₁, hrest, hone⟩ := does_box (ha e (.head _)) hf hm hes hcode hst
    refine hone.bind fun v m₁ ⟨H₁, hst₁, hH₁, _⟩ => ?_
    refine (ih (fun a h => ha a (.tail _ h)) hf₁ hrest hst₁).bind fun vs m₂ ⟨H₂, hst₂, hH₂,
      hlen⟩ => ?_
    refine Does.pure ?_ ⟨H₂, hst₂, hH₁.trans hH₂, congrArg (· + 1) hlen⟩
    rw [List.reverse_cons, List.append_assoc]
    exact .refl _ _

/-- Output of one value, or of a format string filled with values. -/
theorem does_print (name : Name) {type : ExprType} (hf : w.Fits g)
    (hm : Gen.Makes (Rules.print w.target name (Expr.operands w.target args)) g type g')
    (hcode : w.Continues (g'.draft w.target)) (hst : w.Consistent H m) :
    w.Does (w.stand (g.draft w.target).position s m) ((w.situation.print args).run.run m)
      (fun _ m' => .active (w.stand (g'.draft w.target).position s m'))
      (fun _ m' => w.Keeps H m' fun _ => True) := by
  match args with
  -- The rule looks at the number of arguments before it looks at their types.
  | [] => exact absurd hm Gen.not_makes_fail
  | [e] =>
    obtain ⟨found, g₁, h₁, hrest⟩ := Gen.makes_bind.mp hm
    have he := ha e (.head _)
    show w.Does _ ((w.situation.printOne e).run.run m) _ _
    unfold Situation.printOne
    rw [← type_eq e hf h₁]
    dsimp only at hrest
    split at hrest
    -- a word, written as its type has it
    · rename_i t
      obtain ⟨_, g₂, hwrite, hdone⟩ := Gen.makes_bind.mp hrest
      obtain ⟨-, rfl⟩ := Gen.makes_pure.mp hdone
      have hcode₁ := hcode.extends (Gen.extends_emit _) hwrite
      have hf₁ := hf.extends (Expr.operand_extends w.target e).compile h₁
      dsimp only
      rw [← bind_assoc]
      exact (he.word hf h₁ hcode₁ hst).bind fun x m₁ ⟨H₁, hst₁, hH₁, _⟩ =>
        (does_write (fun _ => Exec.outcome_print) hf₁ hwrite hcode hst₁).imp fun _ _ h =>
          h.trans hH₁
    -- a text, written as it is
    · obtain ⟨_, g₂, hwrite, hdone⟩ := Gen.makes_bind.mp hrest
      obtain ⟨-, rfl⟩ := Gen.makes_pure.mp hdone
      have hcode₁ := hcode.extends (Gen.extends_emit _) hwrite
      have hf₁ := hf.extends (Expr.operand_extends w.target e).compile h₁
      dsimp only
      rw [← bind_assoc]
      exact (he.string hf h₁ hcode₁ hst).bind fun x m₁ ⟨H₁, hst₁, hH₁, _⟩ =>
        (does_write (fun _ => Exec.outcome_printStr) hf₁ hwrite hcode hst₁).imp fun _ _ h =>
          h.trans hH₁
    · exact absurd hrest Gen.not_makes_fail_bind
  -- A format is evaluated first and filled last, so its arguments are on top of it.
  | format :: e :: es =>
    obtain ⟨found, g₁, h₁, hrest⟩ := Gen.makes_bind.mp hm
    dsimp only at hrest
    rw [Gen.makes_check] at hrest
    obtain ⟨hfound, hrest⟩ := hrest
    obtain rfl : found = .str := Decidable.not_not.mp hfound
    obtain ⟨_, g₂, hboxes, hrest⟩ := Gen.makes_bind.mp hrest
    obtain ⟨_, g₄, hwrite, hdone⟩ := Gen.makes_bind.mp hrest
    obtain ⟨-, rfl⟩ := Gen.makes_pure.mp hdone
    have hcode₂ := hcode.extends (Gen.extends_emit _) hwrite
    have hcode₁ := hcode₂.extends
      (Rules.extends_formatArguments (Expr.extends_operands w.target (e :: es))) hboxes
    have hf₁ := hf.extends (Expr.operand_extends w.target format).compile h₁
    have hf₂ := hf₁.extends
      (Rules.extends_formatArguments (Expr.extends_operands w.target (e :: es))) hboxes
    rw [Situation.print_format]
    refine ((ha format (.head _)).string hf h₁ hcode₁ hst).bind fun f m₁ ⟨H₁, hst₁, hH₁, _⟩ => ?_
    refine (does_boxes (fun a h => ha a (.tail _ h)) hf₁ hboxes hcode₂ hst₁).bind
      fun vs m₂ ⟨H₂, hst₂, hH₂, hlen⟩ => ?_
    have hlength := Rules.length_formatArguments (Expr.extends_operands w.target (e :: es)) hboxes
    -- The number of arguments is an operand of the instruction, and has 32 bits there.
    have hn : vs.length = (UInt32.ofNat (Expr.operands w.target (e :: es)).length).toNat := by
      rw [hlen, ← Expr.length_operands w.target, hcode₂.code.addressable.toNat_position (by omega)]
    have hout (p : Nat) : Exec.outcome w.program.image (.printFormat _)
        ((w.context p m₂).withStack (vs.reverse ++ .str f :: s)) = _ := Exec.outcome_printFormat hn
    rcases hc : compose f vs with - | text <;> rw [hc] at hout
    · exact fails_emit hf₂ hwrite hcode hout
    · exact (does_write hout hf₂ hwrite hcode hst₂).imp fun _ _ h => h.trans (hH₁.trans hH₂)

end Output

/-! ## Input -/

/-- A line is read and understood as a word. -/
theorem does_line (hf : w.Fits g)
    (hm : Gen.Makes (Gen.emitAll w.target [.readLine, .parse t]) g u g')
    (hcode : w.Continues (g'.draft w.target)) (hst : w.Consistent H m) :
    w.Does (w.stand (g.draft w.target).position s m)
      ((Eval.line >>= Eval.parsed t).run.run m)
      (fun x m' => .active (w.stand (g'.draft w.target).position (.word x :: s) m'))
      (fun x m' => w.Keeps H m' fun _ => t.Valid x) := by
  obtain ⟨g₁, hread, hrest⟩ := Gen.makes_forM_cons.mp hm
  have hparse := Gen.makes_forM_one.mp hrest
  have hcode₁ := hcode.extends (Gen.extends_emit _) hparse
  have hf₁ := hf.extends (Gen.extends_emit _) hread
  -- The machine reads the line that evaluation reads, from the same store.
  have hout (p : Nat) : Exec.outcome w.program.image .readLine ((w.context p m).withStack s) = _ :=
    Exec.outcome_readLine
  have hsame : (Exec.lineRead m.store).2.fields = m.store.fields ∧
      (Exec.lineRead m.store).2.arrays = m.store.arrays := by
    unfold Exec.lineRead
    split <;> exact ⟨rfl, rfl⟩
  have hline : w.Does (w.stand (g.draft w.target).position s m) (Eval.line.run.run m)
      (fun text m' => .active (w.stand (g₁.draft w.target).position (.str text :: s) m'))
      (fun _ m' => w.Keeps H m' fun _ => True) := by
    rw [Eval.run_line]
    rcases hl : Exec.lineRead m.store with ⟨e | text, st⟩ <;> rw [hl] at hsame <;>
      simp only [show ∀ p, Exec.lineRead (w.context p m).store = _ from fun _ => hl] at hout
    · exact fails_emit hf hread hcode₁
        fun p => (hout p : _ = (_, (w.context p { m with store := st }).withStack s))
    · exact ⟨reaches_emit hf hread hcode₁
        fun p => (hout p : _ = (_, (w.context p { m with store := st }).withStack _)),
        .of_consistent (hst.congr _ hsame.1 hsame.2) trivial⟩
  -- Behind the line only its text can be wrong.
  refine hline.bind fun text m₁ ⟨H₁, hst₁, hH₁, _⟩ => ?_
  have hout₁ (p : Nat) : Exec.outcome w.program.image (.parse t)
      ((w.context p m₁).withStack (.str text :: s)) = _ := Exec.outcome_parse
  rw [Eval.run_parsed]
  cases hp : t.parse? m₁.store.caseless text.toList with
  | none =>
    simp only [show ∀ p, WordType.parse? (w.context p m₁).store.caseless t _ = _ from fun _ => hp]
      at hout₁
    exact fails_emit hf₁ hparse hcode hout₁
  | some x =>
    simp only [show ∀ p, WordType.parse? (w.context p m₁).store.caseless t _ = _ from fun _ => hp]
      at hout₁
    exact ⟨reaches_emit hf₁ hparse hcode hout₁, H₁, hst₁, hH₁, WordType.valid_of_parse? hp⟩

/-- Input of one line into one place. -/
theorem performs_putOne (hw : w.Sound)
    (hc : ∀ e, w.Computes (Expr.operand w.target e).compile (e.evaluate w.situation)) (e : Expr) :
    w.Performs (Rules.putOne w.target (e.operand w.target)) (w.situation.putOne e) := by
  intro g u g' H m s hf hm hcode hst
  obtain ⟨name, index, v, hp, hv, harray, hrule⟩ := Rules.makes_putOne hm
  obtain ⟨i, hplace, rfl⟩ := Expr.place?_of_operand hp
  obtain ⟨-, hlookup, hoffers⟩ := hw.offers hf hv
  have harray' : v.isArray = i.isSome := by
    rw [harray, Expr.indexCode, Option.isSome_map]
  obtain ⟨_, g₁, hbefore, hrest⟩ := Gen.makes_bind.mp hrule
  obtain ⟨_, g₂, hline, hafter⟩ := Gen.makes_bind.mp hrest
  have hcode₂ := hcode.extends Rules.extends_afterValue hafter
  have hcode₁ := hcode₂.extends (Gen.extends_emitAll _) hline
  have hf₁ := hf.extends (Rules.extends_beforeValue (Expr.extends_indexCode w.target i)) hbefore
  have hf₂ := hf₁.extends (Gen.extends_emitAll _) hline
  have heq : w.situation.putOne e = w.situation.designate name i >>= fun d =>
      (Eval.line >>= Eval.parsed v.type) >>= fun y => Eval.store d y := by
    unfold Situation.putOne
    rw [hplace]
    dsimp only
    rw [show w.situation.scopes.lookup name.value = some v from hlookup]
    simp only [bind_assoc]
  rw [heq]
  refine (does_designate hlookup hoffers harray' (fun i _ => hc i) hf hbefore hcode₁ hst).bind
    fun d m₁ ⟨H₁, hst₁, hH₁, hd⟩ => ?_
  refine (does_line hf₁ hline hcode₂ hst₁).bind fun y m₂ ⟨H₂, hst₂, hH₂, hy⟩ => ?_
  exact (does_store hoffers harray' (hd.mono hH₂) hy hf₂ hafter hcode hst₂).imp
    fun _ _ h => h.trans (hH₁.trans hH₂)

/-- Input, one line for each place. -/
theorem performs_put (hw : w.Sound)
    (hc : ∀ e, w.Computes (Expr.operand w.target e).compile (e.evaluate w.situation))
    (args : List Expr) : w.Performs ((Expr.operands w.target args).forM (Rules.putOne w.target))
      (w.situation.put args) := by
  induction args with
  | nil =>
    intro g u g' H m s _ hm _ hst
    obtain rfl := Gen.makes_forM_nil.mp hm
    exact Does.pure (.refl _ _) (.of_consistent hst trivial)
  | cons e es ih =>
    intro g u g' H m s hf hm hcode hst
    obtain ⟨g₁, hone, hrest⟩ := Gen.makes_forM_cons.mp hm
    have hx := Rules.extends_putOne (Expr.operand_extends w.target e)
    have hesx : Gen.Extends w.target ((Expr.operands w.target es).forM (Rules.putOne w.target)) :=
      Gen.extends_forM fun o ho => Rules.extends_putOne (Expr.extends_operands w.target es o ho)
    exact (performs_putOne hw hc e g _ g₁ H m s hf hone (hcode.extends hesx hrest) hst).bind
      fun _ m₁ ⟨H₁, hst₁, hH₁, _⟩ =>
        (ih g₁ _ g' H₁ m₁ s (hf.extends hx hone) hrest hcode hst₁).imp fun _ _ h => h.trans hH₁

/-! ## Expressions -/

/-- Running the code that `m` generates, from any stack, does what `ev` says, if it leaves no
value. -/
def Acts (w : Site) (m : Gen ExprType) (ev : Eval Unit) : Prop :=
  ∀ g type g' H mem s, w.Fits g → Gen.Makes m g type g' → type.hasValue = false →
    w.Continues (g'.draft w.target) → w.Consistent H mem →
    w.Does (w.stand (g.draft w.target).position s mem) (ev.run.run mem)
      (fun _ m' => .active (w.stand (g'.draft w.target).position s m'))
      (fun _ m' => w.Keeps H m' fun _ => True)

section

variable (hw : w.Sound) (hp : w.program.image.Typed w.program.tree.plan)

include hw hp

/-- A call for its effect: of a routine, or output, or input. -/
theorem performs_call (n : Name) (args : List Expr) :
    w.Performs (Rules.dropped w.target (Expr.operand w.target (.call n args)))
      ((Expr.call n args).perform w.situation) := by
  intro g u g' H m s hf hm hcode hst
  obtain ⟨type, g₁, hcompile, hpop⟩ := Gen.makes_bind.mp hm
  obtain ⟨f, hlookup, hrule⟩ := Rules.makes_call hcompile
  rw [hf.functions] at hlookup
  rw [Expr.perform_call, show w.situation.functions.lookup n.value = some f from hlookup,
    Option.map_some]
  split at hrule
  -- output
  · rename_i hbody
    rw [hbody]
    rw [Rules.returns_print _ _ _ _ _ hrule] at hpop
    obtain ⟨-, rfl⟩ := Gen.makes_pure.mp hpop
    exact does_print (fun e _ => computes hw hp e) n hf hrule hcode hst
  -- input
  · rename_i hbody
    rw [hbody]
    rw [Rules.returns_put _ _ _ _ _ hrule] at hpop
    obtain ⟨-, rfl⟩ := Gen.makes_pure.mp hpop
    unfold Rules.put Rules.putEach at hrule
    rw [Gen.makes_check] at hrule
    obtain ⟨_, g₂, hput, hdone⟩ := Gen.makes_bind.mp hrule.2
    obtain ⟨-, rfl⟩ := Gen.makes_pure.mp hdone
    exact performs_put hw (computes hw hp) args g _ _ H m s hf hput hcode hst
  -- A function of the program leaves its value, which the statement drops.
  · rename_i r hbody
    rw [hbody]
    obtain ⟨hlen, rfl, g₂, hargs, hcall⟩ := hrule
    rw [Expr.length_operands] at hlen
    have hdropx : Gen.Extends w.target (if ((f.returns.map ExprType.scalar).getD .void).hasValue
        then Gen.emit w.target .pop else pure ⟨⟩) := by
      split
      · exact Gen.extends_emit _
      · exact Gen.extends_pure _
    have hargsx : Gen.Extends w.target
        (Rules.arguments (Expr.operands w.target args) f.params) :=
      Rules.extends_arguments (Expr.extends_operands w.target args) _
    have hf₂ := (hf.extends hargsx hargs).extends (Gen.extends_emit _) hcall
    have hboth : w.Does (w.stand (g.draft w.target).position s m)
        (((Expr.evaluateAll w.situation args >>= w.situation.call n) >>= fun _ => pure ⟨⟩ :
          Eval Unit).run.run m)
        (fun _ m' => .active (w.stand (g'.draft w.target).position s m'))
        (fun _ m' => w.Keeps H m' fun _ => True) := by
      refine (does_function hw hp hlookup hbody (fun e _ => computes hw hp e) hlen hf hargs hcall
        (hcode.extends hdropx hpop) hst).bind fun v m' ⟨H', hst', hH, hv⟩ => ?_
      refine Does.pure ?_ ⟨H', hst', hH, trivial⟩
      -- A function without a type leaves nothing that could be dropped.
      cases hreturns : f.returns with
      | none =>
        rw [hreturns] at hv hpop
        obtain ⟨-, rfl⟩ := Gen.makes_pure.mp hpop
        obtain - | v := v
        · exact .refl _ _
        · cases hv
      | some t =>
        rw [hreturns] at hv hpop
        obtain - | v := v
        · cases hv
        · exact reaches_emit hf₂ hpop hcode fun _ => Exec.outcome_pop
    simpa only [bind_assoc] using hboth

/-- An assignment of a word or of a whole array. -/
theorem acts_assign (p : Expr) (op : Located AssignOp) (value : Expr) :
    w.Acts (Expr.operand w.target (.assign p op value)).compile
      ((Expr.assign p op value).perform w.situation) := by
  intro g type g' H m s hf hm _ hcode hst
  obtain ⟨-, name, index, v, hplace, hv, hrule⟩ := Rules.makes_assign hm
  obtain ⟨i, hp', rfl⟩ := Expr.place?_of_operand hplace
  obtain ⟨-, hlookup, hoffers⟩ := hw.offers hf hv
  rw [Expr.perform_assign, hp']
  dsimp only
  rw [show w.situation.scopes.lookup name.value = some v from hlookup]
  obtain ⟨hnone, harray, hset, hcopy⟩ | ⟨harray, hop, hassign⟩ := hrule
  · obtain rfl : i = none := by simpa [Expr.indexCode] using hnone
    obtain ⟨source, b, hsource, hb, hba, htype, -, hcopies⟩ := Rules.makes_copyArray hcopy
    obtain ⟨j, hvalue, hnone'⟩ := Expr.place?_of_operand hsource
    obtain rfl : j = none := by simpa [Expr.indexCode] using hnone'.symm
    obtain ⟨-, hlookup', hoffers'⟩ := hw.offers hf hb
    dsimp only
    rw [if_pos harray, Situation.assignArray, hvalue]
    dsimp only
    rw [show w.situation.scopes.lookup source.value = some b from hlookup']
    exact performs_copy hoffers hoffers' harray hba htype 0 _ g _ g' H m s hf hcopies hcode hst
  · have harray' : v.isArray = i.isSome := by rw [harray, Expr.indexCode, Option.isSome_map]
    have hdoes := performs_assign hlookup hoffers harray' (fun i _ => computes hw hp i)
      (computes hw hp value) op.value hop g _ g' H m s hf hassign hcode hst
    cases i with
    | none =>
      dsimp only
      rw [if_neg (by rw [harray']; decide)]
      exact hdoes
    | some i => exact hdoes

/-- `++` and `--`. -/
theorem acts_step (p : Expr) (op : Located StepOp) :
    w.Acts (Expr.operand w.target (.step p op)).compile
      ((Expr.step p op).perform w.situation) := by
  intro g type g' H m s hf hm _ hcode hst
  obtain ⟨-, name, index, v, hplace, hv, harray, hint, hstep⟩ := Rules.makes_step hm
  obtain ⟨i, hp', rfl⟩ := Expr.place?_of_operand hplace
  obtain ⟨-, hlookup, hoffers⟩ := hw.offers hf hv
  rw [Expr.perform_step, hp']
  exact performs_step hlookup hoffers (by rw [harray, Expr.indexCode, Option.isSome_map])
    (fun i _ => computes hw hp i) op.value hint g _ g' H m s hf hstep hcode hst

/-- What leaves a value that is dropped. -/
theorem performs_value {e : Expr} (heq : e.perform w.situation = do let _ ← e.evaluate w.situation)
    (hvalue : ∀ g type g', w.Fits g → Gen.Makes (e.operand w.target).compile g type g' →
      type.hasValue = true) :
    w.Performs (Rules.dropped w.target (e.operand w.target)) (e.perform w.situation) := by
  intro g u g' H m s hf hm hcode hst
  obtain ⟨type, g₁, h₁, hpop⟩ := Gen.makes_bind.mp hm
  have hv := hvalue g type g₁ hf h₁
  rw [hv, if_pos rfl] at hpop
  rw [heq]
  refine (computes hw hp e g type g₁ H m s hf h₁ hv (hcode.extends (Gen.extends_emit _) hpop)
    hst).bind fun v m' ⟨H', hst', hH, _⟩ => ?_
  have hf₁ := hf.extends (Expr.operand_extends w.target e).compile h₁
  exact Does.pure (reaches_emit hf₁ hpop hcode fun _ => Exec.outcome_pop) ⟨H', hst', hH, trivial⟩

omit hw hp in
/-- What leaves no value. -/
theorem Acts.performs {o : Operand} {ev : Eval Unit} (h : w.Acts o.compile ev)
    (hvalue : ∀ g type g', Gen.Makes o.compile g type g' → type.hasValue = false) :
    w.Performs (Rules.dropped w.target o) ev := by
  intro g u g' H m s hf hm hcode hst
  obtain ⟨type, g₁, h₁, hpop⟩ := Gen.makes_bind.mp hm
  have hv := hvalue g type g₁ h₁
  rw [hv, if_neg Bool.false_ne_true] at hpop
  obtain ⟨-, rfl⟩ := Gen.makes_pure.mp hpop
  exact h g type _ H m s hf h₁ hv hcode hst

/-- **Code for an expression whose value is dropped does what the expression does.** -/
theorem performs (e : Expr) :
    w.Performs (Rules.dropped w.target (e.operand w.target)) (e.perform w.situation) := by
  induction e using Expr.induct with
  | paren e ih => exact ih
  | call n args => exact performs_call hw hp n args
  -- Increments and assignments have no value that could be dropped.
  | step p op =>
    exact (acts_step hw hp p op).performs fun _ _ _ h =>
      congrArg ExprType.hasValue (Rules.makes_step h).1
  | assign p op value =>
    exact (acts_assign hw hp p op value).performs fun _ _ _ h =>
      congrArg ExprType.hasValue (Rules.makes_assign h).1
  -- All others have a value, which is dropped unless it is an array.
  | var n =>
    refine performs_value hw hp rfl fun g type g' hf h => ?_
    obtain ⟨v, g₁, hv, hrest⟩ := Gen.makes_bind.mp h
    rw [(Gen.Returns.bind fun _ => Gen.returns_pure) _ _ _ hrest]
    split <;> rfl
  | elem n i =>
    refine performs_value hw hp rfl fun g type g' hf h => ?_
    obtain ⟨v, g₁, hv, hrest⟩ := Gen.makes_bind.mp h
    obtain ⟨_, g₂, -, hrest⟩ := Gen.makes_bind.mp hrest
    split at hrest
    · rw [(Gen.Returns.bind fun _ => .bind fun _ => Gen.returns_pure) _ _ _ hrest]
      rfl
    · exact absurd hrest Gen.not_makes_fail
  | literal l =>
    refine performs_value hw hp rfl fun g type g' hf h => ?_
    rw [type_eq _ hf h, Expr.typeIn]
    split <;> rfl
  | lead op e => exact performs_value hw hp rfl fun _ _ _ hf h => type_eq _ hf h ▸ rfl
  | arith l op r => exact performs_value hw hp rfl fun _ _ _ hf h => type_eq _ hf h ▸ rfl
  | compare l op r => exact performs_value hw hp rfl fun _ _ _ hf h => type_eq _ hf h ▸ rfl
  | negate word e => exact performs_value hw hp rfl fun _ _ _ hf h => type_eq _ hf h ▸ rfl
  | logic op l r => exact performs_value hw hp rfl fun _ _ _ hf h => type_eq _ hf h ▸ rfl

end

end Site

end OnePass
