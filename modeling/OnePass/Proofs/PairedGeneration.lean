import OnePass.Proofs.Effects
import OnePass.Proofs.TypeChecking

/-!
# Two forms of code generation side by side

The right side of a compound subtraction or division is compiled once in the default form and twice
in the legacy form; all else is compiled alike. So the two forms are run side by side. A `Pairing`
says how the streams of the one correspond to those of the other, and `Pairing.Pairs` that two
generators do the same in corresponding states. It composes as generators do, so that each rule gets
one lemma.

The code for a compound subtraction or division is an assumption of the lemmas (`Pairing.Allows`).
Main statement: where the pairing allows every compound of an expression, both forms of the
expression do the same (`Expr.operand_agrees`).
-/

namespace OnePass

/-! ## Labels -/

/-- Instructions that differ in the label that they go to at most. -/
inductive Instruction.Pairs (label : UInt32 → UInt32 → Prop) :
    Instruction → Instruction → Prop where
  | same (i : Instruction) : Pairs label i i
  | jump {l l' : UInt32} : label l l' → Pairs label (.jump l) (.jump l')
  | jumpIfFalse {l l' : UInt32} : label l l' → Pairs label (.jumpIfFalse l) (.jumpIfFalse l')
  | jumpIfTrue {l l' : UInt32} : label l l' → Pairs label (.jumpIfTrue l) (.jumpIfTrue l')

/-- The labels of two loops correspond. -/
structure LoopLabels.Pairs (label : UInt32 → UInt32 → Prop) (k k' : LoopLabels) : Prop where
  top : label k.top k'.top
  test : label k.test k'.test
  exit : label k.exit k'.exit

/-- Statements that wait, and differ in their labels at most. -/
inductive Pending.Pairs (label : UInt32 → UInt32 → Prop) : Pending → Pending → Prop where
  | choice {l l' : UInt32} : label l l' → Pairs label (.choice l) (.choice l')
  | loop {k k' : LoopLabels} : k.Pairs label k' → Pairs label (.loop k) (.loop k')
  | count (counter : UInt32) {k k' : LoopLabels} :
    k.Pairs label k' → Pairs label (.count counter k) (.count counter k')

/-- Exits lead to corresponding labels. -/
theorem Pending.findSome?_exit {label : UInt32 → UInt32 → Prop} {ps ps' : List Pending}
    (h : List.Forall₂ (Pending.Pairs label) ps ps') :
    Option.Rel label (ps.findSome? exit?) (ps'.findSome? exit?) := by
  induction h with
  | nil => exact .none
  | cons hp _ ih =>
    cases hp with
    | choice _ => exact ih
    | loop hk => exact .some hk.exit
    | count _ hk => exact .some hk.exit

/-! ## Corresponding results -/

/-- Results of the two forms are alike: both are successes, as `R` says, or both are the same
error. -/
def Alike {ε α β : Type} (R : α → β → Prop) : Except ε α → Except ε β → Prop
  | .ok a, .ok b => R a b
  | .error e, .error e' => e' = e
  | .ok _, .error _ | .error _, .ok _ => False

/-! ## Corresponding states -/

/-- How streams under construction correspond. -/
structure Pairing where
  /-- which labels stand for each other -/
  label : UInt32 → UInt32 → Prop
  /-- which streams do -/
  draft : Draft → Draft → Prop
  empty : draft .empty .empty
  emit {d d' : Draft} {i i' : Instruction} :
    draft d d' → i.Pairs label i' → draft (d.emit i) (d'.emit i')
  addLabel {d d' : Draft} : draft d d' → draft d.addLabel d'.addLabel
  newest {d d' : Draft} :
    draft d d' → label (.ofNat d.labels.size) (.ofNat d'.labels.size)
  mark {d d' : Draft} {l l' : UInt32} :
    draft d d' → label l l' → draft (d.mark l.toNat) (d'.mark l'.toNat)

namespace Pairing

/-- Routines that are alike but for their code, and that corresponds. -/
structure Routines (P : Pairing) (r r' : Routine) : Prop where
  name : r'.name = r.name
  params : r'.params = r.params
  returns : r'.returns = r.returns
  locals : r'.locals = r.locals
  code : ∃ d d', P.draft d d' ∧ r.code = d.toCode ∧ r'.code = d'.toCode

/-- States of the default form and of the legacy form that correspond. -/
structure Paired (P : Pairing) (g g' : Generator) : Prop where
  scopes : g'.scopes = g.scopes
  functions : g'.functions = g.functions
  fields : g'.fields = g.fields
  current : g'.current = g.current
  routines : List.Forall₂ P.Routines g.routines.toList g'.routines.toList
  plain : g.legacy = false
  legacy : g'.legacy = true
  initializer : P.draft g.initializer g'.initializer
  body : P.draft g.body g'.body
  pending : List.Forall₂ (Pending.Pairs P.label) g.pending g'.pending

/-- How both forms come out: in corresponding states, with values as `S` says, or with the same
error. -/
def Ends {α β : Type} (P : Pairing) (S : α → β → Prop) :
    Except (Located SemanticError) (α × Generator) →
    Except (Located SemanticError) (β × Generator) → Prop :=
  Alike fun x y => S x.1 y.1 ∧ P.Paired x.2 y.2

/-- Two generators do the same, one in the default form and the other in the legacy form. -/
def Pairs {α β : Type} (P : Pairing) (S : α → β → Prop) (m : Gen α) (m' : Gen β) : Prop :=
  ∀ g g', P.Paired g g' → P.Ends S (m.run g) (m'.run g')

/-- A generator does the same in both forms. -/
def Agrees {α : Type} (P : Pairing) (m : Gen α) : Prop := P.Pairs (· = ·) m m

variable {P : Pairing}

/-- Paired generators have made as many routines. -/
theorem Paired.size_routines {g g' : Generator} (h : P.Paired g g') :
    g'.routines.size = g.routines.size := h.routines.length_eq.symm

/-- The streams of paired generators are paired, for either target. -/
theorem Paired.draft {g g' : Generator} (h : P.Paired g g') (t : Target) :
    P.draft (g.draft t) (g'.draft t) := by
  cases t with
  | initializer => exact h.initializer
  | function => exact h.body

/-- What keeps streams paired keeps generators paired. -/
theorem Paired.onDraft {g g' : Generator} (h : P.Paired g g') (t : Target) {f f' : Draft → Draft}
    (hf : P.draft (f (g.draft t)) (f' (g'.draft t))) :
    P.Paired (g.onDraft t f) (g'.onDraft t f') := by
  cases t with
  | initializer => exact { h with initializer := hf }
  | function => exact { h with body := hf }

/-- Only the legacy form goes on. -/
theorem Paired.longer {g g' : Generator} (h : P.Paired g g') (t : Target) {f : Draft → Draft}
    (hf : P.draft (g.draft t) (f (g'.draft t))) : P.Paired g (g'.onDraft t f) := by
  cases t with
  | initializer => exact { h with initializer := hf }
  | function => exact { h with body := hf }

section

variable {α β γ δ : Type} {S : α → β → Prop} {T : γ → δ → Prop}

/-! ## Composition -/

/-- A generator that agrees with itself makes equal results. -/
theorem Agrees.pairs {m : Gen α} (h : P.Agrees m) : P.Pairs (· = ·) m m := h

/-- Generators that always make something are paired by what they make. -/
theorem Pairs.of_makes {m : Gen α} {m' : Gen β} (h : ∀ g g', P.Paired g g' →
    ∃ a b g₁ g₁', Gen.Makes m g a g₁ ∧ Gen.Makes m' g' b g₁' ∧ S a b ∧ P.Paired g₁ g₁') :
    P.Pairs S m m' := by
  intro g g' hg
  obtain ⟨a, b, g₁, g₁', hm, hm', hrest⟩ := h g g' hg
  rw [hm, hm']
  exact hrest

/-- One after the other, given that the first was done. -/
theorem Ends.bind {m : Gen α} {m' : Gen β} {f : α → Gen γ} {f' : β → Gen δ} {g g' : Generator}
    (hm : P.Ends S (m.run g) (m'.run g'))
    (hf : ∀ a b g₁ g₁', Gen.Makes m g a g₁ → Gen.Makes m' g' b g₁' → S a b → P.Paired g₁ g₁' →
      P.Ends T ((f a).run g₁) ((f' b).run g₁')) :
    P.Ends T ((m >>= f).run g) ((m' >>= f').run g') := by
  rw [Gen.run_bind, Gen.run_bind]
  rcases hr : m.run g with e | ⟨a, g₁⟩ <;> rcases hr' : m'.run g' with e' | ⟨b, g₁'⟩ <;>
    rw [hr, hr'] at hm
  · exact hm
  · exact hm.elim
  · exact hm.elim
  · exact hf a b g₁ g₁' hr hr' hm.1 hm.2

/-- Paired generators are paired one after the other, if what comes then is paired for paired
results. -/
theorem Pairs.bind {m : Gen α} {m' : Gen β} {f : α → Gen γ} {f' : β → Gen δ}
    (hm : P.Pairs S m m') (hf : ∀ a b, S a b → P.Pairs T (f a) (f' b)) :
    P.Pairs T (m >>= f) (m' >>= f') :=
  fun g g' hg => (hm g g' hg).bind fun a b _ _ _ _ hab => hf a b hab _ _

/-- A composition agrees with itself if its parts do. -/
theorem Agrees.bind {m : Gen α} {f : α → Gen γ} (hm : P.Agrees m) (hf : ∀ a, P.Agrees (f a)) :
    P.Agrees (m >>= f) := by
  refine Pairs.bind hm.pairs fun a b hab => ?_
  subst hab
  exact hf a

/-- Results that correspond are paired. -/
theorem pairs_pure {a : α} {b : β} (h : S a b) : P.Pairs S (pure a) (pure b) :=
  fun _ _ hg => ⟨h, hg⟩

theorem agrees_pure (a : α) : P.Agrees (pure a : Gen α) := pairs_pure rfl

/-- Both runs end in the same error. -/
theorem agrees_fail (e : SemanticError) (span : Span) : P.Agrees (Gen.fail e span : Gen α) :=
  fun _ _ _ => rfl

/-- Behind an error nothing needs to be paired. -/
theorem agrees_fail_bind (e : SemanticError) (span : Span) (f : β → Gen α) :
    P.Agrees (Gen.fail e span >>= f) := fun _ _ _ => rfl

/-- Where there are two ways. -/
theorem agrees_ite {p : Prop} [Decidable p] {m m' : Gen α} (h : P.Agrees m) (h' : P.Agrees m') :
    P.Agrees (if p then m else m') := by
  split
  · exact h
  · exact h'

/-- What comes behind a check. -/
theorem agrees_check {p : Prop} [Decidable p] {e : SemanticError} {span : Span} {f : β → Gen α}
    {m : Gen α} (h : P.Agrees m) : P.Agrees (if p then Gen.fail e span >>= f else m) :=
  agrees_ite (agrees_fail_bind _ _ _) h

/-- What looks at the state is paired if it is so for all paired states. -/
theorem pairs_get_bind {f : Generator → Gen γ} {f' : Generator → Gen δ}
    (hf : ∀ s s', P.Paired s s' → P.Pairs T (f s) (f' s')) : P.Pairs T (get >>= f) (get >>= f') :=
  fun g g' hg => hf g g' hg g g' hg

/-- Paired states are set to paired states. -/
theorem pairs_set {s s' : Generator} (h : P.Paired s s') :
    P.Pairs (fun _ _ => True) (set s : Gen PUnit) (set s') := fun _ _ _ => ⟨trivial, h⟩

/-- A change of the state agrees if it keeps states paired. -/
theorem agrees_modify {f : Generator → Generator}
    (hf : ∀ g g', P.Paired g g' → P.Paired (f g) (f g')) : P.Agrees (modify f) :=
  fun g g' hg => ⟨rfl, hf g g' hg⟩

/-- A value that is computed beforehand is the same for both. -/
theorem agrees_lift (x : Except (Located SemanticError) α) : P.Agrees (liftM x : Gen α) := by
  rcases x with e | a
  · exact fun _ _ _ => rfl
  · exact fun _ _ hg => ⟨rfl, hg⟩

/-- A loop agrees if its rounds do. -/
theorem agrees_forM {f : α → Gen Unit} {xs : List α} (hf : ∀ x ∈ xs, P.Agrees (f x)) :
    P.Agrees (xs.forM f) := by
  induction xs with
  | nil => exact agrees_pure _
  | cons x xs ih => exact (hf x (.head _)).bind fun _ => ih fun y hy => hf y (.tail _ hy)

/-- A loop over numbers agrees if its rounds do. -/
theorem agrees_forBelow {f : UInt32 → Gen Unit} (hf : ∀ i, P.Agrees (f i)) (start n : Nat) :
    P.Agrees (Gen.forBelow f start n) := by
  induction n generalizing start with
  | zero => exact agrees_pure _
  | succ n ih => exact (hf _).bind fun _ => ih _

end

/-! ## Streams -/

section

variable {t : Target}

/-- Changes of streams are paired if they keep streams paired. -/
theorem pairs_onDraft {f f' : Draft → Draft} (hf : ∀ d d', P.draft d d' → P.draft (f d) (f' d')) :
    P.Pairs (· = ·) (Gen.onDraft t f) (Gen.onDraft t f') :=
  .of_makes fun _ _ hg => ⟨⟨⟩, ⟨⟩, _, _, Gen.makes_onDraft.mpr rfl, Gen.makes_onDraft.mpr rfl, rfl,
    hg.onDraft t (hf _ _ (hg.draft t))⟩

/-- Streams of paired generators are read as paired streams. -/
theorem pairs_draft : P.Pairs P.draft (Gen.draft t) (Gen.draft t) :=
  .of_makes fun _ _ hg => ⟨_, _, _, _, Gen.makes_draft.mpr ⟨rfl, rfl⟩,
    Gen.makes_draft.mpr ⟨rfl, rfl⟩, hg.draft t, hg⟩

/-- Instructions are paired if they are equal up to corresponding labels. -/
theorem pairs_emit {i i' : Instruction} (h : i.Pairs P.label i') :
    P.Pairs (· = ·) (Gen.emit t i) (Gen.emit t i') := pairs_onDraft fun _ _ hd => P.emit hd h

/-- The same instruction is paired with itself if it has no label. -/
theorem agrees_emit (i : Instruction) : P.Agrees (Gen.emit t i) := pairs_emit (.same i)

theorem agrees_emitAll (is : List Instruction) : P.Agrees (Gen.emitAll t is) :=
  agrees_forM fun i _ => agrees_emit i

/-- New labels correspond. -/
theorem pairs_newLabel : P.Pairs P.label (Gen.newLabel t) (Gen.newLabel t) := by
  refine pairs_draft.bind fun d d' hd => ?_
  exact (pairs_onDraft fun _ _ hd => P.addLabel hd).bind fun _ _ _ => pairs_pure (P.newest hd)

/-- Corresponding labels are marked in both streams. -/
theorem pairs_mark {l l' : UInt32} (h : P.label l l') :
    P.Pairs (· = ·) (Gen.mark t l) (Gen.mark t l') := pairs_onDraft fun _ _ hd => P.mark hd h

/-- Types do not depend on the streams. -/
theorem agrees_expectType (span : Span) (expected found : ExprType) :
    P.Agrees (Gen.expectType span expected found) := agrees_ite (agrees_pure _) (agrees_fail _ _)

/-- Handles are the same in both runs. -/
theorem agrees_load (v : Symbol) : P.Agrees (Gen.load t v) := by
  unfold Gen.load
  split <;> exact agrees_emit _

theorem agrees_store (v : Symbol) : P.Agrees (Gen.store t v) := by
  unfold Gen.store
  split <;> exact agrees_emit _

/-- Scopes are the same in both runs, and so is what a name stands for. -/
theorem agrees_resolve (name : Name) : P.Agrees (Gen.resolve t name) := by
  refine pairs_get_bind fun s s' hs => ?_
  rw [hs.scopes]
  refine Agrees.bind (agrees_lift _) fun v => ?_
  split
  · exact agrees_fail _ _
  · exact agrees_fail _ _
  · exact agrees_pure _

end

end Pairing

/-! ## Operands -/

/-- An operand, and the index of the place that it is, are compiled alike. -/
structure Operand.Agrees (P : Pairing) (o : Operand) : Prop where
  compile : P.Agrees o.compile
  index : ∀ name index, o.place? = some ⟨name, index⟩ → ∀ i ∈ index, P.Agrees i

namespace Operand

variable {P : Pairing} {o : Operand}

/-- An operand that names no variable agrees if its code does. -/
theorem Agrees.of_no_place (h : P.Agrees o.compile) (hplace : o.place? = none) : o.Agrees P :=
  ⟨h, fun _ _ hp => nomatch hplace.symm.trans hp⟩

variable (h : o.Agrees P)
include h

/-- A type that is expected of an operand is expected in both runs. -/
theorem Agrees.compileAs (type : ExprType) : P.Agrees (o.compileAs type) :=
  h.compile.bind fun _ => Pairing.agrees_expectType _ _ _

/-- The value that an operator expects is expected in both runs. -/
theorem Agrees.compileUnder (op : Token) : P.Agrees (o.compileUnder op) :=
  h.compile.bind fun _ => Pairing.agrees_ite (Pairing.agrees_fail _ _) (Pairing.agrees_pure _)

end Operand

namespace Rules

open Pairing

variable {P : Pairing} {t : Target}

/-! ## Operators -/

section Operators

variable {o l r : Operand} (ho : o.Agrees P) (hl : l.Agrees P) (hr : r.Agrees P)

theorem agrees_literal (v : Literal) : P.Agrees (literal t v) := by
  cases v <;> exact (agrees_emit _).bind fun _ => agrees_pure _

include hl hr in
/-- A logical operator writes the same behind what its operands write. -/
theorem agrees_logic (op : LogicOp) : P.Agrees (logic t op l r) :=
  (hl.compileAs _).bind fun _ => (hr.compileAs _).bind fun _ => (agrees_emit _).bind fun _ =>
    agrees_pure _

include ho in
theorem agrees_negate : P.Agrees (negate t o) :=
  (ho.compileAs _).bind fun _ => (agrees_emitAll _).bind fun _ => agrees_pure _

include hl hr in
theorem agrees_compare (op : RelOp) : P.Agrees (compare t l op r) :=
  hl.compile.bind fun _ => hr.compile.bind fun _ => agrees_ite
    ((agrees_expectType _ _ _).bind fun _ => (agrees_emitAll _).bind fun _ => agrees_pure _)
    (agrees_fail _ _)

include hl hr in
/-- An arithmetic operator writes the same behind what its operands write. -/
theorem agrees_arith (op : ArithOp) : P.Agrees (arith t l op r) :=
  (hl.compileUnder _).bind fun _ => (hr.compileUnder _).bind fun _ => (agrees_emit _).bind fun _ =>
    agrees_pure _

/-- The labels of a random number correspond, and the rest is the same. -/
theorem agrees_random : P.Agrees (random t) := by
  refine pairs_newLabel.bind fun positive positive' hpositive =>
    pairs_newLabel.bind fun done done' hdone => ?_
  -- the instructions differ in the labels
  have hcode : P.Pairs (· = ·)
      (Gen.emitAll t [.dup, .pushInt 0, .binary .lt, .jumpIfFalse positive, .neg, .random, .neg,
        .jump done])
      (Gen.emitAll t [.dup, .pushInt 0, .binary .lt, .jumpIfFalse positive', .neg, .random, .neg,
        .jump done']) :=
    (agrees_emit _).pairs.bind fun _ _ _ => (agrees_emit _).pairs.bind fun _ _ _ =>
      (agrees_emit _).pairs.bind fun _ _ _ =>
        (pairs_emit (.jumpIfFalse hpositive)).bind fun _ _ _ =>
          (agrees_emit _).pairs.bind fun _ _ _ => (agrees_emit _).pairs.bind fun _ _ _ =>
            (agrees_emit _).pairs.bind fun _ _ _ => (pairs_emit (.jump hdone)).bind fun _ _ _ =>
              pairs_pure rfl
  exact hcode.bind fun _ _ _ => (pairs_mark hpositive).bind fun _ _ _ =>
    (agrees_emit _).pairs.bind fun _ _ _ => pairs_mark hdone

include ho in
theorem agrees_lead (op : LeadOp) : P.Agrees (lead t op o) := by
  cases op with
  | length =>
    refine ho.compile.bind fun found => ?_
    split
    · exact (agrees_emit _).bind fun _ => agrees_pure _
    · exact agrees_fail _ _
  | negative =>
    exact (ho.compileUnder _).bind fun _ => (agrees_emit _).bind fun _ => agrees_pure _
  | random => exact (ho.compileUnder _).bind fun _ => agrees_random.bind fun _ => agrees_pure _

end Operators

/-! ## Variables, elements and assignments -/

/-- A variable is loaded from the same place. -/
theorem agrees_var (name : Name) : P.Agrees (var t name) :=
  (agrees_resolve name).bind fun _ => (agrees_load _).bind fun _ => agrees_pure _

/-- An element is loaded from the same array, behind its index. -/
theorem agrees_elem (span : Span) (name : Name) {index : Gen Unit} (hi : P.Agrees index) :
    P.Agrees (elem t span name index) :=
  (agrees_resolve name).bind fun _ => (agrees_load _).bind fun _ => agrees_ite
    (hi.bind fun _ => (agrees_emit _).bind fun _ => agrees_pure _) (agrees_fail _ _)

section Places

variable {v : Symbol} {index : Option (Gen Unit)} (hi : ∀ i ∈ index, P.Agrees i)
include hi

/-- In front of an assigned value both runs write the array and the index. -/
theorem agrees_beforeValue : P.Agrees (beforeValue t v index) := by
  unfold beforeValue
  split
  · exact (agrees_load _).bind fun _ => hi _ rfl
  · exact agrees_pure _

theorem agrees_presentValue : P.Agrees (presentValue t v index) := by
  cases index with
  | some i => exact (agrees_load _).bind fun _ => (hi i rfl).bind fun _ => agrees_emit _
  | none => exact (agrees_load _).bind fun _ => agrees_pure _

omit hi in
theorem agrees_afterValue : P.Agrees (afterValue t v index) := by
  unfold afterValue
  split
  · exact agrees_emit _
  · exact agrees_store _

variable {value : Operand} (hv : value.Agrees P)
include hv

/-- Only subtraction and division depend on more than the operands. For these the order of operands
is given as a hypothesis. -/
theorem agrees_compound {op : AssignOp} (hordered : op = .sub ∨ op = .div → ∀ instruction,
    P.Agrees (compound.ordered t v index value instruction)) :
    P.Agrees (compound t v index op value) := by
  have hcommutative (instruction : BinaryOp) : P.Agrees (do
      value.compileInt
      presentValue t v index
      Gen.emit t (.binary instruction)) :=
    (hv.compileAs _).bind fun _ => (agrees_presentValue hi).bind fun _ => agrees_emit _
  cases op with
  | set => exact hv.compileAs _
  | add => exact hcommutative _
  | mul => exact hcommutative _
  | sub => exact hordered (.inl rfl) _
  | div => exact hordered (.inr rfl) _

/-- An assignment of a word agrees as the operator in it does. -/
theorem agrees_assignWord {op : Located AssignOp} (hordered : op.value = .sub ∨ op.value = .div →
    ∀ instruction, P.Agrees (compound.ordered t v index value instruction)) :
    P.Agrees (assignWord t v index op value) :=
  agrees_check ((agrees_beforeValue hi).bind fun _ => (agrees_compound hi hv hordered).bind fun _ =>
    agrees_afterValue)

end Places

theorem agrees_copyLength (a : Symbol) (x : Name) (b : Symbol) (y : Name) (span : Span) :
    P.Agrees (copyLength a x b y span) := by
  unfold copyLength
  split
  · exact agrees_pure _
  · exact agrees_fail _ _
  · exact agrees_fail _ _

/-- Arrays are copied by the same instructions. -/
theorem agrees_copyArray (a : Symbol) (x : Name) (value : Operand) :
    P.Agrees (copyArray t a x value) := by
  unfold copyArray
  split
  · refine (agrees_resolve _).bind fun b => agrees_check <| agrees_check <|
      (agrees_copyLength _ _ _ _ _).bind fun n => agrees_forBelow (fun i => ?_) 0 _
    exact (agrees_load a).bind fun _ => (agrees_emit _).bind fun _ => (agrees_load b).bind fun _ =>
      agrees_emitAll _
  · exact agrees_fail _ _

section Assignments

variable {target value : Operand} (ht : target.Agrees P) (hv : value.Agrees P)
include ht

/-- An increment has no operands whose order could matter. -/
theorem agrees_step (op : StepOp) : P.Agrees (step t target op) := by
  unfold step
  split
  · exact agrees_fail _ _
  · rename_i name index hp
    have hi := ht.index name index hp
    have hcode (v : Symbol) (instruction : BinaryOp) : P.Agrees (do
        beforeValue t v index
        presentValue t v index
        Gen.emit t (.pushInt 1)
        Gen.emit t (.binary instruction)
        afterValue t v index
        return ExprType.effect) :=
      (agrees_beforeValue hi).bind fun _ => (agrees_presentValue hi).bind fun _ =>
        (agrees_emit _).bind fun _ => (agrees_emit _).bind fun _ => agrees_afterValue.bind fun _ =>
          agrees_pure _
    refine (agrees_resolve name).bind fun v => ?_
    cases index <;> cases v.isArray <;> dsimp only
    on_goal 3 => exact agrees_fail_bind _ _ _
    all_goals
      rw [pure_bind]
      exact agrees_check (hcode v _)

include hv in
/-- An assignment agrees if subtraction and division agree for its target and value. -/
theorem agrees_assign {op : Located AssignOp} (hordered : op.value = .sub ∨ op.value = .div →
    ∀ name index, target.place? = some ⟨name, index⟩ → ∀ v instruction,
      P.Agrees (compound.ordered t v index value instruction)) :
    P.Agrees (assign t target op value) := by
  unfold assign
  split
  · exact agrees_fail _ _
  · rename_i name index hp
    refine (agrees_resolve name).bind fun v => ?_
    split
    · exact agrees_check ((agrees_copyArray _ _ _).bind fun _ => agrees_pure _)
    · exact agrees_fail _ _
    · exact (agrees_assignWord (ht.index _ _ hp) hv fun hop => hordered hop _ _ hp v).bind fun _ =>
        agrees_pure _

end Assignments

/-! ## Calls -/

theorem agrees_putOne {o : Operand} (ho : o.Agrees P) : P.Agrees (putOne t o) := by
  unfold putOne
  split
  · exact agrees_fail _ _
  · rename_i name index hp
    have hi := ho.index name index hp
    refine (agrees_resolve name).bind fun v => ?_
    split
    · exact agrees_fail _ _
    · exact agrees_fail _ _
    · exact (agrees_beforeValue hi).bind fun _ => (agrees_emitAll _).bind fun _ => agrees_afterValue

section Calls

variable {args : List Operand} (hargs : ∀ o ∈ args, o.Agrees P)
include hargs

/-- Arguments agree one after the other. -/
theorem agrees_arguments (params : List Slot) : P.Agrees (arguments args params) := by
  induction args generalizing params with
  | nil => exact agrees_pure _
  | cons a as ih =>
    cases params with
    | nil => exact agrees_pure _
    | cons s ss =>
      exact ((hargs a (.head _)).compileAs _).bind fun _ =>
        ih (fun b hb => hargs b (.tail _ hb)) ss

theorem agrees_formatArguments : P.Agrees (formatArguments t args) := by
  induction args with
  | nil => exact agrees_pure _
  | cons a as ih =>
    have has := ih fun b hb => hargs b (.tail _ hb)
    refine (hargs a (.head _)).compile.bind fun found => ?_
    split
    · exact (agrees_emit _).bind fun _ => has
    · exact has
    · exact agrees_fail _ _

/-- The number of printed arguments is the same in both runs. -/
theorem agrees_print (name : Name) : P.Agrees (print t name args) := by
  obtain _ | ⟨a, _ | ⟨b, rest⟩⟩ := args
  · exact agrees_fail _ _
  · refine (hargs a (.head _)).compile.bind fun found => ?_
    split
    · exact (agrees_emit _).bind fun _ => agrees_pure _
    · exact (agrees_emit _).bind fun _ => agrees_pure _
    · exact agrees_fail _ _
  · exact (hargs a (.head _)).compile.bind fun found => agrees_check <|
      (agrees_formatArguments fun c hc => hargs c (.tail _ hc)).bind fun _ =>
        (agrees_emit _).bind fun _ => agrees_pure _

/-- Reading agrees target by target. -/
theorem agrees_put (name : Name) : P.Agrees (put t name args) :=
  agrees_check ((agrees_forM fun o ho => agrees_putOne (hargs o ho)).bind fun _ => agrees_pure _)

/-- Functions have the same numbers in both runs. -/
theorem agrees_call (span : Span) (name : Name) : P.Agrees (call t span name args) := by
  refine pairs_get_bind fun s s' hs => ?_
  rw [hs.functions]
  refine Agrees.bind (agrees_lift _) fun f => ?_
  split
  · exact agrees_print hargs name
  · exact agrees_put hargs name
  · exact agrees_check ((agrees_arguments hargs _).bind fun _ => (agrees_emit _).bind fun _ =>
      agrees_pure _)

end Calls

end Rules

/-! ## Expressions -/

namespace Expr

mutual

/-- The compound subtractions and divisions in an expression: the index of the element that is
assigned to, if it is one, and the right side. -/
def compounds : Expr → List (Option Expr × Expr)
  | .literal _ | .var _ => []
  | .elem _ i => i.compounds
  | .paren e => e.compounds
  | .call _ args => compoundsOf args
  | .lead _ e => e.compounds
  | .arith l _ r => l.compounds ++ r.compounds
  | .compare l _ r => l.compounds ++ r.compounds
  | .negate _ e => e.compounds
  | .logic _ l r => l.compounds ++ r.compounds
  | .step p _ => p.compounds
  | .assign p op v =>
    (if op.value = .sub ∨ op.value = .div then p.place?.toList.map fun (_, index) => (index, v)
      else []) ++ p.compounds ++ v.compounds

/-- The compound subtractions and divisions in the expressions of a list. -/
def compoundsOf : List Expr → List (Option Expr × Expr)
  | [] => []
  | e :: es => e.compounds ++ compoundsOf es

end

/-- The compound assignments of arguments are those of one of them. -/
theorem mem_compoundsOf {es : List Expr} {c : Option Expr × Expr} :
    c ∈ compoundsOf es ↔ ∃ e ∈ es, c ∈ e.compounds := by
  induction es with
  | nil => simp [compoundsOf]
  | cons e es ih => simp [compoundsOf, ih]

/-- The place that an expression is compiled as. -/
theorem place?_operand (t : Target) (e : Expr) : (e.operand t).place? =
    e.place?.map fun (n, index) => ⟨n, index.map fun i => (i.operand t).compileInt⟩ := by
  cases e <;> rfl

end Expr

/-- Compound subtractions and divisions with an index and a right side do the same in both forms, if
these do. -/
def Pairing.Allows (P : Pairing) (index : Option Expr) (value : Expr) : Prop :=
  ∀ (t : Target) (v : Symbol) (instruction : BinaryOp),
    (∀ i ∈ index, P.Agrees (i.operand t).compileInt) → (value.operand t).Agrees P →
      P.Agrees (Rules.compound.ordered t v (index.map fun i => (i.operand t).compileInt)
        (value.operand t) instruction)

section

variable {P : Pairing}

/-- **Code for an expression is alike in both forms** as far as its compounds are. -/
theorem Expr.operand_agrees (t : Target) (e : Expr) (h : ∀ c ∈ e.compounds, P.Allows c.1 c.2) :
    (e.operand t).Agrees P := by
  induction e using Expr.induct with
  | literal v => exact .of_no_place (Rules.agrees_literal _) rfl
  | var n =>
    refine ⟨Rules.agrees_var n, ?_⟩
    -- Only places are asked for their index, and a variable has none.
    rintro name index ⟨⟩ i ⟨⟩
  | elem n i ih =>
    have hi := (ih h).compileAs (.scalar .int)
    refine ⟨Rules.agrees_elem _ n hi, ?_⟩
    rintro name index ⟨⟩ i ⟨⟩
    exact hi
  | paren e ih => exact .of_no_place (ih h).compile rfl
  | call n args ih =>
    refine .of_no_place (Rules.agrees_call (fun o ho => ?_) _ n) rfl
    obtain ⟨a, ha, rfl⟩ := mem_operands.mp ho
    exact ih a ha fun c hc => h c (mem_compoundsOf.mpr ⟨a, ha, hc⟩)
  | lead op e ih => exact .of_no_place (Rules.agrees_lead (ih h) _) rfl
  | arith l op r hl hr =>
    rw [compounds, List.forall_mem_append] at h
    exact .of_no_place (Rules.agrees_arith (hl h.1) (hr h.2) _) rfl
  | compare l op r hl hr =>
    rw [compounds, List.forall_mem_append] at h
    exact .of_no_place (Rules.agrees_compare (hl h.1) (hr h.2) _) rfl
  | negate word e ih => exact .of_no_place (Rules.agrees_negate (ih h)) rfl
  | logic op l r hl hr =>
    rw [compounds, List.forall_mem_append] at h
    exact .of_no_place (Rules.agrees_logic (hl h.1) (hr h.2) _) rfl
  | step p op ih => exact .of_no_place (Rules.agrees_step (ih h) _) rfl
  -- For subtraction and division it is the pairing that allows the assignment.
  | assign p op v hp hv =>
    rw [compounds, List.forall_mem_append, List.forall_mem_append] at h
    obtain ⟨⟨hself, hplace⟩, hvalue⟩ := h
    have htarget := hp hplace
    refine .of_no_place (Rules.agrees_assign htarget (hv hvalue)
      fun hop name index heq w instruction => ?_) rfl
    -- The place of the operand is the place of the expression.
    have hindex := htarget.index name index heq
    rw [place?_operand, Option.map_eq_some_iff] at heq
    obtain ⟨⟨n, i⟩, hplace', heq⟩ := heq
    cases heq
    rw [if_pos hop, hplace'] at hself
    exact hself (i, v) (by simp) t w instruction
      (fun j hj => hindex _ (Option.mem_map_of_mem _ hj)) (hv hvalue)

/-- An expression agrees if all its subtractions and divisions in place are allowed. -/
theorem Expr.agrees_compileAs (t : Target) {e : Expr} (h : ∀ c ∈ e.compounds, P.Allows c.1 c.2)
    (type : ExprType) : P.Agrees (e.compileAs t type) :=
  (e.operand_agrees t h).compileAs type

end

end OnePass
