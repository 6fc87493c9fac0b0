import OnePass.Proofs.Growth
import OnePass.Proofs.TypeRules

/-!
# The type checker decides the rules of types

Compiling an expression ends with a type exactly if the rules give it that type, and with an error
exactly if they give it none (`Expr.compile_decides`).

The property is kept by all ways to compose generators (`Gen.Decides`); each rule of code
generation is then shown to decide what its form of expression asks of its parts.
-/

namespace OnePass

/-- The names that are known in a state of generation. -/
def Generator.names (g : Generator) (t : Target) : Names := ⟨g.scopes, g.functions, t⟩

/-- The names of a state are these. -/
structure Names.Fits (Γ : Names) (g : Generator) : Prop where
  scopes : g.scopes = Γ.scopes
  functions : g.functions = Γ.functions

/-- The names of a state are those it goes by. -/
theorem Generator.names_fits (g : Generator) (t : Target) : (g.names t).Fits g := ⟨rfl, rfl⟩

/-- More code changes no name. -/
theorem Names.Fits.onDraft {Γ : Names} {g : Generator} (h : Γ.Fits g) {t : Target}
    {f : Draft → Draft} : Γ.Fits (g.onDraft t f) :=
  ⟨(g.onDraft_scopes t f).trans h.scopes, (g.onDraft_functions t f).trans h.functions⟩

namespace Gen

variable {α β : Type} {Γ : Names}

/-- `m` makes what `P` says, and fails only if `P` says it of nothing. -/
def Decides (Γ : Names) (m : Gen α) (P : α → Prop) : Prop :=
  ∀ g, Γ.Fits g → match m.run g with
    | .ok (a, g') => P a ∧ Γ.Fits g'
    | .error _ => ∀ a, ¬ P a

/-- `m` succeeds if and only if `p`. -/
abbrev Checks (Γ : Names) (m : Gen Unit) (p : Prop) : Prop := Decides Γ m fun _ => p

/-! ## Composition -/

section

variable {m : Gen α} {P Q : α → Prop} {p : Prop}

/-- Where every run makes what it should, the property decides. -/
theorem Decides.of_makes (h : ∀ g, Γ.Fits g → ∃ a g', Makes m g a g' ∧ P a ∧ Γ.Fits g') :
    Decides Γ m P := by
  intro g hg
  obtain ⟨a, g', hm, hrest⟩ := h g hg
  rw [hm]
  exact hrest

/-- Properties of the same values decide the same. -/
theorem Decides.congr (h : Decides Γ m P) (hPQ : ∀ a, P a ↔ Q a) : Decides Γ m Q := by
  obtain rfl : P = Q := funext fun a => propext (hPQ a)
  exact h

/-- A value decides on itself. -/
theorem decides_pure (a : α) : Decides Γ (pure a) (· = a) :=
  .of_makes fun g hg => ⟨a, g, makes_pure.mpr ⟨rfl, rfl⟩, rfl, hg⟩

/-- Where there is no run, nothing can have the property. -/
theorem decides_fail {e : SemanticError} {span : Span} (h : ∀ a, ¬ P a) :
    Decides Γ (fail e span) P := fun _ _ => h

/-- Behind a refusal nothing can have the property. -/
theorem decides_fail_bind {e : SemanticError} {span : Span} {f : α → Gen β} {R : β → Prop}
    (h : ∀ b, ¬ R b) : Decides Γ (fail e span >>= f) R := fun _ _ => h

/-- One after the other, if what the second does needs that the first can be done. -/
theorem Decides.andThen {f : α → Gen β} {R : β → Prop} (hm : Decides Γ m P)
    (hf : ∀ a, P a → Decides Γ (f a) R) (hneeds : ∀ b, R b → ∃ a, P a) :
    Decides Γ (m >>= f) R := by
  intro g hg
  rw [run_bind]
  have hfirst := hm g hg
  rcases hrun : m.run g with e | ⟨a, g'⟩ <;> rw [hrun] at hfirst
  · exact fun b hb => (hneeds b hb).elim hfirst
  · exact hf a hfirst.1 g' hfirst.2

/-- What is made second may depend on what was made first, if that is the only such thing. -/
theorem Decides.bind {f : α → Gen β} {R : α → β → Prop} (hm : Decides Γ m P)
    (hunique : ∀ a a', P a → P a' → a = a') (hf : ∀ a, P a → Decides Γ (f a) (R a)) :
    Decides Γ (m >>= f) fun b => ∃ a, P a ∧ R a b := by
  refine Decides.andThen hm (fun a ha => (hf a ha).congr fun b => ?_) fun b ⟨a, ha, _⟩ => ⟨a, ha⟩
  constructor
  · exact fun hb => ⟨a, ha, hb⟩
  · rintro ⟨a', ha', hb⟩
    rwa [hunique a a' ha ha']

/-- A check, and what comes behind it. -/
theorem Checks.bind {m : Gen Unit} {f : Unit → Gen β} {R : β → Prop} (hm : Checks Γ m p)
    (hf : p → Decides Γ (f ⟨⟩) R) : Decides Γ (m >>= f) fun b => p ∧ R b :=
  (Decides.bind hm (fun _ _ _ _ => rfl) fun _ hp => hf hp).congr fun _ =>
    ⟨fun ⟨_, h⟩ => h, fun h => ⟨⟨⟩, h⟩⟩

/-- What cannot fail, and what comes behind it. -/
theorem Checks.then {m : Gen Unit} {f : Unit → Gen β} {R : β → Prop} (hm : Checks Γ m True)
    (hf : Decides Γ (f ⟨⟩) R) : Decides Γ (m >>= f) R :=
  (hm.bind fun _ => hf).congr fun _ => and_iff_right trivial

/-- What cannot fail, and nothing but a value behind it. -/
theorem Checks.makes {m : Gen Unit} (hm : Checks Γ m True) (b : β) :
    Decides Γ (m >>= fun _ => pure b) (· = b) :=
  Checks.then hm (decides_pure b)

/-- What is behind a failure if `p` asks for `¬ p`. -/
theorem Decides.unless {p : Prop} [Decidable p] {e : SemanticError} {span : Span} {f : β → Gen α}
    (hm : ¬ p → Decides Γ m P) :
    Decides Γ (if p then fail e span >>= f else m) fun a => ¬ p ∧ P a := by
  split
  · rename_i hp
    exact decides_fail_bind fun _ h => h.1 hp
  · rename_i hp
    exact (hm hp).congr fun _ => (and_iff_right hp).symm

end

/-! ## Parts -/

variable {t : Target}

theorem checks_pure : Checks Γ (pure ⟨⟩) True := (decides_pure _).congr fun _ => by simp

/-- What depends on the state may depend on its names. -/
theorem decides_get_bind {f : Generator → Gen α} {P : α → Prop}
    (hf : ∀ s, Γ.Fits s → Decides Γ (f s) P) : Decides Γ (get >>= f) P :=
  fun g hg => hf g hg g hg

/-- Code can always be added. -/
theorem checks_emit (i : Instruction) : Checks Γ (emit Γ.target i) True :=
  .of_makes fun _ hg => ⟨⟨⟩, _, makes_emit.mpr rfl, trivial, hg.onDraft⟩

theorem checks_emitAll (is : List Instruction) : Checks Γ (emitAll Γ.target is) True := by
  induction is with
  | nil => exact checks_pure
  | cons i is ih => exact (checks_emit i).then ih

/-- A loop that is never refused in a round is never refused. -/
theorem checks_forBelow {f : UInt32 → Gen Unit} (hf : ∀ i, Checks Γ (f i) True) (start n : Nat) :
    Checks Γ (forBelow f start n) True := by
  induction n generalizing start with
  | zero => exact checks_pure
  | succ n ih => exact (hf _).then (ih _)

/-- There is always a label, and nothing is said of which. -/
theorem decides_newLabel : Decides Γ (newLabel Γ.target) fun _ => True :=
  .of_makes fun _ hg => ⟨_, _, makes_newLabel.mpr ⟨rfl, rfl⟩, trivial, hg.onDraft⟩

/-- A label can always be marked. -/
theorem checks_mark (label : UInt32) : Checks Γ (mark Γ.target label) True :=
  .of_makes fun _ hg => ⟨⟨⟩, _, makes_onDraft.mpr rfl, trivial, hg.onDraft⟩

/-- An expected type is checked by comparing it. -/
theorem checks_expectType (span : Span) (expected found : ExprType) :
    Checks Γ (expectType span expected found) (expected = found) := by
  unfold expectType
  split
  · exact checks_pure.congr fun _ => by simp [*]
  · rename_i h
    exact decides_fail fun _ => h

/-- A variable is found if it is seen. -/
theorem decides_resolve (name : Name) : Decides Γ (resolve Γ.target name) (Γ.Sees name) := by
  intro g hg
  rcases hm : (resolve Γ.target name).run g with e | ⟨v, g'⟩
  · intro v hv
    have hfound : Makes (resolve Γ.target name) g v g := by
      simp only [resolve, makes_bind, makes_get, makes_lift]
      refine ⟨_, _, ⟨rfl, rfl⟩, v, g, ⟨?_, rfl⟩, ?_⟩
      · rw [Scopes.resolve, hg.scopes, hv.1]
      · split
        · rename_i htarget hlocal
          obtain ⟨i, hi⟩ := hv.2 htarget
          cases hi.symm.trans hlocal
        · rename_i htarget hargument
          obtain ⟨i, hi⟩ := hv.2 htarget
          cases hi.symm.trans hargument
        · exact makes_pure.mpr ⟨rfl, rfl⟩
    cases hm.symm.trans hfound
  · obtain ⟨rfl, hlookup, hfield⟩ := makes_resolve hm
    exact ⟨⟨hg.scopes ▸ hlookup, hfield⟩, hg⟩

/-- A variable can always be loaded. -/
theorem checks_load (v : Symbol) : Checks Γ (load Γ.target v) True := by
  unfold load
  split <;> exact checks_emit _

/-- A variable can always be stored to. -/
theorem checks_store (v : Symbol) : Checks Γ (store Γ.target v) True := by
  unfold store
  split <;> exact checks_emit _

/-- A function is found if it is known. -/
theorem decides_knows {s : Generator} (hs : Γ.Fits s) (name : Name) :
    Decides Γ (liftM (s.functions.resolve name)) (Γ.Knows name) := by
  rcases hfound : s.functions.resolve name with e | f
  · intro g _ f hf
    rw [Functions.resolve, hs.functions,
      show Γ.functions.lookup name.value = some f from hf] at hfound
    cases hfound
  · refine .of_makes fun g hg => ⟨f, g, makes_lift.mpr ⟨rfl, rfl⟩, ?_, hg⟩
    have hlookup := Functions.lookup_of_resolve hfound
    rwa [hs.functions] at hlookup

end Gen

/-! ## Operands -/

/-- Compiling an operand decides which type it has, and the index of a place is right where the
place can have one. -/
structure Operand.Decides (Γ : Names) (o : Operand) (P : ExprType → Prop) : Prop where
  compile : Gen.Decides Γ o.compile P
  unique : ∀ a b, P a → P b → a = b
  place : ∀ name index, o.place? = some ⟨name, index⟩ → ∃ J,
    (∀ i ∈ index, Gen.Checks Γ i J) ∧ ∀ t, P (.scalar t) ↔
      ∃ v, Γ.Sees name v ∧ v.isArray = index.isSome ∧ v.type = t ∧ (index.isSome → J)

namespace Operand

variable {Γ : Names} {o : Operand} {P : ExprType → Prop} (h : o.Decides Γ P)
include h

/-- A type that is expected of an operand is one that it must have. -/
theorem Decides.compileAs (type : ExprType) : Gen.Checks Γ (o.compileAs type) (P type) := by
  refine (h.compile.bind h.unique fun a _ => Gen.checks_expectType _ type a).congr fun _ => ?_
  constructor
  · rintro ⟨a, ha, rfl⟩
    exact ha
  · exact fun ha => ⟨type, ha, rfl⟩

/-- An operator expects an integer. -/
theorem Decides.compileUnder (op : Token) :
    Gen.Checks Γ (o.compileUnder op) (P (.scalar .int)) := by
  have hcheck (found : ExprType) : Gen.Checks Γ
      (if found ≠ .scalar .int then Gen.fail (.intOperand op found) o.span else pure ⟨⟩)
      (found = .scalar .int) := by
    split
    · rename_i hne
      exact Gen.decides_fail fun _ => hne
    · rename_i heq
      exact Gen.checks_pure.congr fun _ => by simpa using heq
  refine (h.compile.bind h.unique fun a _ => hcheck a).congr fun _ => ?_
  constructor
  · rintro ⟨a, ha, rfl⟩
    exact ha
  · exact fun ha => ⟨_, ha, rfl⟩

end Operand

namespace Rules

open Gen

variable {Γ : Names}

/-! ## Operators -/

/-- A literal has its type. -/
theorem decides_literal (l : Literal) : Gen.Decides Γ (literal Γ.target l) (· = l.type) := by
  cases l <;> exact Checks.makes (checks_emit _) _

/-- A random number can always be drawn. -/
theorem checks_random : Checks Γ (random Γ.target) True := by
  have hcode (positive done : UInt32) : Checks Γ (do
      emitAll Γ.target [.dup, .pushInt 0, .binary .lt, .jumpIfFalse positive, .neg, .random, .neg,
        .jump done]
      mark Γ.target positive
      emit Γ.target .random
      mark Γ.target done) True :=
    Checks.then (checks_emitAll _) (Checks.then (checks_mark _)
      (Checks.then (checks_emit _) (checks_mark _)))
  exact Decides.andThen decides_newLabel (fun _ _ => Decides.andThen decides_newLabel
    (fun _ _ => hcode _ _) fun _ _ => ⟨0, trivial⟩) fun _ _ => ⟨0, trivial⟩

section Operators

variable {o l r : Operand} {P Q : ExprType → Prop} (ho : o.Decides Γ P)
  (hl : l.Decides Γ P) (hr : r.Decides Γ Q)

include hl hr in
/-- Logical operators are for truth values and make one. -/
theorem decides_logic (op : LogicOp) : Gen.Decides Γ (logic Γ.target op l r)
    fun type => type = .scalar .bool ∧ P (.scalar .bool) ∧ Q (.scalar .bool) := by
  refine Decides.congr (Checks.bind (hl.compileAs _) fun _ => Checks.bind (hr.compileAs _) fun _ =>
    Checks.makes (checks_emit _) _) fun _ => ?_
  tauto

include ho in
/-- A negation is for a truth value and makes one. -/
theorem decides_negate : Gen.Decides Γ (negate Γ.target o)
    fun type => type = .scalar .bool ∧ P (.scalar .bool) :=
  Decides.congr (Checks.bind (ho.compileAs _) fun _ => Checks.makes (checks_emitAll _) _)
    fun _ => and_comm

/-- Words are compared, each type by its own operators. -/
theorem comparable_iff {op : RelOp} {type : ExprType} :
    comparable op type ↔ ∃ t, type = .scalar t ∧ op.Compares t := by
  unfold RelOp.Compares
  cases type with
  | scalar t => cases t <;> simp [comparable]
  | _ => simp [comparable]

include hl hr in
/-- Both sides of a comparison have one type, which the operator compares. -/
theorem decides_compare (op : RelOp) : Gen.Decides Γ (compare Γ.target l op r)
    fun type => type = .scalar .bool ∧ ∃ t, op.Compares t ∧ P (.scalar t) ∧ Q (.scalar t) := by
  have hrest (left right : ExprType) : Gen.Decides Γ (if comparable op left then do
        expectType r.span left right
        emitAll Γ.target (comparison op)
        return ExprType.scalar .bool
      else fail (.typeMismatch (.scalar .int) left) l.span)
      fun type => comparable op left ∧ left = right ∧ type = .scalar .bool := by
    split
    · rename_i hcomparable
      refine Decides.congr (Checks.bind (checks_expectType _ _ _) fun _ =>
        Checks.makes (checks_emitAll _) _) fun _ => ?_
      simp [hcomparable]
    · rename_i hcomparable
      exact decides_fail fun _ h => hcomparable h.1
  refine Decides.congr (Decides.bind hl.compile hl.unique fun left _ =>
    Decides.bind hr.compile hr.unique fun right _ => hrest left right) fun type => ?_
  simp only [comparable_iff]
  constructor
  · rintro ⟨_, hleft, _, hright, ⟨t, rfl, ht⟩, rfl, rfl⟩
    exact ⟨rfl, t, ht, hleft, hright⟩
  · rintro ⟨rfl, t, ht, hleft, hright⟩
    exact ⟨_, hleft, _, hright, ⟨t, rfl, ht⟩, rfl, rfl⟩

include hl hr in
/-- Arithmetic operators are for integers and make one. -/
theorem decides_arith (op : ArithOp) : Gen.Decides Γ (arith Γ.target l op r)
    fun type => type = .scalar .int ∧ P (.scalar .int) ∧ Q (.scalar .int) := by
  refine Decides.congr (Checks.bind (hl.compileUnder _) fun _ =>
    Checks.bind (hr.compileUnder _) fun _ => Checks.makes (checks_emit _) _) fun _ => ?_
  tauto

include ho in
/-- A sign and `?` are for integers, and the length is that of an array. All make an integer. -/
theorem decides_lead (op : LeadOp) : Gen.Decides Γ (lead Γ.target op o)
    fun type => type = .scalar .int ∧
      (op ≠ .length ∧ P (.scalar .int) ∨ op = .length ∧ ∃ t, P (.array t)) := by
  cases op with
  | length =>
    refine Decides.congr (Decides.bind ho.compile ho.unique
      (R := fun found type => (∃ t, found = .array t) ∧ type = .scalar .int) fun found _ => ?_)
      fun type => ?_
    · split
      · exact Decides.congr (Checks.makes (checks_emit _) _) fun _ => by simp
      · rename_i hne
        exact decides_fail fun _ h => h.1.elim hne
    constructor
    · rintro ⟨_, ht, ⟨t, rfl⟩, rfl⟩
      exact ⟨rfl, .inr ⟨rfl, t, ht⟩⟩
    · rintro ⟨rfl, ⟨h, -⟩ | ⟨-, t, ht⟩⟩
      · exact absurd rfl h
      · exact ⟨_, ht, ⟨t, rfl⟩, rfl⟩
  | negative =>
    refine Decides.congr (Checks.bind (ho.compileUnder _) fun _ =>
      Checks.makes (checks_emit _) _) fun type => ?_
    simp [and_comm]
  | random =>
    refine Decides.congr (Checks.bind (ho.compileUnder _) fun _ =>
      Checks.makes checks_random _) fun type => ?_
    simp [and_comm]

end Operators

/-! ## Variables, elements and assignments -/

/-- A name stands for one variable at most. -/
theorem sees_unique {name : Name} : ∀ v w, Γ.Sees name v → Γ.Sees name w → v = w :=
  fun _ _ hv hw => Option.some.inj (hv.1.symm.trans hw.1)

/-- A variable has its type, be it an array or not. -/
theorem decides_var (name : Name) : Gen.Decides Γ (var Γ.target name)
    fun type => ∃ v, Γ.Sees name v ∧ type = .ofSlot v.slot := by
  exact Decides.bind (decides_resolve name) sees_unique fun v _ => Checks.makes (checks_load v) _

/-- An element has the type of its array, if the index is in order. -/
theorem decides_elem (span : Span) (name : Name) {index : Gen Unit} {J : Prop}
    (hi : Checks Γ index J) : Gen.Decides Γ (elem Γ.target span name index)
      fun type => ∃ v, Γ.Sees name v ∧ v.isArray ∧ type = .scalar v.type ∧ J := by
  have hrest (v : Symbol) : Gen.Decides Γ (if v.isArray then do
        index
        emit Γ.target .loadElem
        return ExprType.scalar v.type
      else fail (.notAnArray name.value) span)
      fun type => v.isArray ∧ type = .scalar v.type ∧ J := by
    split
    · rename_i ha
      refine Decides.congr (Checks.bind hi fun _ => Checks.makes (checks_emit _) _) fun _ => ?_
      simp [ha, and_comm]
    · rename_i ha
      exact decides_fail fun _ h => ha h.1
  exact Decides.bind (decides_resolve name) sees_unique fun v _ =>
    Checks.then (checks_load v) (hrest v)

section Places

variable {v : Symbol} {index : Option (Gen Unit)} {J : Prop}
  (hi : ∀ i ∈ index, Checks Γ i J)
include hi

/-- In front of an assigned value there is the index to check. -/
theorem checks_beforeValue :
    Checks Γ (beforeValue Γ.target v index) (index.isSome → J) := by
  unfold beforeValue
  split
  · exact Decides.congr (Checks.then (checks_load v) (hi _ rfl)) fun _ => by simp
  · exact checks_pure.congr fun _ => by simp

/-- The present value of a target is checked as its index is. -/
theorem checks_presentValue :
    Checks Γ (presentValue Γ.target v index) (index.isSome → J) := by
  cases index with
  | some i =>
    exact Decides.congr (Checks.then (checks_load v) (Checks.bind (hi i rfl) fun _ =>
      checks_emit _)) fun _ => by simp
  | none =>
    exact Decides.congr (Checks.then (checks_load v) checks_pure) fun _ => by simp

omit hi in
/-- A word can always be stored. -/
theorem checks_afterValue : Checks Γ (afterValue Γ.target v index) True := by
  unfold afterValue
  split
  · exact checks_emit _
  · exact checks_store _

variable {value : Operand} {Q : ExprType → Prop} (hv : value.Decides Γ Q)
include hv

/-- The index is right already, and what is computed with is an integer. -/
theorem checks_compound (op : AssignOp) (hJ : index.isSome → J) (hint : op = .set ∨ v.type = .int) :
    Checks Γ (compound Γ.target v index op value) (Q (.scalar v.type)) := by
  have hpresent : Checks Γ (presentValue Γ.target v index) True :=
    (checks_presentValue hi).congr fun _ => iff_true_intro hJ
  have hordered (instruction : BinaryOp) :
    Checks Γ (compound.ordered Γ.target v index value instruction) (Q (.scalar .int)) := by
    have hrest (legacy : Bool) (hQ : Q (.scalar .int)) : Checks Γ (if legacy then do
          emit Γ.target .pop
          presentValue Γ.target v index
          let _ ← value.compile
          emit Γ.target (.binary instruction)
        else do
          presentValue Γ.target v index
          emit Γ.target .swap
          emit Γ.target (.binary instruction)) True := by
      split
      · exact Checks.then (checks_emit _) (Checks.then hpresent
          (Decides.andThen hv.compile (fun _ _ => checks_emit _) fun _ _ => ⟨_, hQ⟩))
      · exact Checks.then hpresent (Checks.then (checks_emit _) (checks_emit _))
    exact Decides.congr (Checks.bind (hv.compileAs _) fun hQ =>
      decides_get_bind fun s _ => hrest s.legacy hQ) fun _ => and_iff_left trivial
  have hcommutative (instruction : BinaryOp) : Checks Γ (do
      value.compileInt
      presentValue Γ.target v index
      emit Γ.target (.binary instruction)) (Q (.scalar .int)) :=
    Decides.congr (Checks.bind (hv.compileAs _) fun _ => Checks.then hpresent (checks_emit _))
      fun _ => and_iff_left trivial
  cases op with
  | set => exact hv.compileAs _
  | add => rw [hint.resolve_left nofun]; exact hcommutative _
  | mul => rw [hint.resolve_left nofun]; exact hcommutative _
  | sub => rw [hint.resolve_left nofun]; exact hordered _
  | div => rw [hint.resolve_left nofun]; exact hordered _

/-- A word is assigned to one of the same type, and only integers are computed with. -/
theorem checks_assignWord (op : Located AssignOp) :
    Checks Γ (assignWord Γ.target v index op value)
      ((op.value = .set ∨ v.type = .int) ∧ (index.isSome → J) ∧ Q (.scalar v.type)) := by
  refine Decides.congr (Decides.unless fun hint => Checks.bind (checks_beforeValue hi) fun hJ =>
    Checks.bind (checks_compound hi hv op.value hJ ?_) fun _ => checks_afterValue) fun _ => ?_
  · tauto
  · tauto

end Places

/-- As many elements are copied as both arrays have, if both lengths are known. -/
theorem decides_copyLength (a : Symbol) (x : Name) (b : Symbol) (y : Name) (span : Span) :
    Gen.Decides Γ (copyLength a x b y span) fun n => ∃ la lb, a.shape = .array (some la) ∧
      b.shape = .array (some lb) ∧ n = min la lb := by
  unfold copyLength
  split
  · rename_i la lb ha hb
    exact (decides_pure _).congr fun n => by simp [ha, hb]
  · rename_i hb
    exact decides_fail fun _ ⟨_, lb, _, h, _⟩ => hb lb h
  · rename_i hnot hb
    exact decides_fail fun _ ⟨la, lb, h, h', _⟩ => hb la lb h h'

/-- The value is a whole array that can be copied into an array. -/
def CopiesInto (Γ : Names) (value : Operand) (a : Symbol) : Prop :=
  ∃ y b, value.place? = some ⟨y, none⟩ ∧ Γ.Sees y b ∧ a.type = b.type ∧ a.Sized ∧ b.Sized

/-- Only arrays have a known length. -/
theorem isArray_of_sized {v : Symbol} (h : v.Sized) : v.isArray := by
  obtain ⟨n, hn⟩ := h
  rw [Symbol.isArray, hn]

/-- An array is copied from a variable that is an array of the same type. -/
theorem checks_copyArray (a : Symbol) (x : Name) (value : Operand) :
    Checks Γ (copyArray Γ.target a x value) (CopiesInto Γ value a) := by
  unfold copyArray
  split
  · rename_i y hy
    have hcopy (b : Symbol) (i : UInt32) : Checks Γ (do
        load Γ.target a
        emit Γ.target (.pushInt i.toInt32)
        load Γ.target b
        emitAll Γ.target [.pushInt i.toInt32, .loadElem, .storeElem]) True :=
      Checks.then (checks_load a) (Checks.then (checks_emit _)
        (Checks.then (checks_load b) (checks_emitAll _)))
    have hall (b : Symbol) : Checks Γ (do
        let length ← copyLength a x b y value.span
        forBelow (fun i => do
          load Γ.target a
          emit Γ.target (.pushInt i.toInt32)
          load Γ.target b
          emitAll Γ.target [.pushInt i.toInt32, .loadElem, .storeElem]) 0
            length.toInt32.toInt.toNat)
        (a.Sized ∧ b.Sized) :=
      Decides.andThen (decides_copyLength a x b y value.span)
        (fun n ⟨la, lb, ha, hb, _⟩ => (checks_forBelow (hcopy b) 0 _).congr fun _ =>
          iff_of_true trivial ⟨⟨la, ha⟩, lb, hb⟩)
        fun _ ⟨⟨la, ha⟩, lb, hb⟩ => ⟨_, la, lb, ha, hb, rfl⟩
    refine Decides.congr (Decides.bind (decides_resolve y) sees_unique fun b _ =>
      Decides.unless fun _ => Decides.unless fun _ => hall b) fun _ => ?_
    constructor
    · rintro ⟨b, hb, -, htype, ha, hsized⟩
      exact ⟨y, b, hy, hb, (not_not.mp htype).symm, ha, hsized⟩
    · rintro ⟨y', b, hy', hb, htype, ha, hsized⟩
      obtain rfl : y = y' := by simpa [hy] using hy'
      exact ⟨b, hb, by simp [isArray_of_sized hsized], not_not.mpr htype.symm, ha, hsized⟩
  · rename_i hnone
    exact decides_fail fun _ ⟨y, _, hy, _⟩ => hnone y hy

section Assignments

variable {target value : Operand} {P Q : ExprType → Prop}
  (ht : target.Decides Γ P) (hv : value.Decides Γ Q)
include ht

/-- Integers are incremented, if they are in a place. -/
theorem decides_step (op : StepOp) : Gen.Decides Γ (step Γ.target target op)
    fun type => type = .effect ∧ target.place?.isSome ∧ P (.scalar .int) := by
  unfold step
  cases hp : target.place? with
  | none => exact decides_fail fun _ h => Bool.false_ne_true h.2.1
  | some p =>
    obtain ⟨name, index⟩ := p
    obtain ⟨J, hi, hP⟩ := ht.place name index hp
    -- Behind the checks the code of an increment is never refused.
    have hcode (v : Symbol) (instruction : BinaryOp) : Gen.Decides Γ (do
          beforeValue Γ.target v index
          presentValue Γ.target v index
          emit Γ.target (.pushInt 1)
          emit Γ.target (.binary instruction)
          afterValue Γ.target v index
          return ExprType.effect)
        fun type => (index.isSome → J) ∧ type = .effect := by
      exact Checks.bind (checks_beforeValue hi) fun hJ => Checks.then
        ((checks_presentValue hi).congr fun _ => iff_true_intro hJ) (Checks.then (checks_emit _)
          (Checks.then (checks_emit _) (Checks.makes checks_afterValue _)))
    refine Decides.congr (Decides.bind (decides_resolve name) sees_unique
      (R := fun v type => type = .effect ∧ v.isArray = index.isSome ∧ v.type = .int ∧
        (index.isSome → J)) fun v _ => ?_) fun type => ?_
    -- An array is incremented nowhere, and an element only in an array.
    · cases index with
      | none =>
        cases ha : v.isArray with
        | true =>
          dsimp only
          rw [pure_bind]
          exact (Decides.unless fun _ => hcode v _).congr fun type => by simp
        | false =>
          dsimp only
          rw [pure_bind]
          exact (Decides.unless fun _ => hcode v _).congr fun type => by simp [and_comm]
      | some i =>
        cases ha : v.isArray with
        | true =>
          dsimp only
          rw [pure_bind]
          refine (Decides.unless fun _ => hcode v _).congr fun type => ?_
          simp only [ne_eq, not_not, ExprType.scalar.injEq, Option.isSome_some]
          tauto
        | false => exact decides_fail_bind fun _ h => Bool.false_ne_true h.2.1
    rw [hP]
    constructor
    · rintro ⟨v, hv, rfl, ha, ht, hJ⟩
      exact ⟨rfl, rfl, v, hv, ha, ht, hJ⟩
    · rintro ⟨rfl, -, v, hv, ha, ht, hJ⟩
      exact ⟨v, hv, rfl, ha, ht, hJ⟩

include hv

/-- An assignment is one of words to a place, or one of whole arrays by `=`. -/
theorem decides_assign (op : Located AssignOp) :
    Gen.Decides Γ (assign Γ.target target op value)
      fun type => type = .effect ∧ (target.place?.isSome ∧
        (∃ t, (op.value = .set ∨ t = .int) ∧ P (.scalar t) ∧ Q (.scalar t)) ∨
          op.value = .set ∧ ∃ x a, target.place? = some ⟨x, none⟩ ∧ Γ.Sees x a ∧
            CopiesInto Γ value a) := by
  unfold assign
  cases hp : target.place? with
  | none => exact decides_fail fun _ h => by simp at h
  | some p =>
    obtain ⟨name, index⟩ := p
    obtain ⟨J, hi, hP⟩ := ht.place name index hp
    refine Decides.congr (Decides.bind (decides_resolve name) sees_unique
      (R := fun v type => type = .effect ∧
        (v.isArray = index.isSome ∧ (op.value = .set ∨ v.type = .int) ∧ (index.isSome → J) ∧
          Q (.scalar v.type) ∨ op.value = .set ∧ index = none ∧ CopiesInto Γ value v))
      fun v _ => ?_) fun type => ?_
    · split
      · rename_i ha
        refine Decides.congr (Decides.unless fun _ => Checks.bind (checks_copyArray v name value)
          fun _ => decides_pure _) fun type => ?_
        simp only [ha, Option.isSome_none, Bool.true_eq_false, false_and, false_or, true_and]
        tauto
      · rename_i ha
        refine decides_fail_bind fun _ h => ?_
        simp [ha] at h
      · rename_i index _ _ hnone hsome
        -- the place is a word: a variable that is no array, or an element of one
        have ha : v.isArray = index.isSome := by
          cases index with
          | none => simpa using hnone rfl
          | some i => simpa using hsome i rfl
        refine Decides.congr (Checks.bind (checks_assignWord hi hv op) fun _ => decides_pure _)
          fun type => ?_
        have hnocopy : ¬ (op.value = .set ∧ index = none ∧ CopiesInto Γ value v) := by
          rintro ⟨-, rfl, _, _, _, _, _, hsized, _⟩
          exact Bool.false_ne_true (ha.symm.trans (isArray_of_sized hsized))
        rw [or_iff_left hnocopy, and_iff_right ha]
        exact and_comm
    simp only [hP, Option.isSome_some, true_and, Option.some.injEq, Place.mk.injEq]
    constructor
    · rintro ⟨v, hv, rfl, ⟨ha, hint, hJ, hQ⟩ | ⟨hset, rfl, hcopy⟩⟩
      · exact ⟨rfl, .inl ⟨v.type, hint, ⟨v, hv, ha, rfl, hJ⟩, hQ⟩⟩
      · exact ⟨rfl, .inr ⟨hset, name, v, ⟨rfl, rfl⟩, hv, hcopy⟩⟩
    · rintro ⟨rfl, ⟨_, hint, ⟨v, hv, ha, rfl, hJ⟩, hQ⟩ | ⟨hset, _, v, ⟨rfl, rfl⟩, hv, hcopy⟩⟩
      · exact ⟨v, hv, rfl, .inl ⟨ha, hint, hJ, hQ⟩⟩
      · exact ⟨v, hv, rfl, .inr ⟨hset, rfl, hcopy⟩⟩

end Assignments

end Rules

/-! ## Calls -/

namespace Expr

/-- Variables and elements are the operands with a place. -/
theorem isPlace_iff (t : Target) (e : Expr) : e.IsPlace ↔ (e.operand t).place?.isSome := by
  cases e <;> simp [IsPlace, operand]

/-- Compiling an expression decides which type it has. -/
abbrev Decided (Γ : Names) (e : Expr) : Prop :=
  (e.operand Γ.target).Decides Γ (e.HasType Γ)

end Expr

namespace Rules

open Gen

variable {Γ : Names}

/-- Words are read into places. -/
theorem checks_putOne {o : Operand} {P : ExprType → Prop} (ho : o.Decides Γ P) :
    Checks Γ (putOne Γ.target o) (o.place?.isSome ∧ ∃ t, P (.scalar t)) := by
  unfold putOne
  cases hp : o.place? with
  | none => exact decides_fail fun _ h => Bool.false_ne_true h.1
  | some p =>
    obtain ⟨name, index⟩ := p
    obtain ⟨J, hi, hP⟩ := ho.place name index hp
    refine Decides.congr (Decides.bind (decides_resolve name) sees_unique
      (R := fun v _ => v.isArray = index.isSome ∧ (index.isSome → J)) fun v _ => ?_) fun _ => ?_
    · have hcode : Checks Γ (do
          beforeValue Γ.target v index
          emitAll Γ.target [.readLine, .parse v.type]
          afterValue Γ.target v index) (index.isSome → J) :=
        Decides.congr (Checks.bind (checks_beforeValue hi) fun _ =>
          Checks.then (checks_emitAll _) checks_afterValue) fun _ => and_iff_left trivial
      cases index with
      | none =>
        cases ha : v.isArray with
        | true => exact decides_fail fun _ h => Bool.false_ne_true h.1.symm
        | false => exact hcode.congr fun _ => (and_iff_right rfl).symm
      | some i =>
        cases ha : v.isArray with
        | true => exact hcode.congr fun _ => (and_iff_right rfl).symm
        | false => exact decides_fail fun _ h => Bool.false_ne_true h.1
    simp only [hP, Option.isSome_some, true_and]
    constructor
    · rintro ⟨v, hv, ha, hJ⟩
      exact ⟨v.type, v, hv, ha, rfl, hJ⟩
    · rintro ⟨_, v, hv, ha, rfl, hJ⟩
      exact ⟨v, hv, ha, hJ⟩

section Calls

variable {t : Target} {args : List Expr} (hargs : ∀ a ∈ args, a.Decided Γ)
include hargs

/-- An argument has the type of its parameter. -/
theorem checks_arguments {params : List Slot} (hlength : args.length = params.length) :
    Checks Γ (arguments (Expr.operands Γ.target args) params)
      (List.Forall₂ (fun a s => a.HasType Γ (.ofSlot s)) args params) := by
  induction args generalizing params with
  | nil =>
    obtain rfl := List.length_eq_zero_iff.mp hlength.symm
    exact checks_pure.congr fun _ => by simp
  | cons a as ih =>
    obtain ⟨s, ss, rfl⟩ := List.exists_cons_of_length_eq_add_one hlength.symm
    refine Decides.congr (Checks.bind ((hargs a (.head _)).compileAs _) fun _ =>
      ih (fun b hb => hargs b (.tail _ hb)) (by simpa using hlength)) fun _ => ?_
    rw [List.forall₂_cons]

/-- An argument of a format has a type that can be printed. -/
theorem checks_formatArguments :
    Checks Γ (formatArguments Γ.target (Expr.operands Γ.target args))
      (∀ a ∈ args, ∃ type, a.HasType Γ type ∧ type.HasText) := by
  induction args with
  | nil => exact checks_pure.congr fun _ => by simp
  | cons a as ih =>
    have has := ih fun b hb => hargs b (.tail _ hb)
    refine Decides.congr (Decides.bind (hargs a (.head _)).compile (hargs a (.head _)).unique
      (R := fun found _ => found.HasText ∧
        ∀ a ∈ as, ∃ type, a.HasType Γ type ∧ type.HasText) fun found _ => ?_) fun _ => ?_
    · split
      · exact Decides.congr (Checks.then (checks_emit _) has) fun _ => (and_iff_right trivial).symm
      · exact has.congr fun _ => (and_iff_right trivial).symm
      · rename_i hscalar hstr
        exact decides_fail_bind fun _ h => ExprType.not_hasText hscalar hstr h.1
    · simp only [List.forall_mem_cons]
      constructor
      · rintro ⟨type, ha, ht, has⟩
        exact ⟨⟨type, ha, ht⟩, has⟩
      · rintro ⟨⟨type, ha, ht⟩, has⟩
        exact ⟨type, ha, ht, has⟩

/-- What is printed is one value, or a format with its arguments. -/
theorem decides_print (name : Name) :
    Gen.Decides Γ (print Γ.target name (Expr.operands Γ.target args)) fun type => type = .effect ∧
      ((∃ a type, args = [a] ∧ a.HasType Γ type ∧ type.HasText) ∨
        ∃ a rest, args = a :: rest ∧ rest ≠ [] ∧ a.HasType Γ .str ∧
          ∀ b ∈ rest, ∃ type, b.HasType Γ type ∧ type.HasText) := by
  obtain _ | ⟨a, _ | ⟨b, rest⟩⟩ := args
  · exact decides_fail fun _ h => by simp at h
  · have ha := hargs a (.head _)
    refine Decides.congr (Decides.bind ha.compile ha.unique
      (R := fun found type => found.HasText ∧ type = .effect) fun found _ => ?_) fun type => ?_
    · split
      · exact Decides.congr (Checks.makes (checks_emit _) _) fun _ => (and_iff_right trivial).symm
      · exact Decides.congr (Checks.makes (checks_emit _) _) fun _ => (and_iff_right trivial).symm
      · rename_i hscalar hstr
        exact decides_fail_bind fun _ h => ExprType.not_hasText hscalar hstr h.1
    · constructor
      · rintro ⟨found, hfound, htext, rfl⟩
        exact ⟨rfl, .inl ⟨a, found, rfl, hfound, htext⟩⟩
      · rintro ⟨rfl, ⟨_, found, ⟨⟩, hfound, htext⟩ | ⟨_, _, ⟨⟩, hne, _⟩⟩
        · exact ⟨found, hfound, htext, rfl⟩
        · exact absurd rfl hne
  · have ha := hargs a (.head _)
    have hformat := checks_formatArguments fun c hc => hargs c (.tail _ hc)
    have hcount (found : ExprType) : Gen.Decides Γ (if found ≠ .str then do
          fail (.printFormat found) (a.operand Γ.target).span
          formatArguments Γ.target (Expr.operands Γ.target (b :: rest))
          emit Γ.target (.printFormat (.ofNat (Expr.operands Γ.target (b :: rest)).length))
          return ExprType.effect
        else do
          formatArguments Γ.target (Expr.operands Γ.target (b :: rest))
          emit Γ.target (.printFormat (.ofNat (Expr.operands Γ.target (b :: rest)).length))
          return ExprType.effect)
        fun type => ¬ found ≠ .str ∧
          (∀ c ∈ b :: rest, ∃ type, c.HasType Γ type ∧ type.HasText) ∧ type = .effect :=
      Decides.unless fun _ => Checks.bind hformat fun _ => Checks.makes (checks_emit _) _
    refine Decides.congr (Decides.bind ha.compile ha.unique fun found _ => hcount found)
      fun type => ?_
    constructor
    · rintro ⟨found, hfound, hstr, hall, rfl⟩
      obtain rfl := not_not.mp hstr
      exact ⟨rfl, .inr ⟨a, b :: rest, rfl, nofun, hfound, hall⟩⟩
    · rintro ⟨rfl, ⟨_, _, ⟨⟩, _⟩ | ⟨_, _, ⟨⟩, -, hfound, hall⟩⟩
      exact ⟨.str, hfound, not_not.mpr rfl, hall, rfl⟩

/-- Every target of an input is a place for a word. -/
theorem checks_puts : Checks Γ ((Expr.operands Γ.target args).forM (putOne Γ.target))
    (∀ a ∈ args, a.IsPlace ∧ ∃ t, a.HasType Γ (.scalar t)) := by
  induction args with
  | nil => exact checks_pure.congr fun _ => by simp
  | cons a as ih =>
    refine Decides.congr (Checks.bind (checks_putOne (hargs a (.head _))) fun _ =>
      ih fun b hb => hargs b (.tail _ hb)) fun _ => ?_
    rw [List.forall_mem_cons, a.isPlace_iff Γ.target]

/-- An input has one target at least. -/
theorem decides_put (name : Name) :
    Gen.Decides Γ (put Γ.target name (Expr.operands Γ.target args)) fun type => type = .effect ∧
      args ≠ [] ∧ ∀ a ∈ args, a.IsPlace ∧ ∃ t, a.HasType Γ (.scalar t) := by
  unfold put putEach
  refine Decides.congr (Decides.unless fun _ => Checks.bind (checks_puts hargs) fun _ =>
    decides_pure _) fun type => ?_
  have hempty : (Expr.operands Γ.target args).isEmpty ↔ args = [] := by
    rw [List.isEmpty_iff_length_eq_zero, Expr.length_operands, List.length_eq_zero_iff]
  rw [hempty]
  tauto

/-- A call has the type of its function, if that takes the arguments. -/
theorem decides_call (span : Span) (name : Name) :
    Gen.Decides Γ (call Γ.target span name (Expr.operands Γ.target args)) fun type =>
      ∃ f, Γ.Knows name f ∧ type = callType f ∧ Expr.Accepted Γ f args := by
  have hknown : ∀ f f', Γ.Knows name f → Γ.Knows name f' → f = f' :=
    fun _ _ h h' => Option.some.inj (h.symm.trans h')
  refine decides_get_bind fun s hs => Decides.bind (decides_knows hs name) hknown
    (R := fun f type => type = callType f ∧ Expr.Accepted Γ f args) fun f _ => ?_
  cases hbody : f.body with
  | intrinsic i =>
    cases i with
    | print =>
      dsimp only
      refine (decides_print hargs name).congr fun type => ?_
      rw [callType, Expr.Accepted, hbody]
    | put =>
      dsimp only
      refine (decides_put hargs name).congr fun type => ?_
      rw [callType, Expr.Accepted, hbody]
  | routine n =>
    dsimp only
    refine Decides.congr (Decides.unless fun hlength => Checks.bind (checks_arguments hargs ?_)
      fun _ => Checks.makes (checks_emit _) _) fun type => ?_
    · simpa [Expr.length_operands] using hlength
    · rw [callType, Expr.Accepted, hbody, Expr.length_operands]
      dsimp only
      constructor
      · rintro ⟨-, hall, htype⟩
        exact ⟨htype, hall⟩
      · rintro ⟨htype, hall⟩
        exact ⟨not_not.mpr hall.length_eq, hall, htype⟩

end Calls

end Rules

/-! ## Expressions -/

namespace Expr

variable {Γ : Names}

/-- For expressions that are no places there is only their code to decide on. -/
theorem Decided.of_no_place {e : Expr}
    (h : Gen.Decides Γ (e.operand Γ.target).compile (e.HasType Γ))
    (hplace : (e.operand Γ.target).place? = none) : e.Decided Γ :=
  ⟨h, fun _ _ => HasType.unique, fun _ _ hp => nomatch hplace.symm.trans hp⟩

/-- A variable has the type of a word if it is visible and no array. -/
theorem hasType_var_scalar {n : Name} {type : WordType} : (var n).HasType Γ (.scalar type) ↔
    ∃ v, Γ.Sees n v ∧ v.isArray = false ∧ v.type = type := by
  have hslot (v : Symbol) : ExprType.scalar type = .ofSlot v.slot ↔
      v.isArray = false ∧ v.type = type := by
    rw [ExprType.ofSlot, Symbol.slot]
    cases v.isArray <;> simp [eq_comm]
  simp only [hasType_var, hslot]

/-- The only place without an index is a variable. -/
theorem place_eq_var {t : Target} {p : Expr} {x : Name} :
    (p.operand t).place? = some ⟨x, none⟩ ↔ p = .var x := by
  cases p <;> simp [operand]

/-- The rule for assignments of arrays, told by the operands instead of the expressions. -/
theorem copies_iff {t : Target} {p v : Expr} : Copies Γ p v ↔
    ∃ x a, (p.operand t).place? = some ⟨x, none⟩ ∧ Γ.Sees x a ∧
      Rules.CopiesInto Γ (v.operand t) a := by
  unfold Copies Rules.CopiesInto
  simp only [place_eq_var]
  constructor
  · rintro ⟨x, y, a, b, rfl, rfl, ha, hb, hsame⟩
    exact ⟨x, a, rfl, ha, y, b, rfl, hb, hsame⟩
  · rintro ⟨x, a, rfl, ha, y, b, rfl, hb, hsame⟩
    exact ⟨x, y, a, b, rfl, rfl, ha, hb, hsame⟩

/-- Compiling an expression decides which type it has. -/
theorem decided (e : Expr) : e.Decided Γ := by
  -- for each form, what compiling it decides is what the rules say of its node
  induction e using Expr.induct with
  | literal v =>
    exact .of_no_place ((Rules.decides_literal _).congr fun _ => hasType_literal.symm) rfl
  | var n =>
    refine ⟨(Rules.decides_var n).congr fun _ => hasType_var.symm, fun _ _ => HasType.unique, ?_⟩
    rintro name index ⟨⟩
    refine ⟨True, nofun, fun t => ?_⟩
    simp [hasType_var_scalar]
  | elem n i ih =>
    refine ⟨(Rules.decides_elem _ n (ih.compileAs _)).congr fun _ => hasType_elem.symm,
      fun _ _ => HasType.unique, ?_⟩
    rintro name index ⟨⟩
    refine ⟨i.HasType Γ (.scalar .int), ?_, fun t => ?_⟩
    · rintro _ ⟨⟩
      exact ih.compileAs _
    · simp only [hasType_elem, ExprType.scalar.injEq, Option.isSome_some, true_imp_iff,
        eq_comm (a := t)]
  | paren e ih => exact .of_no_place (ih.compile.congr fun _ => hasType_paren.symm) rfl
  | call n args ih =>
    exact .of_no_place ((Rules.decides_call ih _ n).congr fun _ => hasType_call.symm) rfl
  | lead op e ih =>
    exact .of_no_place ((Rules.decides_lead ih _).congr fun _ => hasType_lead.symm) rfl
  | arith l op r hl hr =>
    exact .of_no_place ((Rules.decides_arith hl hr _).congr fun _ => hasType_arith.symm) rfl
  | compare l op r hl hr =>
    exact .of_no_place ((Rules.decides_compare hl hr _).congr fun _ => hasType_compare.symm) rfl
  | negate word e ih =>
    exact .of_no_place ((Rules.decides_negate ih).congr fun _ => hasType_negate.symm) rfl
  | logic op l r hl hr =>
    exact .of_no_place ((Rules.decides_logic hl hr _).congr fun _ => hasType_logic.symm) rfl
  | step p op ih =>
    refine .of_no_place ((Rules.decides_step ih _).congr fun _ => ?_) rfl
    rw [hasType_step, isPlace_iff]
  | assign p op v hp hv =>
    refine .of_no_place ((Rules.decides_assign hp hv op).congr fun _ => ?_) rfl
    rw [hasType_assign, isPlace_iff, copies_iff]

end Expr

/-- **The type checker decides the rules of types.** An expression is compiled exactly if the rules
give it a type, and then that is the type that is found, at whatever level of the grammar the
expression stands. -/
theorem Expr.compile_decides (e : Expr) (g : Generator) (t : Target) :
    match (e.compile t).run g with
    | .ok (found, _) => ∀ level type, (e.nodeAt level).HasType (g.names t) type ↔ type = found
    | .error _ => ∀ level type, ¬ (e.nodeAt level).HasType (g.names t) type := by
  have hdecides := Operand.Decides.compile e.decided g (g.names_fits t)
  have hrun : (e.compile t).run g = (e.operand (g.names t).target).compile.run g := rfl
  simp only [hasType_at]
  rw [hrun]
  split at hdecides
  · rename_i found g' hm
    rw [hm]
    intro _ type
    constructor
    · exact fun htype => htype.unique hdecides.1
    · rintro rfl
      exact hdecides.1
  · rename_i err hm
    rw [hm]
    exact fun _ => hdecides

end OnePass
