import OnePass.Proofs.FunctionRuns
import OnePass.Proofs.StraightCode

/-!
# Expressions without calls and random numbers

An expression in which there is no call and no `?` is compiled to code without effect. Which code
that is depends on the visible variables alone, so that it is the same each time that the expression
is compiled. Main statement: the code turns no values into one (`Expr.straight`).
-/

namespace OnePass

/-- There is no call in an expression, and no `?`. -/
def Expr.calm : Expr → Bool
  | .literal _ | .var _ => true
  | .elem _ i => i.calm
  | .paren e => e.calm
  | .call _ _ => false
  | .lead op e => op.value ≠ .random && e.calm
  | .arith l _ r => l.calm && r.calm
  | .compare l _ r => l.calm && r.calm
  | .negate _ e => e.calm
  | .logic _ l r => l.calm && r.calm
  | .step p _ => p.calm
  | .assign p _ v => p.calm && v.calm

namespace Gen

variable {α β : Type} {t : Target} {s : Scopes} {n k : Nat}

/-- In every state in which the visible variables are `s`, `m` makes `a` and appends the
instructions. -/
def Appends (t : Target) (s : Scopes) (m : Gen α) (a : α) (is : List Instruction) : Prop :=
  ∀ g, g.scopes = s → Makes m g a (g.onDraft t fun d => d.emitAll is)

/-- Instructions behind instructions are instructions. -/
theorem onDraft_emitAll_append (g : Generator) (is js : List Instruction) :
    ((g.onDraft t fun d => d.emitAll is).onDraft t fun d => d.emitAll js) =
      g.onDraft t fun d => d.emitAll (is ++ js) := by
  simp [Function.comp_def, Draft.emitAll]

/-- What two parts append stands one behind the other. -/
theorem Appends.bind {m : Gen α} {f : α → Gen β} {a : α} {b : β} {is js : List Instruction}
    (h : Appends t s m a is) (h' : Appends t s (f a) b js) :
    Appends t s (m >>= f) b (is ++ js) := by
  intro g hg
  have hrest := h' (g.onDraft t fun d => d.emitAll is) ((g.onDraft_scopes t _).trans hg)
  rw [onDraft_emitAll_append] at hrest
  exact makes_bind.mpr ⟨a, _, h g hg, hrest⟩

/-- To add no instruction changes nothing. -/
theorem onDraft_emitAll_nil (g : Generator) : (g.onDraft t fun d => d.emitAll []) = g := by
  cases t <;> rfl

theorem appends_pure (a : α) : Appends t s (pure a) a [] :=
  fun g _ => makes_pure.mpr ⟨rfl, onDraft_emitAll_nil g⟩

/-- An instruction appends itself. -/
theorem appends_emit (i : Instruction) : Appends t s (emit t i) ⟨⟩ [i] :=
  fun _ _ => makes_emit.mpr rfl

theorem appends_emitAll (is : List Instruction) : Appends t s (emitAll t is) ⟨⟩ is :=
  fun _ _ => makes_emitAll.mpr rfl

/-- What `m` makes depends on the visible variables alone; it appends code that turns `n` values
into one. -/
def Straight (t : Target) (n : Nat) (m : Gen α) : Prop :=
  ∀ g a g', Makes m g a g' → ∃ is, Appends t g.scopes m a is ∧ Reduces is n

/-- What `m` makes depends on the visible variables alone; it appends nothing. -/
def Reads (m : Gen α) : Prop :=
  ∀ g a g', Makes m g a g' → g' = g ∧ ∀ g₁ : Generator, g₁.scopes = g.scopes → Makes m g₁ a g₁

/-- There is no run to write anything else. -/
theorem straight_fail (e : SemanticError) (span : Span) : Straight t n (fail e span : Gen α) :=
  fun _ _ _ h => absurd h not_makes_fail

theorem straight_pure (a : α) : Straight t 1 (pure a) := by
  intro g b g' h
  obtain ⟨rfl, -⟩ := makes_pure.mp h
  exact ⟨[], appends_pure b, reduces_nil⟩

/-- Instructions that reduce the stack are straight. -/
theorem straight_emitAll {is : List Instruction} (h : Reduces is n) :
    Straight t n (emitAll t is) := fun _ _ _ _ => ⟨is, appends_emitAll is, h⟩

theorem straight_emit {i : Instruction} (h : Reduces [i] n) : Straight t n (emit t i) :=
  fun _ _ _ _ => ⟨[i], appends_emit i, h⟩

/-- What takes the value that was computed, and others that were there before. -/
theorem Straight.bind {m : Gen α} {f : α → Gen β} (hm : Straight t n m)
    (hf : ∀ a, Straight t (k + 1) (f a)) : Straight t (n + k) (m >>= f) := by
  intro g b g'' h
  obtain ⟨a, g', h₁, h₂⟩ := makes_bind.mp h
  obtain ⟨is, his, hred⟩ := hm g a g' h₁
  obtain rfl := (h₁.unique (his g rfl)).2
  obtain ⟨js, hjs, hred'⟩ := hf a _ b g'' h₂
  rw [Generator.onDraft_scopes] at hjs
  exact ⟨is ++ js, his.bind hjs, hred.append hred'⟩

/-- What reads the state in front does not change what is straight behind it. -/
theorem Reads.bind {m : Gen α} {f : α → Gen β} (hm : Reads m) (hf : ∀ a, Straight t n (f a)) :
    Straight t n (m >>= f) := by
  intro g b g'' h
  obtain ⟨a, g', h₁, h₂⟩ := makes_bind.mp h
  obtain ⟨rfl, hagain⟩ := hm g a g' h₁
  obtain ⟨is, his, hred⟩ := hf a g' b g'' h₂
  exact ⟨is, fun g₁ hg₁ => makes_bind.mpr ⟨a, g₁, hagain g₁ hg₁, his g₁ hg₁⟩, hred⟩

/-- What only reads the state leaves the stack as it is. -/
theorem Reads.straight {m : Gen α} (h : Reads m) : Straight t 1 m := by
  intro g a g' hm
  refine ⟨[], fun g₁ hg₁ => ?_, reduces_nil⟩
  rw [onDraft_emitAll_nil]
  exact (h g a g' hm).2 g₁ hg₁

/-- Types are compared by reading. -/
theorem reads_expectType (span : Span) (expected found : ExprType) :
    Reads (expectType span expected found) := by
  intro g u g' h
  unfold expectType at h ⊢
  split at h
  · rw [if_pos ‹_›]
    exact ⟨(makes_pure.mp h).2, fun g₁ _ => makes_pure.mpr ⟨rfl, rfl⟩⟩
  · exact absurd h not_makes_fail

/-- A type that passes is the one that is expected. -/
theorem eq_of_expectType {span : Span} {expected found : ExprType} {g g' : Generator} {u : Unit}
    (h : Makes (expectType span expected found) g u g') : expected = found := by
  unfold expectType at h
  split at h
  · assumption
  · exact absurd h not_makes_fail

/-- A load pushes one value. -/
theorem straight_load (v : Symbol) : Straight t 0 (load t v) := by
  unfold load
  split
  · exact straight_emit (reduces_loadField _)
  · exact straight_emit (reduces_loadLocal _)
  · exact straight_emit (reduces_loadArg _)

/-- Names are looked up by reading. -/
theorem reads_resolve (name : Name) : Reads (resolve t name) := by
  intro g v g' h
  refine ⟨(makes_resolve h).1, fun g₁ hg₁ => ?_⟩
  simp only [resolve, makes_bind, makes_get, makes_lift] at h ⊢
  obtain ⟨_, _, ⟨rfl, rfl⟩, v', _, ⟨hv, rfl⟩, h⟩ := h
  refine ⟨_, _, ⟨rfl, rfl⟩, v', _, ⟨hg₁ ▸ hv, rfl⟩, ?_⟩
  split at h
  · exact absurd h not_makes_fail
  · exact absurd h not_makes_fail
  · obtain ⟨rfl, -⟩ := makes_pure.mp h
    exact makes_pure.mpr ⟨rfl, rfl⟩

end Gen

/-! ## Operands -/

/-- Code for an operand that has a value is straight. -/
def Operand.Straight (o : Operand) (t : Target) : Prop :=
  ∀ g type g', Gen.Makes o.compile g type g' → type.hasValue →
    ∃ is, Gen.Appends t g.scopes o.compile type is ∧ Reduces is 0

namespace Operand

variable {t : Target} {o : Operand}

/-- An operand is straight if its code is. -/
theorem Straight.of_compile (h : Gen.Straight t 0 o.compile) : o.Straight t :=
  fun g type g' hm _ => h g type g' hm

/-- What comes to no value need not be straight. -/
theorem Straight.of_effect (h : ∀ g type g', Gen.Makes o.compile g type g' → type = .effect) :
    o.Straight t := by
  intro g type g' hm hvalue
  obtain rfl := h g type g' hm
  cases hvalue

section

variable {α : Type} {k : Nat} (h : o.Straight t)
include h

/-- Code for a value, and what is only made where there is one. -/
theorem Straight.bind {f : ExprType → Gen α}
    (hvalue : ∀ type g a g', Gen.Makes (f type) g a g' → type.hasValue)
    (hf : ∀ type, Gen.Straight t (k + 1) (f type)) : Gen.Straight t k (o.compile >>= f) := by
  intro g a g'' hm
  obtain ⟨type, g', h₁, h₂⟩ := Gen.makes_bind.mp hm
  obtain ⟨is, his, hred⟩ := h g type g' h₁ (hvalue type g' a g'' h₂)
  obtain rfl := (h₁.unique (his g rfl)).2
  obtain ⟨js, hjs, hred'⟩ := hf type _ a g'' h₂
  rw [Generator.onDraft_scopes] at hjs
  exact ⟨is ++ js, his.bind hjs, Nat.zero_add k ▸ hred.append hred'⟩

/-- A type that is expected of an operand adds no code. -/
theorem Straight.compileAs {type : ExprType} (hvalue : type.hasValue) :
    Gen.Straight t 0 (o.compileAs type) := by
  refine h.bind (fun found g u g' hm => ?_) fun found => (Gen.reads_expectType _ _ _).straight
  rwa [← Gen.eq_of_expectType hm]

/-- The second time that the operand is compiled it needs no check. -/
theorem Straight.value {type : ExprType} (hvalue : type.hasValue) {g g' : Generator} {u : Unit}
    (hm : Gen.Makes (o.compileAs type) g u g') :
    ∃ is, Gen.Appends t g.scopes (o.compileAs type) ⟨⟩ is ∧
      Gen.Appends t g.scopes o.compile type is ∧ Reduces is 0 := by
  obtain ⟨is, his, hred⟩ := h g type g' (makes_compileAs hm) hvalue
  refine ⟨is, fun g₁ hg₁ => Gen.makes_bind.mpr ⟨type, _, his g₁ hg₁, ?_⟩, his, hred⟩
  rw [Gen.expectType, if_pos rfl]
  exact Gen.makes_pure.mpr ⟨rfl, rfl⟩

/-- A value that is expected of an operand adds no code. -/
theorem Straight.compileUnder (op : Token) : Gen.Straight t 0 (o.compileUnder op) := by
  refine h.bind (fun found g u g' hm => ?_) fun found => ?_
  · split at hm
    · exact absurd hm Gen.not_makes_fail
    · rename_i heq
      rw [not_not.mp heq]
      rfl
  · split
    · exact Gen.straight_fail _ _
    · exact Gen.straight_pure _

end

end Operand

namespace Rules

open Gen

variable {t : Target} {o l r : Operand}

/-- A literal is one instruction that pushes. -/
theorem straight_literal (v : Literal) : Straight t 0 (literal t v) := by
  cases v with
  | str s => exact (straight_emit (reduces_pushStr s)).bind (k := 0) fun _ => straight_pure _
  | int | bool | char =>
    exact (straight_emit (reduces_pushInt _)).bind (k := 0) fun _ => straight_pure _

/-- A variable is one instruction that pushes. -/
theorem straight_var (name : Name) : Straight t 0 (var t name) :=
  (reads_resolve name).bind fun v => (straight_load v).bind (k := 0) fun _ => straight_pure _

/-- An element is its array, its index and an instruction that takes both. -/
theorem straight_elem (span : Span) (name : Name) {index : Gen Unit} (hi : Straight t 0 index) :
    Straight t 0 (elem t span name index) := by
  refine (reads_resolve name).bind fun v => (straight_load v).bind (k := 0) fun _ => ?_
  split
  · exact hi.bind (k := 1) fun _ => (straight_emit reduces_loadElem).bind (k := 0) fun _ =>
      straight_pure _
  · exact straight_fail _ _

/-- The present value of a target is loaded, with its index if there is one. -/
theorem straight_presentValue {v : Symbol} {index : Option (Gen Unit)}
    (hi : ∀ i ∈ index, Straight t 0 i) : Straight t 0 (presentValue t v index) := by
  cases index with
  | some i =>
    exact (straight_load v).bind (k := 0) fun _ => (hi i rfl).bind (k := 1) fun _ =>
      straight_emit reduces_loadElem
  | none => exact (straight_load v).bind (k := 0) fun _ => straight_pure _

/-- The opposite of a truth value. -/
theorem reduces_invert : Reduces [.pushInt 0, .binary .eq] 1 :=
  (reduces_pushInt 0).append (k := 1) (reduces_binary .eq)

/-- A comparison makes one value of two. -/
theorem reduces_comparison (op : RelOp) : Reduces (comparison op) 2 := by
  cases op with
  | eq | lt | gt => exact reduces_binary _
  | ne | ge | le => exact (reduces_binary _).append (k := 0) reduces_invert

theorem straight_negate (ho : o.Straight t) : Straight t 0 (negate t o) :=
  (ho.compileAs rfl).bind (k := 0) fun _ => (straight_emitAll reduces_invert).bind (k := 0)
    fun _ => straight_pure _

/-- A logical operator evaluates both sides. No jump is between them. -/
theorem straight_logic (hl : l.Straight t) (hr : r.Straight t) (op : LogicOp) :
    Straight t 0 (logic t op l r) :=
  (hl.compileAs rfl).bind (k := 0) fun _ => (hr.compileAs rfl).bind (k := 1) fun _ =>
    (straight_emit (reduces_binary _)).bind (k := 0) fun _ => straight_pure _

/-- An arithmetic operator makes one value of two. -/
theorem straight_arith (hl : l.Straight t) (hr : r.Straight t) (op : ArithOp) :
    Straight t 0 (arith t l op r) :=
  (hl.compileUnder _).bind (k := 0) fun _ => (hr.compileUnder _).bind (k := 1) fun _ =>
    (straight_emit (reduces_binary _)).bind (k := 0) fun _ => straight_pure _

/-- A comparison makes one value of two, by one instruction or more. -/
theorem straight_compare (hl : l.Straight t) (hr : r.Straight t) (op : RelOp) :
    Straight t 0 (compare t l op r) := by
  have hcomparable {left : ExprType} (h : comparable op left = true) : left.hasValue := by
    cases left <;> first | rfl | cases h
  refine hl.bind (fun left g a g' hm => ?_) fun left => hr.bind (fun right g a g' hm => ?_)
    fun right => ?_
  · obtain ⟨right, g₁, -, hm⟩ := makes_bind.mp hm
    split at hm
    · exact hcomparable ‹_›
    · exact absurd hm not_makes_fail
  · split at hm
    · obtain ⟨u, g₁, hexpect, -⟩ := makes_bind.mp hm
      exact eq_of_expectType hexpect ▸ hcomparable ‹_›
    · exact absurd hm not_makes_fail
  · split
    · exact (reads_expectType _ _ _).bind fun _ =>
        (straight_emitAll (reduces_comparison op)).bind (k := 0) fun _ => straight_pure _
    · exact straight_fail _ _

/-- A sign and a length are straight. A random number has a jump in it. -/
theorem straight_lead (ho : o.Straight t) {op : LeadOp} (hop : op ≠ .random) :
    Straight t 0 (lead t op o) := by
  cases op with
  | random => exact absurd rfl hop
  | negative =>
    exact (ho.compileUnder _).bind (k := 0) fun _ => (straight_emit reduces_neg).bind (k := 0)
      fun _ => straight_pure _
  | length =>
    refine ho.bind (fun found g a g' hm => ?_) fun found => ?_
    · split at hm
      · rfl
      · exact absurd hm not_makes_fail
    · split
      · exact (straight_emit reduces_arrayLen).bind (k := 0) fun _ => straight_pure _
      · exact straight_fail _ _

end Rules

/-- **Code for an expression without calls and random numbers turns no values into one.** Compiled
again where the same variables are visible, the expression has the same code. -/
theorem Expr.straight (t : Target) {e : Expr} (h : e.calm) : (e.operand t).Straight t := by
  induction e using Expr.induct with
  | literal v => exact .of_compile (Rules.straight_literal _)
  | var n => exact .of_compile (Rules.straight_var n)
  | elem n i ih => exact .of_compile (Rules.straight_elem _ n ((ih h).compileAs rfl))
  | paren e ih => exact ih h
  | call n args _ => cases h
  | lead op e ih =>
    rw [calm, Bool.and_eq_true] at h
    exact .of_compile (Rules.straight_lead (ih h.2) (of_decide_eq_true h.1))
  | arith l op r hl hr =>
    rw [calm, Bool.and_eq_true] at h
    exact .of_compile (Rules.straight_arith (hl h.1) (hr h.2) _)
  | compare l op r hl hr =>
    rw [calm, Bool.and_eq_true] at h
    exact .of_compile (Rules.straight_compare (hl h.1) (hr h.2) _)
  | negate word e ih => exact .of_compile (Rules.straight_negate (ih h))
  | logic op l r hl hr =>
    rw [calm, Bool.and_eq_true] at h
    exact .of_compile (Rules.straight_logic (hl h.1) (hr h.2) _)
  | step p op _ => exact .of_effect fun g type g' hm => (Rules.makes_step hm).1
  | assign p op v _ _ => exact .of_effect fun g type g' hm => (Rules.makes_assign hm).1

end OnePass
