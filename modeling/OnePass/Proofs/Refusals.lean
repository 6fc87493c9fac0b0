import OnePass.Proofs.Constructs

/-!
# What programs are refused for

The rules that generate code for the parts of a program refuse it for faults of the program, and a
program has no malformed nodes. Main statement: no construct but a return is refused as malformed,
and a return only outside functions (`Construct.proper_compile`).

`Gen.Proper` says this of any generator. It composes as generators do, so each rule of code
generation gets one lemma.
-/

namespace OnePass

namespace Gen

variable {α β : Type}

/-- Whatever the state, the program is not refused as malformed. -/
def Proper (m : Gen α) : Prop :=
  ∀ g e, m.run g = .error e → ∀ rule, e.value ≠ .malformed rule

/-! ## Composition -/

section

variable {m : Gen α}

/-- Some generators refuse nothing. -/
theorem Proper.of_makes (h : ∀ g, ∃ a g', Makes m g a g') : Proper m := by
  intro g e he
  obtain ⟨a, g', hm⟩ := h g
  cases hm.symm.trans he

/-- Of generators one after the other the refusal is that of the one that fails. -/
theorem Proper.bind {f : α → Gen β} (hm : Proper m) (hf : ∀ a, Proper (f a)) :
    Proper (m >>= f) := by
  intro g e he
  rw [run_bind] at he
  rcases hrun : m.run g with e' | ⟨a, g'⟩ <;> rw [hrun] at he
  · cases he
    exact hm g e hrun
  · exact hf a g' e he

theorem proper_pure (a : α) : Proper (pure a : Gen α) :=
  .of_makes fun g => ⟨a, g, makes_pure.mpr ⟨rfl, rfl⟩⟩

/-- A refusal in other words is proper. -/
theorem proper_fail {e : SemanticError} (h : ∀ rule, e ≠ .malformed rule) (span : Span) :
    Proper (fail e span : Gen α) := by
  rintro g _ ⟨⟩
  exact h

/-- What comes behind a check. -/
theorem Proper.check {p : Prop} [Decidable p] {e : SemanticError} {span : Span} {f : β → Gen α}
    (h : ∀ rule, e ≠ .malformed rule) (hm : Proper m) :
    Proper (if p then fail e span >>= f else m) := by
  split
  · rintro g _ ⟨⟩
    exact h
  · exact hm

/-- What depends on the state is proper if it is so in every state. -/
theorem proper_get_bind {f : Generator → Gen α} (hf : ∀ s, Proper (f s)) : Proper (get >>= f) :=
  fun g => hf g g

theorem proper_set (g : Generator) : Proper (set g : Gen PUnit) :=
  .of_makes fun _ => ⟨⟨⟩, g, rfl⟩

/-- A computation without a state. -/
theorem proper_lift {x : Except (Located SemanticError) α}
    (h : ∀ e, x = .error e → ∀ rule, e.value ≠ .malformed rule) : Proper (liftM x) := by
  rcases x with e | a
  · rintro g _ ⟨⟩
    exact h e rfl
  · exact .of_makes fun g => ⟨a, g, makes_lift.mpr ⟨rfl, rfl⟩⟩

theorem proper_modify (f : Generator → Generator) : Proper (modify f) :=
  .of_makes fun g => ⟨⟨⟩, f g, makes_modify.mpr rfl⟩

/-- A loop is proper if its rounds are. -/
theorem proper_forM {f : α → Gen Unit} {xs : List α} (hf : ∀ x ∈ xs, Proper (f x)) :
    Proper (xs.forM f) := by
  induction xs with
  | nil => exact proper_pure _
  | cons x xs ih => exact (hf x (.head _)).bind fun _ => ih fun y hy => hf y (.tail _ hy)

/-- A loop over numbers is proper if its rounds are. -/
theorem proper_forBelow {f : UInt32 → Gen Unit} (hf : ∀ i, Proper (f i)) (start n : Nat) :
    Proper (forBelow f start n) := by
  induction n generalizing start with
  | zero => exact proper_pure _
  | succ n ih => exact (hf _).bind fun _ => ih _

end

/-! ## Code and variables -/

variable {t : Target}

/-- Code is never refused by the stream it is added to. -/
theorem proper_onDraft (f : Draft → Draft) : Proper (onDraft t f) :=
  .of_makes fun _ => ⟨⟨⟩, _, makes_onDraft.mpr rfl⟩

theorem proper_emit (i : Instruction) : Proper (emit t i) := proper_onDraft _

theorem proper_emitAll (is : List Instruction) : Proper (emitAll t is) :=
  proper_forM fun i _ => proper_emit i

/-- Labels are never refused. Too many of them share their numbers. -/
theorem proper_newLabel : Proper (newLabel t) := by
  cases t <;>
    exact proper_get_bind fun _ => (proper_onDraft _).bind fun _ => proper_pure _

theorem proper_mark (label : UInt32) : Proper (mark t label) := proper_onDraft _

/-- A wrong type is refused with the types themselves. -/
theorem proper_expectType (span : Span) (expected found : ExprType) :
    Proper (expectType span expected found) := by
  unfold expectType
  split
  · exact proper_pure _
  · exact proper_fail (by simp) span

/-- A variable is loaded without a refusal. -/
theorem proper_load (v : Symbol) : Proper (load t v) := by
  unfold load
  split <;> exact proper_emit _

theorem proper_store (v : Symbol) : Proper (store t v) := by
  unfold store
  split <;> exact proper_emit _

/-- A name is refused for standing for nothing, and not as malformed. -/
theorem proper_resolve (name : Name) : Proper (resolve t name) := by
  refine proper_get_bind fun s => Proper.bind (proper_lift fun e he => ?_) fun v => ?_
  · rw [Scopes.resolve] at he
    split at he <;> cases he
    simp
  · split
    · exact proper_fail (by simp) _
    · exact proper_fail (by simp) _
    · exact proper_pure v

end Gen

/-! ## Operands -/

/-- Neither compiling an operand nor its index is refused as malformed. -/
structure Operand.Proper (o : Operand) : Prop where
  compile : Gen.Proper o.compile
  index : ∀ name index, o.place? = some ⟨name, index⟩ → ∀ i ∈ index, Gen.Proper i

namespace Operand

variable {o : Operand}

/-- An operand that names no variable is proper if its code is. -/
theorem Proper.of_no_place (h : Gen.Proper o.compile) (hplace : o.place? = none) : o.Proper :=
  ⟨h, fun _ _ hp => nomatch hplace.symm.trans hp⟩

variable (h : o.Proper)
include h

/-- A type that is expected of an operand adds the refusal of another one. -/
theorem Proper.compileAs (type : ExprType) : Gen.Proper (o.compileAs type) :=
  h.compile.bind fun _ => Gen.proper_expectType _ _ _

/-- An operator refuses an operand for its type. -/
theorem Proper.compileUnder (op : Token) : Gen.Proper (o.compileUnder op) := by
  refine h.compile.bind fun found => ?_
  split
  · exact Gen.proper_fail (by simp) _
  · exact Gen.proper_pure _

end Operand

namespace Rules

open Gen

variable {t : Target}

/-! ## Operators -/

section Operators

variable {o l r : Operand} (ho : o.Proper) (hl : l.Proper) (hr : r.Proper)

theorem proper_literal (v : Literal) : Gen.Proper (literal t v) := by
  cases v <;> exact (proper_emit _).bind fun _ => proper_pure _

include hl hr in
/-- A logical operator refuses the types of its operands. -/
theorem proper_logic (op : LogicOp) : Gen.Proper (logic t op l r) :=
  (hl.compileAs _).bind fun _ => (hr.compileAs _).bind fun _ => (proper_emit _).bind fun _ =>
    proper_pure _

include ho in
theorem proper_negate : Gen.Proper (negate t o) :=
  (ho.compileAs _).bind fun _ => (proper_emitAll _).bind fun _ => proper_pure _

include hl hr in
theorem proper_compare (op : RelOp) : Gen.Proper (compare t l op r) := by
  refine hl.compile.bind fun left => hr.compile.bind fun right => ?_
  split
  · exact (proper_expectType _ _ _).bind fun _ => (proper_emitAll _).bind fun _ => proper_pure _
  · exact proper_fail (by simp) _

include hl hr in
/-- An arithmetic operator refuses the types of its operands. -/
theorem proper_arith (op : ArithOp) : Gen.Proper (arith t l op r) :=
  (hl.compileUnder _).bind fun _ => (hr.compileUnder _).bind fun _ => (proper_emit _).bind fun _ =>
    proper_pure _

/-- A random number is never refused. -/
theorem proper_random : Gen.Proper (random t) :=
  proper_newLabel.bind fun _ => proper_newLabel.bind fun _ => (proper_emitAll _).bind fun _ =>
    (proper_mark _).bind fun _ => (proper_emit _).bind fun _ => proper_mark _

include ho in
theorem proper_lead (op : LeadOp) : Gen.Proper (lead t op o) := by
  cases op with
  | length =>
    refine ho.compile.bind fun found => ?_
    split
    · exact (proper_emit _).bind fun _ => proper_pure _
    · exact proper_fail (by simp) _
  | negative =>
    exact (ho.compileUnder _).bind fun _ => (proper_emit _).bind fun _ => proper_pure _
  | random => exact (ho.compileUnder _).bind fun _ => proper_random.bind fun _ => proper_pure _

end Operators

/-! ## Variables, elements and assignments -/

/-- A variable is refused for being undefined or a function. -/
theorem proper_var (name : Name) : Gen.Proper (var t name) :=
  (proper_resolve _).bind fun _ => (proper_load _).bind fun _ => proper_pure _

/-- An element is refused for what stands in front of its brackets. -/
theorem proper_elem (span : Span) (name : Name) {index : Gen Unit} (hi : Gen.Proper index) :
    Gen.Proper (elem t span name index) := by
  refine (proper_resolve _).bind fun v => (proper_load _).bind fun _ => ?_
  split
  · exact hi.bind fun _ => (proper_emit _).bind fun _ => proper_pure _
  · exact proper_fail (by simp) _

section Places

variable {v : Symbol} {index : Option (Gen Unit)} (hi : ∀ i ∈ index, Gen.Proper i)
include hi

/-- The index of a target is refused for its own faults. -/
theorem proper_beforeValue : Gen.Proper (beforeValue t v index) := by
  unfold beforeValue
  split
  · exact (proper_load _).bind fun _ => hi _ rfl
  · exact proper_pure _

theorem proper_presentValue : Gen.Proper (presentValue t v index) := by
  cases index with
  | some i => exact (proper_load _).bind fun _ => (hi i rfl).bind fun _ => proper_emit _
  | none => exact (proper_load _).bind fun _ => proper_pure _

omit hi in
theorem proper_afterValue : Gen.Proper (afterValue t v index) := by
  unfold afterValue
  split
  · exact proper_emit _
  · exact proper_store _

variable {value : Operand} (hv : value.Proper)
include hv

/-- A compound assignment is refused for its value. -/
theorem proper_compound (op : AssignOp) : Gen.Proper (compound t v index op value) := by
  have hordered (instruction : BinaryOp) :
      Gen.Proper (compound.ordered t v index value instruction) := by
    refine (hv.compileAs _).bind fun _ => proper_get_bind fun s => ?_
    split
    · exact (proper_emit _).bind fun _ => (proper_presentValue hi).bind fun _ =>
        hv.compile.bind fun _ => proper_emit _
    · exact (proper_presentValue hi).bind fun _ => (proper_emit _).bind fun _ => proper_emit _
  cases op with
  | set => exact hv.compileAs _
  | add | mul =>
    exact (hv.compileAs _).bind fun _ => (proper_presentValue hi).bind fun _ => proper_emit _
  | sub | div => exact hordered _

/-- An assignment of a word is refused for the types of both sides. -/
theorem proper_assignWord (op : Located AssignOp) :
    Gen.Proper (assignWord t v index op value) :=
  .check (by simp) ((proper_beforeValue hi).bind fun _ => (proper_compound hi hv _).bind fun _ =>
    proper_afterValue)

end Places

/-- Arrays are refused for lengths that are not known. -/
theorem proper_copyLength (a b : Symbol) (x y : Name) (span : Span) :
    Gen.Proper (copyLength a x b y span) := by
  unfold copyLength
  split
  · exact proper_pure _
  · exact proper_fail (by simp) _
  · exact proper_fail (by simp) _

/-- Copying an array is refused if there is no array to copy from. -/
theorem proper_copyArray (a : Symbol) (x : Name) (value : Operand) :
    Gen.Proper (copyArray t a x value) := by
  unfold copyArray
  split
  · refine (proper_resolve _).bind fun b => .check (by simp) <| .check (by simp) <|
      (proper_copyLength _ _ _ _ _).bind fun n => proper_forBelow (fun i => ?_) _ _
    exact (proper_load a).bind fun _ => (proper_emit _).bind fun _ => (proper_load b).bind fun _ =>
      proper_emitAll _
  · exact proper_fail (by simp) _

section Assignments

variable {target value : Operand} (ht : target.Proper) (hv : value.Proper)
include ht

/-- An increment is refused for the type of its target. -/
theorem proper_step (op : StepOp) : Gen.Proper (step t target op) := by
  unfold step
  split
  · exact proper_fail (by simp) _
  · rename_i name index hp
    have hi := ht.index name index hp
    have hcode (v : Symbol) (instruction : BinaryOp) : Gen.Proper (do
        beforeValue t v index
        presentValue t v index
        emit t (.pushInt 1)
        emit t (.binary instruction)
        afterValue t v index
        return ExprType.effect) :=
      (proper_beforeValue hi).bind fun _ => (proper_presentValue hi).bind fun _ =>
        (proper_emit _).bind fun _ => (proper_emit _).bind fun _ => proper_afterValue.bind fun _ =>
          proper_pure _
    refine (proper_resolve name).bind fun v => ?_
    cases index <;> cases v.isArray <;> dsimp only
    on_goal 3 => exact (proper_fail (by simp) _).bind fun _ => .check (by simp) (hcode v _)
    all_goals
      rw [pure_bind]
      exact .check (by simp) (hcode v _)

include hv in
/-- An assignment is refused for its target before its value is looked at. -/
theorem proper_assign (op : Located AssignOp) : Gen.Proper (assign t target op value) := by
  unfold assign
  split
  · exact proper_fail (by simp) _
  · rename_i name index hp
    have hi := ht.index name index hp
    refine (proper_resolve name).bind fun v => ?_
    split
    · exact .check (by simp) ((proper_copyArray _ _ _).bind fun _ => proper_pure _)
    · exact (proper_fail (by simp) _).bind fun _ => proper_pure _
    · exact (proper_assignWord hi hv op).bind fun _ => proper_pure _

end Assignments

/-! ## Calls -/

/-- What is read into is refused if it is no variable. -/
theorem proper_putOne {o : Operand} (ho : o.Proper) : Gen.Proper (putOne t o) := by
  unfold putOne
  split
  · exact proper_fail (by simp) _
  · rename_i name index hp
    have hi := ho.index name index hp
    refine (proper_resolve name).bind fun v => ?_
    split
    · exact proper_fail (by simp) _
    · exact proper_fail (by simp) _
    · exact (proper_beforeValue hi).bind fun _ => (proper_emitAll _).bind fun _ => proper_afterValue

section Calls

variable {args : List Operand} (hargs : ∀ a ∈ args, a.Proper)
include hargs

/-- Arguments are refused for their types. That they are as many as the parameters is checked
before. -/
theorem proper_arguments (params : List Slot) : Gen.Proper (arguments args params) := by
  induction args generalizing params with
  | nil => exact proper_pure _
  | cons a as ih =>
    cases params with
    | nil => exact proper_pure _
    | cons s ss =>
      exact ((hargs a (.head _)).compileAs _).bind fun _ => ih (fun b hb => hargs b (.tail _ hb)) ss

theorem proper_formatArguments : Gen.Proper (formatArguments t args) := by
  induction args with
  | nil => exact proper_pure _
  | cons a as ih =>
    have has := ih fun b hb => hargs b (.tail _ hb)
    refine (hargs a (.head _)).compile.bind fun found => ?_
    split
    · exact (proper_emit _).bind fun _ => has
    · exact has
    · exact (proper_fail (by simp) _).bind fun _ => has

/-- A call of `print` is refused for a format that is no string, and for its arguments. -/
theorem proper_print (name : Name) : Gen.Proper (print t name args) := by
  obtain _ | ⟨a, _ | ⟨b, rest⟩⟩ := args
  · exact proper_fail (by simp) _
  · refine (hargs a (.head _)).compile.bind fun found => ?_
    split
    · exact (proper_emit _).bind fun _ => proper_pure _
    · exact (proper_emit _).bind fun _ => proper_pure _
    · exact (proper_fail (by simp) _).bind fun _ => proper_pure _
  · exact (hargs a (.head _)).compile.bind fun found => .check (by simp)
      ((proper_formatArguments fun c hc => hargs c (.tail _ hc)).bind fun _ =>
        (proper_emit _).bind fun _ => proper_pure _)

/-- A call of `put` is refused for one of its arguments. -/
theorem proper_put (name : Name) : Gen.Proper (put t name args) :=
  .check (by simp) ((proper_forM fun a ha => proper_putOne (hargs a ha)).bind fun _ =>
    proper_pure _)

/-- A call is refused for its name, for the number of its arguments or for their types. -/
theorem proper_call (span : Span) (name : Name) : Gen.Proper (call t span name args) := by
  refine proper_get_bind fun s => Proper.bind (proper_lift fun e he => ?_) fun f => ?_
  · rw [Functions.resolve] at he
    split at he <;> cases he
    simp
  · split
    · exact proper_print hargs name
    · exact proper_put hargs name
    · exact .check (by simp) ((proper_arguments hargs _).bind fun _ => (proper_emit _).bind fun _ =>
        proper_pure _)

end Calls

end Rules

/-! ## Expressions -/

namespace Expr

/-- An expression is refused for its faults: by induction, since every rule is proper if its
operands are. -/
theorem proper_operand (t : Target) (e : Expr) : (e.operand t).Proper := by
  induction e using Expr.induct with
  | literal v => exact .of_no_place (Rules.proper_literal _) rfl
  | var n =>
    refine ⟨Rules.proper_var n, ?_⟩
    rintro name index ⟨⟩ i ⟨⟩
  | elem n i ih =>
    refine ⟨Rules.proper_elem _ n (ih.compileAs _), ?_⟩
    rintro name index ⟨⟩ i ⟨⟩
    exact ih.compileAs _
  | paren e ih => exact .of_no_place ih.compile rfl
  | call n args ih =>
    have hargs : ∀ o ∈ operands t args, o.Proper := by
      induction args with
      | nil => exact nofun
      | cons a as ih' => exact List.forall_mem_cons.mpr ⟨ih a (.head _), ih' fun b hb =>
          ih b (.tail _ hb)⟩
    exact .of_no_place (Rules.proper_call hargs _ n) rfl
  | lead op e ih => exact .of_no_place (Rules.proper_lead ih _) rfl
  | arith l op r hl hr => exact .of_no_place (Rules.proper_arith hl hr _) rfl
  | compare l op r hl hr => exact .of_no_place (Rules.proper_compare hl hr _) rfl
  | negate word e ih => exact .of_no_place (Rules.proper_negate ih) rfl
  | logic op l r hl hr => exact .of_no_place (Rules.proper_logic hl hr _) rfl
  | step p op ih => exact .of_no_place (Rules.proper_step ih _) rfl
  | assign p op v hp hv => exact .of_no_place (Rules.proper_assign hp hv op) rfl

/-- An expression of which a type is expected is refused for its faults, too. -/
theorem proper_compileAs (t : Target) (e : Expr) (type : ExprType) :
    Gen.Proper (e.compileAs t type) :=
  (e.proper_operand t).compileAs type

end Expr

/-! ## Declarations -/

namespace Gen

/-- A field is never refused. -/
theorem proper_addField (name : String) (slot : Slot) : Proper (addField name slot) :=
  proper_get_bind fun _ => (proper_set _).bind fun _ => proper_pure _

theorem proper_addLocal : Proper addLocal := by
  refine proper_get_bind fun g => ?_
  split
  · exact (proper_set _).bind fun _ => proper_pure _
  · exact proper_pure _

/-- A variable is refused if its name is defined in the same scope already. -/
theorem proper_define (name : Name) (type : WordType) (storage : Storage) (shape : Shape)
    (handle : Handle) : Proper (define name type storage shape handle) := by
  refine proper_get_bind fun g => Proper.bind (proper_lift fun e he => ?_) fun _ =>
    (proper_set _).bind fun _ => proper_pure _
  rw [Scopes.define] at he
  split at he <;> cases he
  simp

/-- A variable is given its place without a refusal. -/
theorem proper_allocate (name : Name) (slot : Slot) (static : Bool) :
    Proper (allocate name slot static) := by
  refine proper_get_bind fun g => ?_
  split
  · exact (proper_addField _ _).bind fun _ => proper_pure _
  · exact (proper_addField _ _).bind fun _ => proper_pure _
  · exact proper_addLocal.bind fun _ => proper_pure _

/-- An initialiser is refused for its type. -/
theorem proper_initialise (t : Target) (v : Symbol) (init : Expr) :
    Proper (initialise t v init) := by
  unfold initialise fill
  split
  · refine proper_forBelow (fun i => ?_) _ _
    exact (proper_load v).bind fun _ => (proper_emit _).bind fun _ =>
      (init.proper_compileAs t _).bind fun _ => proper_emit _
  · exact (init.proper_compileAs t _).bind fun _ => proper_store v

/-- A declaration is refused for its length, its name or its initialiser. -/
theorem proper_declare {name : Name} {type : WordType} {static : Bool} {shape : Shape}
    {init : Target → Symbol → Gen Unit} (hinit : ∀ t v, Proper (init t v)) :
    Proper (declare name type static shape init) := by
  refine (proper_allocate _ _ _).bind fun ⟨_, _, t⟩ => (proper_define _ _ _ _ _).bind fun v => ?_
  dsimp only
  split
  · exact (proper_emit _).bind fun _ => (proper_store v).bind fun _ => hinit t v
  · exact hinit t v

end Gen

/-- A declarator is refused as any declaration is. -/
theorem Declarator.proper_compile (d : Declarator) (type : WordType) (static : Bool) :
    Gen.Proper (d.compile type static) := by
  have hshape : Gen.Proper d.shape := by
    unfold Declarator.shape
    split
    · exact Gen.proper_pure _
    · split
      · exact Gen.proper_fail (by simp) _
      · exact Gen.proper_pure _
  refine hshape.bind fun shape => Gen.proper_declare fun t v => ?_
  split
  · exact Gen.proper_pure _
  · exact Gen.proper_initialise t v _

/-- The first declarator that is refused refuses the declaration. -/
theorem Declaration.proper_compile (d : Declaration) : Gen.Proper d.compile :=
  Gen.proper_forM fun item _ => item.proper_compile _ _

/-- Parameters are refused for their names. -/
theorem ParameterGroup.proper_compile (g : ParameterGroup) : Gen.Proper g.compile :=
  Gen.proper_forM fun (_, _) _ => Gen.proper_get_bind fun _ =>
    (Gen.proper_define _ _ _ _ _).bind fun _ => Gen.proper_pure _

/-! ## Statements and functions -/

namespace Gen

theorem proper_suspend (p : Pending) : Proper (suspend p) := proper_modify _

/-- What was left open is taken up without a refusal. There is nothing to take up only where the
text is no program. -/
theorem proper_resume : Proper resume :=
  proper_get_bind fun _ => (proper_set _).bind fun _ => proper_pure _

/-- A branch is refused for its condition. -/
theorem proper_ifTrue (c : Expr) : Proper (ifTrue c) :=
  (c.proper_compileAs _ _).bind fun _ => proper_newLabel.bind fun _ => (proper_emit _).bind fun _ =>
    proper_suspend _

theorem proper_ifFalse : Proper ifFalse := by
  refine proper_resume.bind fun p => ?_
  split
  · exact proper_newLabel.bind fun _ => (proper_emit _).bind fun _ => (proper_mark _).bind fun _ =>
      proper_suspend _
  · exact proper_pure _

theorem proper_endIf : Proper endIf := by
  refine proper_resume.bind fun p => ?_
  split
  · exact proper_mark _
  · exact proper_pure _

theorem proper_enterLoop : Proper enterLoop :=
  proper_newLabel.bind fun _ => proper_newLabel.bind fun _ => proper_newLabel.bind fun _ =>
    (proper_emit _).bind fun _ => (proper_mark _).bind fun _ => proper_pure _

theorem proper_openLoop : Proper openLoop := proper_enterLoop.bind fun _ => proper_suspend _

/-- A loop is refused for its condition. -/
theorem proper_closeLoop (c : Expr) : Proper (closeLoop c) := by
  refine proper_get_bind fun s => ?_
  split
  · exact (proper_mark _).bind fun _ => (c.proper_compileAs _ _).bind fun _ =>
      (proper_emit _).bind fun _ => (proper_mark _).bind fun _ => proper_resume.bind fun _ =>
        proper_pure _
  · exact proper_pure _

/-- A counted loop is refused for a bound it lacks, for its counter or for the first value of that.
-/
theorem proper_openCount (counter : Name) (r : Range) : Proper (openCount counter r) :=
  .check (by simp) ((proper_modify _).bind fun _ => proper_addLocal.bind fun slot =>
    (proper_define _ _ _ _ _).bind fun _ => (r.start.proper_compileAs _ _).bind fun _ =>
      (proper_emit _).bind fun _ => proper_enterLoop.bind fun _ => proper_suspend _)

/-- A step that is not written cannot be refused. -/
theorem proper_stepOf (r : Range) : Proper (stepOf r) := by
  obtain ⟨start, _ | ⟨last, _ | step⟩⟩ := r
  · exact proper_emit (t := .function) (.pushInt 1)
  · exact proper_emit (t := .function) (.pushInt 1)
  · exact step.proper_compileAs _ _

theorem proper_boundOf (r : Range) : Proper (boundOf r) := by
  obtain ⟨start, _ | ⟨last, step⟩⟩ := r
  · exact proper_pure _
  · exact last.proper_compileAs _ _

/-- The end of a counted loop is refused for its bound or its step. -/
theorem proper_closeCount (r : Range) : Proper (closeCount r) := by
  refine proper_get_bind fun s => ?_
  split
  · exact (proper_emit _).bind fun _ => (proper_stepOf r).bind fun _ =>
      (proper_emit _).bind fun _ =>
      (proper_emit _).bind fun _ => (proper_mark _).bind fun _ => (proper_emit _).bind fun _ =>
        (proper_boundOf r).bind fun _ => (proper_emitAll _).bind fun _ =>
          (proper_mark _).bind fun _ => proper_resume.bind fun _ => proper_modify _
  · exact proper_pure _

theorem proper_effect (e : Expr) : Proper (effect e) := by
  refine (e.proper_operand _).compile.bind fun found => ?_
  split
  · exact proper_emit _
  · exact proper_pure _

/-- A `break` is refused outside loops. -/
theorem proper_leave (word : Span) : Proper (leave word) := by
  refine proper_get_bind fun s => ?_
  split
  · exact proper_emit _
  · exact proper_fail (by simp) _

/-- A function is refused for its name or for those of its parameters. -/
theorem proper_beginFunction (h : Header) : Proper (beginFunction h) := by
  refine (proper_modify _).bind fun _ => proper_get_bind fun g =>
    Proper.bind (proper_lift fun e he => ?_) fun _ => proper_set _
  rw [Functions.define] at he
  split at he <;> cases he
  simp

/-- A return needs a function around it. -/
theorem proper_ret (word : Span) (value : Option Expr) {g : Generator} (hg : g.current.isSome)
    {e : Located SemanticError} (he : (ret word value).run g = .error e) (rule : Rule) :
    e.value ≠ .malformed rule := by
  obtain ⟨f, hf⟩ := Option.isSome_iff_exists.mp hg
  rw [ret, returnStatement, run_get_bind, hf] at he
  cases value with
  | none =>
    cases hreturns : f.returns <;> simp only [hreturns, Option.map_none] at he
    · exact proper_emit _ g e he rule
    · exact (proper_fail (by simp) _).bind (fun _ => proper_emit _) g e he rule
  | some x =>
    cases hreturns : f.returns <;> simp only [hreturns, Option.map_some] at he
    · exact (proper_fail (by simp) _).bind (fun _ => proper_emit _) g e he rule
    · exact (x.proper_compileAs _ _).bind (fun _ => proper_emit _) g e he rule

end Gen

/-- A construct is a return. -/
def Construct.isRet : Construct → Bool
  | .ret _ _ => true
  | _ => false

/-- **No construct is refused as malformed**, unless it is a return outside functions. -/
theorem Construct.proper_compile {c : Construct} {g : Generator} (hret : c.isRet → g.current.isSome)
    {e : Located SemanticError} (he : c.compile.run g = .error e) (rule : Rule) :
    e.value ≠ .malformed rule := by
  cases c with
  | globals d => exact d.proper_compile g e he rule
  | locals d => exact d.proper_compile g e he rule
  | parameters p => exact p.proper_compile g e he rule
  | openFunction | openBlock | closeFunction | closeBlock => exact Gen.proper_modify _ g e he rule
  | header h => exact Gen.proper_beginFunction h g e he rule
  | expr x => exact Gen.proper_effect x g e he rule
  | ifTrue c => exact Gen.proper_ifTrue c g e he rule
  | ifFalse => exact Gen.proper_ifFalse g e he rule
  | endIf => exact Gen.proper_endIf g e he rule
  | openLoop => exact Gen.proper_openLoop g e he rule
  | closeLoop c => exact Gen.proper_closeLoop c g e he rule
  | openCount counter r => exact Gen.proper_openCount counter r g e he rule
  | closeCount r => exact Gen.proper_closeCount r g e he rule
  | ret word value => exact Gen.proper_ret word value (hret rfl) he rule
  | leave word => exact Gen.proper_leave word g e he rule

end OnePass
