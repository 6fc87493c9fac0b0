import OnePass.Proofs.EffectRuns
import OnePass.Proofs.Invocations
import OnePass.Proofs.ResolvedExpressions

/-!
# Calls in the code of expressions

Main statement: the calls in code for an expression are those that the text has there, each of the
routine with the number of its function, and behind code that pushes its arguments
(`Site.invokes`).

`Site.Links` ties one call in a stream to one in the text. It does not depend on where in the
stream the site is, so that what is known of the pieces of a stream can be put together.
-/

namespace OnePass

/-! ## Calls in pieces of a stream -/

namespace Code

variable {c : Code} {p q r : Nat}

/-- There are no calls in no code. -/
@[simp]
theorem callsIn_self (c : Code) (p : Nat) : c.callsIn p p = [] := by
  rw [callsIn, Nat.sub_self]
  rfl

/-- The calls of a piece are those of its parts. -/
theorem callsIn_append (hpq : p ≤ q) (hqr : q ≤ r) :
    c.callsIn p r = c.callsIn p q ++ c.callsIn q r := by
  obtain ⟨k, rfl⟩ := Nat.exists_eq_add_of_le hpq
  obtain ⟨l, rfl⟩ := Nat.exists_eq_add_of_le hqr
  unfold callsIn
  rw [show p + k + l - p = k + l by omega, Nat.add_sub_cancel_left, Nat.add_sub_cancel_left,
    ← List.range'_append_1, List.filterMap_append]

/-- Instructions that are no calls. -/
theorem callsIn_eq_nil {is js : List Instruction} (h : is ++ js <+: c.instructions.toList)
    (hjs : ∀ i ∈ js, i.callee? = none) : c.callsIn is.length (is.length + js.length) = [] := by
  unfold callsIn
  rw [List.filterMap_eq_nil_iff]
  intro k hk
  obtain ⟨j, hj, rfl⟩ := List.mem_range'.mp hk
  rw [Nat.add_sub_cancel_left] at hj
  have hget : c.instructions[is.length + 1 * j]? = some js[j] := by
    rw [← Array.getElem?_toList]
    refine getElem?_mono h ?_
    rw [Nat.one_mul, List.getElem?_append_right (Nat.le_add_right ..), Nat.add_sub_cancel_left,
      List.getElem?_eq_getElem hj]
  rw [hget, Option.bind_some, hjs _ (List.getElem_mem hj)]
  rfl

/-- One instruction. -/
theorem callsIn_succ {i : Instruction} (h : c.instructions[p]? = some i) :
    c.callsIn p (p + 1) = (i.callee?.map fun n => (p, n)).toList := by
  unfold callsIn
  rw [Nat.add_sub_cancel_left, List.range'_one, List.filterMap_cons, h, Option.bind_some]
  cases i.callee? <;> rfl

end Code

/-! ## What calls are for -/

/-- The functions that are known are those that are always there and functions of the program, which
are routines by their numbers. -/
structure Functions.Numbers (fs : Functions) (p : Program) : Prop where
  builtIn : ∀ name f, fs.lookup name = some f →
    (isBuiltIn name = true ↔ ∃ i, f.body = .intrinsic i)
  routine : ∀ name f n, fs.lookup name = some f → f.body = .routine n →
    p.number? name = some n.toNat ∧ ∃ h, p.headers[n.toNat]? = some h ∧
      f.params = h.parameterTypes ∧ f.returns = h.returnType

namespace Site

/-- The names that are known are those that are known at a point of the text. -/
structure Means (w : Site) (vis : Visible) : Prop where
  «variables» : ∀ n : Name, (w.scopes.lookup n.value).map Symbol.variable = vis.find? n
  functions : w.functions.Numbers w.program.tree

/-- The same stream where the names of a state of generation are known. -/
def knowing (w : Site) (g : Generator) : Site :=
  { w with scopes := g.scopes, functions := g.functions }

/-- A piece of the stream, with frames that wait for it. -/
def between (w : Site) (first last : Nat) (callers : List Frame) (fuel : Nat) : Site :=
  { w with first, last, callers, fuel }

/-- The code pushes the values of expressions, from left to right, and changes nothing below them.
They are what slots are there for. -/
def PushesAll (w : Site) (es : List Expr) (slots : List Slot) : Prop :=
  ∀ H m s, w.Consistent H m →
    w.Does (w.stand w.first s m) ((Expr.evaluateAll w.situation es).run.run m)
      (fun vs m' => .active (w.stand w.last (vs.reverse ++ s) m'))
      (fun vs m' => w.Keeps H m' fun H' =>
        List.Forall₂ (Value.Fits H' True) vs (slots.map .ofSlot))

/-- A call in a stream is the one that is written in the text. It is of the routine with the number
of the function. In front of it is the code of the arguments, in order and compiled where the same
is visible as in the text, and wherever it is run this code pushes them. -/
def Links (w : Site) (call : Nat × UInt32) (inv : Invocation) : Prop :=
  w.program.tree.number? inv.name.value = some call.2.toNat ∧
    ∃ header g g', w.program.tree.headers[call.2.toNat]? = some header ∧
      inv.args.length = header.parameterTypes.length ∧ (w.knowing g).Means inv.visible ∧
      Gen.Makes (Rules.arguments (Expr.operands w.target inv.args) header.parameterTypes) g ⟨⟩ g' ∧
      w.code.Continues (g'.draft w.target) ∧ (g'.draft w.target).position = call.1 ∧
      ∀ callers fuel, ((w.knowing g).between (g.draft w.target).position call.1 callers
        fuel).PushesAll inv.args header.parameterTypes

/-- `m` only adds code, and the calls in it are those that are listed. -/
structure Invokes {α : Type} (w : Site) (m : Gen α) (xs : List Invocation) : Prop where
  adds : Gen.Extends w.target m
  links : ∀ g a g', w.Fits g → Gen.Makes m g a g' → w.Continues (g'.draft w.target) →
    List.Forall₂ w.Links
      (w.code.callsIn (g.draft w.target).position (g'.draft w.target).position) xs

variable {α β : Type} {w : Site} {xs ys : List Invocation} {vis : Visible}

/-! ## Composition -/

/-- What adds instructions that are no calls. -/
theorem Invokes.of_added {m : Gen α} (hx : Gen.Extends w.target m)
    (h : ∀ g a g', Gen.Makes m g a g' → ∃ js, (∀ i ∈ js, i.callee? = none) ∧
      (g'.draft w.target).instructions.toList = (g.draft w.target).instructions.toList ++ js) :
    w.Invokes m [] := by
  refine ⟨hx, fun g a g' _ hm hcode => ?_⟩
  obtain ⟨js, hjs, hadded⟩ := h g a g' hm
  have hprefix := hcode.code.instructions
  rw [hadded] at hprefix
  have hnone := Code.callsIn_eq_nil hprefix hjs
  rw [← List.length_append, ← hadded, Array.length_toList, Array.length_toList] at hnone
  unfold Draft.position
  rw [hnone]
  exact .nil

/-- What leaves the state as it is invokes nothing. -/
theorem Invokes.of_same {m : Gen α} (h : ∀ g a g', Gen.Makes m g a g' → g' = g) :
    w.Invokes m [] := by
  refine .of_added (.of_same h) fun g a g' hm => ⟨[], nofun, ?_⟩
  rw [h g a g' hm, List.append_nil]

/-- A value invokes nothing. -/
theorem invokes_pure (a : α) : w.Invokes (pure a) [] :=
  .of_same fun _ _ _ h => (Gen.makes_pure.mp h).2

/-- Where there is no run, anything is true of the calls. -/
theorem invokes_fail (e : SemanticError) (span : Span) :
    w.Invokes (Gen.fail e span : Gen α) xs :=
  ⟨Gen.extends_fail e span, fun _ _ _ _ h => absurd h Gen.not_makes_fail⟩

theorem invokes_fail_bind {e : SemanticError} {span : Span} {f : α → Gen β} :
    w.Invokes (Gen.fail e span >>= f) xs :=
  ⟨fun _ _ _ h => absurd h Gen.not_makes_fail_bind,
    fun _ _ _ _ h => absurd h Gen.not_makes_fail_bind⟩

/-- Calls of one part come in front of the calls of the next. -/
theorem Invokes.bind {m : Gen α} {f : α → Gen β} (hm : w.Invokes m xs)
    (hf : ∀ a, w.Invokes (f a) ys) : w.Invokes (m >>= f) (xs ++ ys) := by
  refine ⟨hm.adds.bind fun a => (hf a).adds, fun g b g'' hfits h hcode => ?_⟩
  obtain ⟨a, g', h₁, h₂⟩ := Gen.makes_bind.mp h
  rw [Code.callsIn_append (hm.adds.position_le h₁) ((hf a).adds.position_le h₂)]
  exact List.rel_append (hm.links g a g' hfits h₁ (hcode.extends (hf a).adds h₂))
    ((hf a).links g' b g'' (hfits.extends hm.adds h₁) h₂ hcode)

/-- What calls nothing, and what comes behind it. -/
theorem Invokes.then {m : Gen α} {f : α → Gen β} (hm : w.Invokes m [])
    (hf : ∀ a, w.Invokes (f a) ys) : w.Invokes (m >>= f) ys := hm.bind hf

/-- What comes behind it calls nothing. -/
theorem Invokes.quiet {m : Gen α} {f : α → Gen β} (hm : w.Invokes m xs)
    (hf : ∀ a, w.Invokes (f a) []) : w.Invokes (m >>= f) xs := by
  have h := hm.bind hf
  rwa [List.append_nil] at h

/-- What comes to generators that are as listed, whichever it is. -/
theorem Invokes.of_makes {m : Gen α} (h : ∀ g a g', Gen.Makes m g a g' →
    ∃ (β : Type) (m' : Gen β) (b : β), w.Invokes m' xs ∧ Gen.Makes m' g b g') :
    w.Invokes m xs := by
  constructor
  · intro g a g' hm
    obtain ⟨_, m', b, hinv, hm'⟩ := h g a g' hm
    exact hinv.adds g b g' hm'
  · intro g a g' hfits hm hcode
    obtain ⟨_, m', b, hinv, hm'⟩ := h g a g' hm
    exact hinv.links g b g' hfits hm' hcode

/-- A loop over numbers makes as often the calls of its round. -/
theorem invokes_forBelow {f : UInt32 → Gen Unit} (hf : ∀ n, w.Invokes (f n) xs) (start n : Nat) :
    w.Invokes (Gen.forBelow f start n) (List.replicate n xs).flatten := by
  induction n generalizing start with
  | zero => exact invokes_pure _
  | succ n ih => exact (hf _).bind fun _ => ih _

/-! ## Parts -/

/-- Only a call is a call. -/
theorem invokes_emit {i : Instruction} (h : i.callee? = none) :
    w.Invokes (Gen.emit w.target i) [] := by
  refine .of_added (Gen.extends_emit i) fun g u g' hm => ⟨[i], by simpa using h, ?_⟩
  obtain rfl := Gen.makes_emit.mp hm
  rw [Generator.draft_onDraft]
  exact Array.toList_push

theorem invokes_emitAll {is : List Instruction} (h : ∀ i ∈ is, i.callee? = none) :
    w.Invokes (Gen.emitAll w.target is) [] := by
  induction is with
  | nil => exact invokes_pure _
  | cons i is ih =>
    exact (invokes_emit (h i (.head _))).then fun _ => ih fun j hj => h j (.tail _ hj)

/-- Types are compared without calls. -/
theorem invokes_expectType (span : Span) (expected found : ExprType) :
    w.Invokes (Gen.expectType span expected found) [] := by
  unfold Gen.expectType
  split
  · exact invokes_pure _
  · exact invokes_fail _ _

/-- A variable is loaded without calls. -/
theorem invokes_load (v : Symbol) : w.Invokes (Gen.load w.target v) [] := by
  unfold Gen.load
  split <;> exact invokes_emit rfl

/-- A variable is stored to without calls. -/
theorem invokes_store (v : Symbol) : w.Invokes (Gen.store w.target v) [] := by
  unfold Gen.store
  split <;> exact invokes_emit rfl

/-- A name is looked up without calls. -/
theorem invokes_resolve (name : Name) : w.Invokes (Gen.resolve w.target name) [] :=
  .of_same fun _ _ _ h => (Gen.makes_resolve h).1

/-! ## Operators -/

section Operators

variable {o l r : Operand}

/-- A type that is expected of an operand adds no call. -/
theorem invokes_compileAs (ho : w.Invokes o.compile xs) (type : ExprType) :
    w.Invokes (o.compileAs type) xs := ho.quiet fun _ => invokes_expectType _ _ _

/-- A value that is expected of an operand adds no call. -/
theorem invokes_compileUnder (ho : w.Invokes o.compile xs) (op : Token) :
    w.Invokes (o.compileUnder op) xs := by
  refine ho.quiet fun _ => ?_
  split
  · exact invokes_fail _ _
  · exact invokes_pure _

theorem invokes_literal (l : Literal) : w.Invokes (Rules.literal w.target l) [] := by
  cases l <;> exact (invokes_emit rfl).quiet fun _ => invokes_pure _

/-- Random numbers are drawn by an instruction and not by a call. -/
theorem invokes_random : w.Invokes (Rules.random w.target) [] := by
  refine .of_added Rules.extends_random fun g u g' hm => ?_
  obtain ⟨positive, done, rfl, -⟩ := Rules.makes_random hm
  refine ⟨[.dup, .pushInt 0, .binary .lt, .jumpIfFalse positive, .neg, .random, .neg, .jump done,
    .random], by simp [Instruction.callee?], ?_⟩
  rw [Generator.draft_onDraft]
  simp [Rules.randomCode, Draft.mark, Draft.emit, Draft.emitAll, Draft.addLabel]

/-- Both sides of a logical operator make their calls, from left to right. -/
theorem invokes_logic (hl : w.Invokes l.compile xs) (hr : w.Invokes r.compile ys) (op : LogicOp) :
    w.Invokes (Rules.logic w.target op l r) (xs ++ ys) :=
  (invokes_compileAs hl _).bind fun _ => (invokes_compileAs hr _).quiet fun _ =>
    (invokes_emit rfl).quiet fun _ => invokes_pure _

theorem invokes_negate (ho : w.Invokes o.compile xs) : w.Invokes (Rules.negate w.target o) xs :=
  (invokes_compileAs ho _).quiet fun _ =>
    (invokes_emitAll (by simp [Instruction.callee?])).quiet fun _ => invokes_pure _

/-- Both sides of a comparison make their calls, from left to right. -/
theorem invokes_compare (hl : w.Invokes l.compile xs) (hr : w.Invokes r.compile ys) (op : RelOp) :
    w.Invokes (Rules.compare w.target l op r) (xs ++ ys) := by
  have hcomparison : ∀ i ∈ Rules.comparison op, i.callee? = none := by
    cases op <;> simp [Rules.comparison, Instruction.callee?]
  refine hl.bind fun left => hr.quiet fun right => ?_
  split
  · exact (invokes_expectType _ _ _).quiet fun _ =>
      (invokes_emitAll hcomparison).quiet fun _ => invokes_pure _
  · exact invokes_fail _ _

/-- Both sides of an arithmetic operator make their calls, from left to right. -/
theorem invokes_arith (hl : w.Invokes l.compile xs) (hr : w.Invokes r.compile ys) (op : ArithOp) :
    w.Invokes (Rules.arith w.target l op r) (xs ++ ys) :=
  (invokes_compileUnder hl _).bind fun _ => (invokes_compileUnder hr _).quiet fun _ =>
    (invokes_emit rfl).quiet fun _ => invokes_pure _

theorem invokes_lead (ho : w.Invokes o.compile xs) (op : LeadOp) :
    w.Invokes (Rules.lead w.target op o) xs := by
  cases op with
  | length =>
    refine ho.quiet fun found => ?_
    split
    · exact (invokes_emit rfl).quiet fun _ => invokes_pure _
    · exact invokes_fail _ _
  | negative =>
    exact (invokes_compileUnder ho _).quiet fun _ => (invokes_emit rfl).quiet fun _ =>
      invokes_pure _
  | random =>
    exact (invokes_compileUnder ho _).quiet fun _ => invokes_random.quiet fun _ => invokes_pure _

end Operators

/-! ## Variables, elements and assignments -/

/-- A variable is no call. -/
theorem invokes_var (name : Name) : w.Invokes (Rules.var w.target name) [] :=
  (invokes_resolve name).then fun v => (invokes_load v).quiet fun _ => invokes_pure _

/-- An element makes the calls of its index. -/
theorem invokes_elem {index : Gen Unit} (hi : w.Invokes index xs) (span : Span) (name : Name) :
    w.Invokes (Rules.elem w.target span name index) xs := by
  refine (invokes_resolve name).then fun v => (invokes_load v).then fun _ => ?_
  split
  · exact hi.quiet fun _ => (invokes_emit rfl).quiet fun _ => invokes_pure _
  · exact invokes_fail _ _

/-- Compiling an expression calls what is called in it, and so does compiling the index of an
element. -/
structure InvokesIn (w : Site) (vis : Visible) (e : Expr) : Prop where
  compile : w.Invokes (e.operand w.target).compile (e.invocations w.legacy vis)
  index : ∀ n i, e = .elem n i →
    w.Invokes (i.operand w.target).compile (e.invocations w.legacy vis)

/-- Outside elements there is no index to make calls once more. -/
theorem InvokesIn.of_compile {e : Expr}
    (h : w.Invokes (e.operand w.target).compile (e.invocations w.legacy vis))
    (he : ∀ n i, e ≠ .elem n i) : w.InvokesIn vis e := ⟨h, fun n i hi => absurd hi (he n i)⟩

section Places

variable {p : Expr} {name : Name} {index : Option (Gen Unit)} {v : Symbol}

/-- In front of an assigned value the calls of the index are made. -/
theorem invokes_beforeValue (hp : (p.operand w.target).place? = some ⟨name, index⟩)
    (hu : w.InvokesIn vis p) :
    w.Invokes (Rules.beforeValue w.target v index) (p.invocations w.legacy vis) := by
  obtain ⟨rfl, rfl⟩ | ⟨i, rfl, rfl⟩ := Expr.place_cases hp
  · exact invokes_pure _
  · exact (invokes_load v).then fun _ => invokes_compileAs (hu.index _ _ rfl) _

/-- The present value of a target makes the calls of its index again. -/
theorem invokes_presentValue (hp : (p.operand w.target).place? = some ⟨name, index⟩)
    (hu : w.InvokesIn vis p) :
    w.Invokes (Rules.presentValue w.target v index) (p.invocations w.legacy vis) := by
  obtain ⟨rfl, rfl⟩ | ⟨i, rfl, rfl⟩ := Expr.place_cases hp
  · exact (invokes_load v).then fun _ => invokes_pure _
  · exact (invokes_load v).then fun _ =>
      (invokes_compileAs (hu.index _ _ rfl) _).quiet fun _ => invokes_emit rfl

/-- A store makes no call. -/
theorem invokes_afterValue : w.Invokes (Rules.afterValue w.target v index) [] := by
  cases index with
  | none => exact invokes_store v
  | some i => exact invokes_emit rfl

end Places

/-- What is compiled one way in the legacy form, and another way otherwise. -/
theorem invokes_legacy {f : Generator → Gen α} {m m' : Gen α} (hm : w.Invokes m xs)
    (hm' : w.Invokes m' ys) (hf : ∀ g, f g = if g.legacy then m else m') :
    w.Invokes (get >>= f) (if w.legacy then xs else ys) := by
  have hboth (g : Generator) : Gen.Extends w.target (f g) := by
    rw [hf]
    split
    · exact hm.adds
    · exact hm'.adds
  refine ⟨Gen.extends_get.bind hboth, fun g a g' hfits h hcode => ?_⟩
  have h' : Gen.Makes (f g) g a g' := h
  rw [hf, hfits.legacy] at h'
  split at h'
  · rename_i hl
    rw [if_pos hl]
    exact hm.links g a g' hfits h' hcode
  · rename_i hl
    rw [if_neg hl]
    exact hm'.links g a g' hfits h' hcode

/-- A compound assignment makes the calls of its present value and of its assigned value in the
order of its operator. -/
theorem invokes_compound {v : Symbol} {index : Option (Gen Unit)} {value : Operand}
    (hpresent : w.Invokes (Rules.presentValue w.target v index) ys)
    (hvalue : w.Invokes value.compile xs) (op : AssignOp) :
    w.Invokes (Rules.compound w.target v index op value) (op.inOrder w.legacy ys xs) := by
  -- Sums and products are computed in any order.
  have hcommutative (instruction : BinaryOp) : w.Invokes (do
      value.compileInt
      Rules.presentValue w.target v index
      Gen.emit w.target (.binary instruction)) (xs ++ ys) :=
    (invokes_compileAs hvalue _).bind fun _ => hpresent.quiet fun _ => invokes_emit rfl
  -- Differences and quotients have the assigned value on top, or evaluate it once more.
  have hordered (instruction : BinaryOp) :
      w.Invokes (Rules.compound.ordered w.target v index value instruction)
        (if w.legacy then xs ++ ys ++ xs else xs ++ ys) := by
    have hold : w.Invokes (do
        Gen.emit w.target .pop
        Rules.presentValue w.target v index
        let _ ← value.compile
        Gen.emit w.target (.binary instruction)) (ys ++ xs) :=
      (invokes_emit rfl).then fun _ => hpresent.bind fun _ => hvalue.quiet fun _ => invokes_emit rfl
    have hnew : w.Invokes (do
        Rules.presentValue w.target v index
        Gen.emit w.target .swap
        Gen.emit w.target (.binary instruction)) ys :=
      hpresent.quiet fun _ => (invokes_emit rfl).then fun _ => invokes_emit rfl
    have horder : (if w.legacy then xs ++ ys ++ xs else xs ++ ys) =
        xs ++ if w.legacy then ys ++ xs else ys := by
      split <;> simp only [List.append_assoc]
    rw [horder]
    exact (invokes_compileAs hvalue _).bind fun _ => invokes_legacy hold hnew fun _ => rfl
  cases op with
  | set => exact invokes_compileAs hvalue _
  | add => exact hcommutative _
  | mul => exact hcommutative _
  | sub => exact hordered _
  | div => exact hordered _

/-- An increment makes the calls of its index twice. -/
theorem invokes_step {p : Expr} (hu : w.InvokesIn vis p) (op : Located StepOp) :
    w.Invokes (Rules.step w.target (p.operand w.target) op.value)
      ((Expr.step p op).invocations w.legacy vis) := by
  refine .of_makes fun g type g' h => ?_
  obtain ⟨-, name, index, v, hp, -, -, -, hcode⟩ := Rules.makes_step h
  refine ⟨Unit, _, ⟨⟩, ?_, hcode⟩
  exact (invokes_beforeValue hp hu).bind fun _ => (invokes_presentValue hp hu).quiet fun _ =>
    (invokes_emit rfl).then fun _ => (invokes_emit rfl).then fun _ => invokes_afterValue

/-- An assignment of a whole array calls nothing, as it is assigned a variable. -/
theorem invokes_copyArray {v : Symbol} {name : Name} (e : Expr) :
    w.Invokes (Rules.copyArray w.target v name (e.operand w.target))
      (e.invocations w.legacy vis) := by
  unfold Rules.copyArray
  split
  · rename_i source hsource
    obtain ⟨rfl, -⟩ | ⟨i, -, hi⟩ := Expr.place_cases hsource
    on_goal 2 => cases hi
    have hlength (b : Symbol) (span : Span) :
        w.Invokes (Rules.copyLength v name b source span) [] :=
      .of_same fun _ _ _ h => (Rules.makes_copyLength h).1
    have helement (b : Symbol) (n : UInt32) : w.Invokes (do
        Gen.load w.target v
        Gen.emit w.target (.pushInt n.toInt32)
        Gen.load w.target b
        Gen.emitAll w.target [.pushInt n.toInt32, .loadElem, .storeElem]) [] :=
      (invokes_load v).then fun _ => (invokes_emit rfl).then fun _ => (invokes_load b).then
        fun _ => invokes_emitAll (by simp [Instruction.callee?])
    have hcopy (b : Symbol) (n : Nat) := invokes_forBelow (helement b) 0 n
    simp only [List.flatten_replicate_nil] at hcopy
    refine (invokes_resolve source).then fun b => ?_
    dsimp only
    split
    · exact invokes_fail_bind
    · split
      · exact invokes_fail_bind
      · exact (hlength b _).then fun n => hcopy b _
  · exact invokes_fail _ _

/-- An assignment of words makes the calls of its parts, and one of arrays none. -/
theorem invokes_assign {p e : Expr} (hu : w.InvokesIn vis p) (he : w.InvokesIn vis e)
    (op : Located AssignOp) :
    w.Invokes (Rules.assign w.target (p.operand w.target) op (e.operand w.target))
      ((Expr.assign p op e).invocations w.legacy vis) := by
  refine .of_makes fun g type g' h => ?_
  obtain ⟨-, name, index, v, hp, -, hcases⟩ := Rules.makes_assign h
  have hinvocations : (Expr.assign p op e).invocations w.legacy vis = p.invocations w.legacy vis ++
      op.value.inOrder w.legacy (p.invocations w.legacy vis) (e.invocations w.legacy vis) := rfl
  rw [hinvocations]
  obtain ⟨rfl, -, hset, hcopy⟩ | ⟨-, -, hcode⟩ := hcases
  · obtain ⟨rfl, -⟩ | ⟨i, -, hi⟩ := Expr.place_cases hp
    on_goal 2 => cases hi
    rw [hset]
    exact ⟨Unit, _, ⟨⟩, invokes_copyArray e, hcopy⟩
  · refine ⟨Unit, _, ⟨⟩, ?_, hcode⟩
    exact (invokes_beforeValue hp hu).bind fun _ =>
      (invokes_compound (invokes_presentValue hp hu) he.compile op.value).quiet fun _ =>
        invokes_afterValue

/-! ## Calls -/

section Calls

variable {args : List Expr} (ha : ∀ a ∈ args, w.InvokesIn vis a)

include ha

/-- Arguments make their calls from left to right. -/
theorem invokes_arguments (params : List Slot) (hlength : args.length = params.length) :
    w.Invokes (Rules.arguments (Expr.operands w.target args) params)
      (Expr.invocationsOf w.legacy vis args) := by
  induction args generalizing params with
  | nil => exact invokes_pure _
  | cons a as ih =>
    obtain ⟨s, ss, rfl⟩ := List.exists_cons_of_length_eq_add_one hlength.symm
    exact (invokes_compileAs (ha a (.head _)).compile _).bind fun _ =>
      ih (fun b hb => ha b (.tail _ hb)) ss (by simpa using hlength)

/-- The arguments of a format make their calls from left to right. -/
theorem invokes_formatArguments :
    w.Invokes (Rules.formatArguments w.target (Expr.operands w.target args))
      (Expr.invocationsOf w.legacy vis args) := by
  induction args with
  | nil => exact invokes_pure _
  | cons a as ih =>
    have has := ih fun b hb => ha b (.tail _ hb)
    refine (ha a (.head _)).compile.bind fun found => ?_
    dsimp only
    split
    · exact (invokes_emit rfl).then fun _ => has
    · exact has
    · exact invokes_fail_bind

/-- What is printed makes its calls, and the printing is none. -/
theorem invokes_print (name : Name) :
    w.Invokes (Rules.print w.target name (Expr.operands w.target args))
      (Expr.invocationsOf w.legacy vis args) := by
  match args with
  | [] => exact invokes_fail _ _
  | [a] =>
    have hinvocations : Expr.invocationsOf w.legacy vis [a] =
        a.invocations w.legacy vis ++ [] := rfl
    rw [hinvocations, List.append_nil]
    refine (ha a (.head _)).compile.quiet fun found => ?_
    dsimp only
    split
    · exact (invokes_emit rfl).quiet fun _ => invokes_pure _
    · exact (invokes_emit rfl).quiet fun _ => invokes_pure _
    · exact invokes_fail_bind
  | a :: b :: rest =>
    have hrest := invokes_formatArguments fun c hc => ha c (.tail _ hc)
    refine (ha a (.head _)).compile.bind fun found => ?_
    dsimp only
    split
    · exact invokes_fail_bind
    · exact hrest.quiet fun _ => (invokes_emit rfl).quiet fun _ => invokes_pure _

omit ha in
/-- Reading into an element makes the calls of its index. -/
theorem invokes_putOne {p : Expr} (hu : w.InvokesIn vis p) :
    w.Invokes (Rules.putOne w.target (p.operand w.target)) (p.invocations w.legacy vis) := by
  refine .of_makes fun g u g' h => ?_
  obtain ⟨name, index, v, hp, -, -, hcode⟩ := Rules.makes_putOne h
  refine ⟨Unit, _, ⟨⟩, ?_, hcode⟩
  exact (invokes_beforeValue hp hu).quiet fun _ =>
    (invokes_emitAll (by simp [Instruction.callee?])).then fun _ => invokes_afterValue

/-- Reading into targets makes their calls in order. -/
theorem invokes_put (name : Name) :
    w.Invokes (Rules.put w.target name (Expr.operands w.target args))
      (Expr.invocationsOf w.legacy vis args) := by
  have hall : w.Invokes ((Expr.operands w.target args).forM (Rules.putOne w.target))
      (Expr.invocationsOf w.legacy vis args) := by
    clear name
    induction args with
    | nil => exact invokes_pure _
    | cons a as ih =>
      exact (invokes_putOne (ha a (.head _))).bind fun _ => ih fun b hb => ha b (.tail _ hb)
  unfold Rules.put Rules.putEach
  dsimp only
  split
  · exact invokes_fail_bind
  · exact hall.quiet fun _ => invokes_pure _

end Calls

section Routines

variable (hw : w.Sound) (hp : w.program.image.Typed w.program.tree.plan)

include hw hp

/-- Code for arguments pushes them wherever it is run. -/
theorem pushesAll {args : List Expr} {params : List Slot} {g g' : Generator} {u : Unit}
    (hf : w.Fits g) (hlen : args.length = params.length)
    (hm : Gen.Makes (Rules.arguments (Expr.operands w.target args) params) g u g')
    (hcode : w.code.Continues (g'.draft w.target)) (callers : List Frame) (fuel : Nat) :
    ((w.knowing g).between (g.draft w.target).position (g'.draft w.target).position callers
      fuel).PushesAll args params := by
  intro H m s hst
  let w' := (w.knowing g).between (g.draft w.target).position (g'.draft w.target).position callers
    fuel
  have hsound : w'.Sound := ⟨fun name v h => hw.slots name v (hf.scopes ▸ h),
    fun name f n h => hw.functions name f n (hf.functions ▸ h)⟩
  have hf' : w'.Fits g := ⟨rfl, rfl, hf.legacy, Nat.le_refl _⟩
  exact does_arguments (w := w') (fun e _ => computes hsound hp e) hlen hf' hm
    ⟨hcode, Nat.le_refl _⟩ hst

/-- A call makes the calls of its arguments and then its own, unless it is one of `print` or `put`.
-/
theorem invokes_call (hmeans : w.Means vis) (span : Span) (name : Name) {args : List Expr}
    (ha : ∀ a ∈ args, w.InvokesIn vis a) :
    w.Invokes (Rules.call w.target span name (Expr.operands w.target args))
      ((Expr.call name args).invocations w.legacy vis) := by
  refine ⟨Rules.extends_call (Expr.extends_operands w.target args) span name,
    fun g type g' hf hm hcode => ?_⟩
  obtain ⟨f, hlookup, hrule⟩ := Rules.makes_call hm
  rw [hf.functions] at hlookup
  have hbuiltIn := hmeans.functions.builtIn _ _ hlookup
  rw [Expr.invocations]
  split at hrule
  -- What is built in is no call.
  · rename_i hbody
    rw [if_pos (hbuiltIn.mpr ⟨_, hbody⟩), List.append_nil]
    exact (invokes_print ha name).links g type g' hf hrule hcode
  · rename_i hbody
    rw [if_pos (hbuiltIn.mpr ⟨_, hbody⟩), List.append_nil]
    exact (invokes_put ha name).links g type g' hf hrule hcode
  -- A function of the program is called behind its arguments.
  · rename_i n hbody
    obtain ⟨hlen, -, g₁, hargs, hcall⟩ := hrule
    rw [Expr.length_operands] at hlen
    have hroutine : ¬ isBuiltIn name.value = true := fun h => by
      obtain ⟨i, hi⟩ := hbuiltIn.mp h
      rw [hbody] at hi
      cases hi
    have hinvokes := invokes_arguments ha f.params hlen
    have hf₁ := hf.extends hinvokes.adds hargs
    have hcode₁ := hcode.extends (Gen.extends_emit _) hcall
    obtain ⟨-, hi⟩ := within_emit hf₁ hcall hcode
    obtain ⟨hnumber, header, hheader, hparams, -⟩ := hmeans.functions.routine _ _ _ hlookup hbody
    -- The call is linked to the routine with the number of its header.
    have hlinks : w.Links ((g₁.draft w.target).position, n) ⟨vis, name, args⟩ := by
      refine ⟨hnumber, header, g, g₁, hheader, hparams ▸ hlen, ?_, hparams ▸ hargs, hcode₁.code,
        rfl, fun callers fuel => hparams ▸ pushesAll hw hp hf hlen hargs hcode₁.code callers fuel⟩
      constructor
      · rw [knowing, hf.scopes]
        exact hmeans.variables
      · rw [knowing, hf.functions]
        exact hmeans.functions
    obtain rfl := Gen.makes_emit.mp hcall
    rw [if_neg hroutine, Generator.draft_onDraft, Draft.position_emit,
      Code.callsIn_append (hinvokes.adds.position_le hargs) (Nat.le_succ _), Code.callsIn_succ hi]
    exact List.rel_append (hinvokes.links g _ g₁ hf hargs hcode₁) (.cons hlinks .nil)

/-- **The calls in code for an expression are those in the text.** They are in the order of
evaluation, each is of the routine with the number of its function, and each stands behind code that
pushes its arguments. -/
theorem invokes (hmeans : w.Means vis) (e : Expr) : w.InvokesIn vis e := by
  induction e using Expr.induct with
  | literal v => exact .of_compile (invokes_literal v.value) nofun
  | var n => exact .of_compile (invokes_var n) nofun
  | elem n i ih =>
    refine ⟨invokes_elem (invokes_compileAs ih.compile _) _ n, ?_⟩
    rintro n i ⟨⟩
    exact ih.compile
  | paren e ih => exact .of_compile ih.compile nofun
  | call n args ih => exact .of_compile (invokes_call hw hp hmeans _ n ih) nofun
  | lead op e ih => exact .of_compile (invokes_lead ih.compile op.value) nofun
  | arith l op r hl hr => exact .of_compile (invokes_arith hl.compile hr.compile op.value) nofun
  | compare l op r hl hr => exact .of_compile (invokes_compare hl.compile hr.compile op.value) nofun
  | negate word e ih => exact .of_compile (invokes_negate ih.compile) nofun
  | logic op l r hl hr => exact .of_compile (invokes_logic hl.compile hr.compile op) nofun
  | step p op ih => exact .of_compile (invokes_step ih op) nofun
  | assign p op v hu hv => exact .of_compile (invokes_assign hu hv op) nofun

/-- The initialisation of a variable. -/
theorem invokes_prepareCode (hmeans : w.Means vis) {v : Symbol} {d : Declarator}
    (hshape : v.shape = d.declaredShape) :
    w.Invokes (prepareCode w.target v d.init) (d.invocations w.legacy vis) := by
  -- An array is filled by evaluating its initialiser for every element.
  have harray (n : UInt32) (hn : v.shape = .array (some n)) (e : Expr) :
      w.Invokes (Gen.initialise w.target v e)
        (List.replicate n.toNat (e.invocations w.legacy vis)).flatten := by
    unfold Gen.initialise Gen.fill
    rw [hn]
    exact invokes_forBelow (fun _ => (invokes_load v).then fun _ => (invokes_emit rfl).then fun _ =>
      (invokes_compileAs (invokes hw hp hmeans e).compile _).quiet fun _ => invokes_emit rfl) 0 _
  -- A word is initialised once.
  have hscalar (hn : ∀ n, v.shape ≠ .array (some n)) (e : Expr) :
      w.Invokes (Gen.initialise w.target v e) (e.invocations w.legacy vis) := by
    unfold Gen.initialise Gen.fill
    split
    · rename_i n h
      exact absurd h (hn n)
    · exact (invokes_compileAs (invokes hw hp hmeans e).compile _).quiet fun _ => invokes_store v
  unfold prepareCode Declarator.invocations
  rw [← hshape]
  unfold Declarator.declaredShape at hshape
  cases hl : d.length with
  | none =>
    rw [hl] at hshape
    rw [hshape]
    cases d.init with
    | none => exact invokes_pure _
    | some e => exact hscalar (fun n hn => by rw [hshape] at hn; cases hn) e
  | some n =>
    rw [hl] at hshape
    rw [hshape]
    refine (invokes_emit (i := .newArray _) rfl).then fun _ => (invokes_store v).then fun _ => ?_
    cases d.init with
    | none => exact invokes_pure _
    | some e => exact harray _ hshape e

end Routines

end Site

end OnePass
