import OnePass.Proofs.Growth

/-!
# What code for expressions adds to a stream

There are three ways to change a stream: an instruction is appended, a label is added, and a label
marks the end (`Draft.Edit`). `Gen.Edits` says which changes a generator makes, one after another.
Generators for expressions are built of steps that only read the state, of instructions that are no
jumps, and of the code for random numbers, which has two labels of its own (`Gen.Built`). So what
they add is tidy: each new label is marked once and no other label is, and jumps lead to new labels
only (`Draft.Tidy`).

Labels and positions are numbered by 32 bits, so this is said of streams for which these are enough
(`Draft.Addressable`). That nothing else of the state changes, and that no instruction of a stream
does, is true of all.

Main statement: that is all that the compilation of an expression does (`compile_appends`).
-/

namespace OnePass

/-- The label that an instruction jumps to. -/
def Instruction.label? : Instruction → Option UInt32
  | .jump l | .jumpIfFalse l | .jumpIfTrue l => some l
  | _ => none

namespace Draft

/-! ## Changes to a stream -/

/-- A change to a stream. -/
inductive Edit where
  /-- an instruction is appended -/
  | emit (i : Instruction)
  /-- a label is added -/
  | addLabel
  /-- a label marks the position of the next instruction -/
  | mark (label : Nat)
  deriving DecidableEq, Repr

/-- A stream with a change. -/
def edit (d : Draft) : Edit → Draft
  | .emit i => d.emit i
  | .addLabel => d.addLabel
  | .mark label => d.mark label

/-- A stream with changes, one after another. -/
def edits (d : Draft) (es : List Edit) : Draft := es.foldl edit d

/-- The instruction that a change appends. -/
def Edit.emitted? : Edit → Option Instruction
  | .emit i => some i
  | _ => none

section

variable (d : Draft) (es fs : List Edit)

/-- Changes are made from the first one on. -/
theorem edits_cons (e : Edit) : d.edits (e :: es) = (d.edit e).edits es := rfl

/-- Changes behind others are made to what those leave. -/
theorem edits_append : d.edits (es ++ fs) = (d.edits es).edits fs := List.foldl_append

/-- The instructions behind changes are those in front and those of the changes, in order. -/
theorem instructions_edits :
    (d.edits es).instructions.toList = d.instructions.toList ++ es.filterMap Edit.emitted? := by
  induction es generalizing d with
  | nil => exact (List.append_nil _).symm
  | cons e es ih =>
    rw [edits_cons, ih]
    cases e with
    | emit i =>
      rw [edit, emit, Array.toList_push, List.append_assoc]
      rfl
    | addLabel => rfl
    | mark label => rfl

/-- There are as many labels more as the changes make. -/
theorem size_edits : (d.edits es).labels.size = d.labels.size + es.count .addLabel := by
  induction es generalizing d with
  | nil => rfl
  | cons e es ih =>
    rw [edits_cons, ih, List.count_cons]
    cases e with
    | emit i => rfl
    | addLabel =>
      rw [edit, addLabel, Array.size_push, if_pos (beq_self_eq_true _)]
      omega
    | mark label =>
      rw [edit, mark, Array.size_setIfInBounds]
      rfl

/-- Changes make a stream longer. -/
theorem longer_edits : d.Longer (d.edits es) :=
  ⟨⟨_, (instructions_edits d es).symm⟩, size_edits d es ▸ Nat.le_add_right _ _⟩

/-- What a label marks is not before a position `first` and not behind the end, if it was so before
the changes and these begin at `first` or behind it. -/
theorem mark_within {n first : Nat} {p : UInt32} (hfirst : first ≤ d.position)
    (haddr : (d.edits es).Addressable)
    (hd : ∀ q, d.labels[n]? = some (some q) → first ≤ q.toNat ∧ q.toNat ≤ d.position)
    (hp : (d.edits es).labels[n]? = some (some p)) :
    first ≤ p.toNat ∧ p.toNat ≤ (d.edits es).position := by
  -- each change makes the end later, if anything, and marks are made at the end only
  induction es generalizing d with
  | nil => exact hd p hp
  | cons e es ih =>
    refine ih (d.edit e) ?_ haddr (fun q hq => ?_) hp
    · cases e with
      | emit i => exact Nat.le_trans hfirst (position_emit d i ▸ Nat.le_succ _)
      | addLabel => exact hfirst
      | mark label => exact hfirst
    · cases e with
      | emit i =>
        obtain ⟨hq₁, hq₂⟩ := hd q hq
        exact ⟨hq₁, Nat.le_trans hq₂ (position_emit d i ▸ Nat.le_succ _)⟩
      | addLabel =>
        rw [edit, addLabel, Array.getElem?_push] at hq
        split at hq
        · cases hq
        · exact hd q hq
      | mark label =>
        rw [edit, mark, Array.getElem?_setIfInBounds] at hq
        split at hq
        · split at hq
          · obtain rfl := Option.some.inj (Option.some.inj hq)
            have hend : (UInt32.ofNat d.position).toNat = d.position :=
              (haddr.of_longer (longer_edits (d.mark label) es)).toNat_position (Nat.le_refl _)
            rw [hend]
            exact ⟨hfirst, Nat.le_refl _⟩
          · cases hq
        · exact hd q hq

end

/-! ## Tidy changes -/

/-- Of the labels, the changes mark exactly the new ones, each of them once. The instructions that
are appended jump to new labels only. -/
structure Tidy (d : Draft) (es : List Edit) : Prop where
  marks : ∀ n, es.count (.mark n) =
    if d.labels.size ≤ n ∧ n < (d.edits es).labels.size then 1 else 0
  jumps : ∀ i l, .emit i ∈ es → i.label? = some l →
    d.labels.size ≤ l.toNat ∧ l.toNat < (d.edits es).labels.size

namespace Tidy

variable {d : Draft} {es fs : List Edit}

/-- To change nothing is tidy. -/
theorem nil (d : Draft) : d.Tidy [] := by
  refine ⟨fun n => ?_, fun i l hi _ => absurd hi List.not_mem_nil⟩
  rw [if_neg fun h => absurd h.1 (Nat.not_le_of_lt h.2)]
  rfl

/-- Tidy changes one behind the other are tidy. -/
theorem append (h : d.Tidy es) (h' : (d.edits es).Tidy fs) : d.Tidy (es ++ fs) := by
  have hsize := size_edits d es
  have hsize' := size_edits (d.edits es) fs
  refine ⟨fun n => ?_, fun i l hi hl => ?_⟩
  · rw [List.count_append, h.marks, h'.marks, edits_append]
    split <;> split <;> split <;> omega
  · rw [edits_append]
    rcases List.mem_append.mp hi with hi | hi
    · have hjump := h.jumps i l hi hl
      omega
    · have hjump := h'.jumps i l hi hl
      omega

/-- An instruction without a label is tidy by itself. -/
theorem emit (d : Draft) {i : Instruction} (hi : i.label? = none) : d.Tidy [.emit i] := by
  refine ⟨fun n => ?_, fun j l hj hl => ?_⟩
  · have hsize := size_edits d [.emit i]
    rw [if_neg (by simp at hsize; omega)]
    simp
  · rw [List.mem_singleton, Edit.emit.injEq] at hj
    rw [hj, hi] at hl
    cases hl

end Tidy

end Draft

namespace Gen

variable {α β : Type} {t : Target} {g g' : Generator}

/-! ## The changes that a generator makes -/

/-- `m` takes the state `g` to `g'`, makes `a`, and changes the stream of the target `t` step by
step. A step without a change is one that never changes the state. -/
inductive Edits (t : Target) :
    {α : Type} → Gen α → Generator → List Draft.Edit → α → Generator → Prop where
  | still {α : Type} {m : Gen α} {g : Generator} {a : α} {g' : Generator}
      (h : ∀ g a g', Makes m g a g' → g' = g) (hm : Makes m g a g') : Edits t m g [] a g'
  | emit {i : Instruction} {g g' : Generator} {u : Unit} (hm : Makes (emit t i) g u g') :
      Edits t (emit t i) g [.emit i] u g'
  | newLabel {g g' : Generator} {l : UInt32} (hm : Makes (newLabel t) g l g') :
      Edits t (newLabel t) g [.addLabel] l g'
  | mark {l : UInt32} {g g' : Generator} {u : Unit} (hm : Makes (mark t l) g u g') :
      Edits t (mark t l) g [.mark l.toNat] u g'
  | bind {α β : Type} {m : Gen α} {f : α → Gen β} {g g₁ g' : Generator} {a : α} {b : β}
      {es fs : List Draft.Edit} (hm : Edits t m g es a g₁) (hf : Edits t (f a) g₁ fs b g') :
      Edits t (m >>= f) g (es ++ fs) b g'

/-- The changes are all that happens to the state. -/
theorem Edits.onDraft {m : Gen α} {es : List Draft.Edit} {a : α} (h : Edits t m g es a g') :
    g' = g.onDraft t fun d => d.edits es := by
  induction h with
  | still h hm =>
    obtain rfl := h _ _ _ hm
    exact (Generator.onDraft_draft _ t).symm.trans (by cases t <;> rfl)
  | emit hm => exact makes_emit.mp hm
  | newLabel hm => exact (makes_newLabel.mp hm).2
  | mark hm => exact makes_mark.mp hm
  | bind _ _ ih ih' =>
    rw [ih', ih, Generator.onDraft_onDraft]
    congr 1
    funext d
    exact (Draft.edits_append d _ _).symm

/-- Instructions are changes of which none is about a label. -/
theorem edits_emitAll (is : List Instruction) (g : Generator) :
    Edits t (emitAll t is) g (is.map .emit) ⟨⟩ (g.onDraft t fun d => d.emitAll is) := by
  induction is generalizing g with
  | nil => exact .still (fun _ _ _ h => makes_forM_nil.mp h) (makes_emitAll.mpr rfl)
  | cons i is ih =>
    have hrest := ih (g.onDraft t fun d => d.emit i)
    rw [Generator.onDraft_onDraft] at hrest
    exact .bind (a := ⟨⟩) (.emit (makes_emit.mpr rfl)) hrest

/-! ## What generators are built of -/

/-- `m` is built of steps that never change the state, of instructions that are no jumps, and of
code for random numbers. -/
inductive Built (t : Target) : {α : Type} → Gen α → Prop where
  | still {α : Type} {m : Gen α} (h : ∀ g a g', Makes m g a g' → g' = g) : Built t m
  | emit {i : Instruction} (hi : i.label? = none) : Built t (emit t i)
  | random : Built t (Rules.random t)
  | bind {α β : Type} {m : Gen α} {f : α → Gen β} (hm : Built t m) (hf : ∀ a, Built t (f a)) :
      Built t (m >>= f)

end Gen

/-- The changes that the code for a random number comes to. -/
def Rules.randomEdits (positive done : UInt32) : List Draft.Edit :=
  [.addLabel, .addLabel] ++ [.dup, .pushInt 0, .binary .lt, .jumpIfFalse positive, .neg, .random,
    .neg, .jump done].map .emit ++ [.mark positive.toNat, .emit .random, .mark done.toNat]

/-- A random number marks the labels that it makes, and jumps to no other. -/
theorem Draft.Tidy.random {d : Draft} {positive done : UInt32}
    (hp : positive.toNat = d.labels.size) (hd : done.toNat = d.labels.size + 1) :
    d.Tidy (Rules.randomEdits positive done) := by
  have hsize : (d.edits (Rules.randomEdits positive done)).labels.size = d.labels.size + 2 :=
    size_edits d _
  refine ⟨fun n => ?_, fun i l hi hl => ?_⟩
  · have hcount : (Rules.randomEdits positive done).count (.mark n) =
        (if d.labels.size + 1 = n then 1 else 0) + (if d.labels.size = n then 1 else 0) := by
      simp [Rules.randomEdits, List.count_cons, hp, hd]
    rw [hcount, hsize]
    split <;> split <;> split <;> omega
  · have hown : l = positive ∨ l = done := by
      simp only [Rules.randomEdits, List.map_cons, List.map_nil, List.cons_append, List.nil_append,
        List.mem_cons, List.not_mem_nil, or_false, reduceCtorEq, Edit.emit.injEq, false_or] at hi
      rcases hi with rfl | rfl | rfl | rfl | rfl | rfl | rfl | rfl | rfl <;>
        simp_all [Instruction.label?]
    rw [hsize]
    rcases hown with rfl | rfl <;> omega

namespace Gen

variable {α β : Type} {t : Target} {g g' : Generator}

/-- A random number has two labels of its own, which are the next two of the stream. -/
theorem edits_random {u : Unit} (h : Makes (Rules.random t) g u g') :
    ∃ positive done : UInt32, positive = .ofNat (g.draft t).labels.size ∧
      done = .ofNat ((g.draft t).labels.size + 1) ∧
      Edits t (Rules.random t) g (Rules.randomEdits positive done) u g' := by
  obtain ⟨positive, g₁, h₁, hrest₁⟩ := makes_bind.mp h
  obtain ⟨done, g₂, h₂, hrest₂⟩ := makes_bind.mp hrest₁
  obtain ⟨_, g₃, h₃, hrest₃⟩ := makes_bind.mp hrest₂
  obtain ⟨_, g₄, h₄, hrest₄⟩ := makes_bind.mp hrest₃
  obtain ⟨_, g₅, h₅, h₆⟩ := makes_bind.mp hrest₄
  have hblock := makes_emitAll.mp h₃ ▸ edits_emitAll (t := t)
    [.dup, .pushInt 0, .binary .lt, .jumpIfFalse positive, .neg, .random, .neg, .jump done] g₂
  obtain ⟨hp, hg₁⟩ := makes_newLabel.mp h₁
  have hd := (makes_newLabel.mp h₂).1
  rw [hg₁, Generator.draft_onDraft, Draft.size_labels_addLabel] at hd
  refine ⟨positive, done, hp, hd, ?_⟩
  unfold Rules.random
  exact (Edits.newLabel h₁).bind ((Edits.newLabel h₂).bind (hblock.bind
    ((Edits.mark h₄).bind ((Edits.emit h₅).bind (.mark h₆)))))

/-- **What is built that way makes tidy changes**, as long as labels can be numbered. -/
theorem Built.edits {m : Gen α} (h : Built t m) {a : α} (hm : Makes m g a g') :
    ∃ es, Edits t m g es a g' ∧ (((g.draft t).edits es).Addressable → (g.draft t).Tidy es) := by
  induction h generalizing g g' with
  | still h => exact ⟨[], .still h hm, fun _ => .nil _⟩
  | @emit i hi => exact ⟨[.emit i], .emit hm, fun _ => .emit _ hi⟩
  | random =>
    obtain ⟨positive, done, rfl, rfl, hedits⟩ := edits_random hm
    refine ⟨_, hedits, fun haddr => ?_⟩
    -- both labels are among those of the stream with the changes
    have hsize := Draft.size_edits (g.draft t) (Rules.randomEdits
      (.ofNat (g.draft t).labels.size) (.ofNat ((g.draft t).labels.size + 1)))
    have hcount (p q : UInt32) : (Rules.randomEdits p q).count .addLabel = 2 := rfl
    rw [hcount] at hsize
    exact .random (haddr.toNat_label (by omega)) (haddr.toNat_label (by omega))
  | bind _ _ ih ih' =>
    obtain ⟨a, g₁, h₁, h₂⟩ := makes_bind.mp hm
    obtain ⟨es, hes, htidy⟩ := ih h₁
    obtain ⟨fs, hfs, htidy'⟩ := ih' a h₂
    rw [hes.onDraft, Generator.draft_onDraft] at htidy'
    refine ⟨es ++ fs, .bind hes hfs, fun haddr => ?_⟩
    rw [Draft.edits_append] at haddr
    exact (htidy (haddr.of_longer (Draft.longer_edits _ fs))).append (htidy' haddr)

/-! ## Composition -/

/-- A value changes nothing. -/
theorem built_pure (a : α) : Built t (pure a) := .still fun _ _ _ h => (makes_pure.mp h).2

/-- There is no run that could change anything. -/
theorem built_fail (e : SemanticError) (span : Span) : Built t (fail e span : Gen α) :=
  .still fun _ _ _ h => absurd h not_makes_fail

/-- What is behind a check. -/
theorem built_check {p : Prop} [Decidable p] {e : SemanticError} {span : Span} {f : α → Gen β}
    {m : Gen β} (hm : Built t m) : Built t (if p then fail e span >>= f else m) := by
  split
  · exact built_fail _ _
  · exact hm

/-- To look at the state changes nothing. -/
theorem built_get : Built t get := .still fun _ _ _ h => (makes_get.mp h).2

/-- A value that is computed beforehand changes nothing. -/
theorem built_lift (x : Except (Located SemanticError) α) : Built t (liftM x : Gen α) :=
  .still fun _ _ _ h => (makes_lift.mp h).2

/-- To look a variable up changes nothing. -/
theorem built_resolve (name : Name) : Built t (resolve t name) :=
  .still fun _ _ _ h => (makes_resolve h).1

theorem built_expectType (span : Span) (expected found : ExprType) :
    Built t (expectType span expected found) := by
  unfold expectType
  split
  · exact built_pure _
  · exact built_fail _ _

/-- A loop is built of its rounds. -/
theorem built_forM {xs : List α} {f : α → Gen Unit} (hf : ∀ x ∈ xs, Built t (f x)) :
    Built t (xs.forM f) := by
  induction xs with
  | nil => exact built_pure _
  | cons x xs ih => exact (hf x (.head _)).bind fun _ => ih fun y hy => hf y (.tail _ hy)

/-- Instructions without labels are built of themselves. -/
theorem built_emitAll {is : List Instruction} (h : ∀ i ∈ is, i.label? = none) :
    Built t (emitAll t is) := built_forM fun i hi => .emit (h i hi)

/-- A loop over numbers is built of its rounds, whatever their number. -/
theorem built_forBelow {f : UInt32 → Gen Unit} (hf : ∀ n, Built t (f n)) (start n : Nat) :
    Built t (forBelow f start n) := by
  induction n generalizing start with
  | zero => exact built_pure _
  | succ n ih => exact (hf _).bind fun _ => ih _

/-- A load has no label. -/
theorem built_load (v : Symbol) : Built t (load t v) := by
  unfold load
  split <;> exact .emit rfl

/-- A store has no label. -/
theorem built_store (v : Symbol) : Built t (store t v) := by
  unfold store
  split <;> exact .emit rfl

end Gen

/-! ## Operands -/

/-- The code of an operand, and of the index of a place, is built that way. -/
structure Operand.Built (t : Target) (o : Operand) : Prop where
  compile : Gen.Built t o.compile
  index : ∀ name i, o.place? = some ⟨name, some i⟩ → Gen.Built t i

namespace Operand

variable {t : Target} {o : Operand}

/-- An operand that names no variable is built if its code is. -/
theorem Built.of_no_place {span : Span} {m : Gen ExprType} (h : Gen.Built t m) :
    Operand.Built t ⟨span, m, none⟩ := ⟨h, fun _ _ h => by cases h⟩

variable (ho : o.Built t)
include ho

/-- A type that is expected of an operand changes nothing. -/
theorem Built.compileAs (expected : ExprType) : Gen.Built t (o.compileAs expected) :=
  ho.compile.bind fun _ => Gen.built_expectType _ _ _

/-- A value that is expected of an operand changes nothing. -/
theorem Built.compileUnder (op : Token) : Gen.Built t (o.compileUnder op) := by
  refine ho.compile.bind fun _ => ?_
  split
  · exact Gen.built_fail _ _
  · exact Gen.built_pure _

/-- The index of the place that an operand is. -/
theorem Built.of_place {name : Name} {index : Option (Gen Unit)}
    (hp : o.place? = some ⟨name, index⟩) : ∀ i ∈ index, Gen.Built t i := by
  rintro i ⟨⟩
  exact ho.index name i hp

end Operand

namespace Rules

open Gen

variable {t : Target}

section Operators

variable {o l r : Operand} (ho : o.Built t) (hl : l.Built t) (hr : r.Built t)

/-- A literal is an instruction without a label. -/
theorem built_literal (v : Literal) : Built t (literal t v) := by
  cases v <;> exact (Built.emit rfl).bind fun _ => built_pure _

include hl hr in
/-- A logical operator evaluates both sides, so it needs no label. -/
theorem built_logic (op : LogicOp) : Built t (logic t op l r) :=
  (hl.compileAs _).bind fun _ => (hr.compileAs _).bind fun _ =>
    (Built.emit rfl).bind fun _ => built_pure _

include ho in
theorem built_negate : Built t (negate t o) :=
  (ho.compileAs _).bind fun _ => (built_emitAll (by decide)).bind fun _ => built_pure _

include hl hr in
theorem built_compare (op : RelOp) : Built t (compare t l op r) := by
  refine hl.compile.bind fun left => hr.compile.bind fun right => ?_
  split
  · refine (built_expectType _ _ _).bind fun _ => (built_emitAll ?_).bind fun _ => built_pure _
    cases op <;> decide
  · exact built_fail _ _

include hl hr in
/-- An arithmetic operator is an instruction behind its operands. -/
theorem built_arith (op : ArithOp) : Built t (arith t l op r) :=
  (hl.compileUnder _).bind fun _ => (hr.compileUnder _).bind fun _ =>
    (Built.emit rfl).bind fun _ => built_pure _

include ho in
/-- Of what stands in front of an operand only `?` has labels. -/
theorem built_lead (op : LeadOp) : Built t (lead t op o) := by
  cases op with
  | length =>
    refine ho.compile.bind fun found => ?_
    split
    · exact (Built.emit rfl).bind fun _ => built_pure _
    · exact built_fail _ _
  | negative =>
    exact (ho.compileUnder _).bind fun _ => (Built.emit rfl).bind fun _ => built_pure _
  | random => exact (ho.compileUnder _).bind fun _ => Built.random.bind fun _ => built_pure _

end Operators

/-- A variable is a load. -/
theorem built_var (name : Name) : Built t (var t name) :=
  (built_resolve _).bind fun _ => (built_load _).bind fun _ => built_pure _

/-- An element is a load, its index and an instruction. -/
theorem built_elem (span : Span) (name : Name) {index : Gen Unit} (hi : Built t index) :
    Built t (elem t span name index) := by
  refine (built_resolve _).bind fun v => (built_load _).bind fun _ => ?_
  split
  · exact hi.bind fun _ => (Built.emit rfl).bind fun _ => built_pure _
  · exact built_fail _ _

section Places

variable {v : Symbol} {index : Option (Gen Unit)} (hi : ∀ i ∈ index, Built t i)
include hi

/-- The labels in front of an assigned value are those of the index. -/
theorem built_beforeValue : Built t (beforeValue t v index) := by
  unfold beforeValue
  split
  · exact (built_load _).bind fun _ => hi _ rfl
  · exact built_pure _

/-- The present value is built anew, with labels of its own for the index. -/
theorem built_presentValue : Built t (presentValue t v index) := by
  refine (built_load _).bind fun _ => ?_
  split
  · exact (hi _ rfl).bind fun _ => .emit rfl
  · exact built_pure _

omit hi in
theorem built_afterValue : Built t (afterValue t v index) := by
  unfold afterValue
  split
  · exact .emit rfl
  · exact built_store _

variable {value : Operand} (hv : value.Built t)
include hv

/-- In the legacy form the index and the value are compiled twice. -/
theorem built_compound (op : AssignOp) : Built t (compound t v index op value) := by
  have hordered (instruction : BinaryOp) :
      Built t (compound.ordered t v index value instruction) := by
    refine (hv.compileAs _).bind fun _ => built_get.bind fun g => ?_
    dsimp only
    split
    · exact (Built.emit rfl).bind fun _ => (built_presentValue hi).bind fun _ =>
        hv.compile.bind fun _ => .emit rfl
    · exact (built_presentValue hi).bind fun _ => (Built.emit rfl).bind fun _ => .emit rfl
  cases op with
  | set => exact hv.compileAs _
  | add =>
    exact (hv.compileAs _).bind fun _ => (built_presentValue hi).bind fun _ => .emit rfl
  | mul =>
    exact (hv.compileAs _).bind fun _ => (built_presentValue hi).bind fun _ => .emit rfl
  | sub => exact hordered _
  | div => exact hordered _

/-- An assignment of a word is built of its index, its value and a store. -/
theorem built_assignWord (op : Located AssignOp) : Built t (assignWord t v index op value) := by
  unfold assignWord
  exact built_check <| (built_beforeValue hi).bind fun _ => (built_compound hi hv _).bind fun _ =>
    built_afterValue

end Places

/-- An array is copied by instructions without labels. -/
theorem built_copyArray (target : Symbol) (name : Name) (value : Operand) :
    Built t (copyArray t target name value) := by
  have hlength (source : Symbol) (sourceName : Name) :
      Built t (copyLength target name source sourceName value.span) := by
    unfold copyLength
    split
    · exact built_pure _
    · exact built_fail _ _
    · exact built_fail _ _
  unfold copyArray
  split
  · refine (built_resolve _).bind fun source => ?_
    refine built_check (built_check ((hlength _ _).bind fun n => built_forBelow (fun k => ?_) 0 _))
    refine (built_load _).bind fun _ => (Built.emit rfl).bind fun _ =>
      (built_load _).bind fun _ => built_emitAll ?_
    simp [Instruction.label?]
  · exact built_fail _ _

section Assignments

variable {target value : Operand} (ht : target.Built t) (hv : value.Built t)
include ht

include hv in
/-- An assignment is built of its parts, whichever of its forms it has. -/
theorem built_assign (op : Located AssignOp) : Built t (assign t target op value) := by
  unfold assign
  split
  · exact built_fail _ _
  · rename_i name index hp
    refine (built_resolve _).bind fun v => ?_
    dsimp only
    split
    · exact built_check ((built_copyArray _ _ _).bind fun _ => built_pure _)
    · exact built_fail _ _
    · exact (built_assignWord (ht.of_place hp) hv _).bind fun _ => built_pure _

/-- An increment is built of its target, which is evaluated for the value and for the store. -/
theorem built_step (op : StepOp) : Built t (step t target op) := by
  unfold step
  split
  · exact built_fail _ _
  · rename_i name index hp
    have hi := ht.of_place hp
    refine (built_resolve _).bind fun v => ?_
    -- whatever type the place has been found to have
    have hcode : Built t (do
        stepCode t v index op
        return ExprType.effect) := by
      refine Built.bind ?_ fun _ => built_pure _
      exact (built_beforeValue hi).bind fun _ => (built_presentValue hi).bind fun _ =>
        (Built.emit rfl).bind fun _ => (Built.emit rfl).bind fun _ => built_afterValue
    simp only [stepCode, bind_assoc] at hcode
    dsimp only
    split
    · exact (built_pure _).bind fun _ => built_check hcode
    · exact (built_fail _ _).bind fun _ => built_check hcode
    · exact (built_pure _).bind fun _ => built_check hcode

end Assignments

section Calls

variable {args : List Operand} (ha : ∀ o ∈ args, o.Built t)

include ha in
/-- Arguments are built one behind the other. -/
theorem built_arguments (params : List Slot) : Built t (arguments args params) := by
  induction args generalizing params with
  | nil => exact built_pure _
  | cons o os ih =>
    cases params with
    | nil => exact built_pure _
    | cons s ss =>
      exact ((ha o (.head _)).compileAs _).bind fun _ => ih (fun o h => ha o (.tail _ h)) ss

include ha in
/-- Behind an argument of a format there is one instruction at most. -/
theorem built_formatArguments : Built t (formatArguments t args) := by
  induction args with
  | nil => exact built_pure _
  | cons o os ih =>
    have hos := ih fun o h => ha o (.tail _ h)
    refine (ha o (.head _)).compile.bind fun found => ?_
    dsimp only
    split
    · exact (Built.emit rfl).bind fun _ => hos
    · exact hos
    · exact built_fail _ _

include ha in
/-- A call of `print` is its arguments and one instruction. -/
theorem built_print (name : Name) : Built t (print t name args) := by
  match args with
  | [] => exact built_fail _ _
  | [o] =>
    refine (ha o (.head _)).compile.bind fun found => ?_
    dsimp only
    split
    · exact (Built.emit rfl).bind fun _ => built_pure _
    · exact (Built.emit rfl).bind fun _ => built_pure _
    · exact built_fail _ _
  | format :: o :: os =>
    have hrest : ∀ a ∈ o :: os, a.Built t := fun a h => ha a (.tail _ h)
    exact (ha format (.head _)).compile.bind fun found => built_check <|
      (built_formatArguments hrest).bind fun _ => (Built.emit rfl).bind fun _ => built_pure _

omit ha in
/-- Reading is built of the index of its target and instructions without labels. -/
theorem built_putOne {o : Operand} (ho : o.Built t) : Built t (putOne t o) := by
  unfold putOne
  split
  · exact built_fail _ _
  · rename_i name index hp
    refine (built_resolve _).bind fun v => ?_
    split
    · exact built_fail _ _
    · exact built_fail _ _
    · refine (built_beforeValue (ho.of_place hp)).bind fun _ => (built_emitAll ?_).bind fun _ =>
        built_afterValue
      simp [Instruction.label?]

include ha in
/-- An input is built of its targets. -/
theorem built_put (name : Name) : Built t (put t name args) := by
  unfold put putEach
  exact built_check ((built_forM fun o h => built_putOne (ha o h)).bind fun _ => built_pure _)

include ha in
/-- A call of a function names it by its number and not by a label. -/
theorem built_call (span : Span) (name : Name) : Built t (call t span name args) := by
  refine built_get.bind fun g => (built_lift _).bind fun f => ?_
  split
  · exact built_print ha _
  · exact built_put ha _
  · exact built_check <| (built_arguments ha _).bind fun _ => (Built.emit rfl).bind fun _ =>
      built_pure _

end Calls

end Rules

/-! ## Expressions -/

/-- An expression is built of such changes: by induction, since each rule is if its operands are. -/
theorem Expr.operand_built (t : Target) (e : Expr) : (e.operand t).Built t := by
  induction e using Expr.induct with
  | literal v => exact .of_no_place (Rules.built_literal _)
  | var n =>
    refine ⟨Rules.built_var n, ?_⟩
    rintro name i ⟨⟩
  | elem n i ih =>
    refine ⟨Rules.built_elem _ _ (ih.compileAs _), ?_⟩
    rintro name index ⟨⟩
    exact ih.compileAs _
  | paren e ih => exact .of_no_place ih.compile
  | call n args ih =>
    refine .of_no_place (Rules.built_call (fun o h => ?_) _ _)
    obtain ⟨e, he, rfl⟩ := mem_operands.mp h
    exact ih e he
  | lead op e ih => exact .of_no_place (Rules.built_lead ih _)
  | arith l op r hl hr => exact .of_no_place (Rules.built_arith hl hr _)
  | compare l op r hl hr => exact .of_no_place (Rules.built_compare hl hr _)
  | negate word e ih => exact .of_no_place (Rules.built_negate ih)
  | logic op l r hl hr => exact .of_no_place (Rules.built_logic hl hr _)
  | step p op ih => exact .of_no_place (Rules.built_step ih _)
  | assign p op v hp hv => exact .of_no_place (Rules.built_assign hp hv _)

/-! ## The main statement -/

/-- Nothing is different but the stream of the target. -/
structure Generator.SameBut (t : Target) (g g' : Generator) : Prop where
  other : ∀ t', t' ≠ t → g'.draft t' = g.draft t'
  fields : g'.fields = g.fields
  routines : g'.routines = g.routines
  scopes : g'.scopes = g.scopes
  functions : g'.functions = g.functions
  pending : g'.pending = g.pending
  current : g'.current = g.current
  legacy : g'.legacy = g.legacy

/-- More code in one stream changes nothing else. -/
theorem Generator.sameBut_onDraft (g : Generator) (t : Target) (f : Draft → Draft) :
    g.SameBut t (g.onDraft t f) := by
  refine ⟨fun t' ht => ?_, by simp, by simp, by simp, by simp, by simp, by simp, by simp⟩
  cases t with
  | initializer =>
    cases t' with
    | initializer => exact absurd rfl ht
    | function => rfl
  | function =>
    cases t' with
    | initializer => rfl
    | function => exact absurd rfl ht

/-- `d'` is `d` with the changes `es`, all of which are behind what was there. -/
structure Draft.Appended (d : Draft) (es : List Draft.Edit) (d' : Draft) : Prop where
  /-- the instructions that were there are followed by new ones -/
  instructions : d'.instructions.toList = d.instructions.toList ++ es.filterMap Edit.emitted?
  /-- the labels that were there mark what they marked -/
  labels : d.labels.toList <+: d'.labels.toList
  /-- each new label marks a position in the new part, or its end -/
  marks : ∀ n, d.labels.size ≤ n → n < d'.labels.size →
    ∃ p, d'.labels[n]? = some (some p) ∧ d.position ≤ p.toNat ∧ p.toNat ≤ d'.position
  /-- it is marked once, and no other label is marked -/
  once : ∀ n, es.count (.mark n) = if d.labels.size ≤ n ∧ n < d'.labels.size then 1 else 0
  /-- the jumps of the new part lead to new labels -/
  jumps : ∀ k i l, d.position ≤ k → d'.instructions[k]? = some i → i.label? = some l →
    d.labels.size ≤ l.toNat ∧ l.toNat < d'.labels.size

/-- Tidy changes that leave no new label open. -/
theorem Draft.Tidy.appended {d : Draft} {es : List Draft.Edit} (h : d.Tidy es)
    (haddr : (d.edits es).Addressable) (hgrows : d.Grows (d.edits es)) :
    d.Appended es (d.edits es) := by
  refine ⟨instructions_edits d es, hgrows.labels, fun n hn hlt => ?_, h.marks,
    fun k i l hk hi hl => ?_⟩
  -- that a new label is marked is known from what the stream has become; where, from the changes
  · obtain ⟨m, hm⟩ : ∃ m, (d.edits es).labels[n]? = some m :=
      ⟨_, Array.getElem?_eq_getElem hlt⟩
    cases m with
    | none => exact absurd (GrowsBut.marked hgrows n hn hm) List.not_mem_nil
    | some p =>
      refine ⟨p, hm, mark_within d es (Nat.le_refl _) haddr (fun q hq => ?_) hm⟩
      exact absurd (Array.getElem?_eq_some_iff.mp hq).1 (Nat.not_lt_of_le hn)
  · rw [← Array.getElem?_toList, instructions_edits, List.getElem?_append_right hk]
      at hi
    obtain ⟨e, he, hemitted⟩ := List.mem_filterMap.mp (List.mem_of_getElem? hi)
    cases e with
    | emit j => exact h.jumps i l (Option.some.inj hemitted ▸ he) hl
    | addLabel => cases hemitted
    | mark label => cases hemitted

/-- **Code for an expression is appended to the stream of its target.** The instructions that were
there stay as they were, and nothing else of the state changes. If 32 bits are enough to number the
labels and positions of the stream, then each label that is added is marked once, in the new part or
at its end, no other label is marked, and the jumps of the new part lead to new labels. -/
theorem compile_appends {t : Target} {e : Expr} {g g' : Generator} {type : ExprType}
    (hm : Gen.Makes (e.compile t) g type g') :
    g.SameBut t g' ∧ (g.draft t).Longer (g'.draft t) ∧
      ∃ es, Gen.Edits t (e.compile t) g es type g' ∧
        ((g'.draft t).Addressable → (g.draft t).Appended es (g'.draft t)) := by
  obtain ⟨es, hes, htidy⟩ := (e.operand_built t).compile.edits hm
  obtain ⟨d, hg', hlonger, hgrows⟩ := (e.operand_extends t).compile g type g' hm
  obtain rfl := hes.onDraft
  have hd := congrArg (fun g => g.draft t) hg'
  simp only [Generator.draft_onDraft] at hd
  subst hd
  rw [Generator.draft_onDraft]
  exact ⟨g.sameBut_onDraft t _, hlonger, es, hes, fun haddr =>
    (htidy haddr).appended haddr (hgrows haddr.labels)⟩

/-- One random expression in another, behind a stream that has a label already: each of them has two
labels of its own. -/
theorem compile_appends_nested :
    let span : Span := .single .origin
    let e : Expr := .lead ⟨.random, span⟩ (.lead ⟨.random, span⟩ (.literal ⟨.int 5, span⟩))
    let d : Draft := ⟨#[.pushInt 1, .jump 0], #[some 2]⟩
    let d' : Draft := ⟨#[.pushInt 1, .jump 0, .pushInt 5, .dup, .pushInt 0, .binary .lt,
      .jumpIfFalse 1, .neg, .random, .neg, .jump 2, .random, .dup, .pushInt 0, .binary .lt,
      .jumpIfFalse 3, .neg, .random, .neg, .jump 4, .random],
      #[some 2, some 11, some 12, some 20, some 21]⟩
    let g : Generator := { Generator.new false with initializer := d }
    let g' : Generator := { g with initializer := d' }
    d'.Addressable ∧ g.SameBut .initializer g' ∧ d.Longer d' ∧
      ∃ es, Gen.Edits .initializer (e.compile .initializer) g es (.scalar .int) g' ∧
        (d'.Addressable → d.Appended es d') :=
  ⟨⟨by decide, by decide⟩, compile_appends rfl⟩

end OnePass
