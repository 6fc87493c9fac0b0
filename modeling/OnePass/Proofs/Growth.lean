import OnePass.Proofs.Generation

/-!
# Code for expressions only adds code

Main statement: compiling an expression changes nothing in the state of generation but the
stream of its target, and that stream only grows (`Expr.operand_extends`). So no variable
becomes visible or invisible by it, no statement is begun or ended, and no label is left
open.

A label of which only the lower 32 bits are known may be one that is there already, and is
marked a second time then. So a stream grows as long as it is addressable at its end. That it
does not get shorter is true of any stream, and with that the streams on the way to the end are
addressable too (`Draft.Extended`).
-/

namespace OnePass

/-- What a list begins with stands where it stood. -/
theorem getElem?_mono {α : Type} {xs ys : List α} (h : xs <+: ys) {n : Nat} {x : α}
    (hx : xs[n]? = some x) : ys[n]? = some x := by
  obtain ⟨more, rfl⟩ := h
  rw [List.getElem?_append_left (List.getElem?_eq_some_iff.mp hx).1, hx]

namespace Draft

/-- An instruction takes one position. -/
@[simp]
theorem position_emit (d : Draft) (i : Instruction) : (d.emit i).position = d.position + 1 :=
  Array.size_push ..

/-- Labels take no position. -/
@[simp]
theorem position_addLabel (d : Draft) : d.addLabel.position = d.position := rfl

@[simp]
theorem position_mark (d : Draft) (n : Nat) : (d.mark n).position = d.position := rfl

@[simp]
theorem size_labels_emit (d : Draft) (i : Instruction) :
    (d.emit i).labels.size = d.labels.size := rfl

/-- A new label is the last one. -/
@[simp]
theorem size_labels_addLabel (d : Draft) : d.addLabel.labels.size = d.labels.size + 1 :=
  Array.size_push ..

/-- To mark a label makes no other. -/
@[simp]
theorem size_labels_mark (d : Draft) (n : Nat) : (d.mark n).labels.size = d.labels.size :=
  Array.size_setIfInBounds

variable {d d₁ d₂ : Draft} {l l' : List Nat}

/-! ## Streams that do not get shorter -/

/-- Nothing is written by not writing. -/
theorem Longer.refl (d : Draft) : d.Longer d := ⟨List.prefix_rfl, Nat.le_refl _⟩

/-- What is written first and what is written then make up what is written. -/
theorem Longer.trans (h : d.Longer d₁) (h' : d₁.Longer d₂) : d.Longer d₂ :=
  ⟨h.instructions.trans h'.instructions, Nat.le_trans h.labels h'.labels⟩

/-- An instruction makes a stream longer. -/
theorem longer_emit (d : Draft) (i : Instruction) : d.Longer (d.emit i) :=
  ⟨⟨[i], (Array.toList_push).symm⟩, Nat.le_refl _⟩

theorem longer_emitAll (d : Draft) (is : List Instruction) : d.Longer (d.emitAll is) := by
  induction is generalizing d with
  | nil => exact .refl d
  | cons i is ih => exact (longer_emit d i).trans (ih _)

/-- Instructions do not touch the labels. -/
theorem labels_emitAll (d : Draft) (is : List Instruction) : (d.emitAll is).labels = d.labels := by
  induction is generalizing d with
  | nil => rfl
  | cons i is ih => exact ih (d.emit i)

/-- Instructions stand in the order in which they are written. -/
theorem toList_emitAll (d : Draft) (is : List Instruction) :
    (d.emitAll is).instructions.toList = d.instructions.toList ++ is := by
  induction is generalizing d with
  | nil => simp [emitAll]
  | cons i is ih =>
    rw [show d.emitAll (i :: is) = (d.emit i).emitAll is from rfl, ih]
    simp [emit]

theorem longer_addLabel (d : Draft) : d.Longer d.addLabel :=
  ⟨List.prefix_rfl, by simp⟩

/-- To mark a label writes nothing. Which one it is does not matter here. -/
theorem longer_mark (d : Draft) (n : Nat) : d.Longer (d.mark n) :=
  ⟨List.prefix_rfl, by simp⟩

/-- A longer stream ends further behind. -/
theorem Longer.position (h : d.Longer d₁) : d.position ≤ d₁.position := by
  have hlen := h.instructions.length_le
  rwa [Array.length_toList, Array.length_toList] at hlen

/-- What a stream that can be numbered was before can be numbered too. -/
theorem Addressable.of_longer (h : d₁.Addressable) (hd : d.Longer d₁) : d.Addressable :=
  ⟨Nat.lt_of_le_of_lt hd.position h.position, Nat.le_trans hd.labels h.labels⟩

/-- The number of a label that was added. -/
theorem Addressable.toNat_label (h : d.Addressable) {n : Nat} (hn : n < d.labels.size) :
    (UInt32.ofNat n).toNat = n :=
  UInt32.toNat_ofNat_of_lt' (Nat.lt_of_lt_of_le hn h.labels)

/-- The number of a label behind which the stream went on. -/
theorem Addressable.toNat_addLabel (h : d₁.Addressable) (hd : d.addLabel.Longer d₁) :
    (UInt32.ofNat d.labels.size).toNat = d.labels.size := by
  have hlabels := hd.labels
  rw [size_labels_addLabel] at hlabels
  exact UInt32.toNat_ofNat_of_lt' (Nat.lt_of_lt_of_le hlabels h.labels)

/-- A position up to the end. -/
theorem Addressable.toNat_position (h : d.Addressable) {p : Nat} (hp : p ≤ d.position) :
    (UInt32.ofNat p).toNat = p :=
  UInt32.toNat_ofNat_of_lt' (Nat.lt_of_le_of_lt hp h.position)

/-- Before the instructions at its end, a stream could be numbered up to where they begin. -/
theorem Addressable.of_toCode {is : List Instruction} (h : (d.emitAll is).toCode.Addressable)
    (his : is ≠ []) : d.Addressable := by
  obtain ⟨hposition, hlabels⟩ := h
  have hsize : (d.emitAll is).toCode.instructions.size = d.position + is.length := by
    rw [toCode, ← Array.length_toList, toList_emitAll, List.length_append, Array.length_toList]
    rfl
  have hpos := List.length_pos_iff.mpr his
  exact ⟨by omega, by simpa [toCode, labels_emitAll] using hlabels⟩

/-! ## Streams that grow -/

/-- A stream that is left alone has grown, by nothing. -/
theorem Grows.refl (d : Draft) : d.Grows d :=
  ⟨List.prefix_rfl, List.prefix_rfl, fun _ hn h =>
    absurd (Array.getElem?_eq_some_iff.mp h).1 (Nat.not_lt_of_le hn)⟩

/-- What grows and then grows by closed code has the same labels open. -/
theorem GrowsBut.trans (h : d.GrowsBut l d₁) (h' : d₁.Grows d₂) : d.GrowsBut l d₂ := by
  refine ⟨h.instructions.trans h'.instructions, h.labels.trans h'.labels, fun n hn hnone => ?_⟩
  rcases Nat.lt_or_ge n d₁.labels.size with hlt | hge
  · refine h.marked n hn ?_
    obtain ⟨more, hmore⟩ := h'.labels
    rw [← Array.getElem?_toList, ← hmore, List.getElem?_append_left (by simpa using hlt)] at hnone
    rwa [Array.getElem?_toList] at hnone
  · exact absurd (h'.marked n hge hnone) List.not_mem_nil

/-- Instructions do not mark what is left unmarked. -/
theorem GrowsBut.emit (h : d.GrowsBut l d₁) (i : Instruction) : d.GrowsBut l (d₁.emit i) :=
  ⟨h.instructions.trans ⟨[i], (Array.toList_push).symm⟩, h.labels, h.marked⟩

theorem GrowsBut.emitAll (h : d.GrowsBut l d₁) (is : List Instruction) :
    d.GrowsBut l (d₁.emitAll is) := by
  induction is generalizing d₁ with
  | nil => exact h
  | cons i is ih => exact ih (h.emit i)

/-- A new label is open. -/
theorem GrowsBut.addLabel (h : d.GrowsBut l d₁) :
    d.GrowsBut (d₁.labels.size :: l) d₁.addLabel := by
  refine ⟨h.instructions, h.labels.trans ⟨[none], (Array.toList_push).symm⟩, fun n hn hnone => ?_⟩
  rw [Draft.addLabel, Array.getElem?_push] at hnone
  split at hnone
  · rename_i heq
    exact heq ▸ List.mem_cons_self
  · exact List.mem_cons_of_mem _ (h.marked n hn hnone)

/-- A label that is marked is open no more. -/
theorem GrowsBut.mark (h : d.GrowsBut l d₁) {n : Nat} (hn : d.labels.size ≤ n)
    (hl : ∀ k ∈ l, k = n ∨ k ∈ l') : d.GrowsBut l' (d₁.mark n) := by
  refine ⟨h.instructions, ?_, fun k hk hnone => ?_⟩
  · obtain ⟨more, hmore⟩ := h.labels
    refine ⟨more.set (n - d.labels.size) (some (.ofNat d₁.position)), ?_⟩
    rw [Draft.mark, Array.toList_setIfInBounds, ← hmore,
      List.set_append_right _ _ (by simpa using hn), Array.length_toList]
  · rw [Draft.mark, Array.getElem?_setIfInBounds] at hnone
    split at hnone
    · split at hnone
      · cases Option.some.inj hnone
      · cases hnone
    · rename_i hne
      exact (hl k (h.marked k hk hnone)).resolve_left (Ne.symm hne)

theorem grows_emit (d : Draft) (i : Instruction) : d.Grows (d.emit i) := (Grows.refl d).emit i

/-- The number of labels does not shrink. -/
theorem GrowsBut.labels_size (h : d.GrowsBut l d₁) : d.labels.size ≤ d₁.labels.size := by
  have hlen := h.labels.length_le
  rwa [Array.length_toList, Array.length_toList] at hlen

/-- A stream that has grown is longer, with whatever labels are still to mark. -/
theorem GrowsBut.longer (h : d.GrowsBut l d₁) : d.Longer d₁ := ⟨h.instructions, h.labels_size⟩

theorem GrowsBut.position (h : d.GrowsBut l d₁) : d.position ≤ d₁.position := h.longer.position

/-- Labels stay as they are. -/
theorem GrowsBut.label (h : d.GrowsBut l d₁) {n : Nat} {m : Option UInt32}
    (hl : d.labels[n]? = some m) : d₁.labels[n]? = some m := by
  rw [← Array.getElem?_toList] at hl ⊢
  exact getElem?_mono h.labels hl

/-- What has grown from nothing by closed code has all its labels marked. -/
theorem Grows.marked (h : empty.Grows d) : ∀ m ∈ d.labels, m.isSome := by
  intro m hm
  obtain ⟨n, hlt, rfl⟩ := Array.getElem_of_mem hm
  cases hd : d.labels[n] with
  | some p => rfl
  | none =>
    have hnone : d.labels[n]? = some none := by rw [Array.getElem?_eq_getElem hlt, hd]
    exact absurd (GrowsBut.marked h n (Nat.zero_le _) hnone) List.not_mem_nil

/-- `d'` is no shorter than `d`, and if 32 bits are enough to number its labels it is `d` with
closed code behind it. -/
structure Extended (d d' : Draft) : Prop where
  longer : d.Longer d'
  grows : d'.labels.size ≤ UInt32.size → d.Grows d'

/-- A stream that has grown is extended, addressable or not. -/
theorem Grows.extended (h : d.Grows d₁) : d.Extended d₁ := ⟨GrowsBut.longer h, fun _ => h⟩

/-- A stream extends itself. -/
theorem Extended.refl (d : Draft) : d.Extended d := (Grows.refl d).extended

/-- Extension composes: if the whole is addressable, so is the stream on the way. -/
theorem Extended.trans (h : d.Extended d₁) (h' : d₁.Extended d₂) : d.Extended d₂ :=
  ⟨h.longer.trans h'.longer, fun hlabels =>
    GrowsBut.trans (h.grows (Nat.le_trans h'.longer.labels hlabels)) (h'.grows hlabels)⟩

/-- An extended stream ends further behind. -/
theorem Extended.position (h : d.Extended d₁) : d.position ≤ d₁.position := h.longer.position

end Draft

namespace Gen

variable {α β : Type} {t : Target}

/-- `m` changes nothing but the stream of the target `t`, and lets that grow. -/
def Extends (t : Target) (m : Gen α) : Prop :=
  ∀ g a g', Makes m g a g' → ∃ d, g' = g.onDraft t (fun _ => d) ∧ (g.draft t).Extended d

/-- What a generator extends is extended by each of its runs. -/
theorem Extends.extended {m : Gen α} (h : Extends t m) {g g' : Generator} {a : α}
    (hm : Makes m g a g') : (g.draft t).Extended (g'.draft t) := by
  obtain ⟨d, rfl, hd⟩ := h g a g' hm
  rwa [Generator.draft_onDraft]

/-- What only extends a stream never goes back in it. -/
theorem Extends.position_le {m : Gen α} (h : Extends t m) {g g' : Generator} {a : α}
    (hm : Makes m g a g') : (g.draft t).position ≤ (g'.draft t).position :=
  (h.extended hm).position

/-! ## Composition -/

/-- What changes nothing at all only adds code. -/
theorem Extends.of_same {m : Gen α} (h : ∀ g a g', Makes m g a g' → g' = g) : Extends t m := by
  intro g a g' hm
  obtain rfl := h g a g' hm
  exact ⟨g'.draft t, (g'.onDraft_draft t).symm, .refl _⟩

/-- Nothing is added by a value. -/
theorem extends_pure (a : α) : Extends t (pure a) :=
  .of_same fun _ _ _ h => (makes_pure.mp h).2

/-- There is no run to add anything. -/
theorem extends_fail (e : SemanticError) (span : Span) : Extends t (fail e span : Gen α) :=
  fun _ _ _ h => absurd h not_makes_fail

/-- Generators that extend a stream do so one after the other. -/
theorem Extends.bind {m : Gen α} {f : α → Gen β} (hm : Extends t m) (hf : ∀ a, Extends t (f a)) :
    Extends t (m >>= f) := by
  intro g b g'' h
  obtain ⟨a, g', h₁, h₂⟩ := makes_bind.mp h
  obtain ⟨d, rfl, hd⟩ := hm _ _ _ h₁
  obtain ⟨d', rfl, hd'⟩ := hf a _ _ _ h₂
  rw [Generator.draft_onDraft] at hd'
  exact ⟨d', by rw [Generator.onDraft_onDraft]; rfl, hd.trans hd'⟩

theorem extends_get : Extends t get :=
  .of_same fun _ _ _ h => (makes_get.mp h).2

/-- A value that is computed beforehand adds nothing. -/
theorem extends_lift (x : Except (Located SemanticError) α) : Extends t (liftM x : Gen α) :=
  .of_same fun _ _ _ h => (makes_lift.mp h).2

/-- An instruction is added at the end. -/
theorem extends_emit (i : Instruction) : Extends t (emit t i) := by
  intro g a g' h
  obtain rfl := makes_emit.mp h
  exact ⟨(g.draft t).emit i, by cases t <;> rfl, (Draft.grows_emit _ _).extended⟩

/-- A loop extends a stream if its rounds do. -/
theorem extends_forM {xs : List α} {f : α → Gen Unit} (hf : ∀ x ∈ xs, Extends t (f x)) :
    Extends t (xs.forM f) := by
  induction xs with
  | nil => exact extends_pure _
  | cons x xs ih => exact (hf x (.head _)).bind fun _ => ih fun y hy => hf y (.tail _ hy)

theorem extends_emitAll (is : List Instruction) : Extends t (emitAll t is) :=
  extends_forM fun i _ => extends_emit i

/-- A loop over numbers extends a stream if its rounds do. -/
theorem extends_forBelow {f : UInt32 → Gen Unit} (hf : ∀ n, Extends t (f n)) (start n : Nat) :
    Extends t (forBelow f start n) := by
  induction n generalizing start with
  | zero => exact extends_pure _
  | succ n ih => exact (hf _).bind fun _ => ih _

/-- To compare types adds nothing. -/
theorem extends_expectType (span : Span) (expected found : ExprType) :
    Extends t (expectType span expected found) := by
  unfold expectType
  split
  · exact extends_pure _
  · exact extends_fail _ _

/-- To look a variable up adds nothing. -/
theorem extends_resolve (name : Name) : Extends t (resolve t name) :=
  .of_same fun _ _ _ h => (makes_resolve h).1

/-- A load is added at the end. -/
theorem extends_load (v : Symbol) : Extends t (load t v) := by
  unfold load
  split <;> exact extends_emit _

/-- A store is added at the end. -/
theorem extends_store (v : Symbol) : Extends t (store t v) := by
  unfold store
  split <;> exact extends_emit _

/-! ## Code that is not empty -/

/-- `m` appends at least one instruction. -/
def Lengthens (t : Target) (m : Gen α) : Prop :=
  ∀ g a g', Makes m g a g' → (g.draft t).position < (g'.draft t).position

/-- There is no run that adds too little. -/
theorem lengthens_fail (e : SemanticError) (span : Span) : Lengthens t (fail e span : Gen α) :=
  fun _ _ _ h => absurd h not_makes_fail

/-- An instruction is one instruction more. -/
theorem lengthens_emit (i : Instruction) : Lengthens t (emit t i) := by
  intro g u g' h
  rw [makes_emit.mp h, Generator.draft_onDraft, Draft.position_emit]
  exact Nat.lt_succ_self _

theorem lengthens_load (v : Symbol) : Lengthens t (load t v) := by
  unfold load
  split <;> exact lengthens_emit _

/-- What follows adds no less than nothing. -/
theorem Lengthens.bind {m : Gen α} {f : α → Gen β} (hm : Lengthens t m)
    (hf : ∀ a, Extends t (f a)) :
    Lengthens t (m >>= f) := by
  intro g b g'' h
  obtain ⟨a, g', h₁, h₂⟩ := makes_bind.mp h
  exact Nat.lt_of_lt_of_le (hm g a g' h₁) ((hf a).position_le h₂)

/-- What goes before adds no less than nothing. -/
theorem Extends.lengthens {m : Gen α} {f : α → Gen β} (hm : Extends t m)
    (hf : ∀ a, Lengthens t (f a)) :
    Lengthens t (m >>= f) := by
  intro g b g'' h
  obtain ⟨a, g', h₁, h₂⟩ := makes_bind.mp h
  exact Nat.lt_of_le_of_lt (hm.position_le h₁) (hf a g' b g'' h₂)

/-- An instruction and nothing but a value behind it. -/
theorem lengthens_returning (i : Instruction) (a : α) : Lengthens t (do emit t i; return a) :=
  (lengthens_emit i).bind fun _ => extends_pure a

end Gen

/-! ## Operands -/

/-- Compiling an operand, or the index of a place, only adds code. Code for a value is not
empty. -/
structure Operand.Extends (t : Target) (o : Operand) : Prop where
  compile : Gen.Extends t o.compile
  value : ∀ g type g', Gen.Makes o.compile g type g' → type.hasValue →
    (g.draft t).position < (g'.draft t).position
  index : ∀ name i, o.place? = some ⟨name, some i⟩ → Gen.Extends t i

namespace Operand

variable {t : Target} {o : Operand}

/-- An operand that names no variable extends a stream if its code does, and is not empty if it has
a value. -/
theorem Extends.of_no_place {span : Span} {m : Gen ExprType} (h : Gen.Extends t m)
    (hvalue : ∀ g type g', Gen.Makes m g type g' → type.hasValue →
      (g.draft t).position < (g'.draft t).position) : Operand.Extends t ⟨span, m, none⟩ :=
  ⟨h, hvalue, fun _ _ h => by cases h⟩

/-- An operand that always has a value. -/
theorem Extends.of_lengthens {span : Span} {m : Gen ExprType} (h : Gen.Extends t m)
    (hm : Gen.Lengthens t m) : Operand.Extends t ⟨span, m, none⟩ :=
  .of_no_place h fun _ _ _ h _ => hm _ _ _ h

/-- An operand that never has one. -/
theorem Extends.of_effect {span : Span} {m : Gen ExprType} (h : Gen.Extends t m)
    (hm : Gen.Returns m .effect) : Operand.Extends t ⟨span, m, none⟩ :=
  .of_no_place h fun _ _ _ h hvalue => by
    obtain rfl := hm _ _ _ h
    cases hvalue

variable (ho : o.Extends t)
include ho

/-- To expect a type of an operand adds nothing to its code. -/
theorem Extends.compileAs (expected : ExprType) : Gen.Extends t (o.compileAs expected) :=
  ho.compile.bind fun _ => Gen.extends_expectType _ _ _

/-- To expect a value of an operand adds nothing to its code. -/
theorem Extends.compileUnder (op : Token) : Gen.Extends t (o.compileUnder op) := by
  refine ho.compile.bind fun _ => ?_
  split
  · exact Gen.extends_fail _ _
  · exact Gen.extends_pure _

end Operand

namespace Rules

open Gen

variable {t : Target}

/-! ## Operators -/

/-- A literal is one instruction. -/
theorem extends_literal (l : Literal) : Extends t (literal t l) := by
  cases l <;> exact (extends_emit _).bind fun _ => extends_pure _

theorem lengthens_literal (l : Literal) : Lengthens t (literal t l) := by
  cases l <;> exact lengthens_returning _ _

/-- The code for a random number below the top: two labels and what is between them. -/
def randomCode (positive done : UInt32) (d : Draft) : Draft :=
  ((((d.addLabel.addLabel).emitAll
    [.dup, .pushInt 0, .binary .lt, .jumpIfFalse positive, .neg, .random, .neg,
      .jump done]).mark positive.toNat).emit .random).mark done.toNat

/-- The code that makes a random number positive has nine instructions. -/
theorem position_randomCode {positive done : UInt32} {d : Draft} :
    (randomCode positive done d).position = d.position + 9 := by
  simp [randomCode, Draft.emitAll]

/-- The code that makes a random number positive has two labels. -/
theorem size_labels_randomCode {positive done : UInt32} {d : Draft} :
    (randomCode positive done d).labels.size = d.labels.size + 2 := by
  simp [randomCode, Draft.emitAll]

/-- The two labels are the next ones, if 32 bits are enough to number them. -/
theorem makes_random {g g' : Generator} {u : Unit} (h : Makes (random t) g u g') :
    ∃ positive done : UInt32, g' = g.onDraft t (randomCode positive done) ∧
      ((g'.draft t).labels.size ≤ UInt32.size → positive.toNat = (g.draft t).labels.size ∧
        done.toNat = (g.draft t).labels.size + 1) := by
  simp only [random, makes_bind, makes_newLabel, makes_emitAll, makes_emit, makes_mark] at h
  obtain ⟨_, _, ⟨rfl, rfl⟩, _, _, ⟨rfl, rfl⟩, _, _, rfl, _, _, rfl, _, _, rfl, rfl⟩ := h
  simp only [Generator.draft_onDraft, Generator.onDraft_onDraft, Draft.size_labels_addLabel]
  refine ⟨_, _, rfl, fun hlabels => ?_⟩
  have hlabels : (randomCode (.ofNat (g.draft t).labels.size)
    (.ofNat ((g.draft t).labels.size + 1)) (g.draft t)).labels.size ≤ UInt32.size := hlabels
  rw [size_labels_randomCode] at hlabels
  exact ⟨UInt32.toNat_ofNat_of_lt' (by omega), UInt32.toNat_ofNat_of_lt' (by omega)⟩

/-- With its own labels the code marks every label it makes. -/
theorem grows_randomCode {d : Draft} {positive done : UInt32}
    (hp : positive.toNat = d.labels.size) (hd : done.toNat = d.labels.size + 1) :
    d.Grows (randomCode positive done d) := by
  have hlabels := (Draft.Grows.refl d).addLabel.addLabel
  have hsize : d.addLabel.labels.size = d.labels.size + 1 := Array.size_push ..
  rw [hsize] at hlabels
  have hpositive (is : List Instruction) : d.GrowsBut [d.labels.size + 1]
      ((d.addLabel.addLabel.emitAll is).mark positive.toNat) :=
    (hlabels.emitAll is).mark (by omega) (by simp [hp])
  exact ((hpositive _).emit .random).mark (by omega) (by simp [hd])

/-- Whatever its labels are, the code makes a stream longer. -/
theorem longer_randomCode (positive done : UInt32) (d : Draft) :
    d.Longer (randomCode positive done d) :=
  (((d.longer_addLabel.trans (Draft.longer_addLabel _)).trans (Draft.longer_emitAll _ _)).trans
    ((Draft.longer_mark _ _).trans (Draft.longer_emit _ _))).trans (Draft.longer_mark _ _)

/-- A random number is code at the end, if its two labels are its own. -/
theorem extends_random : Extends t (random t) := by
  intro g u g' h
  obtain ⟨l, l', rfl, hlabels⟩ := makes_random h
  rw [Generator.draft_onDraft] at hlabels
  refine ⟨_, g.onDraft_eq t _, longer_randomCode _ _ _, fun hsize => ?_⟩
  obtain ⟨hl, hl'⟩ := hlabels hsize
  exact grows_randomCode hl hl'

theorem lengthens_random : Lengthens t (random t) := by
  intro g u g' h
  obtain ⟨positive, done, rfl, -⟩ := makes_random h
  rw [Generator.draft_onDraft, position_randomCode]
  exact Nat.lt_add_of_pos_right (by decide)

section Operators

variable {o l r : Operand} (ho : o.Extends t) (hl : l.Extends t) (hr : r.Extends t)

include hl hr in
/-- A logical operator follows its operands. -/
theorem extends_logic (op : LogicOp) : Extends t (logic t op l r) :=
  (hl.compileAs _).bind fun _ => (hr.compileAs _).bind fun _ =>
    (extends_emit _).bind fun _ => extends_pure _

include hl hr in
theorem lengthens_logic (op : LogicOp) : Lengthens t (logic t op l r) :=
  (hl.compileAs _).lengthens fun _ => (hr.compileAs _).lengthens fun _ => lengthens_returning _ _

include ho in
theorem extends_negate : Extends t (negate t o) :=
  (ho.compileAs _).bind fun _ => (extends_emitAll _).bind fun _ => extends_pure _

include ho in
theorem lengthens_negate : Lengthens t (negate t o) :=
  (ho.compileAs _).lengthens fun _ => Lengthens.bind ((lengthens_emit _).bind fun _ =>
    extends_emitAll [_]) fun _ => extends_pure _

include hl hr in
/-- A comparison follows its operands. -/
theorem extends_compare (op : RelOp) : Extends t (compare t l op r) := by
  refine hl.compile.bind fun left => hr.compile.bind fun right => ?_
  split
  · exact (extends_expectType _ _ _).bind fun _ => (extends_emitAll _).bind fun _ => extends_pure _
  · exact extends_fail _ _

include hl hr in
theorem lengthens_compare (op : RelOp) : Lengthens t (compare t l op r) := by
  refine hl.compile.lengthens fun left => hr.compile.lengthens fun right => ?_
  split
  · refine (extends_expectType _ _ _).lengthens fun _ => Lengthens.bind ?_ fun _ => extends_pure _
    cases op <;> exact (lengthens_emit _).bind fun _ => extends_emitAll _
  · exact lengthens_fail _ _

include hl hr in
/-- An arithmetic operator follows its operands. -/
theorem extends_arith (op : ArithOp) : Extends t (arith t l op r) :=
  (hl.compileUnder _).bind fun _ => (hr.compileUnder _).bind fun _ =>
    (extends_emit _).bind fun _ => extends_pure _

include hl hr in
theorem lengthens_arith (op : ArithOp) : Lengthens t (arith t l op r) :=
  (hl.compileUnder _).lengthens fun _ => (hr.compileUnder _).lengthens fun _ =>
    lengthens_returning _ _

include ho in
/-- A sign or a `?` follows its operand. -/
theorem extends_lead (op : LeadOp) : Extends t (lead t op o) := by
  cases op with
  | length =>
    refine ho.compile.bind fun found => ?_
    split
    · exact (extends_emit _).bind fun _ => extends_pure _
    · exact extends_fail _ _
  | negative =>
    exact (ho.compileUnder _).bind fun _ => (extends_emit _).bind fun _ => extends_pure _
  | random => exact (ho.compileUnder _).bind fun _ => extends_random.bind fun _ => extends_pure _

include ho in
theorem lengthens_lead (op : LeadOp) : Lengthens t (lead t op o) := by
  cases op with
  | length =>
    refine ho.compile.lengthens fun found => ?_
    split
    · exact lengthens_returning _ _
    · exact lengthens_fail _ _
  | negative => exact (ho.compileUnder _).lengthens fun _ => lengthens_returning _ _
  | random =>
    exact (ho.compileUnder _).lengthens fun _ => lengthens_random.bind fun _ => extends_pure _

end Operators

/-! ## Variables, elements and assignments -/

/-- A variable is loaded at the end, if it has a value at all. -/
theorem extends_var (name : Name) : Extends t (var t name) :=
  (extends_resolve _).bind fun _ => (extends_load _).bind fun _ => extends_pure _

theorem lengthens_var (name : Name) : Lengthens t (var t name) :=
  (extends_resolve _).lengthens fun _ => (lengthens_load _).bind fun _ => extends_pure _

/-- What is behind the array of an element. -/
theorem extends_behindLoad (span : Span) (name : Name) {index : Gen Unit} (hi : Extends t index)
    (v : Symbol) : Extends t (if v.isArray then do
      index
      emit t .loadElem
      return .scalar v.type
    else fail (.notAnArray name.value) span : Gen ExprType) := by
  split
  · exact hi.bind fun _ => (extends_emit _).bind fun _ => extends_pure _
  · exact extends_fail _ _

/-- An element is loaded behind its index. -/
theorem extends_elem (span : Span) (name : Name) {index : Gen Unit} (hi : Extends t index) :
    Extends t (elem t span name index) :=
  (extends_resolve _).bind fun _ => (extends_load _).bind fun _ => extends_behindLoad _ _ hi _

/-- An element is at least the load of its array. -/
theorem lengthens_elem (span : Span) (name : Name) {index : Gen Unit} (hi : Extends t index) :
    Lengthens t (elem t span name index) :=
  (extends_resolve _).lengthens fun _ => (lengthens_load _).bind fun _ =>
    extends_behindLoad _ _ hi _

section Places

variable {v : Symbol} {index : Option (Gen Unit)} (hi : ∀ i ∈ index, Extends t i)
include hi

/-- In front of an assigned value an array is loaded, and its index. -/
theorem extends_beforeValue : Extends t (beforeValue t v index) := by
  unfold beforeValue
  split
  · exact (extends_load _).bind fun _ => hi _ rfl
  · exact extends_pure _

/-- The present value of a target is loaded behind what it needs. -/
theorem extends_presentValue : Extends t (presentValue t v index) := by
  refine (extends_load _).bind fun _ => ?_
  split
  · exact (hi _ rfl).bind fun _ => extends_emit _
  · exact extends_pure _

omit hi in
/-- Behind an assigned value there is one store. -/
theorem extends_afterValue : Extends t (afterValue t v index) := by
  unfold afterValue
  split
  · exact extends_emit _
  · exact extends_store _

variable {value : Operand} (hv : value.Extends t)
include hv

/-- A compound assignment computes before it stores, and a step computes the present value too. -/
theorem extends_compound (op : AssignOp) : Extends t (compound t v index op value) := by
  have hordered (instruction : BinaryOp) :
      Extends t (compound.ordered t v index value instruction) := by
    refine (hv.compileAs _).bind fun _ => extends_get.bind fun g => ?_
    dsimp only
    split
    · exact (extends_emit _).bind fun _ => (extends_presentValue hi).bind fun _ =>
        hv.compile.bind fun _ => extends_emit _
    · exact (extends_presentValue hi).bind fun _ => (extends_emit _).bind fun _ =>
        extends_emit _
  cases op with
  | set => exact hv.compileAs _
  | add =>
    exact (hv.compileAs _).bind fun _ => (extends_presentValue hi).bind fun _ => extends_emit _
  | mul =>
    exact (hv.compileAs _).bind fun _ => (extends_presentValue hi).bind fun _ => extends_emit _
  | sub => exact hordered _
  | div => exact hordered _

end Places

/-- An array is copied element by element, and every copy is added at the end. -/
theorem extends_copyArray (target : Symbol) (name : Name) (value : Operand) :
    Extends t (copyArray t target name value) := by
  have hlength (source : Symbol) (sourceName : Name) :
      Extends t (copyLength target name source sourceName value.span) := by
    unfold copyLength
    split
    · exact extends_pure _
    · exact extends_fail _ _
    · exact extends_fail _ _
  unfold copyArray
  split
  · refine (extends_resolve _).bind fun source => ?_
    dsimp only
    split
    · exact (extends_fail _ _)
    · split
      · exact (extends_fail _ _)
      · refine (hlength _ _).bind fun n => extends_forBelow (fun k => ?_) 0 _
        exact (extends_load _).bind fun _ => (extends_emit _).bind fun _ =>
          (extends_load _).bind fun _ => extends_emitAll _
  · exact extends_fail _ _

section Assignments

/-- What `++` and `--` come to once they are found to be right. -/
def stepCode (t : Target) (v : Symbol) (index : Option (Gen Unit)) (op : StepOp) : Gen Unit := do
  beforeValue t v index
  presentValue t v index
  emit t (.pushInt 1)
  emit t (.binary (match op with | .up => .add | .down => .sub))
  afterValue t v index

/-- `++` and `--` are done to integers only, and to an element exactly if the variable is an
array. -/
theorem makes_step {target : Operand} {op : StepOp} {g g' : Generator} {type : ExprType}
    (h : Makes (step t target op) g type g') :
    type = .effect ∧ ∃ name index v, target.place? = some ⟨name, index⟩ ∧
      Makes (resolve t name) g v g ∧ v.isArray = index.isSome ∧ v.type = .int ∧
      Makes (stepCode t v index op) g ⟨⟩ g' := by
  unfold step at h
  split at h
  · exact absurd h not_makes_fail
  rename_i name index hp
  obtain ⟨v, g₁, hv, hrest⟩ := makes_bind.mp h
  have hsame := (makes_resolve hv).1
  subst hsame
  clear h
  have hcode : v.isArray = index.isSome ∧ v.type = .int ∧ Makes (do
      stepCode t v index op
      return ExprType.effect) g₁ type g' := by
    -- Both forms of the target, told apart by whether the variable is an array.
    simp only [stepCode, bind_assoc]
    dsimp only at hrest
    cases index with
    | none =>
      cases ha : v.isArray with
      | true =>
        simp only [ha, pure_bind, makes_check] at hrest
        exact absurd hrest.1 (by simp)
      | false =>
        simp only [ha, pure_bind, makes_check] at hrest
        exact ⟨rfl, by simpa using hrest.1, hrest.2⟩
    | some i =>
      cases ha : v.isArray with
      | true =>
        simp only [ha, pure_bind, makes_check] at hrest
        exact ⟨rfl, by simpa using hrest.1, hrest.2⟩
      | false =>
        simp only [ha] at hrest
        exact absurd hrest not_makes_fail_bind
  obtain ⟨ha, ht, hcode⟩ := hcode
  obtain ⟨_, g₂, hc, hend⟩ := makes_bind.mp hcode
  obtain ⟨rfl, rfl⟩ := makes_pure.mp hend
  exact ⟨rfl, name, index, v, hp, hv, ha, ht, hc⟩

/-- What an assignment of one word comes to once it is found to be right. -/
def assignCode (t : Target) (v : Symbol) (index : Option (Gen Unit)) (op : AssignOp)
    (value : Operand) : Gen Unit := do
  beforeValue t v index
  compound t v index op value
  afterValue t v index

/-- Either a whole array is assigned, or one word, and then to an element exactly if the
variable is an array. Only integers are computed with. -/
theorem makes_assign {target : Operand} {op : Located AssignOp} {value : Operand}
    {g g' : Generator} {type : ExprType} (h : Makes (assign t target op value) g type g') :
    type = .effect ∧ ∃ name index v, target.place? = some ⟨name, index⟩ ∧
      Makes (resolve t name) g v g ∧
      (index = none ∧ v.isArray = true ∧ op.value = .set ∧
          Makes (copyArray t v name value) g ⟨⟩ g' ∨
        v.isArray = index.isSome ∧ (op.value = .set ∨ v.type = .int) ∧
          Makes (assignCode t v index op.value value) g ⟨⟩ g') := by
  unfold assign at h
  split at h
  · exact absurd h not_makes_fail
  rename_i name index hp
  obtain ⟨v, g₁, hv, hrest⟩ := makes_bind.mp h
  have hsame := (makes_resolve hv).1
  subst hsame
  clear h
  -- A word is assigned by the code that the operator asks for.
  have hword (ha : v.isArray = index.isSome) (h : Makes (do
      assignWord t v index op value
      return ExprType.effect) g₁ type g') : type = .effect ∧ v.isArray = index.isSome ∧
        (op.value = .set ∨ v.type = .int) ∧
          Makes (assignCode t v index op.value value) g₁ ⟨⟩ g' := by
    obtain ⟨_, g₂, hc, hend⟩ := makes_bind.mp h
    obtain ⟨rfl, rfl⟩ := makes_pure.mp hend
    unfold assignWord at hc
    rw [makes_check] at hc
    exact ⟨rfl, ha, by simpa [Decidable.or_iff_not_imp_left] using hc.1, hc.2⟩
  dsimp only at hrest
  split at hrest
  · rename_i ha
    rw [makes_check] at hrest
    obtain ⟨hset, hrest⟩ := hrest
    obtain ⟨_, g₂, hc, hend⟩ := makes_bind.mp hrest
    obtain ⟨rfl, rfl⟩ := makes_pure.mp hend
    exact ⟨rfl, name, none, v, hp, hv, .inl ⟨rfl, ha, by simpa using hset, hc⟩⟩
  · exact absurd hrest not_makes_fail_bind
  -- What is left are the two forms in which there is one word to assign.
  · rename_i index _ _ hnone hsome
    have ha : v.isArray = index.isSome := by
      cases index with
      | none => simpa using hnone rfl
      | some i => simpa using hsome i rfl
    obtain ⟨ht, hcode⟩ := hword ha hrest
    exact ⟨ht, name, index, v, hp, hv, .inr hcode⟩

variable {target value : Operand} (ht : target.Extends t) (hv : value.Extends t)
include ht

/-- The index of the place that an operand is only adds code. -/
theorem extends_index {name : Name} {index : Option (Gen Unit)}
    (hp : target.place? = some ⟨name, index⟩) : ∀ i ∈ index, Extends t i := by
  rintro i ⟨⟩
  exact ht.index name i hp

include hv in
/-- An assignment adds code whether it copies an array or stores a word. -/
theorem extends_assign (op : Located AssignOp) : Extends t (assign t target op value) := by
  intro g type g' h
  obtain ⟨-, name, index, v, hp, -, ⟨-, -, -, hcopy⟩ | ⟨-, -, hcode⟩⟩ := makes_assign h
  · exact extends_copyArray _ _ _ _ _ _ hcopy
  · have hi := extends_index ht hp
    exact ((extends_beforeValue hi).bind fun _ => (extends_compound hi hv _).bind fun _ =>
      extends_afterValue) _ _ _ hcode

/-- An increment adds the code that stores it. -/
theorem extends_step (op : StepOp) : Extends t (step t target op) := by
  intro g type g' h
  obtain ⟨-, name, index, v, hp, -, -, -, hcode⟩ := makes_step h
  have hi := extends_index ht hp
  exact ((extends_beforeValue hi).bind fun _ => (extends_presentValue hi).bind fun _ =>
    (extends_emit _).bind fun _ => (extends_emit _).bind fun _ => extends_afterValue) _ _ _ hcode

end Assignments

/-! ## Calls -/

section Calls

variable {args : List Operand} (ha : ∀ o ∈ args, o.Extends t)

include ha in
/-- Arguments are added in order. -/
theorem extends_arguments (params : List Slot) : Extends t (arguments args params) := by
  induction args generalizing params with
  | nil => exact extends_pure _
  | cons o os ih =>
    cases params with
    | nil => exact extends_pure _
    | cons s ss =>
      exact ((ha o (.head _)).compileAs _).bind fun _ => ih (fun o h => ha o (.tail _ h)) ss

include ha in
/-- Behind an argument of a format there is one instruction at most. -/
theorem extends_formatArguments : Extends t (formatArguments t args) := by
  induction args with
  | nil => exact extends_pure _
  | cons o os ih =>
    have hos := ih fun o h => ha o (.tail _ h)
    refine (ha o (.head _)).compile.bind fun found => ?_
    dsimp only
    split
    · exact (extends_emit _).bind fun _ => hos
    · exact hos
    · exact (extends_fail _ _)

include ha in
/-- There is at least one instruction for each argument behind a format string. -/
theorem length_formatArguments {g g' : Generator} {u : Unit}
    (h : Makes (formatArguments t args) g u g') :
    (g.draft t).position + args.length ≤ (g'.draft t).position := by
  induction args generalizing g with
  | nil =>
    obtain ⟨-, rfl⟩ := makes_pure.mp h
    exact Nat.le_refl _
  | cons o os ih =>
    obtain ⟨found, g₁, h₁, hrest⟩ := makes_bind.mp h
    have hpart {g₂ : Generator} (hvalue : found.hasValue)
        (hle : (g₁.draft t).position ≤ (g₂.draft t).position)
        (h₂ : Makes (formatArguments t os) g₂ u g') :
        (g.draft t).position + (o :: os).length ≤ (g'.draft t).position := by
      have hone := (ha o (.head _)).value _ _ _ h₁ hvalue
      have hmore := ih (fun o h => ha o (.tail _ h)) h₂
      rw [List.length_cons]
      omega
    dsimp only at hrest
    split at hrest
    · obtain ⟨_, g₂, hbox, h₂⟩ := makes_bind.mp hrest
      exact hpart rfl ((extends_emit _).position_le hbox) h₂
    · exact hpart rfl (Nat.le_refl _) hrest
    · exact absurd hrest not_makes_fail_bind

omit ha in
/-- A call of `print` has no value. -/
theorem returns_print (name : Name) (args : List Operand) :
    Returns (print t name args) .effect := by
  match args with
  | [] => exact returns_fail
  | [o] =>
    refine .bind fun found => ?_
    dsimp only
    split
    · exact .bind fun _ => returns_pure
    · exact .bind fun _ => returns_pure
    · exact .bind fun _ => returns_pure
  | format :: o :: os =>
    refine .bind fun found => ?_
    dsimp only
    split
    · exact .bind fun _ => .bind fun _ => .bind fun _ => returns_pure
    · exact .bind fun _ => .bind fun _ => returns_pure

omit ha in
/-- A call of `put` has no value. -/
theorem returns_put (name : Name) (args : List Operand) : Returns (put t name args) .effect := by
  unfold put putEach
  dsimp only
  split
  · exact .bind fun _ => .bind fun _ => returns_pure
  · exact .bind fun _ => returns_pure

include ha in
/-- What is printed is computed in front of the printing. -/
theorem extends_print (name : Name) : Extends t (print t name args) := by
  match args with
  | [] => exact extends_fail _ _
  | [o] =>
    refine (ha o (.head _)).compile.bind fun found => ?_
    dsimp only
    split
    · exact (extends_emit _).bind fun _ => extends_pure _
    · exact (extends_emit _).bind fun _ => extends_pure _
    · exact (extends_fail _ _)
  | format :: o :: os =>
    refine (ha format (.head _)).compile.bind fun found => ?_
    dsimp only
    split
    · exact (extends_fail _ _)
    · have hrest : ∀ a ∈ o :: os, a.Extends t := fun a h => ha a (.tail _ h)
      exact (extends_formatArguments hrest).bind fun _ =>
        (extends_emit _).bind fun _ => extends_pure _

omit ha in
/-- Input is read into one word, and into an element exactly if the variable is an array. -/
theorem makes_putOne {o : Operand} {g g' : Generator} {u : Unit} (h : Makes (putOne t o) g u g') :
    ∃ name index v, o.place? = some ⟨name, index⟩ ∧ Makes (resolve t name) g v g ∧
      v.isArray = index.isSome ∧ Makes (do
        beforeValue t v index
        emitAll t [.readLine, .parse v.type]
        afterValue t v index) g ⟨⟩ g' := by
  unfold putOne at h
  split at h
  · exact absurd h not_makes_fail
  rename_i name index hp
  obtain ⟨v, g₁, hv, hrest⟩ := makes_bind.mp h
  have hsame := (makes_resolve hv).1
  subst hsame
  clear h
  split at hrest
  · exact absurd hrest not_makes_fail
  · exact absurd hrest not_makes_fail
  · rename_i index _ _ hnone hsome
    refine ⟨name, index, v, hp, hv, ?_, hrest⟩
    cases index with
    | none => simpa using hnone rfl
    | some i => simpa using hsome i rfl

omit ha in
theorem extends_putOne {o : Operand} (ho : o.Extends t) : Extends t (putOne t o) := by
  intro g u g' h
  obtain ⟨name, index, v, hp, -, -, hcode⟩ := makes_putOne h
  exact ((extends_beforeValue (extends_index ho hp)).bind fun _ =>
    (extends_emitAll _).bind fun _ => extends_afterValue) _ _ _ hcode

include ha in
/-- Reading adds code for one target after the other. -/
theorem extends_put (name : Name) : Extends t (put t name args) := by
  unfold put putEach
  dsimp only
  split
  · exact (extends_fail _ _)
  · refine Extends.bind ?_ fun _ => extends_pure _
    exact extends_forM fun o h => extends_putOne (ha o h)

include ha in
/-- A call follows its arguments, be it one of a function or one of `print` and `put`. -/
theorem extends_call (span : Span) (name : Name) : Extends t (call t span name args) := by
  refine extends_get.bind fun g => (extends_lift _).bind fun f => ?_
  split
  · exact extends_print ha _
  · exact extends_put ha _
  · dsimp only
    split
    · exact (extends_fail _ _)
    · exact (extends_arguments ha _).bind fun _ => (extends_emit _).bind fun _ => extends_pure _

include ha in
/-- A call that leaves a value is one of a routine. -/
theorem lengthens_call (span : Span) (name : Name) {g g' : Generator} {type : ExprType}
    (h : Makes (call t span name args) g type g') (hvalue : type.hasValue) :
    (g.draft t).position < (g'.draft t).position := by
  simp only [call, callOr, makes_bind, makes_get, makes_lift] at h
  obtain ⟨_, _, ⟨rfl, rfl⟩, f, _, ⟨-, rfl⟩, h⟩ := h
  split at h
  · obtain rfl := returns_print name args _ _ _ h
    cases hvalue
  · obtain rfl := returns_put name args _ _ _ h
    cases hvalue
  · rw [makes_check] at h
    exact (extends_arguments ha _).lengthens (fun _ => lengthens_returning _ _) _ _ _ h.2

end Calls

end Rules

/-! ## Expressions -/

namespace Expr

/-- The operands of a list are those of its elements. -/
theorem mem_operands {t : Target} {es : List Expr} {o : Operand} :
    o ∈ operands t es ↔ ∃ e ∈ es, o = e.operand t := by
  induction es with
  | nil => simp [operands]
  | cons e es ih => simp [operands, ih]

/-- There is an operand for every argument. -/
theorem length_operands (t : Target) (es : List Expr) : (operands t es).length = es.length := by
  induction es with
  | nil => rfl
  | cons e es ih => rw [operands, List.length_cons, List.length_cons, ih]

/-- Induction on expressions, the arguments of calls included. -/
theorem induct {P : Expr → Prop} (literal : ∀ v, P (.literal v)) (var : ∀ n, P (.var n))
    (elem : ∀ n i, P i → P (.elem n i)) (paren : ∀ e, P e → P (.paren e))
    (call : ∀ n args, (∀ a ∈ args, P a) → P (.call n args))
    (lead : ∀ op e, P e → P (.lead op e))
    (arith : ∀ l op r, P l → P r → P (.arith l op r))
    (compare : ∀ l op r, P l → P r → P (.compare l op r))
    (negate : ∀ word e, P e → P (.negate word e))
    (logic : ∀ op l r, P l → P r → P (.logic op l r))
    (step : ∀ p op, P p → P (.step p op))
    (assign : ∀ p op v, P p → P v → P (.assign p op v)) (e : Expr) : P e :=
  @Expr.rec P (fun es => ∀ e ∈ es, P e) literal var elem paren call lead arith compare negate
    logic step assign (fun _ h => nomatch h)
    (fun _ _ he hes _ h => by
      rcases List.mem_cons.mp h with rfl | h
      · exact he
      · exact hes _ h) e

/-- **Code for expressions only adds code.** Nothing but the stream of the target changes,
and no label that is new in it is left open. Code that leaves a value is not empty. -/
theorem operand_extends (t : Target) (e : Expr) : (e.operand t).Extends t := by
  induction e using Expr.induct with
  | literal v => exact .of_lengthens (Rules.extends_literal _) (Rules.lengthens_literal _)
  | var n =>
    refine ⟨Rules.extends_var n, fun _ _ _ h _ => Rules.lengthens_var n _ _ _ h, ?_⟩
    rintro name i ⟨⟩
  | elem n i ih =>
    have hi := ih.compileAs (.scalar .int)
    refine ⟨Rules.extends_elem _ _ hi, fun _ _ _ h _ => Rules.lengthens_elem _ _ hi _ _ _ h, ?_⟩
    rintro name index ⟨⟩
    exact hi
  | paren e ih => exact .of_no_place ih.compile ih.value
  -- The arguments are operands, each of an expression inside this one.
  | call n args ih =>
    have hargs : ∀ o ∈ operands t args, o.Extends t := by
      intro o h
      obtain ⟨e, he, rfl⟩ := mem_operands.mp h
      exact ih e he
    exact .of_no_place (Rules.extends_call hargs _ _) fun _ _ _ h hvalue =>
      Rules.lengthens_call hargs _ _ h hvalue
  | lead op e ih => exact .of_lengthens (Rules.extends_lead ih _) (Rules.lengthens_lead ih _)
  | arith l op r hl hr =>
    exact .of_lengthens (Rules.extends_arith hl hr _) (Rules.lengthens_arith hl hr _)
  | compare l op r hl hr =>
    exact .of_lengthens (Rules.extends_compare hl hr _) (Rules.lengthens_compare hl hr _)
  | negate word e ih => exact .of_lengthens (Rules.extends_negate ih) (Rules.lengthens_negate ih)
  | logic op l r hl hr =>
    exact .of_lengthens (Rules.extends_logic hl hr _) (Rules.lengthens_logic hl hr _)
  | step p op ih =>
    exact .of_effect (Rules.extends_step ih _) fun _ _ _ h => (Rules.makes_step h).1
  | assign p op v hp hv =>
    exact .of_effect (Rules.extends_assign hp hv _) fun _ _ _ h => (Rules.makes_assign h).1

end Expr

end OnePass
