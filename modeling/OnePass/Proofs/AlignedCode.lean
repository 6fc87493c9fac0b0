import OnePass.Proofs.CalmCode
import OnePass.Proofs.LegacyForm

/-!
# Streams of both forms, piece by piece

Two streams are cut into pieces that correspond. Mostly a piece is one instruction, the same in both
streams. Where a compound subtraction or division is compiled it is longer in the legacy form; but
both do the same, if the index and the right side are without effect. Labels stand between pieces.

Main statement: that is how the streams of both forms correspond (`Pairing.aligned_allows`).
-/

namespace OnePass

/-! ## Pieces -/

/-- Instructions that do the same, without effect on anything but the stack of their frame. -/
structure Interchangeable (is js : List Instruction) : Prop where
  nonempty : 0 < is.length
  length : is.length ≤ js.length
  turns : ∀ (name : String) (m : Memory), ∃ r, m.Turns name is [] r ∧ m.Turns name js [] r

/-- Corresponding parts of two streams. -/
inductive Piece where
  /-- the same instruction in both -/
  | one (i : Instruction)
  /-- code that does the same -/
  | block (is js : List Instruction) (h : Interchangeable is js)

namespace Piece

/-- What stands in the first stream. -/
def plain : Piece → List Instruction
  | one i => [i]
  | block is _ _ => is

/-- What stands in the second stream. -/
def legacy : Piece → List Instruction
  | one i => [i]
  | block _ js _ => js

theorem length_le (x : Piece) : x.plain.length ≤ x.legacy.length := by
  cases x with
  | one i => exact le_rfl
  | block is js h => exact h.length

end Piece

variable {ps : List Piece} {p p' : Nat}

theorem length_flatMap_le (ps : List Piece) :
    (ps.flatMap Piece.plain).length ≤ (ps.flatMap Piece.legacy).length := by
  induction ps with
  | nil => exact le_rfl
  | cons x ps ih => simpa using Nat.add_le_add x.length_le ih

/-- Corresponding positions between pieces. -/
def Joint (ps : List Piece) (p p' : Nat) : Prop :=
  ∃ before after, ps = before ++ after ∧ p = (before.flatMap Piece.plain).length ∧
    p' = (before.flatMap Piece.legacy).length

theorem Joint.append (h : Joint ps p p') (qs : List Piece) : Joint (ps ++ qs) p p' := by
  obtain ⟨before, after, rfl, hp⟩ := h
  exact ⟨before, after ++ qs, List.append_assoc _ _ _, hp⟩

theorem joint_end (ps : List Piece) :
    Joint ps (ps.flatMap Piece.plain).length (ps.flatMap Piece.legacy).length :=
  ⟨ps, [], (List.append_nil ps).symm, rfl, rfl⟩

/-- Numbers of 32 bits for corresponding positions between pieces. -/
def Stands (ps : List Piece) (x x' : UInt32) : Prop :=
  ∃ p p', Joint ps p p' ∧ x = .ofNat p ∧ x' = .ofNat p'

theorem Stands.append {x x' : UInt32} (h : Stands ps x x') (qs : List Piece) :
    Stands (ps ++ qs) x x' := by
  obtain ⟨p, p', hp, hx⟩ := h
  exact ⟨p, p', hp.append qs, hx⟩

/-- Where the longer stream can be numbered, numbers of 32 bits tell the positions. -/
theorem Stands.joint {x x' : UInt32} (h : Stands ps x x')
    (hsize : (ps.flatMap Piece.legacy).length < UInt32.size) : Joint ps x.toNat x'.toNat := by
  obtain ⟨p, p', hp, rfl, rfl⟩ := h
  have hle : p ≤ (ps.flatMap Piece.plain).length ∧ p' ≤ (ps.flatMap Piece.legacy).length := by
    obtain ⟨before, after, rfl, rfl, rfl⟩ := hp
    rw [List.flatMap_append, List.flatMap_append, List.length_append, List.length_append]
    exact ⟨Nat.le_add_right _ _, Nat.le_add_right _ _⟩
  have hplain := length_flatMap_le ps
  rw [UInt32.toNat_ofNat_of_lt' (by omega), UInt32.toNat_ofNat_of_lt' (by omega)]
  exact hp

/-! ## Streams under construction -/

namespace Draft

/-- What a label marks. -/
def marked? (d : Draft) (label : Nat) : Option UInt32 := d.labels[label]?.getD none

theorem marked?_emitAll (d : Draft) (is : List Instruction) :
    (d.emitAll is).marked? = d.marked? := by
  unfold marked?
  rw [labels_emitAll]

theorem marked?_addLabel (d : Draft) : d.addLabel.marked? = d.marked? := by
  funext l
  unfold marked? addLabel
  rw [Array.getElem?_push]
  split
  · simp [*]
  · rfl

theorem marked?_mark (d : Draft) (n l : Nat) : (d.mark n).marked? l =
    if n = l ∧ n < d.labels.size then some (.ofNat d.position) else d.marked? l := by
  unfold marked? mark
  rw [Array.getElem?_setIfInBounds]
  by_cases hn : n = l
  · subst hn
    by_cases hsize : n < d.labels.size <;> simp [hsize]
  · simp [hn]

/-- Two streams are made of pieces, and their labels mark corresponding positions. -/
structure Aligned (ps : List Piece) (d d' : Draft) : Prop where
  plain : d.instructions.toList = ps.flatMap Piece.plain
  legacy : d'.instructions.toList = ps.flatMap Piece.legacy
  labels : d'.labels.size = d.labels.size
  marks : ∀ l, Option.Rel (Stands ps) (d.marked? l) (d'.marked? l)

namespace Aligned

variable {d d' : Draft}

theorem empty : Draft.empty.Aligned [] .empty := ⟨rfl, rfl, rfl, fun _ => .none⟩

variable (h : d.Aligned ps d')
include h

theorem position_plain : d.position = (ps.flatMap Piece.plain).length := by
  rw [← h.plain, Array.length_toList]
  rfl

theorem position_legacy : d'.position = (ps.flatMap Piece.legacy).length := by
  rw [← h.legacy, Array.length_toList]
  rfl

/-- The ends of the two streams correspond. -/
theorem stands_position : Stands ps (.ofNat d.position) (.ofNat d'.position) := by
  rw [h.position_plain, h.position_legacy]
  exact ⟨_, _, joint_end ps, rfl, rfl⟩

theorem append (qs : List Piece) : (d.emitAll (qs.flatMap Piece.plain)).Aligned (ps ++ qs)
    (d'.emitAll (qs.flatMap Piece.legacy)) := by
  refine ⟨?_, ?_, ?_, fun l => ?_⟩
  · rw [toList_emitAll, h.plain, List.flatMap_append]
  · rw [toList_emitAll, h.legacy, List.flatMap_append]
  · rw [labels_emitAll, labels_emitAll, h.labels]
  · rw [marked?_emitAll, marked?_emitAll]
    have hmark := h.marks l
    generalize d.marked? l = x, d'.marked? l = x' at hmark
    cases hmark with
    | none => exact .none
    | some hp => exact .some (hp.append qs)

theorem addLabel : d.addLabel.Aligned ps d'.addLabel := by
  refine ⟨h.plain, h.legacy, ?_, fun l => ?_⟩
  · simp [Draft.addLabel, h.labels]
  · rw [marked?_addLabel, marked?_addLabel]
    exact h.marks l

theorem mark (n : Nat) : (d.mark n).Aligned ps (d'.mark n) := by
  refine ⟨h.plain, h.legacy, ?_, fun l => ?_⟩
  · simp [Draft.mark, h.labels]
  · rw [marked?_mark, marked?_mark, h.labels]
    split
    · exact .some h.stands_position
    · exact h.marks l

end Aligned

end Draft

/-! ## Finished streams -/

/-- Two streams are made of pieces, and their labels stand for corresponding positions. -/
structure Code.Aligned (ps : List Piece) (c c' : Code) : Prop where
  plain : c.instructions.toList = ps.flatMap Piece.plain
  legacy : c'.instructions.toList = ps.flatMap Piece.legacy
  targets : ∀ l, Option.Rel (Joint ps) (c.target? l) (c'.target? l)

namespace Draft

theorem target?_toCode (d : Draft) (l : UInt32) : d.toCode.target? l =
    d.labels[l.toNat]?.map fun m => (m.getD (.ofNat d.position)).toNat := by
  rw [Code.target?, toCode, Array.getElem?_map, Option.map_map]
  rfl

variable {d d' : Draft}

/-- The labels of finished streams stand for corresponding positions, where the longer stream can be
numbered with 32 bits. Those that mark nothing stand for the ends, and these correspond as well. -/
theorem Aligned.toCode (h : d.Aligned ps d') (hsize : d'.position < UInt32.size) :
    d.toCode.Aligned ps d'.toCode := by
  refine ⟨h.plain, h.legacy, fun l => ?_⟩
  have hmark := h.marks l.toNat
  rw [h.position_legacy] at hsize
  rw [target?_toCode, target?_toCode]
  unfold marked? at hmark
  by_cases hl : l.toNat < d.labels.size
  · have hl' : l.toNat < d'.labels.size := h.labels ▸ hl
    rw [Array.getElem?_eq_getElem hl, Array.getElem?_eq_getElem hl'] at hmark ⊢
    rw [Option.getD_some, Option.getD_some] at hmark
    refine .some ?_
    generalize d.labels[l.toNat] = x, d'.labels[l.toNat] = x' at hmark
    cases hmark with
    | none => exact h.stands_position.joint hsize
    | some hx => exact hx.joint hsize
  · have hl' : ¬ l.toNat < d'.labels.size := h.labels ▸ hl
    rw [Array.getElem?_eq_none (Nat.le_of_not_lt hl),
      Array.getElem?_eq_none (Nat.le_of_not_lt hl')]
    exact .none

end Draft

/-- Streams correspond piece by piece, and labels have the same numbers. -/
def Pairing.aligned : Pairing where
  label := Eq
  draft d d' := ∃ ps, d.Aligned ps d'
  empty := ⟨[], .empty⟩
  emit := by
    rintro d d' i i' ⟨ps, h⟩ hi
    obtain rfl : i = i' := by
      cases hi with
      | same => rfl
      | jump hl | jumpIfFalse hl | jumpIfTrue hl => rw [hl]
    exact ⟨ps ++ [.one i], h.append [.one i]⟩
  addLabel := fun ⟨ps, h⟩ => ⟨ps, h.addLabel⟩
  newest := by
    rintro d d' ⟨ps, h⟩
    rw [h.labels]
  mark := by
    rintro d d' l _ ⟨ps, h⟩ rfl
    exact ⟨ps, h.mark _⟩

/-! ## Compound subtractions and divisions -/

/-- Evaluating the right side a second time, the present value being below, is the same as an
exchange with it. -/
theorem interchangeable_ordered {value present : List Instruction} (hvalue : Reduces value 0)
    (hpresent : Reduces present 0) (op : BinaryOp) :
    Interchangeable (value ++ (present ++ [.swap, .binary op]))
      (value ++ (.pop :: (present ++ (value ++ [.binary op])))) := by
  refine ⟨?_, ?_, fun name m => ?_⟩
  · rw [List.length_append, List.length_append]
    exact Nat.add_pos_right _ (Nat.add_pos_right _ Nat.two_pos)
  · simp only [List.length_append, List.length_cons]
    omega
  obtain ⟨x, hx⟩ := hvalue name m [] rfl
  rcases x with e | v
  · exact ⟨.error e, hx.failed _, hx.failed _⟩
  obtain ⟨y, hy⟩ := hpresent name m [] rfl
  rcases y with e | w
  · exact ⟨.error e, hx.append ((hy.above [v]).failed _),
      hx.append ((Memory.turns_pop v).append (hy.failed _))⟩
  -- both have the value on top and the present value below it then
  obtain ⟨z, hz⟩ := reduces_binary op name m [v, w] rfl
  exact ⟨_, hx.append ((hy.above [v]).append ((Memory.turns_swap w v).append hz)),
    hx.append ((Memory.turns_pop v).append (hy.append ((hx.above [w]).append hz)))⟩

/-- Code for a compound subtraction or division in the one form and in the other one. -/
theorem Rules.makes_ordered {t : Target} {v : Symbol} {index : Option (Gen Unit)} {o : Operand}
    {op : BinaryOp} {g g₁ : Generator} {u : Unit} (hi : ∀ i ∈ index, Gen.Straight t 0 i)
    (ho : o.Straight t) (hplain : g.legacy = false)
    (hm : Gen.Makes (compound.ordered t v index o op) g u g₁) :
    ∃ is js, Interchangeable is js ∧ g₁ = g.onDraft t (fun d => d.emitAll is) ∧
      ∀ g' : Generator, g'.scopes = g.scopes → g'.legacy = true →
        Gen.Makes (compound.ordered t v index o op) g' ⟨⟩ (g'.onDraft t fun d => d.emitAll js) := by
  obtain ⟨_, g₂, hvalue, hrest⟩ := Gen.makes_bind.mp hm
  obtain ⟨value, hcompileInt, hcompile, hred⟩ := ho.value rfl hvalue
  obtain rfl := (hvalue.unique (hcompileInt g rfl)).2
  obtain ⟨_, _, hget, hrest⟩ := Gen.makes_bind.mp hrest
  obtain ⟨rfl, rfl⟩ := Gen.makes_get.mp hget
  rw [Generator.onDraft_legacy, hplain, if_neg Bool.false_ne_true] at hrest
  obtain ⟨_, g₃, hpresent, -⟩ := Gen.makes_bind.mp hrest
  obtain ⟨present, hpresentValue, hred'⟩ := straight_presentValue hi _ _ _ hpresent
  rw [Generator.onDraft_scopes] at hpresentValue
  -- what comes behind the first evaluation
  have hordered (g' : Generator) (hg' : g'.scopes = g.scopes) (js : List Instruction)
      (hrest : Gen.Appends t g.scopes (if g'.legacy then do
          Gen.emit t .pop
          presentValue t v index
          let _ ← o.compile
          Gen.emit t (.binary op)
        else do
          presentValue t v index
          Gen.emit t .swap
          Gen.emit t (.binary op)) ⟨⟩ js) :
      Gen.Makes (compound.ordered t v index o op) g' ⟨⟩
        (g'.onDraft t fun d => d.emitAll (value ++ js)) := by
    have hbehind := hrest (g'.onDraft t fun d => d.emitAll value)
      ((g'.onDraft_scopes t _).trans hg')
    rw [Gen.onDraft_emitAll_append] at hbehind
    refine Gen.makes_bind.mpr ⟨⟨⟩, _, hcompileInt g' hg', Gen.makes_bind.mpr ⟨_, _,
      Gen.makes_get.mpr ⟨rfl, rfl⟩, ?_⟩⟩
    rw [Generator.onDraft_legacy]
    exact hbehind
  refine ⟨_, _, interchangeable_ordered hred hred' op, ?_, fun g' hg' hlegacy => ?_⟩
  · refine (hm.unique (hordered g rfl _ ?_)).2
    rw [hplain, if_neg Bool.false_ne_true]
    exact hpresentValue.bind ((Gen.appends_emit _).bind (Gen.appends_emit _))
  · refine hordered g' hg' _ ?_
    rw [hlegacy, if_pos rfl]
    exact (Gen.appends_emit _).bind (hpresentValue.bind (hcompile.bind (Gen.appends_emit _)))

namespace Pairing

/-- Of states that correspond in any way, nothing is compared in the streams. -/
theorem Paired.loose {P : Pairing} {g g' : Generator} (h : P.Paired g g') :
    Pairing.loose.Paired g g' := by
  refine { h with
    routines := h.routines.imp fun r r' hr => ?_
    initializer := trivial
    body := trivial
    pending := h.pending.imp fun p p' hp => ?_ }
  · obtain ⟨d, d', -, hcode⟩ := hr.code
    exact { hr with code := ⟨d, d', trivial, hcode⟩ }
  · cases hp with
    | choice _ => exact .choice trivial
    | loop _ => exact .loop ⟨trivial, trivial, trivial⟩
    | count n _ => exact .count n ⟨trivial, trivial, trivial⟩

/-- **Streams of both forms correspond piece by piece** where the index and the right side are
without effect. -/
theorem aligned_allows {index : Option Expr} {value : Expr} (hindex : ∀ i ∈ index, i.calm)
    (hvalue : value.calm) : aligned.Allows index value := by
  intro t v op _ _ g g' hg
  -- the errors are the same already if streams are not compared
  have hloose := loose_allows index value t v op
    (fun i _ => Expr.agrees_compileAs t (fun c _ => loose_allows c.1 c.2) _)
    (Expr.operand_agrees t value fun c _ => loose_allows c.1 c.2) g g' hg.loose
  have hindex' : ∀ i ∈ index.map fun i => (i.operand t).compileInt, Gen.Straight t 0 i := by
    intro _ hi
    obtain ⟨i, rfl, rfl⟩ := Option.map_eq_some_iff.mp hi
    exact (Expr.straight t (hindex i rfl)).compileAs rfl
  generalize hm : Rules.compound.ordered t v (index.map fun i => (i.operand t).compileInt)
    (value.operand t) op = m at hloose ⊢
  rcases hr : m.run g with e | ⟨u, g₁⟩ <;> rcases hr' : m.run g' with e' | ⟨u', g₁'⟩ <;>
    rw [hr, hr'] at hloose
  · exact hloose
  · exact hloose.elim
  · exact hloose.elim
  · subst hm
    obtain ⟨is, js, hsame, rfl, hmakes⟩ := Rules.makes_ordered hindex' (Expr.straight t hvalue)
      hg.plain hr
    obtain rfl := (Gen.Makes.unique hr' (hmakes g' hg.scopes hg.legacy)).2
    obtain ⟨ps, hps⟩ := hg.draft t
    have hnext := hps.append [.block is js hsame]
    simp only [List.flatMap_cons, List.flatMap_nil, List.append_nil] at hnext
    have hpaired : aligned.Paired (g.onDraft t fun d => d.emitAll is)
        (g'.onDraft t fun d => d.emitAll js) := hg.onDraft t ⟨_, hnext⟩
    exact ⟨rfl, hpaired⟩

end Pairing

end OnePass
