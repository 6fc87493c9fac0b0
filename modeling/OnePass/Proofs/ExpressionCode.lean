import OnePass.Proofs.Charted

/-!
# Code for expressions is typed

Main statement: code for an expression leaves on the stack what the type of the expression
says, above what was there, and what it needs of the slots is known where it stands
(`Expr.operand_typed`).

A `Setting` is what is known where an expression stands. `Setting.Leads` says of a generator
that the code it generates there takes one stack to another, if the stream is addressable at
its end. It composes like generators do, so each rule of code generation gets one lemma.
-/

namespace OnePass

/-- What the slot of a variable holds. -/
def Symbol.slot (v : Symbol) : Slot := ⟨v.type, v.isArray⟩

namespace Symbol

/-- An array is kept by its reference. -/
theorem slot_of_array {v : Symbol} (ha : v.isArray = true) : v.slot = .ofArray v.type := by
  rw [slot, ha, Slot.ofArray]

/-- A word is kept as it is. -/
theorem slot_of_scalar {v : Symbol} (ha : v.isArray = false) : v.slot = .scalar v.type := by
  rw [slot, ha, Slot.scalar]

end Symbol

/-- What is known where an expression stands. -/
structure Setting where
  /-- the program -/
  plan : Plan
  /-- the stream that its code goes to -/
  outline : Outline
  /-- which of the two streams that is -/
  target : Target
  /-- the local slots of arrays that are ready -/
  locals : Set Nat
  /-- the fields of arrays that are ready -/
  fields : Set Nat
  /-- the visible variables -/
  scopes : Scopes
  /-- the functions that exist -/
  functions : Functions

namespace Setting

/-- A sketch with what is known of the slots. -/
def sketch (c : Setting) (s : List Cell) : Sketch := ⟨s, c.locals, c.fields⟩

/-- A variable has a slot for what it is, and that is ready. -/
def Offers (c : Setting) (v : Symbol) : Prop :=
  match v.handle with
  | .field i => c.plan.fields[i.toNat]? = some v.slot ∧ (v.isArray → i.toNat ∈ c.fields)
  | .local i => c.outline.locals[i.toNat]? = some v.slot ∧ (v.isArray → i.toNat ∈ c.locals)
  | .argument i => c.outline.args[i.toNat]? = some v.slot

/-- A function is a routine as the plan says, and all it needs is ready. -/
def Knows (c : Setting) (f : FunctionSymbol) : Prop :=
  ∀ n, f.body = .routine n → ∃ o, c.plan.routines[n.toNat]? = some o ∧ o.args = f.params ∧
    o.returns = f.returns ∧ o.before ⊆ c.fields ∪ c.plan.exposed

/-- Every variable that can be used has its slot. -/
def Sound (c : Setting) : Prop :=
  ∀ name v, c.scopes.lookup name = some v →
    (c.target = .initializer → ∃ n, v.handle = .field n) → c.Offers v

/-- A state of generation in which the same names are known. -/
structure Fits (c : Setting) (g : Generator) : Prop where
  scopes : g.scopes = c.scopes
  functions : g.functions = c.functions

/-- From `d` to `d'` the stack goes from `s` to `s'`, if 32 bits are enough for `d'`. -/
structure Carries (c : Setting) (s s' : List Cell) (d d' : Draft) : Prop where
  longer : d.Longer d'
  charted : ∀ L, d'.Addressable → d.Charted c.plan c.outline L (c.sketch s) →
    ∃ L', L <+: L' ∧ d'.Charted c.plan c.outline L' (c.sketch s')

/-- What is generated by `m` takes the stack `s` to the stack `s'`. -/
def Leads {α : Type} (c : Setting) (s : List Cell) (m : Gen α) (s' : α → List Cell) : Prop :=
  ∀ g a g', c.Fits g → Gen.Makes m g a g' →
    c.Fits g' ∧ c.Carries s (s' a) (g.draft c.target) (g'.draft c.target)

variable {α β : Type} {c : Setting} {s r : List Cell}

/-- Nothing is carried by no code. -/
theorem Carries.refl (c : Setting) (s : List Cell) (d : Draft) : c.Carries s s d d :=
  ⟨.refl d, fun L _ hd => ⟨L, List.prefix_rfl, hd⟩⟩

/-- What one part leaves on the stack the next one finds there. -/
theorem Carries.trans {s₁ s₂ : List Cell} {d d₁ d₂ : Draft} (h : c.Carries s s₁ d d₁)
    (h' : c.Carries s₁ s₂ d₁ d₂) : c.Carries s s₂ d d₂ := by
  refine ⟨h.longer.trans h'.longer, fun L haddr hd => ?_⟩
  obtain ⟨L', hL, hd'⟩ := h.charted L (haddr.of_longer h'.longer) hd
  obtain ⟨L'', hL', hd''⟩ := h'.charted L' haddr hd'
  exact ⟨L'', hL.trans hL', hd''⟩

/-! ## Composition -/

/-- More code does not change what a setting is about. -/
theorem Fits.onDraft {g : Generator} (h : c.Fits g) (t : Target) (f : Draft → Draft) :
    c.Fits (g.onDraft t f) :=
  ⟨(g.onDraft_scopes t f).trans h.scopes, (g.onDraft_functions t f).trans h.functions⟩

/-- What only adds code leaves all names known. -/
theorem Fits.extends {g g' : Generator} {m : Gen α} {t : Target} {a : α} (h : c.Fits g)
    (hm : Gen.Extends t m) (hg : Gen.Makes m g a g') : c.Fits g' := by
  obtain ⟨d, rfl, -⟩ := hm g a g' hg
  exact h.onDraft t _

/-- What leaves the state as it is leaves the stack as it is. -/
theorem Leads.of_same {m : Gen α} (h : ∀ g a g', Gen.Makes m g a g' → g' = g) :
    c.Leads s m fun _ => s := by
  intro g a g' hf hm
  obtain rfl := h g a g' hm
  exact ⟨hf, .refl _ _ _⟩

/-- A value leaves the stack as it is. -/
theorem leads_pure {a : α} {f : α → List Cell} (h : f a = s) : c.Leads s (pure a) f := by
  intro g b g' hf hm
  obtain ⟨rfl, rfl⟩ := Gen.makes_pure.mp hm
  subst h
  exact ⟨hf, .refl _ _ _⟩

/-- Where there is no run, there is no stack to speak of. -/
theorem leads_fail {e : SemanticError} {span : Span} {f : α → List Cell} :
    c.Leads s (Gen.fail e span) f :=
  fun _ _ _ _ hm => absurd hm Gen.not_makes_fail

/-- Behind a refusal there is no stack to speak of. -/
theorem leads_fail_bind {e : SemanticError} {span : Span} {m : α → Gen β} {f : β → List Cell} :
    c.Leads s (Gen.fail e span >>= m) f :=
  fun _ _ _ _ hm => absurd hm Gen.not_makes_fail_bind

/-- First one part, then the other. -/
theorem Leads.bind {m : Gen α} {f : α → Gen β} {s₁ : α → List Cell} {s₂ : β → List Cell}
    (hm : c.Leads s m s₁) (hf : ∀ a, c.Leads (s₁ a) (f a) s₂) : c.Leads s (m >>= f) s₂ := by
  intro g b g'' hfits h
  obtain ⟨a, g', h₁, h₂⟩ := Gen.makes_bind.mp h
  obtain ⟨hfits', hd⟩ := hm g a g' hfits h₁
  obtain ⟨hfits'', hd'⟩ := hf a g' b g'' hfits' h₂
  exact ⟨hfits'', hd.trans hd'⟩

theorem leads_get : c.Leads s get fun _ => s :=
  .of_same fun _ _ _ h => (Gen.makes_get.mp h).2

/-- An instruction. -/
theorem leads_emit {i : Instruction}
    (hi : ∀ L, Takes c.plan c.outline L i (c.sketch s) (some (c.sketch r))) :
    c.Leads s (Gen.emit c.target i) fun _ => r := by
  intro g a g' hf hm
  obtain rfl := Gen.makes_emit.mp hm
  rw [Generator.draft_onDraft]
  exact ⟨hf.onDraft _ _, Draft.longer_emit _ _, fun L _ hd => ⟨L, List.prefix_rfl, hd.emit (hi L)⟩⟩

/-- A loop whose rounds leave the stack as it was leaves it so. -/
theorem leads_forM {xs : List α} {f : α → Gen Unit} (hf : ∀ x ∈ xs, c.Leads s (f x) fun _ => s) :
    c.Leads s (xs.forM f) fun _ => s := by
  induction xs with
  | nil => exact leads_pure rfl
  | cons x xs ih => exact (hf x (.head _)).bind fun _ => ih fun y hy => hf y (.tail _ hy)

/-- A loop over numbers whose rounds leave the stack as it was leaves it so. -/
theorem leads_forBelow {f : UInt32 → Gen Unit} (hf : ∀ n, c.Leads s (f n) fun _ => s)
    (start n : Nat) : c.Leads s (Gen.forBelow f start n) fun _ => s := by
  induction n generalizing start with
  | zero => exact leads_pure rfl
  | succ n ih => exact (hf _).bind fun _ => ih _

/-- If only one value can be made, the stack is that of this value. -/
theorem Leads.returning {m : Gen α} {f : α → List Cell} {a : α} (hm : c.Leads s m f)
    (ha : ∀ g b g', c.Fits g → Gen.Makes m g b g' → b = a) : c.Leads s m fun _ => f a := by
  intro g b g' hf h
  obtain rfl := ha g b g' hf h
  exact hm g b g' hf h

/-- What is found to have a type has it from there on. -/
theorem leads_expectType {span : Span} {expected found : ExprType} :
    c.Leads (found.cells ++ s) (Gen.expectType span expected found)
      fun _ => expected.cells ++ s := by
  unfold Gen.expectType
  split
  · rename_i h
    rw [h]
    exact leads_pure rfl
  · exact leads_fail

/-! ## Variables -/

/-- A variable that is found is offered. -/
theorem Sound.offers {g g' : Generator} {name : Name} {v : Symbol} (hc : c.Sound)
    (hf : c.Fits g) (h : Gen.Makes (Gen.resolve c.target name) g v g') : c.Offers v := by
  obtain ⟨-, hl, hfield⟩ := Gen.makes_resolve h
  exact hc _ v (hf.scopes ▸ hl) hfield

/-- A name that is resolved stands for a variable that the setting offers. -/
theorem leads_resolve (hc : c.Sound) {name : Name} {f : Symbol → Gen β} {s' : β → List Cell}
    (hf : ∀ v, c.Offers v → c.Leads s (f v) s') :
    c.Leads s (Gen.resolve c.target name >>= f) s' := by
  intro g b g'' hfits h
  obtain ⟨v, g', h₁, h₂⟩ := Gen.makes_bind.mp h
  obtain rfl := (Gen.makes_resolve h₁).1
  exact hf v (hc.offers hfits h₁) g' b g'' hfits h₂

/-- A load pushes what the variable keeps. -/
theorem leads_load {v : Symbol} (hv : c.Offers v) :
    c.Leads s (Gen.load c.target v) fun _ => .ofSlot v.slot :: s := by
  unfold Gen.load
  unfold Offers at hv
  cases hh : v.handle with
  | field i =>
    rw [hh] at hv
    exact leads_emit fun _ => .loadField hv.1 fun ha => .inl (hv.2 ha)
  | «local» i =>
    rw [hh] at hv
    exact leads_emit fun _ => .loadLocal hv.1 hv.2
  | argument i =>
    rw [hh] at hv
    exact leads_emit fun _ => .loadArg hv

/-- A store pops a word of the type of its variable. -/
theorem leads_store {v : Symbol} (hv : c.Offers v) (ha : v.isArray = false) :
    c.Leads (.word v.type :: s) (Gen.store c.target v) fun _ => s := by
  unfold Gen.store
  unfold Offers at hv
  rw [Symbol.slot_of_scalar ha] at hv
  cases hh : v.handle with
  | field i =>
    rw [hh] at hv
    exact leads_emit fun _ => .storeField hv.1
  | «local» i =>
    rw [hh] at hv
    exact leads_emit fun _ => .storeLocal hv.1
  | argument i =>
    rw [hh] at hv
    exact leads_emit fun _ => .storeArg hv

end Setting

/-! ## Operands -/

/-- Code for an operand leaves what its type says, and there is only one type that it can
have; code for the index of a place leaves an integer. -/
structure Operand.Typed (c : Setting) (o : Operand) : Prop where
  compile : ∀ s, c.Leads s o.compile fun type => type.cells ++ s
  type : ∃ type, ∀ g found g', c.Fits g → Gen.Makes o.compile g found g' → found = type
  index : ∀ name i, o.place? = some ⟨name, some i⟩ → ∀ s, c.Leads s i fun _ => .word .int :: s

namespace Operand

variable {c : Setting} {o : Operand}

/-- An operand without a place is typed if its code leaves a value of one type. -/
theorem Typed.of_no_place {span : Span} {m : Gen ExprType}
    (h : ∀ s, c.Leads s m fun type => type.cells ++ s)
    (ht : ∃ type, ∀ g found g', c.Fits g → Gen.Makes m g found g' → found = type) :
    Operand.Typed c ⟨span, m, none⟩ :=
  ⟨h, ht, fun _ _ h => by cases h⟩

variable (ho : o.Typed c) (s : List Cell)
include ho

/-- A type that is expected of an operand is the one it leaves. -/
theorem Typed.compileAs (expected : ExprType) :
    c.Leads s (o.compileAs expected) fun _ => expected.cells ++ s :=
  (ho.compile s).bind fun _ => Setting.leads_expectType

/-- An operand of which an integer is expected leaves one. -/
theorem Typed.compileInt : c.Leads s o.compileInt fun _ => .word .int :: s :=
  ho.compileAs s (.scalar .int)

theorem Typed.compileBool : c.Leads s o.compileBool fun _ => .word .bool :: s :=
  ho.compileAs s (.scalar .bool)

/-- The operand of an operator leaves an integer. -/
theorem Typed.compileUnder (op : Token) : c.Leads s (o.compileUnder op) fun _ =>
    .word .int :: s := by
  refine (ho.compile s).bind fun found => ?_
  split
  · exact Setting.leads_fail
  · rename_i h
    obtain rfl := Decidable.not_not.mp h
    exact Setting.leads_pure rfl

end Operand

namespace Rules

open Setting

variable {c : Setting} (s : List Cell)

/-! ## Operators -/

/-- A literal leaves what its type says. -/
theorem leads_literal (l : Literal) :
    c.Leads s (literal c.target l) fun type => type.cells ++ s := by
  cases l with
  | int n =>
    exact (leads_emit fun _ => .pushInt (WordType.valid_int n)).bind fun _ => leads_pure rfl
  | bool b =>
    exact (leads_emit fun _ => .pushInt (WordType.valid_ofBool b)).bind fun _ => leads_pure rfl
  | char k =>
    exact (leads_emit fun _ => .pushInt (WordType.valid_ofChar k)).bind fun _ => leads_pure rfl
  | str v => exact (leads_emit fun _ => .pushStr).bind fun _ => leads_pure rfl

/-- A truth value is inverted in place. -/
theorem leads_invert :
    c.Leads (.word .bool :: s) (invert c.target) fun _ => .word .bool :: s :=
  (leads_emit fun _ => .pushInt (WordType.valid_zero .bool)).bind fun _ =>
    (leads_emit fun _ => .binary (BinaryOp.types_eq .bool)).bind fun _ => leads_pure rfl

/-- Two words of one type are taken to a truth value. -/
theorem leads_comparison (op : RelOp) (t : WordType) :
    c.Leads (.word t :: .word t :: s) (Gen.emitAll c.target (comparison op))
      fun _ => .word .bool :: s := by
  have heq : c.Leads (.word t :: .word t :: s) (Gen.emit c.target (.binary .eq))
      fun _ => .word .bool :: s := leads_emit fun _ => .binary (BinaryOp.types_eq t)
  have hlt : c.Leads (.word t :: .word t :: s) (Gen.emit c.target (.binary .lt))
      fun _ => .word .bool :: s := leads_emit fun _ => .binary (BinaryOp.types_lt t)
  have hgt : c.Leads (.word t :: .word t :: s) (Gen.emit c.target (.binary .gt))
      fun _ => .word .bool :: s := leads_emit fun _ => .binary (BinaryOp.types_gt t)
  have hnot : c.Leads (.word .bool :: s) (Gen.emitAll c.target [.pushInt 0, .binary .eq])
      fun _ => .word .bool :: s := leads_invert s
  cases op with
  | eq => exact heq.bind fun _ => leads_pure rfl
  | ne => exact heq.bind fun _ => hnot
  | lt => exact hlt.bind fun _ => leads_pure rfl
  | gt => exact hgt.bind fun _ => leads_pure rfl
  | ge => exact hlt.bind fun _ => hnot
  | le => exact hgt.bind fun _ => hnot

/-- Only words can be compared. -/
theorem scalar_of_comparable {op : RelOp} {type : ExprType} (h : comparable op type = true) :
    ∃ t, type = .scalar t := by
  cases type with
  | scalar t => exact ⟨t, rfl⟩
  | array t => cases h
  | str => cases h
  | void => cases h
  | effect => cases h
  | operator => cases h

/-- Arithmetic instructions make an integer of two. -/
theorem arithInstruction_types (op : ArithOp) : (arithInstruction op).Types .int .int := by
  cases op <;> exact ⟨rfl, rfl⟩

/-- The code for a random number comes to the same stack on both of its ways. -/
theorem leads_random :
    c.Leads (.word .int :: s) (random c.target) fun _ => .word .int :: s := by
  intro g u g' hf hm
  obtain ⟨positive, done, rfl, hlabels⟩ := makes_random hm
  rw [Generator.draft_onDraft] at hlabels
  rw [Generator.draft_onDraft]
  refine ⟨hf.onDraft _ _, longer_randomCode _ _ _, fun L haddr hd => ?_⟩
  obtain ⟨hp, hdone⟩ := hlabels haddr.labels
  have hsize := position_randomCode ▸ haddr.position
  let σ := c.sketch (.word .int :: s)
  have hlabels := (hd.addLabel σ).addLabel σ
  rw [List.append_assoc] at hlabels
  have hl₁ : (L ++ ([σ] ++ [σ]))[positive.toNat]? = some σ := by
    rw [hp, ← hd.length]
    simp
  have hl₂ : (L ++ ([σ] ++ [σ]))[done.toNat]? = some σ := by
    rw [hdone, ← hd.length]
    simp
  refine ⟨L ++ ([σ] ++ [σ]), List.prefix_append .., ?_⟩
  have htest := ((hlabels.emit .dup).emit (.pushInt (WordType.valid_int 0))).emit
    (.binary (BinaryOp.types_lt .int))
  have hnegative := (((htest.emit (.jumpIfFalse hl₁ (.refl _))).emit .neg).emit .random).emit .neg
  have hpositive := (hnegative.leap (.jump hl₂ (.refl _)) σ).mark hl₁ (.refl _) (by
    simp only [Draft.position_emit, Draft.position_addLabel]
    omega)
  exact (hpositive.emit .random).mark hl₂ (.refl _) (by
    simpa only [Draft.position_emit, Draft.position_addLabel, Draft.position_mark] using hsize)

section Operators

variable {o l r : Operand} (ho : o.Typed c) (hl : l.Typed c) (hr : r.Typed c)

include hl hr in
/-- Two truth values become one. -/
theorem leads_logic (op : LogicOp) :
    c.Leads s (logic c.target op l r) fun type => type.cells ++ s := by
  refine (hl.compileBool s).bind fun _ => (hr.compileBool _).bind fun _ => ?_
  refine (leads_emit fun _ => .binary ?_).bind fun _ => leads_pure rfl
  cases op <;> exact ⟨rfl, rfl⟩

include ho in
theorem leads_negate : c.Leads s (negate c.target o) fun type => type.cells ++ s :=
  (ho.compileBool s).bind fun _ => (leads_invert s).bind fun _ => leads_pure rfl

include hl hr in
/-- Two words of one type become a truth value. -/
theorem leads_compare (op : RelOp) :
    c.Leads s (compare c.target l op r) fun type => type.cells ++ s := by
  refine (hl.compile s).bind fun left => (hr.compile _).bind fun right => ?_
  split
  · rename_i hc
    obtain ⟨t, rfl⟩ := scalar_of_comparable hc
    exact leads_expectType.bind fun _ => (leads_comparison s op t).bind fun _ => leads_pure rfl
  · exact leads_fail

include hl hr in
/-- Two integers become one. -/
theorem leads_arith (op : ArithOp) :
    c.Leads s (arith c.target l op r) fun type => type.cells ++ s :=
  (hl.compileUnder s _).bind fun _ => (hr.compileUnder _ _).bind fun _ =>
    (leads_emit fun _ => .binary (arithInstruction_types op)).bind fun _ => leads_pure rfl

include ho in
/-- A sign, a `?` or a length leaves an integer. -/
theorem leads_lead (op : LeadOp) :
    c.Leads s (lead c.target op o) fun type => type.cells ++ s := by
  cases op with
  | length =>
    refine (ho.compile s).bind fun found => ?_
    split
    · exact (leads_emit fun _ => .arrayLen).bind fun _ => leads_pure rfl
    · exact leads_fail
  | negative =>
    exact (ho.compileUnder s _).bind fun _ => (leads_emit fun _ => .neg).bind fun _ =>
      leads_pure rfl
  | random =>
    exact (ho.compileUnder s _).bind fun _ => (leads_random s).bind fun _ => leads_pure rfl

end Operators

/-! ## Variables, elements and assignments -/

/-- What is kept of an array is a cell with its reference. -/
theorem cell_of_array {v : Symbol} (ha : v.isArray = true) :
    Cell.ofSlot v.slot = .array v.type := by
  rw [Cell.ofSlot, Symbol.slot, if_pos ha]

/-- What is kept of a word is a cell with the word. -/
theorem cell_of_scalar {v : Symbol} (ha : v.isArray = false) :
    Cell.ofSlot v.slot = .word v.type := by
  rw [Cell.ofSlot, Symbol.slot, if_neg (by simp [ha])]

variable (hc : c.Sound)

include hc in
/-- A variable leaves what it keeps. -/
theorem leads_var (name : Name) : c.Leads s (var c.target name) fun type => type.cells ++ s := by
  refine leads_resolve hc fun v hv => (leads_load hv).bind fun _ => leads_pure ?_
  cases ha : v.isArray with
  | true => rw [cell_of_array ha, if_pos rfl]; rfl
  | false => rw [cell_of_scalar ha, if_neg Bool.false_ne_true]; rfl

include hc in
/-- An element leaves a word in the place of its array and index. -/
theorem leads_elem (span : Span) (name : Name) {index : Gen Unit}
    (hi : ∀ s, c.Leads s index fun _ => .word .int :: s) :
    c.Leads s (elem c.target span name index) fun type => type.cells ++ s := by
  refine leads_resolve hc fun v hv => (leads_load hv).bind fun _ => ?_
  split
  · rename_i ha
    rw [cell_of_array ha]
    exact (hi _).bind fun _ => (leads_emit fun _ => .loadElem).bind fun _ => leads_pure rfl
  · exact leads_fail

/-- What is on the stack of the place that is assigned to, below the value. -/
def placeCells (v : Symbol) (index : Option (Gen Unit)) : List Cell :=
  match index with
  | some _ => [.word .int, .array v.type]
  | none => []

section Places

variable {v : Symbol} {index : Option (Gen Unit)} (hv : c.Offers v)
  (ha : v.isArray = index.isSome) (hi : ∀ i ∈ index, ∀ s, c.Leads s i fun _ => .word .int :: s)
include hv ha

include hi in
/-- In front of an assigned value there are the array and the index, or nothing. -/
theorem leads_beforeValue :
    c.Leads s (beforeValue c.target v index) fun _ => placeCells v index ++ s := by
  cases index with
  | some i =>
    refine (leads_load hv).bind fun _ => ?_
    rw [cell_of_array ha]
    exact hi i rfl _
  | none => exact leads_pure rfl

include hi in
/-- The present value of a target is left on top of everything. -/
theorem leads_presentValue :
    c.Leads s (presentValue c.target v index) fun _ => .word v.type :: s := by
  refine (leads_load hv).bind fun _ => ?_
  cases index with
  | some i =>
    rw [cell_of_array ha]
    exact (hi i rfl _).bind fun _ => leads_emit fun _ => .loadElem
  | none =>
    rw [cell_of_scalar ha]
    exact leads_pure rfl

/-- The store takes the value, and the array and the index if there are any. -/
theorem leads_afterValue :
    c.Leads (.word v.type :: placeCells v index ++ s) (afterValue c.target v index)
      fun _ => s := by
  cases index with
  | some i => exact leads_emit fun _ => .storeElem
  | none => exact leads_store hv ha

variable {value : Operand} (hval : value.Typed c)
include hval hi

/-- In the legacy form the value is computed twice. Its type is checked only once, but it
cannot have two. -/
theorem leads_ordered {instruction : BinaryOp} (hint : v.type = .int)
    (hins : instruction.Types .int .int) :
    c.Leads s (compound.ordered c.target v index value instruction) fun _ => .word .int :: s := by
  have hpresent (s : List Cell) := leads_presentValue s hv ha hi
  rw [hint] at hpresent
  obtain ⟨type, htype⟩ := hval.type
  by_cases ht : type = .scalar .int
  · subst ht
    refine (hval.compileInt s).bind fun _ => leads_get.bind fun g => ?_
    dsimp only
    split
    · exact (leads_emit fun _ => .pop).bind fun _ => (hpresent s).bind fun _ =>
        ((hval.compile _).returning htype).bind fun _ => leads_emit fun _ => .binary hins
    · exact (hpresent _).bind fun _ => (leads_emit fun _ => .swap).bind fun _ =>
        leads_emit fun _ => .binary hins
  · intro g u g' hf hm
    obtain ⟨_, g₁, hint, -⟩ := Gen.makes_bind.mp hm
    obtain ⟨found, g₂, hfound, hexpect⟩ := Gen.makes_bind.mp hint
    obtain rfl := htype g found g₂ hf hfound
    rw [Gen.expectType, if_neg (Ne.symm ht)] at hexpect
    exact absurd hexpect Gen.not_makes_fail

/-- A compound assignment leaves the word to store, of the type of its target. -/
theorem leads_compound {op : AssignOp} (hop : op = .set ∨ v.type = .int) :
    c.Leads s (compound c.target v index op value) fun _ => .word v.type :: s := by
  have hint (hne : op ≠ .set) : v.type = .int := hop.resolve_left hne
  cases op with
  | set => exact hval.compileAs s (.scalar v.type)
  | add =>
    have hpresent (s : List Cell) := leads_presentValue s hv ha hi
    rw [hint nofun] at hpresent ⊢
    exact (hval.compileInt s).bind fun _ => (hpresent _).bind fun _ =>
      leads_emit fun _ => .binary ⟨rfl, rfl⟩
  | mul =>
    have hpresent (s : List Cell) := leads_presentValue s hv ha hi
    rw [hint nofun] at hpresent ⊢
    exact (hval.compileInt s).bind fun _ => (hpresent _).bind fun _ =>
      leads_emit fun _ => .binary ⟨rfl, rfl⟩
  | sub =>
    rw [hint nofun]
    exact leads_ordered s hv ha hi hval (hint nofun) ⟨rfl, rfl⟩
  | div =>
    rw [hint nofun]
    exact leads_ordered s hv ha hi hval (hint nofun) ⟨rfl, rfl⟩

/-- The code of an assignment leaves the stack as it was. -/
theorem leads_assignCode {op : AssignOp} (hop : op = .set ∨ v.type = .int) :
    c.Leads s (assignCode c.target v index op value) fun _ => s :=
  (leads_beforeValue s hv ha hi).bind fun _ => (leads_compound _ hv ha hi hval hop).bind fun _ =>
    leads_afterValue s hv ha

omit hval in
/-- The code of an increment leaves the stack as it was. -/
theorem leads_stepCode (op : StepOp) (hint : v.type = .int) :
    c.Leads s (stepCode c.target v index op) fun _ => s := by
  have hpresent (s : List Cell) := leads_presentValue s hv ha hi
  have hafter := leads_afterValue s hv ha
  rw [hint] at hpresent hafter
  refine (leads_beforeValue s hv ha hi).bind fun _ => (hpresent _).bind fun _ =>
    (leads_emit fun _ => .pushInt (WordType.valid_int 1)).bind fun _ =>
      (leads_emit (r := .word .int :: placeCells v index ++ s) fun _ => .binary ?_).bind
        fun _ => hafter
  cases op <;> exact ⟨rfl, rfl⟩

end Places

include hc

/-- A whole array is assigned element by element. -/
theorem leads_copyArray {target : Symbol} (name : Name) (value : Operand)
    (ht : c.Offers target) (ha : target.isArray = true) :
    c.Leads s (copyArray c.target target name value) fun _ => s := by
  unfold copyArray
  split
  · refine leads_resolve hc fun source hs => ?_
    dsimp only
    split
    · exact leads_fail_bind
    · rename_i hsource
      split
      · exact leads_fail_bind
      · rename_i htypes
        -- The lengths are found without any code.
        have hlength {f : UInt32 → Gen Unit} (hf : ∀ n, c.Leads s (f n) fun _ => s)
            (sourceName : Name) : c.Leads s
              (copyLength target name source sourceName value.span >>= f) fun _ => s := by
          unfold copyLength
          split
          · exact (leads_pure rfl).bind fun _ => hf _
          · exact leads_fail_bind
          · exact leads_fail_bind
        -- Every element is copied by the same code, up to its index.
        refine hlength (fun n => leads_forBelow (fun k => ?_) 0 _) _
        refine (leads_load ht).bind fun _ =>
          (leads_emit fun _ => .pushInt (WordType.valid_int _)).bind fun _ =>
            (leads_load hs).bind fun _ => ?_
        rw [cell_of_array ha, cell_of_array (by simpa using hsource),
          Decidable.not_not.mp htypes]
        exact (leads_emit fun _ => .pushInt (WordType.valid_int _)).bind fun _ =>
          (leads_emit fun _ => .loadElem).bind fun _ => (leads_emit fun _ => .storeElem).bind
            fun _ => leads_pure rfl
  · exact leads_fail

section Assignments

variable {target value : Operand} (ht : target.Typed c) (hval : value.Typed c)
include ht

omit hc in
/-- The index of a target leaves an integer. -/
theorem leads_index {name : Name} {index : Option (Gen Unit)}
    (hp : target.place? = some ⟨name, index⟩) :
    ∀ i ∈ index, ∀ s, c.Leads s i fun _ => .word .int :: s := by
  rintro i ⟨⟩
  exact ht.index name i hp

include hval in
/-- An assignment leaves the stack as it was, since it has no value. -/
theorem leads_assign (op : Located AssignOp) :
    c.Leads s (assign c.target target op value) fun type => type.cells ++ s := by
  intro g type g' hf h
  obtain ⟨rfl, name, index, v, hp, hv, ⟨rfl, ha, -, hcopy⟩ | ⟨ha, hop, hcode⟩⟩ := makes_assign h
  · exact leads_copyArray s hc name value (hc.offers hf hv) ha g _ g' hf hcopy
  · exact leads_assignCode s (hc.offers hf hv) ha (leads_index ht hp) hval hop g _ g' hf hcode

theorem leads_step (op : StepOp) :
    c.Leads s (step c.target target op) fun type => type.cells ++ s := by
  intro g type g' hf h
  obtain ⟨rfl, name, index, v, hp, hv, ha, hint, hcode⟩ := makes_step h
  exact leads_stepCode s (hc.offers hf hv) ha (leads_index ht hp) op hint g _ g' hf hcode

end Assignments

/-! ## Calls -/

section Calls

variable {args : List Operand} (ha : ∀ o ∈ args, o.Typed c)

omit hc in
include ha in
/-- Arguments stand on the stack with the last one on top. -/
theorem leads_arguments {params : List Slot} (hlen : args.length = params.length) :
    c.Leads s (arguments args params) fun _ => (params.map .ofSlot).reverse ++ s := by
  induction args generalizing params s with
  | nil =>
    obtain rfl := List.length_eq_zero_iff.mp hlen.symm
    exact leads_pure rfl
  | cons o os ih =>
    obtain ⟨p, ps, rfl⟩ := List.exists_cons_of_length_eq_add_one hlen.symm
    have hrest := ih (s := .ofSlot p :: s) (fun o h => ha o (.tail _ h)) (Nat.succ.inj hlen)
    refine ((ha o (.head _)).compileAs s (.ofSlot p)).bind fun _ => ?_
    rw [ExprType.cells_ofSlot, List.map_cons, List.reverse_cons, List.append_assoc]
    exact hrest

omit hc in
include ha in
/-- The arguments behind a format string leave values that can be put into it. -/
theorem formatArguments_leads {g g' : Generator} {u : Unit} (hf : c.Fits g)
    (h : Gen.Makes (formatArguments c.target args) g u g') :
    c.Fits g' ∧ ∃ cs, cs.length = args.length ∧ (∀ k ∈ cs, k = .str ∨ k = .boxed) ∧
      c.Carries s (cs ++ s) (g.draft c.target) (g'.draft c.target) := by
  induction args generalizing g s with
  | nil =>
    obtain ⟨-, rfl⟩ := Gen.makes_pure.mp h
    exact ⟨hf, [], rfl, nofun, .refl _ _ _⟩
  | cons o os ih =>
    have hone : ∃ g₁, Gen.Makes (formatArguments c.target os) g₁ u g' ∧ c.Fits g₁ ∧
        ∃ k, (k = .str ∨ k = .boxed) ∧
          c.Carries s (k :: s) (g.draft c.target) (g₁.draft c.target) := by
      obtain ⟨found, g₁, h₁, h⟩ := Gen.makes_bind.mp h
      obtain ⟨hf₁, hd₁⟩ := (ha o (.head _)).compile s g found g₁ hf h₁
      dsimp only at h
      split at h
      · obtain ⟨_, g₂, h₂, h⟩ := Gen.makes_bind.mp h
        obtain ⟨hf₂, hd₂⟩ := leads_emit (fun _ => .box) g₁ _ g₂ hf₁ h₂
        exact ⟨g₂, h, hf₂, .boxed, .inr rfl, hd₁.trans hd₂⟩
      · exact ⟨g₁, h, hf₁, .str, .inl rfl, hd₁⟩
      · exact absurd h Gen.not_makes_fail_bind
    obtain ⟨g₁, h₁, hf₁, k, hk, hd₁⟩ := hone
    obtain ⟨hf', cs, hlen, hcs, hd'⟩ := ih (s := k :: s) (fun o h => ha o (.tail _ h)) hf₁ h₁
    refine ⟨hf', cs ++ [k], by simp [hlen], ?_, by simpa using hd₁.trans hd'⟩
    intro k' hk'
    rcases List.mem_append.mp hk' with h | h
    · exact hcs k' h
    · obtain rfl := List.mem_singleton.mp h
      exact hk

variable (hx : ∀ o ∈ args, o.Extends c.target)

omit hc in
include ha hx in
/-- Output. There are fewer things to be put into a format string than instructions. -/
theorem leads_print (name : Name) :
    c.Leads s (print c.target name args) fun type => type.cells ++ s := by
  match args with
  | [] => exact leads_fail
  | [o] =>
    refine ((ha o (.head _)).compile s).bind fun found => ?_
    dsimp only
    split
    · exact (leads_emit fun _ => .print).bind fun _ => leads_pure rfl
    · exact (leads_emit fun _ => .printStr).bind fun _ => leads_pure rfl
    · exact leads_fail_bind
  | format :: o :: os =>
    refine ((ha format (.head _)).compile s).bind fun found => ?_
    dsimp only
    split
    · exact leads_fail_bind
    · rename_i hfound
      rw [Decidable.not_not.mp hfound]
      -- Behind the format its arguments lie on the stack, as many as are written.
      have hrest : ∀ a ∈ o :: os, a.Typed c := fun a h => ha a (.tail _ h)
      intro g type g' hf h
      obtain ⟨_, g₁, h₁, h⟩ := Gen.makes_bind.mp h
      obtain ⟨_, g₂, h₂, h⟩ := Gen.makes_bind.mp h
      obtain ⟨rfl, rfl⟩ := Gen.makes_pure.mp h
      obtain ⟨hf₁, cs, hlen, hcs, hd₁⟩ := formatArguments_leads (.str :: s) hrest hf h₁
      have hlength := length_formatArguments (fun a h => hx a (.tail _ h)) h₁
      obtain rfl := Gen.makes_emit.mp h₂
      rw [Generator.draft_onDraft]
      refine ⟨hf₁.onDraft _ _, hd₁.longer.trans (Draft.longer_emit _ _), fun L haddr hd => ?_⟩
      obtain ⟨L₁, hL₁, hd'⟩ := hd₁.charted L (haddr.of_longer (Draft.longer_emit _ _)) hd
      -- The number of arguments fits into 32 bits, since the stream does.
      have hcount : cs.length = (UInt32.ofNat (o :: os).length).toNat := by
        rw [hlen, haddr.toNat_position (p := (o :: os).length)]
        rw [Draft.position_emit]
        omega
      exact ⟨L₁, hL₁, hd'.emit (.printFormat hcount hcs)⟩

include ha in
/-- Reading leaves the stack as it was. -/
theorem leads_put (name : Name) :
    c.Leads s (put c.target name args) fun type => type.cells ++ s := by
  have hone (o : Operand) (ho : o.Typed c) : c.Leads s (putOne c.target o) fun _ => s := by
    intro g u g' hf h
    obtain ⟨name, index, v, hp, hv, harray, hcode⟩ := makes_putOne h
    have hoffers := hc.offers hf hv
    have hread : c.Leads (placeCells v index ++ s) (Gen.emitAll c.target
        [.readLine, .parse v.type]) fun _ => .word v.type :: placeCells v index ++ s :=
      (leads_emit fun _ => .readLine).bind fun _ => (leads_emit fun _ => .parse).bind
        fun _ => leads_pure rfl
    have hleads := (leads_beforeValue s hoffers harray (leads_index ho hp)).bind fun _ =>
      hread.bind fun _ => leads_afterValue s hoffers harray
    exact hleads g _ g' hf hcode
  unfold put putEach
  dsimp only
  split
  · exact leads_fail_bind
  · exact (leads_forM fun o h => hone o (ha o h)).bind fun _ => leads_pure rfl

include ha hx in
/-- A routine is called with what its arguments leave, and leaves its result. -/
theorem leads_call (span : Span) (name : Name)
    (hk : ∀ f, c.functions.lookup name.value = some f → c.Knows f) :
    c.Leads s (call c.target span name args) fun type => type.cells ++ s := by
  intro g type g' hf h
  obtain ⟨_, g₁, h₁, hrest⟩ := Gen.makes_bind.mp h
  obtain ⟨f, g₂, h₂, hcode⟩ := Gen.makes_bind.mp hrest
  obtain ⟨hg, hg₁⟩ := Gen.makes_get.mp h₁
  obtain ⟨hresolve, hg₂⟩ := Gen.makes_lift.mp h₂
  subst hg hg₂ hg₁
  have hlookup := Functions.lookup_of_resolve hresolve
  rw [hf.functions] at hlookup
  have hknown := hk f hlookup
  dsimp only at hcode
  split at hcode
  · exact leads_print s ha hx name g₂ _ g' hf hcode
  · exact leads_put s hc ha name g₂ _ g' hf hcode
  -- A function of the program takes what its outline says, and leaves it.
  · rename_i n hbody
    obtain ⟨o, ho, hargs, hreturns, hbefore⟩ := hknown n hbody
    rw [Gen.makes_check] at hcode
    obtain ⟨hlen, hcode⟩ := hcode
    have hleads : c.Leads s (do
        arguments args f.params
        Gen.emit c.target (.call n)
        return (f.returns.map ExprType.scalar).getD .void) fun type => type.cells ++ s := by
      refine (leads_arguments s ha (Decidable.not_not.mp hlen)).bind fun _ =>
        (leads_emit (r := o.result ++ s) fun _ => ?_).bind fun _ => leads_pure ?_
      · rw [← hargs]
        exact .call ho hbefore
      · rw [Outline.result, hreturns]
        cases f.returns <;> rfl
    exact hleads g₂ _ g' hf hcode

end Calls

end Rules

/-! ## Types -/

namespace Rules

open Gen

variable (t : Target)

/-- A literal has one type in all states. -/
theorem returns_literal (l : Literal) : ∃ type, Returns (literal t l) type := by
  cases l <;> exact ⟨_, .bind fun _ => returns_pure⟩

/-- A comparison has a truth value in all states. -/
theorem returns_compare (l : Operand) (op : RelOp) (r : Operand) :
    Returns (compare t l op r) (.scalar .bool) := by
  refine .bind fun left => .bind fun right => ?_
  split
  · exact .bind fun _ => .bind fun _ => returns_pure
  · exact returns_fail

theorem returns_lead (op : LeadOp) (o : Operand) : Returns (lead t op o) (.scalar .int) := by
  cases op with
  | length =>
    refine .bind fun found => ?_
    split
    · exact .bind fun _ => returns_pure
    · exact returns_fail
  | negative => exact .bind fun _ => .bind fun _ => returns_pure
  | random => exact .bind fun _ => .bind fun _ => returns_pure

/-- The type of a call of a function. -/
def callType (f : FunctionSymbol) : ExprType :=
  match f.body with
  | .intrinsic _ => .effect
  | .routine _ => (f.returns.map ExprType.scalar).getD .void

/-- A call has the type of the function. -/
theorem returns_call (c : Setting) (span : Span) (name : Name) (args : List Operand) :
    ∃ type, ∀ g found g', c.Fits g → Makes (call t span name args) g found g' →
      found = type := by
  -- The type of a call depends on the function alone, which is looked up by name.
  have hcall (g found g') (hf : c.Fits g) (h : Makes (call t span name args) g found g') :
      ∃ f, c.functions.lookup name.value = some f ∧ found = callType f := by
    obtain ⟨_, g₁, h₁, hrest⟩ := Gen.makes_bind.mp h
    obtain ⟨f, g₂, h₂, hcode⟩ := Gen.makes_bind.mp hrest
    obtain ⟨hg, hg₁⟩ := Gen.makes_get.mp h₁
    obtain ⟨hresolve, hg₂⟩ := Gen.makes_lift.mp h₂
    subst hg hg₂ hg₁
    refine ⟨f, hf.functions ▸ Functions.lookup_of_resolve hresolve, ?_⟩
    dsimp only at hcode
    split at hcode
    · rename_i hb
      rw [callType, hb]
      exact returns_print name args _ _ _ hcode
    · rename_i hb
      rw [callType, hb]
      exact returns_put name args _ _ _ hcode
    · rename_i n hb
      rw [callType, hb]
      rw [Gen.makes_check] at hcode
      exact (Returns.bind fun _ => .bind fun _ => returns_pure) _ _ _ hcode.2
  cases hl : c.functions.lookup name.value with
  -- Without a function there is no run, and so any type will do.
  | none =>
    refine ⟨.void, fun g found g' hf h => ?_⟩
    obtain ⟨f, hf', -⟩ := hcall g found g' hf h
    rw [hl] at hf'
    cases hf'
  | some f =>
    refine ⟨callType f, fun g found g' hf h => ?_⟩
    obtain ⟨f', hf', hfound⟩ := hcall g found g' hf h
    rw [hl] at hf'
    rw [Option.some.inj hf']
    exact hfound

/-- What is made of a variable is up to what its name stands for. -/
theorem returns_resolved (c : Setting) (name : Name) {f : Symbol → Gen ExprType}
    {k : Symbol → ExprType} (hf : ∀ v, Returns (f v) (k v)) :
    ∃ a, ∀ g b g', c.Fits g → Makes (resolve t name >>= f) g b g' → b = a := by
  have hlookup (g b g') (hfits : c.Fits g) (h : Makes (resolve t name >>= f) g b g') :
      ∃ v, c.scopes.lookup name.value = some v ∧ b = k v := by
    obtain ⟨v, g₁, h₁, h₂⟩ := makes_bind.mp h
    exact ⟨v, hfits.scopes ▸ (makes_resolve h₁).2.1, hf v _ _ _ h₂⟩
  cases hl : c.scopes.lookup name.value with
  | none =>
    refine ⟨.void, fun g b g' hfits h => ?_⟩
    obtain ⟨v, hv, -⟩ := hlookup g b g' hfits h
    rw [hl] at hv
    cases hv
  | some v =>
    refine ⟨k v, fun g b g' hfits h => ?_⟩
    obtain ⟨v', hv, hb⟩ := hlookup g b g' hfits h
    rw [hl] at hv
    rw [hb, Option.some.inj hv]

/-- An element has one type in all states that fit a setting. -/
theorem returns_elem (span : Span) (name : Name) (index : Gen Unit) (c : Setting) :
    ∃ type, ∀ g found g', c.Fits g → Makes (elem t span name index) g found g' →
      found = type := by
  refine returns_resolved t c name (k := fun v => .scalar v.type) fun v => .bind fun _ => ?_
  split
  · exact .bind fun _ => .bind fun _ => returns_pure
  · exact returns_fail

/-- A variable has one type in all states that fit a setting. -/
theorem returns_var (name : Name) (c : Setting) :
    ∃ type, ∀ g found g', c.Fits g → Makes (var t name) g found g' → found = type := by
  exact returns_resolved t c name fun v => .bind fun _ => returns_pure

end Rules

namespace Expr

mutual

/-- The names of the functions that an expression calls. -/
def calls : Expr → List String
  | .literal _ => []
  | .var _ => []
  | .elem _ i => i.calls
  | .paren e => e.calls
  | .call n args => n.value :: callsOf args
  | .lead _ e => e.calls
  | .arith l _ r => l.calls ++ r.calls
  | .compare l _ r => l.calls ++ r.calls
  | .negate _ e => e.calls
  | .logic _ l r => l.calls ++ r.calls
  | .step p _ => p.calls
  | .assign p _ v => p.calls ++ v.calls

/-- The names of the functions that expressions call. -/
def callsOf : List Expr → List String
  | [] => []
  | e :: es => e.calls ++ callsOf es

end

/-- What arguments call is called by one of them. -/
theorem mem_callsOf {es : List Expr} {name : String} :
    name ∈ callsOf es ↔ ∃ e ∈ es, name ∈ e.calls := by
  induction es with
  | nil => simp [callsOf]
  | cons e es ih => simp [callsOf, ih]

/-- **Code for expressions is typed.** Where all variables have their slots, and where all
functions that an expression calls are known, its code takes any stack to one with the value
on top that the type of the expression says. -/
theorem operand_typed {c : Setting} (hc : c.Sound) (e : Expr)
    (hk : ∀ name ∈ e.calls, ∀ f, c.functions.lookup name = some f → c.Knows f) :
    (e.operand c.target).Typed c := by
  induction e using Expr.induct with
  | literal v =>
    obtain ⟨type, htype⟩ := Rules.returns_literal c.target v.value
    exact .of_no_place (fun s => Rules.leads_literal s _) ⟨type, fun g found g' _ =>
      htype g found g'⟩
  | var n =>
    -- Only variables and elements are places, so only they have an index to speak of.
    refine ⟨fun s => Rules.leads_var s hc n, Rules.returns_var c.target n c, ?_⟩
    rintro name i ⟨⟩
  | elem n i ih =>
    have hi := ih hk
    refine ⟨fun s => Rules.leads_elem s hc _ n hi.compileInt, Rules.returns_elem _ _ _ _ c, ?_⟩
    rintro name index ⟨⟩
    exact hi.compileInt
  | paren e ih => exact .of_no_place (ih hk).compile (ih hk).type
  -- Functions that are called in arguments are called in the expression, hence known.
  | call n args ih =>
    have hargs : ∀ o ∈ operands c.target args, o.Typed c := by
      intro o ho
      obtain ⟨e, he, rfl⟩ := mem_operands.mp ho
      exact ih e he fun name hname => hk name (.tail _ (mem_callsOf.mpr ⟨e, he, hname⟩))
    have hextends : ∀ o ∈ operands c.target args, o.Extends c.target := by
      intro o ho
      obtain ⟨e, -, rfl⟩ := mem_operands.mp ho
      exact e.operand_extends c.target
    exact .of_no_place (fun s => Rules.leads_call s hc hargs hextends _ n (hk n.value (.head _)))
      (Rules.returns_call c.target c _ n _)
  | lead op e ih =>
    exact .of_no_place (fun s => Rules.leads_lead s (ih hk) _)
      ⟨_, fun g found g' _ => Rules.returns_lead c.target _ _ g found g'⟩
  | arith l op r hl hr =>
    have hl := hl fun name h => hk name (List.mem_append_left _ h)
    have hr := hr fun name h => hk name (List.mem_append_right _ h)
    exact .of_no_place (fun s => Rules.leads_arith s hl hr _) ⟨.scalar .int, fun g found g' _ =>
      (Gen.Returns.bind fun _ => .bind fun _ => .bind fun _ => Gen.returns_pure) g found g'⟩
  | compare l op r hl hr =>
    have hl := hl fun name h => hk name (List.mem_append_left _ h)
    have hr := hr fun name h => hk name (List.mem_append_right _ h)
    exact .of_no_place (fun s => Rules.leads_compare s hl hr _) ⟨_, fun g found g' _ =>
      Rules.returns_compare c.target _ _ _ g found g'⟩
  | negate word e ih =>
    exact .of_no_place (fun s => Rules.leads_negate s (ih hk)) ⟨.scalar .bool, fun g found g' _ =>
      (Gen.Returns.bind fun _ => .bind fun _ => Gen.returns_pure) g found g'⟩
  | logic op l r hl hr =>
    have hl := hl fun name h => hk name (List.mem_append_left _ h)
    have hr := hr fun name h => hk name (List.mem_append_right _ h)
    exact .of_no_place (fun s => Rules.leads_logic s hl hr _) ⟨.scalar .bool, fun g found g' _ =>
      (Gen.Returns.bind fun _ => .bind fun _ => .bind fun _ => Gen.returns_pure) g found g'⟩
  | step p op ih =>
    exact .of_no_place (fun s => Rules.leads_step s hc (ih hk) _) ⟨.effect, fun g found g' _ h =>
      (Rules.makes_step h).1⟩
  | assign p op v hp hv =>
    have hp := hp fun name h => hk name (List.mem_append_left _ h)
    have hv := hv fun name h => hk name (List.mem_append_right _ h)
    exact .of_no_place (fun s => Rules.leads_assign s hc hp hv _) ⟨.effect, fun g found g' _ h =>
      (Rules.makes_assign h).1⟩

/-- Code for an expression of a type that is asked for leaves a value of it. -/
theorem leads_compileAs {c : Setting} (hc : c.Sound) (e : Expr)
    (hk : ∀ name ∈ e.calls, ∀ f, c.functions.lookup name = some f → c.Knows f)
    (s : List Cell) (expected : ExprType) :
    c.Leads s (e.compileAs c.target expected) fun _ => expected.cells ++ s :=
  (operand_typed hc e hk).compileAs s expected

end Expr

end OnePass
