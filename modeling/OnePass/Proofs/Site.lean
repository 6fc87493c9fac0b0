import OnePass.Proofs.Evaluation
import OnePass.Proofs.ProgramCode

/-!
# Where code runs

A `Site` is what surrounds a piece of code when it runs: a frame that is in the middle of its
stream, with others that wait for it. `Site.Does` says that calls do what an evaluation says. It
composes like evaluations do, so that each rule of code generation gets one lemma that says what
its code does.
-/

namespace OnePass

/-- A stream begins with a draft that 32 bits are enough for, and the labels that the draft has
marked are where it says. Labels that are open in the draft may be anywhere. -/
structure Code.Continues (c : Code) (d : Draft) : Prop where
  addressable : d.Addressable
  instructions : d.instructions.toList <+: c.instructions.toList
  labels : ∀ l p : UInt32, d.labels[l.toNat]? = some (some p) → c.target? l = some p.toNat

/-- No function is a routine before one is defined. -/
theorem Functions.not_routine_of_new {name : String} {f : FunctionSymbol} {n : UInt32}
    (h : Functions.new.lookup name = some f) : f.body ≠ .routine n := by
  intro hroutine
  unfold Functions.new Functions.lookup at h
  rw [List.lookup_cons, List.lookup_cons, List.lookup_nil] at h
  split at h
  · cases h
    cases hroutine
  · split at h
    · cases h
      cases hroutine
    · cases h

/-- Where there is one variable, every name that means something means that one. -/
theorem Scopes.eq_of_lookup_single {name key : String} {v v' : Symbol}
    (h : (⟨[], Scope.empty.insert key v⟩ : Scopes).lookup name = some v') : v' = v := by
  have h' : List.lookup name [(key, v)] = some v' := by
    simpa [Scopes.lookup, Scope.find?, Scope.insert, Scope.empty, List.findSome?] using h
  rw [List.lookup_cons, List.lookup_nil] at h'
  split at h'
  · exact (Option.some.inj h').symm
  · cases h'

/-- What surrounds a piece of code when it runs. -/
structure Site where
  /-- the program -/
  program : Compilation
  /-- which stream the code is in -/
  target : Target
  /-- the visible variables -/
  scopes : Scopes
  /-- the functions that exist -/
  functions : Functions
  /-- whether the right side of a compound subtraction or division is evaluated twice -/
  legacy : Bool
  /-- the name of what is running -/
  name : String
  /-- its stream -/
  code : Code
  /-- what its argument slots are there for -/
  args : List Slot
  /-- what its local slots are there for -/
  locals : List Slot
  /-- the frames that wait for it -/
  callers : List Frame
  /-- where the piece of code begins -/
  first : Nat
  /-- where it ends -/
  last : Nat
  /-- how many instructions a call may take, and how many rounds a loop -/
  fuel : Nat

/-- Slots hold what they are there for. Where there is no array yet there may be the word 0. -/
def SlotsFit (H : Heap) (slots : List Slot) (vs : Array Value) : Prop :=
  ∀ (i : Nat) (s : Slot), slots[i]? = some s → ∃ v, vs[i]? = some v ∧ v.Fits H True (.ofSlot s)

namespace Site

/-- What the code is to be understood in. -/
def situation (w : Site) : Situation :=
  ⟨w.program.image, w.scopes, w.functions, w.legacy, w.callers.length + 1, w.fuel⟩

/-- The frame at a position, with the store. -/
def context (w : Site) (p : Nat) (m : Memory) : Context :=
  ⟨⟨w.name, w.code, p, m.args, m.locals, []⟩, m.store⟩

/-- All calls, the frame being at a position and with a stack. -/
def stand (w : Site) (p : Nat) (s : List Value) (m : Memory) : Calls :=
  ⟨⟨w.name, w.code, p, m.args, m.locals, s⟩, w.callers, m.store⟩

/-- The same place with other variables visible. -/
def withScopes (w : Site) (s : Scopes) : Site := { w with scopes := s }

/-! ## Consistency -/

/-- A variable has a slot that is there for it. -/
def Offers (w : Site) (v : Symbol) : Prop :=
  match v.handle with
  | .field i => w.program.tree.plan.fields[i.toNat]? = some v.slot
  | .local i => w.locals[i.toNat]? = some v.slot
  | .argument i => w.args[i.toNat]? = some v.slot

/-- The names mean something: every variable that can be used has a slot, and every function that
is no built-in one is a routine of the image. -/
structure Sound (w : Site) : Prop where
  slots : ∀ name v, w.scopes.lookup name = some v →
    (w.target = .initializer → ∃ i, v.handle = .field i) → w.Offers v
  functions : ∀ name f n, w.functions.lookup name = some f → f.body = .routine n →
    ∃ r, w.program.image.routines[n.toNat]? = some r ∧ r.params = f.params ∧ r.returns = f.returns

/-- A memory is consistent with what its slots are there for, the words of all arrays being of
their types. -/
structure Consistent (w : Site) (H : Heap) (m : Memory) : Prop where
  store : m.store.Fits w.program.tree.plan H
  args : SlotsFit H w.args m.args
  locals : SlotsFit H w.locals m.locals

/-- A state of generation in which the same names are known, no further back than the piece of code
begins. -/
structure Fits (w : Site) (g : Generator) : Prop where
  scopes : g.scopes = w.scopes
  functions : g.functions = w.functions
  legacy : g.legacy = w.legacy
  first : w.first ≤ (g.draft w.target).position

/-- The stream begins with a draft, which is no longer than to the end of the piece of code. -/
structure Continues (w : Site) (d : Draft) : Prop where
  code : w.code.Continues d
  last : d.position ≤ w.last

/-! ## What calls do -/

/-- The frame is at an instruction of the piece of code, or it waits for a call. -/
def Within (w : Site) (c : Calls) : Prop :=
  (c.callers = w.callers ∧ w.first ≤ c.top.position ∧ c.top.position < w.last) ∨
    ∃ f, f :: w.callers <:+ c.callers

/-- Calls come to something after some instructions, and do not leave the piece of code before. -/
def Passes (w : Site) (n : Nat) (c : Calls) (x : Progress) : Prop :=
  Calls.advance w.program.image 0 n (.active c) = x ∧
    ∀ k < n, ∃ c', Calls.advance w.program.image 0 k (.active c) = .active c' ∧ w.Within c'

/-- Calls come to something. -/
def Reaches (w : Site) (c : Calls) (x : Progress) : Prop := ∃ n, w.Passes n c x

/-- Calls do what an evaluation says: they come to `dest`, where `Q` holds, or fail, or run on for
as many instructions as a call may take. Before that they do not leave the piece of code. -/
def Does {α : Type} (w : Site) (c : Calls) (x : Option (Except MachineError α × Memory))
    (dest : α → Memory → Progress) (Q : α → Memory → Prop) : Prop :=
  match x with
  | some (.ok a, m) => w.Reaches c (dest a m) ∧ Q a m
  | some (.error e, m) => w.Reaches c (.done (.error e) m.store)
  | none => ∃ n c', w.fuel ≤ n ∧ w.Passes n c (.active c')

/-- The memory is consistent still, and there may be more arrays. -/
def Keeps (w : Site) (H : Heap) (m : Memory) (q : Heap → Prop) : Prop :=
  ∃ H', w.Consistent H' m ∧ H <+: H' ∧ q H'

/-- Calls do what the evaluation of an expression of a type says: they get to the position `p` with
its value above the stack `s`. -/
def Yields (w : Site) (H : Heap) (type : ExprType) (p : Nat) (s : List Value) (c : Calls)
    (x : Option (Except MachineError Value × Memory)) : Prop :=
  w.Does c x (fun v m => .active (w.stand p (v :: s) m))
    fun v m => w.Keeps H m fun H' => ∀ k ∈ type.cells, v.Fits H' True k

/-- Running the code that `m` generates, from any stack, does what `ev` says. -/
def Computes (w : Site) (m : Gen ExprType) (ev : Eval Value) : Prop :=
  ∀ g type g' H mem s, w.Fits g → Gen.Makes m g type g' → type.hasValue = true →
    w.Continues (g'.draft w.target) → w.Consistent H mem →
    w.Yields H type (g'.draft w.target).position s (w.stand (g.draft w.target).position s mem)
      (ev.run.run mem)

variable {w : Site} {c c₁ : Calls} {x : Progress}

/-! ## Composition -/

theorem Passes.zero (w : Site) (c : Calls) : w.Passes 0 c (.active c) :=
  ⟨rfl, fun _ h => absurd h (Nat.not_lt_zero _)⟩

theorem Passes.one (hc : w.Within c) (h : Calls.advance w.program.image 0 1 (.active c) = x) :
    w.Passes 1 c x := by
  refine ⟨h, fun k hk => ?_⟩
  obtain rfl : k = 0 := by omega
  exact ⟨c, rfl, hc⟩

theorem Passes.trans {m n : Nat} (h : w.Passes m c (.active c₁)) (h' : w.Passes n c₁ x) :
    w.Passes (m + n) c x := by
  refine ⟨by rw [Calls.advance_add, h.1, h'.1], fun k hk => ?_⟩
  by_cases hm : k < m
  · exact h.2 k hm
  · obtain ⟨j, rfl⟩ := Nat.exists_eq_add_of_le (Nat.not_lt.mp hm)
    rw [Calls.advance_add, h.1]
    exact h'.2 j (by omega)

theorem Reaches.refl (w : Site) (c : Calls) : w.Reaches c (.active c) := ⟨0, .zero w c⟩

theorem Reaches.trans (h : w.Reaches c (.active c₁)) (h' : w.Reaches c₁ x) : w.Reaches c x := by
  obtain ⟨m, hm⟩ := h
  obtain ⟨n, hn⟩ := h'
  exact ⟨m + n, hm.trans hn⟩

section

variable {α β : Type} {x : Option (Except MachineError α × Memory)} {dest : α → Memory → Progress}
  {stop : α → Memory → Calls} {Q Q' : α → Memory → Prop} {dest' : β → Memory → Progress}
  {R : β → Memory → Prop} {ev : Eval α} {f : α → Eval β} {m : Memory}

/-- First calls get somewhere, and from there they do what an evaluation says. -/
theorem Does.after (h : w.Does c₁ x dest Q) (hr : w.Reaches c (.active c₁)) :
    w.Does c x dest Q := by
  obtain ⟨k, hk⟩ := hr
  match x, h with
  | some (.ok a, m), ⟨hreach, hq⟩ => exact ⟨Reaches.trans ⟨k, hk⟩ hreach, hq⟩
  | some (.error e, m), h => exact Reaches.trans ⟨k, hk⟩ h
  | none, ⟨n, c', hle, hn⟩ =>
    exact ⟨k + n, c', Nat.le_trans hle (Nat.le_add_left n k), hk.trans hn⟩

/-- First one evaluation, then what there is to do where that leads to. -/
theorem Does.bind_reached (h : w.Does c (ev.run.run m) dest Q)
    (hf : ∀ a m', w.Reaches c (dest a m') → Q a m' → w.Does c ((f a).run.run m') dest' R) :
    w.Does c ((ev >>= f).run.run m) dest' R := by
  rcases hev : ev.run.run m with - | ⟨e | a, m'⟩ <;> rw [hev] at h
  · rw [Eval.run_bind_none hev]
    exact h
  · rw [Eval.run_bind_error hev]
    exact h
  · rw [Eval.run_bind_ok hev]
    exact hf a m' h.1 h.2

/-- First one evaluation, then the other. -/
theorem Does.bind (h : w.Does c (ev.run.run m) (fun a m => .active (stop a m)) Q)
    (hf : ∀ a m', Q a m' → w.Does (stop a m') ((f a).run.run m') dest' R) :
    w.Does c ((ev >>= f).run.run m) dest' R :=
  h.bind_reached fun a m' hr hq => (hf a m' hq).after hr

theorem Does.pure {a : α} (hr : w.Reaches c (dest a m)) (hq : Q a m) :
    w.Does c ((pure a : Eval α).run.run m) dest Q := ⟨hr, hq⟩

/-- The same with something else said of what is come to. -/
theorem Does.imp_of_eq (h : w.Does c x dest Q)
    (hq : ∀ a m, x = some (.ok a, m) → Q a m → Q' a m) : w.Does c x dest Q' := by
  match x, h with
  | some (.ok a, m), ⟨hreach, h⟩ => exact ⟨hreach, hq a m rfl h⟩
  | some (.error e, m), h => exact h
  | none, h => exact h

theorem Does.imp (h : w.Does c x dest Q) (hq : ∀ a m, Q a m → Q' a m) :
    w.Does c x dest Q' := h.imp_of_eq fun a m _ => hq a m

end

/-! ## Consistent memories -/

section

variable {H H' : Heap} {m m' : Memory} {q : Heap → Prop}

theorem Keeps.of_consistent (h : w.Consistent H m) (hq : q H) : w.Keeps H m q :=
  ⟨H, h, List.prefix_rfl, hq⟩

theorem Keeps.trans (h : w.Keeps H' m q) (hH : H <+: H') : w.Keeps H m q := by
  obtain ⟨H'', hm, hH', hq⟩ := h
  exact ⟨H'', hm, hH.trans hH', hq⟩

theorem slotsFit_nil (vs : Array Value) : SlotsFit H [] vs := fun i s h => by simp at h

/-- Where one variable is visible and no function, the names mean something. -/
theorem sound_of_single {key : String} {v : Symbol}
    (hscopes : w.scopes = ⟨[], Scope.empty.insert key v⟩) (hfunctions : w.functions = .new)
    (hv : w.Offers v) : w.Sound := by
  refine ⟨fun name v' hv' _ => ?_, fun name f n hf hbody => ?_⟩
  · rw [hscopes] at hv'
    exact Scopes.eq_of_lookup_single hv' ▸ hv
  · rw [hfunctions] at hf
    exact absurd hbody (Functions.not_routine_of_new hf)

/-- A memory with one array, which is the only field. -/
theorem consistent_of_single {t : WordType} {words : Array Int32}
    (hfields : w.program.tree.plan.fields = [.ofArray t]) (hargs : w.args = [])
    (hlocals : w.locals = []) (hwords : ∀ x ∈ words, t.Valid x)
    (hm : m.store.fields = #[.array 0] ∧ m.store.arrays = #[words]) : w.Consistent [t] m := by
  refine ⟨⟨?_, fun i s v hs hv => ?_, ?_, fun ref u ws hu hws => ?_⟩, hargs ▸ slotsFit_nil _,
    hlocals ▸ slotsFit_nil _⟩
  · rw [hm.1, hfields]
    rfl
  · rw [hm.1] at hv
    rw [hfields] at hs
    obtain rfl : i = 0 := Nat.lt_one_iff.mp (Array.getElem?_eq_some_iff.mp hv).1
    cases hs
    cases hv
    exact .inl ⟨0, rfl, rfl⟩
  · rw [hm.2]
    rfl
  · rw [hm.2] at hws
    obtain rfl : ref = 0 := Nat.lt_one_iff.mp (List.getElem?_eq_some_iff.mp hu).1
    cases hu
    cases hws
    exact hwords

theorem slotsFit_mono {slots : List Slot} {vs : Array Value} (h : SlotsFit H slots vs)
    (hH : H <+: H') : SlotsFit H' slots vs := by
  intro i s hs
  obtain ⟨v, hv, hfits⟩ := h i s hs
  exact ⟨v, hv, hfits.mono hH id⟩

/-- What a call does to the store. -/
theorem Consistent.evolve (h : w.Consistent H m) {st : Store} (hst : st.Fits w.program.tree.plan H')
    (hH : H <+: H') : w.Consistent H' { m with store := st } :=
  ⟨hst, slotsFit_mono h.args hH, slotsFit_mono h.locals hH⟩

/-- The random stream, the input and the output are no part of what is consistent. -/
theorem Consistent.congr (h : w.Consistent H m) (st : Store) (hf : st.fields = m.store.fields)
    (ha : st.arrays = m.store.arrays) : w.Consistent H { m with store := st } :=
  h.evolve (h.store.congr st hf ha).1 List.prefix_rfl

/-- A variable's slot holds what the variable says. -/
theorem Consistent.read (h : w.Consistent H m) {v : Symbol} (hv : w.Offers v) :
    ∃ x, m.get? v.handle = some x ∧ x.Fits H True (.ofSlot v.slot) := by
  unfold Offers at hv
  unfold Memory.get?
  cases hh : v.handle with
  | field i =>
    rw [hh] at hv
    exact h.store.field hv
  | «local» i =>
    rw [hh] at hv
    exact h.locals _ _ hv
  | argument i =>
    rw [hh] at hv
    exact h.args _ _ hv

end

/-! ## Code -/

section

variable {α : Type} {g g' : Generator} {m : Gen α} {a : α}

/-- What only adds code leaves all names known. -/
theorem Fits.extends (h : w.Fits g) (hm : Gen.Extends w.target m) (hg : Gen.Makes m g a g') :
    w.Fits g' := by
  obtain ⟨d, rfl, hgrows⟩ := hm g a g' hg
  refine ⟨by simp [h.scopes], by simp [h.functions], by simp [h.legacy], ?_⟩
  rw [Generator.draft_onDraft]
  exact h.first.trans hgrows.position

end

end Site

theorem Code.Continues.mono {c : Code} {d d' : Draft} (h : c.Continues d') (hd : d.Extended d') :
    c.Continues d :=
  ⟨h.addressable.of_longer hd.longer, hd.longer.instructions.trans h.instructions,
    fun l p hl => h.labels l p ((hd.grows h.addressable.labels).label hl)⟩

/-- A stream is as long as its beginning or longer. -/
theorem Code.Continues.position_le {c : Code} {d : Draft} (h : c.Continues d) :
    d.position ≤ c.instructions.size := by
  have hle := h.instructions.length_le
  rwa [Array.length_toList, Array.length_toList] at hle

/-- The instruction that a draft was continued with. -/
theorem Code.Continues.getElem? {c : Code} {d : Draft} {i : Instruction}
    (h : c.Continues (d.emit i)) :
    c.instructions[d.position]? = some i := by
  rw [← Array.getElem?_toList]
  refine getElem?_mono h.instructions ?_
  simp [Draft.emit, Draft.position]

namespace Site

variable {w : Site}

/-- What was there before some code was added. -/
theorem Continues.extends {α : Type} {g g' : Generator} {m : Gen α} {a : α}
    (h : w.Continues (g'.draft w.target)) (hm : Gen.Extends w.target m) (hg : Gen.Makes m g a g') :
    w.Continues (g.draft w.target) := by
  obtain ⟨d, rfl, hgrows⟩ := hm g a g' hg
  rw [Generator.draft_onDraft] at h
  exact ⟨h.code.mono hgrows, hgrows.position.trans h.last⟩

/-! ## Instructions -/

section

variable {i : Instruction} {p q : Nat} {s s' : List Value} {m m' : Memory} {e : MachineError}

/-- What calls come to when the instruction of the frame on top has come to something. -/
def after (w : Site) : Except MachineError Transfer × Context → Progress
  | (.error e, c) => .done (.error e) c.store
  | (.ok .onward, c) => .active ⟨c.frame, w.callers, c.store⟩
  | (.ok (.call callee), c) =>
    if w.callers.length + 1 = maxDepth then .done (.error .stackOverflow) c.store
    else .active ⟨callee, c.frame :: w.callers, c.store⟩
  | (.ok (.ret v), c) => Calls.leave ⟨c.frame, w.callers, c.store⟩ v

theorem advance_one (hi : w.code.instructions[p]? = some i)
    {out : Except MachineError Transfer × Context}
    (ho : Exec.outcome w.program.image i ((w.context (p + 1) m).withStack s) = out) :
    Calls.advance w.program.image 0 1 (.active (w.stand p s m)) = w.after out := by
  have hrun : (Exec.next w.program.image).run.run ((w.context p m).withStack s) = out :=
    (Exec.run_next hi).trans ho
  rw [Calls.advance_succ, Calls.advance_zero]
  unfold Calls.step stand after
  dsimp only
  rw [Nat.zero_add, show (Exec.next w.program.image).run.run ⟨⟨w.name, w.code, p, m.args, m.locals,
    s⟩, m.store⟩ =
    out from hrun]
  rcases out with ⟨e | transfer, c⟩
  · rfl
  · cases transfer <;> rfl

/-- What an instruction of the piece of code comes to. -/
theorem passes_one (hp : w.first ≤ p ∧ p < w.last) (hi : w.code.instructions[p]? = some i)
    {out : Except MachineError Transfer × Context}
    (ho : Exec.outcome w.program.image i ((w.context (p + 1) m).withStack s) = out) :
    w.Passes 1 (w.stand p s m) (w.after out) := .one (.inl ⟨rfl, hp⟩) (advance_one hi ho)

/-- An instruction behind which the frame goes on. -/
theorem reaches_of_outcome (hp : w.first ≤ p ∧ p < w.last) (hi : w.code.instructions[p]? = some i)
    (ho : Exec.outcome w.program.image i ((w.context (p + 1) m).withStack s) =
      (.ok .onward, (w.context q m').withStack s')) :
    w.Reaches (w.stand p s m) (.active (w.stand q s' m')) := ⟨1, passes_one hp hi ho⟩

/-- An instruction that fails. -/
theorem fails_of_outcome (hp : w.first ≤ p ∧ p < w.last) (hi : w.code.instructions[p]? = some i)
    (ho : Exec.outcome w.program.image i ((w.context (p + 1) m).withStack s) =
      (.error e, (w.context q m').withStack s')) :
    w.Reaches (w.stand p s m) (.done (.error e) m'.store) := ⟨1, passes_one hp hi ho⟩

variable {g g' : Generator} {u : Unit}

/-- Where the code of a generator that emits one instruction stands. -/
theorem within_emit (hf : w.Fits g) (hm : Gen.Makes (Gen.emit w.target i) g u g')
    (hcode : w.Continues (g'.draft w.target)) :
    (w.first ≤ (g.draft w.target).position ∧ (g.draft w.target).position < w.last) ∧
      w.code.instructions[(g.draft w.target).position]? = some i := by
  obtain rfl := Gen.makes_emit.mp hm
  rw [Generator.draft_onDraft] at hcode
  have hlast := hcode.last
  rw [Draft.position_emit] at hlast
  exact ⟨⟨hf.first, hlast⟩, hcode.code.getElem?⟩

theorem reaches_emit (hf : w.Fits g) (hm : Gen.Makes (Gen.emit w.target i) g u g')
    (hcode : w.Continues (g'.draft w.target))
    (ho : ∀ p, Exec.outcome w.program.image i ((w.context p m).withStack s) =
      (.ok .onward, (w.context p m').withStack s')) :
    w.Reaches (w.stand (g.draft w.target).position s m)
      (.active (w.stand (g'.draft w.target).position s' m')) := by
  obtain ⟨hp, hi⟩ := within_emit hf hm hcode
  obtain rfl := Gen.makes_emit.mp hm
  rw [Generator.draft_onDraft, Draft.position_emit]
  exact reaches_of_outcome hp hi (ho _)

theorem fails_emit (hf : w.Fits g) (hm : Gen.Makes (Gen.emit w.target i) g u g')
    (hcode : w.Continues (g'.draft w.target))
    (ho : ∀ p, Exec.outcome w.program.image i ((w.context p m).withStack s) =
      (.error e, (w.context p m').withStack s')) :
    w.Reaches (w.stand (g.draft w.target).position s m) (.done (.error e) m'.store) := by
  obtain ⟨hp, hi⟩ := within_emit hf hm hcode
  exact fails_of_outcome hp hi (ho _)

end

end Site

end OnePass
