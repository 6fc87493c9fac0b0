import OnePass.Proofs.ProgramPlan
import OnePass.Proofs.ScopeStack

/-!
# What declarations add

A declaration gives its variable a slot, makes it visible, and then adds code that makes the slot
ready (`Declarator.makes_symbol`). What was finished before stays as it was (`Generator.Later`);
so if 32 bits are enough for the streams of a state, they were enough in all states before it.
-/

namespace OnePass

/-! ## Visible variables -/

namespace Scopes

/-- The variable `v` is in one of the open scopes, perhaps hidden. -/
def Has (s : Scopes) (v : Symbol) : Prop :=
  ∃ c ∈ s.inner ++ [s.global], ∃ name, (name, v) ∈ c.symbols

variable {s s' : Scopes} {v w : Symbol}

/-- What is looked up is visible. -/
theorem has_of_lookup {name : String} (h : s.lookup name = some v) : s.Has v := by
  obtain ⟨c, hc, hv⟩ := List.exists_of_findSome?_eq_some h
  obtain ⟨l₁, l₂, hl, -⟩ := List.lookup_eq_some_iff.mp hv
  exact ⟨c, hc, name, hl ▸ List.mem_append_right _ (.head _)⟩

/-- A new scope has no variable. -/
theorem has_push : s.push.Has v ↔ s.Has v := by
  constructor
  · rintro ⟨c, hc, name, hv⟩
    rcases List.mem_cons.mp hc with rfl | hc
    · cases hv
    · exact ⟨c, hc, name, hv⟩
  · rintro ⟨c, hc, name, hv⟩
    exact ⟨c, .tail _ hc, name, hv⟩

/-- What is visible without the innermost scope is visible with it. -/
theorem Has.of_pop (h : s.pop.Has v) : s.Has v := by
  obtain ⟨c, hc, name, hv⟩ := h
  exact ⟨c, ((List.tail_sublist s.inner).append_right _).subset hc, name, hv⟩

/-- The innermost scope gets one variable more, and nothing else changes. -/
theorem define_ok {name : Name} {type : WordType} {storage : Storage} {shape : Shape}
    {handle : Handle} (h : s.define name type storage shape handle = .ok (v, s')) :
    v = ⟨type, storage, s.count storage, shape, handle⟩ ∧
      s' = s.withCurrent (s.current.insert name.value v) := by
  unfold define at h
  split at h
  · cases h
  · obtain ⟨rfl, rfl⟩ := Prod.mk.inj (Except.ok.inj h)
    exact ⟨rfl, rfl⟩

/-- A variable that is visible was so before or is the new one. -/
theorem Has.of_insert {name : String} (h : (s.withCurrent (s.current.insert name v)).Has w) :
    w = v ∨ s.Has w := by
  obtain ⟨c, hc, key, hw⟩ := h
  have hinsert (d : Scope) (hd : d ∈ s.inner ++ [s.global])
      (hw : (key, w) ∈ (d.insert name v).symbols) : w = v ∨ s.Has w := by
    rcases List.mem_cons.mp hw with heq | hw
    · exact .inl (Prod.mk.inj heq).2
    · exact .inr ⟨d, hd, key, hw⟩
  cases hi : s.inner with
  | nil =>
    simp only [withCurrent, current, hi, List.nil_append, List.headD_nil, List.mem_singleton] at hc
    exact hinsert s.global (by simp) (hc ▸ hw)
  | cons d outer =>
    simp only [withCurrent, current, hi, List.headD_cons, List.cons_append, List.mem_cons] at hc
    rcases hc with rfl | hc
    · exact hinsert d (by simp [hi]) hw
    · exact .inr ⟨c, by simpa [hi] using Or.inr hc, key, hw⟩

theorem has_insert {name : String} : (s.withCurrent (s.current.insert name v)).Has v := by
  cases hi : s.inner with
  | nil => exact ⟨s.global.insert name v, by simp [withCurrent, current, hi], name, .head _⟩
  | cons d outer => exact ⟨d.insert name v, by simp [withCurrent, current, hi], name, .head _⟩

/-- The local slots of the arrays in the open scopes. -/
def localArrays (s : Scopes) : Set Nat :=
  {i | ∃ v, s.Has v ∧ v.isArray = true ∧ ∃ n : UInt32, v.handle = .local n ∧ n.toNat = i}

end Scopes

/-- The part of a declaration behind the name: an array is made, and the initialiser is
computed. -/
def prepareCode (t : Target) (v : Symbol) (init : Option Expr) : Gen Unit := do
  match v.shape with
  | .array (some length) =>
    Gen.emit t (.newArray length)
    Gen.store t v
  | _ => pure ()
  match init with
  | none => return ()
  | some init => Gen.initialise t v init

/-- A declared variable is one word, or an array of known length. -/
def Symbol.Declared (v : Symbol) : Prop :=
  v.shape = .scalar ∧ v.isArray = false ∨ ∃ n, v.shape = .array (some n) ∧ v.isArray = true

section Prepare

theorem extends_initialise (t : Target) (v : Symbol) (init : Expr) :
    Gen.Extends t (Gen.initialise t v init) := by
  have hvalue := (Expr.operand_extends t init).compileAs (.scalar v.type)
  unfold Gen.initialise Gen.fill
  split
  · exact Gen.extends_forBelow (fun k => (Gen.extends_load v).bind fun _ =>
      (Gen.extends_emit _).bind fun _ => hvalue.bind fun _ => Gen.extends_emit _) 0 _
  · exact hvalue.bind fun _ => Gen.extends_store v

/-- To make a variable ready is code of its target. -/
theorem extends_prepareCode (t : Target) (v : Symbol) (init : Option Expr) :
    Gen.Extends t (prepareCode t v init) := by
  have hinit : Gen.Extends t (match init with
      | none => return ()
      | some init => Gen.initialise t v init) := by
    cases init with
    | none => exact Gen.extends_pure _
    | some init => exact extends_initialise t v init
  unfold prepareCode
  dsimp only
  split
  · exact (Gen.extends_emit _).bind fun _ => (Gen.extends_store v).bind fun _ => hinit
  · exact hinit

end Prepare

/-! ## Declarators -/

/-- What a function is, however many local slots it uses. -/
def Current.head (f : Current) : String × List Slot × Option WordType :=
  (f.name, f.params, f.returns)

namespace Gen

variable {g g' : Generator}

/-- A definition adds a variable to the innermost scope, with the next number of its storage. -/
theorem makes_define {name : Name} {type : WordType} {storage : Storage} {shape : Shape}
    {handle : Handle} {v : Symbol} (h : Makes (define name type storage shape handle) g v g') :
    v = ⟨type, storage, g.scopes.count storage, shape, handle⟩ ∧
      g' = { g with scopes := g.scopes.withCurrent (g.scopes.current.insert name.value v) } := by
  simp only [define, makes_bind, makes_get, makes_lift, makes_set, makes_pure] at h
  obtain ⟨_, _, ⟨rfl, rfl⟩, ⟨v', scopes⟩, _, ⟨hd, rfl⟩, _, _, rfl, rfl, rfl⟩ := h
  obtain ⟨rfl, rfl⟩ := Scopes.define_ok hd
  exact ⟨rfl, rfl⟩

/-- A field is added behind the others. -/
theorem makes_addField {name : String} {slot : Slot} {i : UInt32}
    (h : Makes (addField name slot) g i g') :
    i = .ofNat g.fields.size ∧ g' = { g with fields := g.fields.push ⟨name, slot⟩ } := by
  simp only [addField, makes_bind, makes_get, makes_set, makes_pure] at h
  obtain ⟨_, _, ⟨rfl, rfl⟩, _, _, rfl, rfl, rfl⟩ := h
  exact ⟨rfl, rfl⟩

/-- A local slot is the next one of the function. -/
theorem makes_addLocal {i : UInt32} {f : Current} (hf : g.current = some f)
    (h : Makes addLocal g i g') :
    i = f.locals ∧ g' = { g with current := some { f with locals := f.locals + 1 } } := by
  simp only [addLocal, makes_bind, makes_get] at h
  obtain ⟨_, _, ⟨rfl, rfl⟩, h⟩ := h
  rw [hf] at h
  simp only [makes_bind, makes_set, makes_pure] at h
  obtain ⟨_, _, rfl, rfl, rfl⟩ := h
  exact ⟨rfl, rfl⟩

/-- In a function or not, a new slot for a local variable changes nothing but the number of slots of
the current function. -/
theorem current_of_addLocal {i : UInt32} (h : Makes addLocal g i g') :
    ∃ current, current.map Current.head = g.current.map Current.head ∧
      g' = { g with current } := by
  cases hf : g.current with
  | none =>
    simp only [addLocal, makes_bind, makes_get] at h
    obtain ⟨_, _, ⟨rfl, rfl⟩, h⟩ := h
    rw [hf] at h
    obtain ⟨-, rfl⟩ := makes_pure.mp h
    exact ⟨none, rfl, by rw [← hf]⟩
  | some f =>
    obtain ⟨-, rfl⟩ := makes_addLocal hf h
    exact ⟨some { f with locals := f.locals + 1 }, rfl, rfl⟩

end Gen

namespace Declarator

variable {g g' : Generator} {d : Declarator} {type : WordType} {u : Unit}

/-- The shape of a declared variable, whose length is not too small. -/
def declaredShape (d : Declarator) : Shape :=
  match d.length with
  | none => .scalar
  | some n => .array (some n.value.toUInt32)

/-- A shape is read off the declarator. -/
theorem makes_shape {shape : Shape} (h : Gen.Makes d.shape g shape g') :
    g' = g ∧ shape = d.declaredShape := by
  unfold Declarator.shape at h
  unfold declaredShape
  generalize d.length = length at h ⊢
  cases length with
  | none =>
    obtain ⟨rfl, rfl⟩ := Gen.makes_pure.mp h
    exact ⟨rfl, rfl⟩
  | some n =>
    dsimp only at h
    split at h
    · exact absurd h Gen.not_makes_fail
    · obtain ⟨rfl, rfl⟩ := Gen.makes_pure.mp h
      exact ⟨rfl, rfl⟩

/-- What a variable is that is declared. -/
theorem symbol_declared {v : Symbol} (ht : v.type = type) (hs : v.shape = d.declaredShape) :
    v.slot = d.slot type ∧ v.Declared ∧ v.isArray = decide (v.shape ≠ .scalar) := by
  unfold declaredShape at hs
  cases hl : d.length with
  | none =>
    rw [hl] at hs
    have ha : v.isArray = false := by rw [Symbol.isArray, hs]
    refine ⟨?_, .inl ⟨hs, ha⟩, by rw [ha, hs]; rfl⟩
    rw [Symbol.slot, slot, ha, hl, ht]
    rfl
  | some n =>
    rw [hl] at hs
    have ha : v.isArray = true := by rw [Symbol.isArray, hs]
    refine ⟨?_, .inr ⟨_, hs, ha⟩, by rw [ha, hs]; rfl⟩
    rw [Symbol.slot, slot, ha, hl, ht]
    rfl

/-- A declaration gives its variable a slot, makes it visible, as what it is, and makes the slot
ready. -/
theorem makes_symbol {static : Bool} (h : Gen.Makes (d.compile type static) g u g') :
    ∃ v storage t g₁, v = ⟨type, storage, g₁.scopes.count storage, d.declaredShape, v.handle⟩ ∧
      Gen.Makes (d.allocate v.slot static) g (storage, v.handle, t) g₁ ∧
      Gen.Makes (prepareCode t v d.init) { g₁ with
        scopes := g₁.scopes.withCurrent (g₁.scopes.current.insert d.name.value v) } ⟨⟩ g' := by
  obtain ⟨shape, g₀, hshape, h₁⟩ := Gen.makes_bind.mp h
  obtain ⟨⟨storage, handle, t⟩, g₁, hallocate, h₂⟩ := Gen.makes_bind.mp h₁
  obtain ⟨v, g₂, hdefine, h₃⟩ := Gen.makes_bind.mp h₂
  obtain ⟨rfl, hs⟩ := makes_shape hshape
  obtain ⟨hv, rfl⟩ := Gen.makes_define hdefine
  have hvs : v.shape = shape := by rw [hv]
  obtain ⟨-, -, harray⟩ := symbol_declared (d := d) (show v.type = type by rw [hv]) (hvs.trans hs)
  refine ⟨v, storage, t, g₁, by rw [hv, ← hs], ?_, ?_⟩
  · rw [Symbol.slot, harray, hv]
    exact hallocate
  · unfold prepareCode
    rw [hvs]
    exact h₃

/-- A declaration gives its variable a slot, makes it visible, and makes the slot ready. -/
theorem makes_compile {static : Bool} (h : Gen.Makes (d.compile type static) g u g') :
    ∃ v storage t g₁ g₂, v.slot = d.slot type ∧ v.Declared ∧
      Gen.Makes (d.allocate v.slot static) g (storage, v.handle, t) g₁ ∧
      g₂ = { g₁ with
        scopes := g₁.scopes.withCurrent (g₁.scopes.current.insert d.name.value v) } ∧
      Gen.Makes (prepareCode t v d.init) g₂ ⟨⟩ g' := by
  obtain ⟨v, storage, t, g₁, hv, hallocate, hprepare⟩ := makes_symbol h
  obtain ⟨hslot, hdeclared, -⟩ :=
    symbol_declared (d := d) (show v.type = type by rw [hv]) (by rw [hv])
  exact ⟨v, storage, t, g₁, _, hslot, hdeclared, hallocate, rfl, hprepare⟩

/-- A static variable is a new field, initialised before the program. -/
theorem makes_allocate_static {slot : Slot} {storage : Storage} {handle : Handle} {t : Target}
    {f : Current} (hi : g.scopes.isGlobal = false) (hf : g.current = some f)
    (h : Gen.Makes (d.allocate slot true) g (storage, handle, t) g') :
    storage = .static ∧ ∃ n name, handle = .field n ∧ n = .ofNat g.fields.size ∧ t = .initializer ∧
      g' = { g with fields := g.fields.push ⟨name, slot⟩ } := by
  simp only [allocate, Gen.allocate, Gen.makes_bind, Gen.makes_get] at h
  obtain ⟨_, _, ⟨rfl, rfl⟩, h⟩ := h
  rw [hi, hf] at h
  simp only [Gen.makes_bind, Gen.makes_pure] at h
  obtain ⟨n, g₁, hn, h₁, rfl⟩ := h
  obtain ⟨hsize, rfl⟩ := Gen.makes_addField hn
  obtain ⟨rfl, rfl, rfl⟩ := by simpa using h₁
  exact ⟨rfl, n, _, rfl, hsize, rfl, rfl⟩

/-- Outside all functions a variable is a new field as well. -/
theorem makes_allocate_global {slot : Slot} {static : Bool} {storage : Storage} {handle : Handle}
    {t : Target} (hi : g.scopes.isGlobal = true)
    (h : Gen.Makes (d.allocate slot static) g (storage, handle, t) g') :
    storage = .global ∧ ∃ n name, handle = .field n ∧ n = .ofNat g.fields.size ∧ t = .initializer ∧
      g' = { g with fields := g.fields.push ⟨name, slot⟩ } := by
  simp only [allocate, Gen.allocate, Gen.makes_bind, Gen.makes_get] at h
  obtain ⟨_, _, ⟨rfl, rfl⟩, h⟩ := h
  rw [hi] at h
  simp only [Gen.makes_bind, Gen.makes_pure] at h
  obtain ⟨n, g₁, hn, h₁, rfl⟩ := h
  obtain ⟨hsize, rfl⟩ := Gen.makes_addField hn
  obtain ⟨rfl, rfl, rfl⟩ := by simpa using h₁
  exact ⟨rfl, n, _, rfl, hsize, rfl, rfl⟩

/-- Any other variable is a new local slot, initialised where it is declared. -/
theorem makes_allocate_local {slot : Slot} {storage : Storage} {handle : Handle} {t : Target}
    {f : Current} (hi : g.scopes.isGlobal = false) (hf : g.current = some f)
    (h : Gen.Makes (d.allocate slot false) g (storage, handle, t) g') :
    storage = .local ∧ handle = .local f.locals ∧ t = .function ∧
      g' = { g with current := some { f with locals := f.locals + 1 } } := by
  simp only [allocate, Gen.allocate, Gen.makes_bind, Gen.makes_get] at h
  obtain ⟨_, _, ⟨rfl, rfl⟩, h⟩ := h
  rw [hi, hf] at h
  simp only [Gen.makes_bind, Gen.makes_pure] at h
  obtain ⟨n, g₁, hn, h₁, rfl⟩ := h
  obtain ⟨rfl, rfl⟩ := Gen.makes_addLocal hf hn
  obtain ⟨rfl, rfl, rfl⟩ := by simpa using h₁
  exact ⟨rfl, rfl, rfl, rfl⟩

end Declarator

/-- Outside all functions a declaration does not touch the function before it. -/
theorem Declarator.makes_global {g g' : Generator} {d : Declarator} {type : WordType}
    {static : Bool}
    (hi : g.scopes.isGlobal = true) (h : Gen.Makes (d.compile type static) g ⟨⟩ g') :
    g'.scopes.isGlobal = true ∧ g'.current = g.current ∧ g'.body = g.body ∧
      g'.routines = g.routines := by
  obtain ⟨v, storage, t, g₁, -, hallocate, hprepare⟩ := Declarator.makes_symbol h
  obtain ⟨-, i, name, -, -, rfl, rfl⟩ := Declarator.makes_allocate_global hi hallocate
  obtain ⟨d', rfl, -⟩ := extends_prepareCode _ v d.init _ _ _ hprepare
  exact ⟨(Scopes.isGlobal_withCurrent _).trans hi, rfl, rfl, rfl⟩

/-- A global declaration begins and ends no function. -/
theorem Declaration.makes_global {g g' : Generator} {d : Declaration}
    (hi : g.scopes.isGlobal = true)
    (h : Gen.Makes d.compile g ⟨⟩ g') : g'.scopes.isGlobal = true ∧ g'.current = g.current ∧
      g'.body = g.body ∧ g'.routines = g.routines := by
  unfold Declaration.compile at h
  generalize d.items = items at h
  induction items generalizing g with
  | nil =>
    obtain rfl := Gen.makes_forM_nil.mp h
    exact ⟨hi, rfl, rfl, rfl⟩
  | cons i items ih =>
    obtain ⟨g₁, h₁, h₂⟩ := Gen.makes_forM_cons.mp h
    obtain ⟨hi₁, hc₁, hb₁, hr₁⟩ := Declarator.makes_global hi h₁
    obtain ⟨hi', hc', hb', hr'⟩ := ih hi₁ h₂
    exact ⟨hi', hc'.trans hc₁, hb'.trans hb₁, hr'.trans hr₁⟩

/-! ## What stays -/

/-- The state `g'` is behind the state `g`: what does not change once it is there is there, no code
has been lost, and behind the beginning of a function there is always a current one. -/
structure Generator.Later (g g' : Generator) : Prop where
  legacy : g'.legacy = g.legacy
  routines : g.routines.toList <+: g'.routines.toList
  fields : g.fields.toList <+: g'.fields.toList
  initializer : g.initializer.Extended g'.initializer
  current : g.current.isSome → g'.current.isSome
  addressable : g'.Addressable → g.Addressable

section

variable {g g₁ g' : Generator}

/-- At most the code of the function has become longer. -/
theorem Generator.Later.of_longer (hl : g'.legacy = g.legacy) (hr : g'.routines = g.routines)
    (hf : g'.fields = g.fields) (hi : g'.initializer = g.initializer)
    (hc : g'.current = g.current) (hb : g.body.Longer g'.body) : g.Later g' :=
  ⟨hl, hr ▸ List.prefix_rfl, hf ▸ List.prefix_rfl, hi ▸ .refl _, fun h => hc ▸ h,
    fun h => ⟨hi ▸ h.initializer, h.body.of_longer hb, hr ▸ h.routines⟩⟩

/-- Nothing of it has changed. -/
theorem Generator.Later.of_eq (hl : g'.legacy = g.legacy) (hr : g'.routines = g.routines)
    (hf : g'.fields = g.fields) (hi : g'.initializer = g.initializer)
    (hc : g'.current = g.current) (hb : g'.body = g.body) : g.Later g' :=
  .of_longer hl hr hf hi hc (hb ▸ .refl _)

/-- A state is no later than itself. -/
theorem Generator.Later.refl (g : Generator) : g.Later g := .of_eq rfl rfl rfl rfl rfl rfl

/-- What is later than later is later. -/
theorem Generator.Later.trans (h : g.Later g₁) (h' : g₁.Later g') : g.Later g' :=
  ⟨h'.legacy.trans h.legacy, h.routines.trans h'.routines, h.fields.trans h'.fields,
    h.initializer.trans h'.initializer, fun hc => h'.current (h.current hc),
    fun haddr => h.addressable (h'.addressable haddr)⟩

end

namespace Gen

/-- Generation goes on in the same form, legacy or not, and routines that are finished stay. -/
def Steady {α : Type} (m : Gen α) : Prop := ∀ g a g', Makes m g a g' → g.Later g'

section Steady

variable {α β : Type}

/-- Code takes back no routine. -/
theorem Extends.steady {t : Target} {m : Gen α} (h : Extends t m) : Steady m := by
  intro g a g' hm
  obtain ⟨d, rfl, hd⟩ := h g a g' hm
  cases t with
  | initializer =>
    exact ⟨rfl, List.prefix_rfl, List.prefix_rfl, hd, id, fun haddr =>
      ⟨haddr.initializer.of_longer hd.longer, haddr.body, haddr.routines⟩⟩
  | function => exact .of_longer rfl rfl rfl rfl rfl hd.longer

/-- Steady parts are steady one after the other. -/
theorem Steady.bind {m : Gen α} {f : α → Gen β} (hm : Steady m) (hf : ∀ a, Steady (f a)) :
    Steady (m >>= f) := by
  intro g b g'' h
  obtain ⟨a, g', h₁, h₂⟩ := makes_bind.mp h
  exact (hm g a g' h₁).trans (hf a g' b g'' h₂)

theorem steady_pure (a : α) : Steady (pure a) := (extends_pure a : Extends .function _).steady

theorem steady_get : Steady get := (extends_get : Extends .function _).steady

/-- A change is steady if it takes back no routine. -/
theorem steady_modify {f : Generator → Generator} (hf : ∀ g : Generator, g.Later (f g)) :
    Steady (modify f) := by
  intro g u g' h
  rw [makes_modify.mp h]
  exact hf g

theorem steady_forM {xs : List α} {f : α → Gen Unit} (hf : ∀ x, Steady (f x)) :
    Steady (xs.forM f) := by
  induction xs with
  | nil => exact steady_pure _
  | cons x xs ih => exact (hf x).bind fun _ => ih

/-- A field is no routine. -/
theorem steady_addField (name : String) (slot : Slot) : Steady (addField name slot) := by
  intro g i g' h
  rw [(makes_addField h).2]
  refine ⟨rfl, List.prefix_rfl, ?_, .refl _, id, fun haddr =>
    ⟨haddr.initializer, haddr.body, haddr.routines⟩⟩
  rw [Array.toList_push]
  exact List.prefix_append ..

theorem steady_addLocal : Steady addLocal := by
  intro g i g' h
  obtain ⟨current, hc, rfl⟩ := current_of_addLocal h
  have hsome := congrArg Option.isSome hc
  rw [Option.isSome_map, Option.isSome_map] at hsome
  exact ⟨rfl, List.prefix_rfl, List.prefix_rfl, .refl _, fun h => hsome ▸ h, fun haddr =>
    ⟨haddr.initializer, haddr.body, haddr.routines⟩⟩

/-- A variable is no routine. -/
theorem steady_define (name : Name) (type : WordType) (storage : Storage) (shape : Shape)
    (handle : Handle) : Steady (define name type storage shape handle) := by
  intro g v g' h
  rw [(makes_define h).2]
  exact .of_eq rfl rfl rfl rfl rfl rfl

theorem steady_allocate (d : Declarator) (slot : Slot) (static : Bool) :
    Steady (d.allocate slot static) := by
  refine steady_get.bind fun g => ?_
  split
  · exact (steady_addField _ _).bind fun _ => steady_pure _
  · exact (steady_addField _ _).bind fun _ => steady_pure _
  · exact steady_addLocal.bind fun _ => steady_pure _

/-- A declarator takes back no routine. -/
theorem steady_declarator (type : WordType) (static : Bool) (d : Declarator) :
    Steady (d.compile type static) := by
  intro g u g' h
  obtain ⟨v, _, t, g₁, -, hallocate, hprepare⟩ := Declarator.makes_symbol h
  have hscopes {s : Scopes} : g₁.Later { g₁ with scopes := s } := .of_eq rfl rfl rfl rfl rfl rfl
  exact ((steady_allocate d _ static _ _ _ hallocate).trans hscopes).trans
    ((extends_prepareCode t v d.init).steady _ _ _ hprepare)

/-- A declaration takes back no routine. -/
theorem steady_declaration (d : Declaration) : Steady d.compile :=
  steady_forM fun _ => steady_declarator _ _ _

end Steady

end Gen

end OnePass
