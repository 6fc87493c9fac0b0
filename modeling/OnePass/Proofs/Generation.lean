import OnePass.Generator.Statement

/-!
# Steps of code generation

`Gen.Makes m g a g'` says that the generator `m` takes the state `g` to `g'` and makes `a`.
For each part that generators are composed of, a lemma says what that means, so that a
composed generator can be taken apart.

A stream never gets shorter (`Draft.Longer`). As long as 32 bits can number its labels and
positions (`Draft.Addressable`), generating code for an expression changes nothing but the
stream of its target, and that stream only grows: what was there stays, labels that were open
stay open, and every label that was added has been marked (`Draft.Grows`).
-/

namespace OnePass

namespace Draft

/-- 32 bits are enough to number the labels of `d`, and its positions up to its end. -/
structure Addressable (d : Draft) : Prop where
  position : d.position < UInt32.size
  labels : d.labels.size ≤ UInt32.size

/-- `d'` is no shorter than `d`: it has all its instructions, and as many labels. -/
structure Longer (d d' : Draft) : Prop where
  instructions : d.instructions.toList <+: d'.instructions.toList
  labels : d.labels.size ≤ d'.labels.size

/-- `d'` is `d` with more behind it. Of the labels that are new in it, only those in `l` are
not marked. -/
structure GrowsBut (d : Draft) (l : List Nat) (d' : Draft) : Prop where
  instructions : d.instructions.toList <+: d'.instructions.toList
  labels : d.labels.toList <+: d'.labels.toList
  marked : ∀ n, d.labels.size ≤ n → d'.labels[n]? = some none → n ∈ l

/-- `d'` is `d` with more behind it, and all labels that are new in it are marked. -/
abbrev Grows (d d' : Draft) : Prop := d.GrowsBut [] d'

/-- `d` with instructions behind it. -/
def emitAll (d : Draft) (is : List Instruction) : Draft := is.foldl emit d

end Draft

/-- 32 bits are enough to number the labels of a finished stream, and its positions up to its
end. -/
structure Code.Addressable (c : Code) : Prop where
  instructions : c.instructions.size < UInt32.size
  labels : c.labels.size ≤ UInt32.size

/-- 32 bits are enough for each stream of an image. -/
structure Image.Addressable (image : Image) : Prop where
  initializer : image.initializer.Addressable
  routines : ∀ r ∈ image.routines, r.code.Addressable

instance (c : Code) : Decidable c.Addressable :=
  decidable_of_iff (c.instructions.size < UInt32.size ∧ c.labels.size ≤ UInt32.size)
    ⟨fun h => ⟨h.1, h.2⟩, fun h => ⟨h.instructions, h.labels⟩⟩

instance (image : Image) : Decidable image.Addressable :=
  decidable_of_iff (image.initializer.Addressable ∧ ∀ r ∈ image.routines, r.code.Addressable)
    ⟨fun h => ⟨h.1, h.2⟩, fun h => ⟨h.initializer, h.routines⟩⟩

/-- 32 bits are enough for each stream of a state of generation. -/
structure Generator.Addressable (g : Generator) : Prop where
  initializer : g.initializer.Addressable
  body : g.body.Addressable
  routines : ∀ r ∈ g.routines, r.code.Addressable

namespace Generator

/-- The stream of a target. -/
def draft (g : Generator) : Target → Draft
  | .initializer => g.initializer
  | .function => g.body

/-- The state with a change to the stream of a target. -/
def onDraft (g : Generator) (t : Target) (f : Draft → Draft) : Generator :=
  match t with
  | .initializer => { g with initializer := f g.initializer }
  | .function => { g with body := f g.body }

section

variable (g : Generator) (t : Target) (f : Draft → Draft)

/-- The stream that is changed is the one that was meant. -/
@[simp]
theorem draft_onDraft : (g.onDraft t f).draft t = f (g.draft t) := by
  cases t <;> rfl

@[simp]
theorem onDraft_scopes : (g.onDraft t f).scopes = g.scopes := by
  cases t <;> rfl

@[simp]
theorem onDraft_functions : (g.onDraft t f).functions = g.functions := by
  cases t <;> rfl

@[simp]
theorem onDraft_legacy : (g.onDraft t f).legacy = g.legacy := by
  cases t <;> rfl

@[simp]
theorem onDraft_fields : (g.onDraft t f).fields = g.fields := by
  cases t <;> rfl

@[simp]
theorem onDraft_routines : (g.onDraft t f).routines = g.routines := by
  cases t <;> rfl

@[simp]
theorem onDraft_current : (g.onDraft t f).current = g.current := by
  cases t <;> rfl

@[simp]
theorem onDraft_pending : (g.onDraft t f).pending = g.pending := by
  cases t <;> rfl

/-- Two changes of a stream are one. -/
@[simp]
theorem onDraft_onDraft (f' : Draft → Draft) :
    (g.onDraft t f).onDraft t f' = g.onDraft t (f' ∘ f) := by
  cases t <;> rfl

/-- A change to a stream replaces it. -/
theorem onDraft_eq : g.onDraft t f = g.onDraft t fun _ => f (g.draft t) := by
  cases t <;> rfl

/-- A stream that is put in its own place changes nothing. -/
theorem onDraft_draft : g.onDraft t (fun _ => g.draft t) = g := by
  cases t <;> rfl

variable {g}

/-- If all streams can be numbered, either can. -/
theorem Addressable.draft (h : g.Addressable) (t : Target) : (g.draft t).Addressable := by
  cases t with
  | initializer => exact h.initializer
  | function => exact h.body

end

end Generator

namespace Functions

/-- A function that is found is one of the table. -/
theorem lookup_of_resolve {fs : Functions} {name : Name} {f : FunctionSymbol}
    (h : fs.resolve name = .ok f) : fs.lookup name.value = some f := by
  unfold resolve at h
  split at h
  · rename_i hl
    rw [hl, Except.ok.inj h]
  · cases h

/-- The function that was made known last hides others of its name. -/
theorem lookup_cons {fs : Functions} {name key : String} {f : FunctionSymbol} :
    Functions.lookup ⟨(name, f) :: fs.entries⟩ key =
      if key = name then some f else fs.lookup key := by
  rw [lookup, List.lookup_cons]
  by_cases hkey : key = name
  · rw [if_pos hkey, beq_iff_eq.mpr hkey]
  · rw [if_neg hkey, beq_eq_false_iff_ne.mpr hkey]
    rfl

end Functions

namespace Scopes

/-- A variable that is found is visible. -/
theorem lookup_of_resolve {s : Scopes} {name : Name} {v : Symbol}
    (h : s.resolve name = .ok v) : s.lookup name.value = some v := by
  unfold resolve at h
  split at h
  · rename_i hl
    rw [hl, Except.ok.inj h]
  · cases h

end Scopes

namespace Gen

variable {α β : Type} {g g' : Generator} {t : Target}

/-- `m` takes the state `g` to `g'` and makes `a`. -/
def Makes (m : Gen α) (g : Generator) (a : α) (g' : Generator) : Prop := m.run g = .ok (a, g')

/-! ## Parts of generators -/

/-- A value is made of nothing. -/
@[simp]
theorem makes_pure {a b : α} : Makes (pure a) g b g' ↔ b = a ∧ g' = g := by
  constructor
  · intro h
    injection h with h
    injection h with h₁ h₂
    exact ⟨h₁.symm, h₂.symm⟩
  · rintro ⟨rfl, rfl⟩
    rfl

/-- The second part of a composition runs where the first one has come to, unless that fails. -/
theorem run_bind (m : Gen α) (f : α → Gen β) (g : Generator) :
    (m >>= f).run g =
      match m.run g with
      | .ok (a, g') => (f a).run g'
      | .error e => .error e := by
  rw [StateT.run_bind]
  rcases m.run g with e | ⟨a, g'⟩ <;> rfl

/-- What comes behind a look at the state. -/
theorem run_get_bind (f : Generator → Gen α) (g : Generator) :
    (get >>= f).run g = (f g).run g := rfl

/-- A composition makes what its second part makes of what the first one has made. -/
theorem makes_bind {m : Gen α} {f : α → Gen β} {b : β} {g'' : Generator} :
    Makes (m >>= f) g b g'' ↔ ∃ a g', Makes m g a g' ∧ Makes (f a) g' b g'' := by
  simp only [Makes, run_bind]
  rcases m.run g with e | ⟨a, g'⟩
  · constructor
    · intro h
      cases h
    · rintro ⟨a, g', h, _⟩
      cases h
  · constructor
    · intro h
      exact ⟨a, g', rfl, h⟩
    · rintro ⟨a', g₁, h₁, h⟩
      cases h₁
      exact h

/-- A failure makes nothing. -/
@[simp]
theorem not_makes_fail {e : SemanticError} {span : Span} {a : α} :
    ¬ Makes (fail e span) g a g' := by
  intro h
  cases h

/-- To look at the state leaves it as it is. -/
@[simp]
theorem makes_get {s : Generator} : Makes get g s g' ↔ s = g ∧ g' = g := makes_pure

/-- A state that is set is the one that is left. -/
@[simp]
theorem makes_set {s : Generator} {u : PUnit} : Makes (set s) g u g' ↔ g' = s := by
  constructor
  · intro h
    cases h
    rfl
  · rintro rfl
    rfl

/-- A state that is changed is the one that is left. -/
@[simp]
theorem makes_modify {f : Generator → Generator} {u : PUnit} :
    Makes (modify f) g u g' ↔ g' = f g := by
  constructor
  · intro h
    cases h
    rfl
  · rintro rfl
    rfl

/-- A computation without a state makes what it computes. -/
@[simp]
theorem makes_lift {x : Except (Located SemanticError) α} {a : α} :
    Makes (liftM x) g a g' ↔ x = .ok a ∧ g' = g := by
  rcases x with e | b
  · constructor
    · intro h
      cases h
    · rintro ⟨h, _⟩
      cases h
  · constructor
    · intro h
      cases h
      exact ⟨rfl, rfl⟩
    · rintro ⟨h, rfl⟩
      cases h
      rfl

/-- Where there are two ways, one of them was gone. -/
theorem makes_ite {p : Prop} [Decidable p] {m m' : Gen α} {a : α} :
    Makes (if p then m else m') g a g' ↔ p ∧ Makes m g a g' ∨ ¬ p ∧ Makes m' g a g' := by
  split <;> simp [*]

/-- Nothing comes behind a failure. -/
@[simp]
theorem not_makes_fail_bind {e : SemanticError} {span : Span} {f : α → Gen β} {b : β} :
    ¬ Makes (fail e span >>= f) g b g' := by
  intro h
  cases h

/-- What is behind a check is only met if the check is passed. -/
theorem makes_check {p : Prop} [Decidable p] {e : SemanticError} {span : Span}
    {f : α → Gen β} {m : Gen β} {b : β} :
    Makes (if p then fail e span >>= f else m) g b g' ↔ ¬ p ∧ Makes m g b g' := by
  rw [makes_ite]
  simp

/-- A loop over nothing makes nothing. -/
@[simp]
theorem makes_forM_nil {f : α → Gen Unit} {u : PUnit} :
    Makes (([] : List α).forM f) g u g' ↔ g' = g :=
  makes_pure.trans (and_iff_right rfl)

/-- A loop does its first round and then the others. -/
theorem makes_forM_cons {x : α} {xs : List α} {f : α → Gen Unit} {u : PUnit} {g'' : Generator} :
    Makes ((x :: xs).forM f) g u g'' ↔
      ∃ g', Makes (f x) g ⟨⟩ g' ∧ Makes (xs.forM f) g' ⟨⟩ g'' := by
  constructor
  · intro h
    obtain ⟨_, g', h₁, h₂⟩ := makes_bind.mp h
    exact ⟨g', h₁, h₂⟩
  · rintro ⟨g', h₁, h₂⟩
    exact makes_bind.mpr ⟨_, g', h₁, h₂⟩

theorem makes_forM_one {x : α} {f : α → Gen Unit} {u : PUnit} :
    Makes ([x].forM f) g u g' ↔ Makes (f x) g ⟨⟩ g' := by
  simp

/-- A loop over two lists is two loops. -/
theorem makes_forM_append {xs ys : List α} {f : α → Gen Unit} {u : PUnit} {g'' : Generator} :
    Makes ((xs ++ ys).forM f) g u g'' ↔
      ∃ g', Makes (xs.forM f) g ⟨⟩ g' ∧ Makes (ys.forM f) g' ⟨⟩ g'' := by
  induction xs generalizing g with
  | nil => simp
  | cons x xs ih =>
    simp only [List.cons_append, makes_forM_cons, ih]
    constructor
    · rintro ⟨g₁, h₁, g₂, h₂, h₃⟩
      exact ⟨g₂, ⟨g₁, h₁, h₂⟩, h₃⟩
    · rintro ⟨g₂, ⟨g₁, h₁, h₂⟩, h₃⟩
      exact ⟨g₁, h₁, g₂, h₂, h₃⟩

/-! ## What is made -/

/-- Every success of `m` makes `a`. -/
def Returns (m : Gen α) (a : α) : Prop := ∀ g b g', Makes m g b g' → b = a

theorem returns_pure {a : α} : Returns (pure a) a :=
  fun _ _ _ h => (makes_pure.mp h).1

/-- A failure returns nothing else either. -/
theorem returns_fail {e : SemanticError} {span : Span} {a : α} : Returns (fail e span) a :=
  fun _ _ _ h => absurd h not_makes_fail

/-- What is made is up to the last part. -/
theorem Returns.bind {m : Gen α} {f : α → Gen β} {b : β} (hf : ∀ a, Returns (f a) b) :
    Returns (m >>= f) b := by
  intro g b' g'' h
  obtain ⟨a, g', -, h₂⟩ := makes_bind.mp h
  exact hf a g' b' g'' h₂

/-! ## Streams -/

/-- A change of a stream changes this stream. -/
@[simp]
theorem makes_onDraft {f : Draft → Draft} {u : Unit} :
    Makes (onDraft t f) g u g' ↔ g' = g.onDraft t f := by
  cases t <;> exact makes_modify

theorem makes_get_then {f : Generator → α} {a : α} :
    Makes (do return f (← get)) g a g' ↔ a = f g ∧ g' = g := by
  simp only [makes_bind, makes_get, makes_pure]
  constructor
  · rintro ⟨_, _, ⟨rfl, rfl⟩, h⟩
    exact h
  · intro h
    exact ⟨_, _, ⟨rfl, rfl⟩, h⟩

/-- A stream is read without a change. -/
@[simp]
theorem makes_draft {d : Draft} : Makes (draft t) g d g' ↔ d = g.draft t ∧ g' = g := by
  cases t <;> exact makes_get_then

/-- An instruction is added to its stream. -/
@[simp]
theorem makes_emit {i : Instruction} {u : Unit} :
    Makes (emit t i) g u g' ↔ g' = g.onDraft t fun d => d.emit i := makes_onDraft

/-- Instructions are added to their stream. -/
@[simp]
theorem makes_emitAll {is : List Instruction} {u : PUnit} :
    Makes (emitAll t is) g u g' ↔ g' = g.onDraft t fun d => d.emitAll is := by
  unfold emitAll
  induction is generalizing g with
  | nil => cases t <;> exact makes_forM_nil
  | cons i is ih =>
    simp only [makes_forM_cons, makes_emit, ih, exists_eq_left, Generator.onDraft_onDraft]
    rfl

/-- The number of a new label has 32 bits, however many labels there are. -/
@[simp]
theorem makes_newLabel {l : UInt32} :
    Makes (newLabel t) g l g' ↔
      l = .ofNat (g.draft t).labels.size ∧ g' = g.onDraft t Draft.addLabel := by
  simp only [newLabel, makes_bind, makes_draft, makes_onDraft, makes_pure]
  constructor
  · rintro ⟨_, _, ⟨rfl, rfl⟩, _, _, rfl, rfl, rfl⟩
    exact ⟨rfl, rfl⟩
  · rintro ⟨rfl, rfl⟩
    exact ⟨_, _, ⟨rfl, rfl⟩, ⟨⟩, _, rfl, rfl, rfl⟩

/-- A label is marked at the end of its stream. -/
@[simp]
theorem makes_mark {l : UInt32} {u : Unit} :
    Makes (mark t l) g u g' ↔ g' = g.onDraft t fun d => d.mark l.toNat := makes_onDraft

/-! ## Variables -/

/-- A variable that was found is visible. In the initializer it is a field. -/
theorem makes_resolve {name : Name} {v : Symbol} (h : Makes (resolve t name) g v g') :
    g' = g ∧ g.scopes.lookup name.value = some v ∧
      (t = .initializer → ∃ n, v.handle = .field n) := by
  simp only [resolve, makes_bind, makes_get, makes_lift] at h
  obtain ⟨_, _, ⟨rfl, rfl⟩, v', g₁, ⟨hv, rfl⟩, h⟩ := h
  have hlookup := Scopes.lookup_of_resolve hv
  split at h
  · exact absurd h not_makes_fail
  · exact absurd h not_makes_fail
  · rename_i hlocal hargument
    obtain ⟨hvv, hg⟩ := makes_pure.mp h
    subst hvv hg
    refine ⟨rfl, hlookup, ?_⟩
    rintro rfl
    cases hh : v.handle with
    | field n => exact ⟨n, rfl⟩
    | «local» n => exact (hlocal n rfl hh).elim
    | argument n => exact (hargument n rfl hh).elim

end Gen

namespace Rules

/-- As many elements are copied between arrays of these lengths as both have. They are counted by
integers, so there are none where that is no integer. -/
def copies (p q : UInt32) : Nat :=
  let n := min p.toNat q.toNat
  if n < 2147483648 then n else 0

/-- No more elements are copied than both arrays have. -/
theorem copies_le (p q : UInt32) : copies p q ≤ min p.toNat q.toNat := by
  unfold copies
  dsimp only
  split
  · exact Nat.le_refl _
  · exact Nat.zero_le _

/-- A length of 2³¹ or more is a negative integer, and counts for nothing. -/
theorem toNat_toInt_toInt32 (n : UInt32) :
    n.toInt32.toInt.toNat = if n.toNat < 2147483648 then n.toNat else 0 := by
  have hsign : n.toInt32.toInt = _ := BitVec.toInt_eq_toNat_cond n.toBitVec
  have hlt := n.toNat_lt
  rw [hsign, UInt32.toNat_toBitVec]
  split <;> split <;> omega

/-- The shorter length is the smaller number. -/
theorem toNat_min (p q : UInt32) : (min p q).toNat = min p.toNat q.toNat := by
  rw [show min p q = if p ≤ q then p else q from rfl, Nat.min_def]
  simp only [UInt32.le_iff_toNat_le]
  split <;> rfl

/-- Only arrays of declared lengths are copied, as far as both go. -/
theorem makes_copyLength {a b : Symbol} {x y : Name} {span : Span} {n : UInt32} {g g' : Generator}
    (h : Gen.Makes (copyLength a x b y span) g n g') : g' = g ∧ ∃ p q, a.shape = .array (some p) ∧
      b.shape = .array (some q) ∧ n.toInt32.toInt.toNat = copies p q := by
  unfold copyLength at h
  split at h
  · rename_i p q hp hq
    obtain ⟨rfl, rfl⟩ := Gen.makes_pure.mp h
    exact ⟨rfl, p, q, hp, hq, by rw [toNat_toInt_toInt32, toNat_min, copies]⟩
  · exact absurd h Gen.not_makes_fail
  · exact absurd h Gen.not_makes_fail

end Rules

end OnePass
