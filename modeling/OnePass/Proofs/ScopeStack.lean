import Mathlib.Data.List.Basic
import Mathlib.Logic.Function.Basic
import OnePass.Scope

/-!
# Scopes are a stack of maps

Main statement: whatever is done with the scopes of a program, from the beginning on, the answers
are those of a stack of maps with counters, and the scopes are `Scopes.Stacked`: a name stands for
what the innermost scope that has it declares; a second declaration of a name in one scope is
refused and changes nothing; the variables of a storage in a scope are numbered from 0 in the order
of their declarations; a scope that is closed leaves no trace; and the global scope is never lost
(`Scopes.run_stacked`).

The maps of a stack are functions, and so are their counters (`NameMap`); the scopes keep lists of
what was declared, and an array of counters beside them. `Scopes.maps` leads from one to the other.
That the counters go along with the lists, as far as 32 bits count, is what each step keeps
(`Scope.Numbered`). A scope with fewer than 2³² variables of a storage counts them all
(`Scope.Numbered.exact`).
-/

namespace OnePass

/-! ## One declaration -/

/-- Every storage has a counter of its own. -/
theorem Storage.counter_injective : Function.Injective Storage.counter := by
  intro storage storage'
  cases storage <;> cases storage' <;> decide

namespace Scope

variable {c : Scope} {v : Symbol} {key name : String} {storage : Storage}

/-- An entry hides those of its name. -/
theorem find?_insert :
    (c.insert name v).find? key = if key = name then some v else c.find? key := by
  rw [find?, insert, List.lookup_cons]
  by_cases h : key = name
  · rw [if_pos h, beq_iff_eq.mpr h]
  · rw [if_neg h, beq_eq_false_iff_ne.mpr h]
    rfl

/-- An empty scope counts nothing. -/
theorem count_empty : Scope.empty.count storage = 0 := by cases storage <;> rfl

/-- An entry is counted with those of its storage. -/
theorem count_insert : (c.insert name v).count storage =
    c.count storage + if v.storage = storage then 1 else 0 := by
  rw [count, insert, count, Fin.getElem_fin, Vector.getElem_set]
  by_cases h : v.storage = storage
  · rw [if_pos (by rw [h]), if_pos h, h]
    rfl
  · have hcounter : v.storage.counter.val ≠ storage.counter.val :=
      fun heq => h (Storage.counter_injective (Fin.ext heq))
    rw [if_neg hcounter, if_neg h, UInt32.add_zero]
    rfl

end Scope

namespace Scopes

variable {s : Scopes} {v : Symbol} {key name : String}

/-- To close a scope forgets what was done in it. -/
theorem pop_withCurrent (c : Scope) (h : s.isGlobal = false) : (s.withCurrent c).pop = s.pop := by
  unfold withCurrent
  split
  · rename_i hi
    simp [isGlobal, hi] at h
  · rename_i hi
    simp [pop, hi]

theorem isGlobal_withCurrent (c : Scope) : (s.withCurrent c).isGlobal = s.isGlobal := by
  unfold withCurrent
  split
  · rfl
  · rename_i hi
    simp [isGlobal, hi]

theorem current_withCurrent (c : Scope) : (s.withCurrent c).current = c := by
  unfold withCurrent current
  split
  · rename_i hi
    simp [hi]
  · rfl

/-- A variable hides those of its name. -/
theorem lookup_insert : (s.withCurrent (s.current.insert name v)).lookup key =
    if key = name then some v else s.lookup key := by
  unfold lookup withCurrent current
  cases s.inner with
  | nil =>
    simp only [List.nil_append, List.headD_nil, List.findSome?_cons, Scope.find?_insert]
    by_cases h : key = name
    · rw [if_pos h, if_pos h]
    · rw [if_neg h, if_neg h]
  | cons c outer =>
    simp only [List.cons_append, List.headD_cons, List.findSome?_cons, Scope.find?_insert]
    by_cases h : key = name
    · rw [if_pos h, if_pos h]
    · rw [if_neg h, if_neg h]

/-- A new scope hides nothing. -/
theorem lookup_push : s.push.lookup key = s.lookup key := rfl

end Scopes

/-! ## What is done with scopes -/

/-- One thing that is done with scopes. -/
inductive ScopeStep where
  /-- opens a scope -/
  | push
  /-- closes the innermost scope -/
  | pop
  /-- declares a variable in the innermost scope -/
  | define (name : Name) (type : WordType) (storage : Storage) (shape : Shape) (handle : Handle)
  /-- asks what a name stands for -/
  | lookup (name : String)
  /-- asks how many variables of a storage the innermost scope has -/
  | count (storage : Storage)

/-- A declaration. -/
def ScopeStep.Declares : ScopeStep → Prop
  | .define .. => True
  | _ => False

/-- What comes of it. -/
inductive ScopeAnswer where
  /-- a scope was opened or closed -/
  | done
  /-- a variable was declared -/
  | defined (v : Symbol)
  /-- a variable was not declared -/
  | refused (e : Located SemanticError)
  /-- what a name stands for -/
  | found (v : Option Symbol)
  /-- a number of variables -/
  | counted (n : UInt32)

namespace Scopes

/-- Does one thing. -/
def step (s : Scopes) : ScopeStep → ScopeAnswer × Scopes
  | .push => (.done, s.push)
  | .pop => (.done, s.pop)
  | .define name type storage shape handle =>
    match s.define name type storage shape handle with
    | .ok (v, s') => (.defined v, s')
    | .error e => (.refused e, s)
  | .lookup name => (.found (s.lookup name), s)
  | .count storage => (.counted (s.count storage), s)

/-- Does one thing after the other. -/
def run (s : Scopes) : List ScopeStep → List ScopeAnswer × Scopes
  | [] => ([], s)
  | step :: steps =>
    let (answer, s') := s.step step
    let (answers, s'') := s'.run steps
    (answer :: answers, s'')

/-- The scopes behind some steps. -/
def after (s : Scopes) (steps : List ScopeStep) : Scopes := (s.run steps).2

/-- All open scopes, the innermost first. -/
def all (s : Scopes) : List Scope := s.inner ++ [s.global]

end Scopes

/-! ## Stacks of maps -/

/-- What one scope declares: a variable for some names, and for each storage how many variables
there are. -/
structure NameMap where
  symbols : String → Option Symbol
  counters : Storage → UInt32

namespace NameMap

/-- A map of no name. -/
def empty : NameMap := ⟨fun _ => none, fun _ => 0⟩

/-- A map with one name more. -/
def insert (m : NameMap) (name : String) (v : Symbol) : NameMap where
  symbols := Function.update m.symbols name (some v)
  counters := Function.update m.counters v.storage (m.counters v.storage + 1)

end NameMap

/-- A stack of maps: the innermost one and those around it. -/
structure MapStack where
  top : NameMap
  rest : List NameMap

namespace MapStack

/-- One map of no name. -/
def new : MapStack := ⟨.empty, []⟩

/-- The stack below the top, if there is one. -/
def pop (m : MapStack) : MapStack :=
  match m.rest with
  | [] => m
  | below :: rest => ⟨below, rest⟩

/-- Does one thing. -/
def step (m : MapStack) : ScopeStep → ScopeAnswer × MapStack
  | .push => (.done, ⟨.empty, m.top :: m.rest⟩)
  | .pop => (.done, m.pop)
  | .define name type storage shape handle =>
    if (m.top.symbols name.value).isSome then
      (.refused ⟨.redefinition name.value, name.span⟩, m)
    else
      let v : Symbol := ⟨type, storage, m.top.counters storage, shape, handle⟩
      (.defined v, { m with top := m.top.insert name.value v })
  | .lookup name => (.found ((m.top :: m.rest).findSome? fun map => map.symbols name), m)
  | .count storage => (.counted (m.top.counters storage), m)

/-- Does one thing after the other, and tells what comes of it. -/
def answers (m : MapStack) : List ScopeStep → List ScopeAnswer
  | [] => []
  | step :: steps => (m.step step).1 :: (m.step step).2.answers steps

end MapStack

/-- The map of a scope. -/
def Scope.map (c : Scope) : NameMap := ⟨c.find?, c.count⟩

namespace Scope

theorem map_empty : Scope.empty.map = .empty :=
  congrArg (NameMap.mk _) (funext fun _ => count_empty)

/-- A scope with one more variable is the map with one more name. -/
theorem map_insert {c : Scope} {name : String} {v : Symbol} :
    (c.insert name v).map = c.map.insert name v := by
  refine congrArg₂ NameMap.mk (funext fun key => ?_) (funext fun storage => ?_)
  · rw [find?_insert, Function.update_apply]
    rfl
  · rw [count_insert, Function.update_apply]
    by_cases h : storage = v.storage
    · rw [if_pos h, if_pos h.symm, h]
      rfl
    · rw [if_neg h, if_neg (Ne.symm h), UInt32.add_zero]
      rfl

end Scope

namespace Scopes

/-- The maps of scopes. -/
def maps (s : Scopes) : MapStack := ⟨s.current.map, s.all.tail.map Scope.map⟩

/-- The maps of scopes are those of each scope, from the innermost one out. -/
theorem top_cons_rest (s : Scopes) : s.maps.top :: s.maps.rest = s.all.map Scope.map := by
  rw [maps, all, current]
  cases s.inner <;> rfl

theorem maps_withCurrent (s : Scopes) (c : Scope) :
    (s.withCurrent c).maps = { s.maps with top := c.map } := by
  rw [maps, current_withCurrent, maps, all, all, withCurrent]
  cases s.inner <;> simp

/-- To close a scope is to pop its map. -/
theorem maps_pop (s : Scopes) : s.pop.maps = s.maps.pop := by
  obtain ⟨inner, global⟩ := s
  match inner with
  | [] => rfl
  | [_] => rfl
  | _ :: _ :: _ => rfl

variable {s : Scopes}

/-- A second declaration of a name in a scope is refused, and only that. -/
theorem step_define_of_some {name : Name} {type : WordType} {storage : Storage} {shape : Shape}
    {handle : Handle} (h : (s.current.find? name.value).isSome) :
    s.step (.define name type storage shape handle) =
      (.refused ⟨.redefinition name.value, name.span⟩, s) := by
  obtain ⟨v, hv⟩ := Option.isSome_iff_exists.mp h
  simp only [step, define, hv]

/-- Any other declaration adds a variable to the innermost scope. -/
theorem step_define_of_none {name : Name} {type : WordType} {storage : Storage} {shape : Shape}
    {handle : Handle} (h : s.current.find? name.value = none) :
    s.step (.define name type storage shape handle) =
      (.defined ⟨type, storage, s.count storage, shape, handle⟩,
        s.withCurrent (s.current.insert name.value
          ⟨type, storage, s.count storage, shape, handle⟩)) := by
  simp only [step, define, h]

/-- What is done with scopes is done with their maps. -/
theorem step_maps (s : Scopes) (step : ScopeStep) :
    ((s.step step).1, (s.step step).2.maps) = s.maps.step step := by
  cases step with
  | push =>
    refine congrArg (Prod.mk _) ?_
    rw [top_cons_rest, ← Scope.map_empty]
    rfl
  | pop => exact congrArg (Prod.mk _) (maps_pop s)
  | define name type storage shape handle =>
    cases h : s.current.find? name.value with
    | some v =>
      rw [step_define_of_some (by rw [h]; rfl), MapStack.step,
        if_pos (by simp [maps, Scope.map, h])]
    | none =>
      rw [step_define_of_none h, MapStack.step, if_neg (by simp [maps, Scope.map, h]),
        maps_withCurrent, Scope.map_insert]
      rfl
  | lookup name =>
    rw [MapStack.step, top_cons_rest, List.findSome?_map]
    rfl
  | count storage => rfl

/-- The answers are those of a stack of maps. -/
theorem run_answers (s : Scopes) (steps : List ScopeStep) :
    (s.run steps).1 = s.maps.answers steps := by
  induction steps generalizing s with
  | nil => rfl
  | cons step steps ih =>
    have hstep := step_maps s step
    rw [MapStack.answers, ← hstep, ← ih]
    rfl

/-- The innermost scope comes first. -/
theorem all_eq (s : Scopes) : s.all = s.current :: s.all.tail := by
  rw [all, current]
  cases s.inner <;> rfl

theorem all_withCurrent (s : Scopes) (c : Scope) : (s.withCurrent c).all = c :: s.all.tail := by
  rw [all, all, withCurrent]
  cases s.inner <;> rfl

/-- The outer scopes are among the scopes. -/
theorem mem_all_of_pop {c : Scope} (h : c ∈ s.pop.all) : c ∈ s.all := by
  simp only [all, pop, List.mem_append, List.mem_singleton] at h ⊢
  exact h.imp_left List.mem_of_mem_tail

/-- A name stands for what the innermost scope that has it declares. -/
theorem lookup_eq_some_iff {name : String} {v : Symbol} :
    s.lookup name = some v ↔ ∃ inner c outer, s.all = inner ++ c :: outer ∧
      (∀ c' ∈ inner, c'.find? name = none) ∧ c.find? name = some v := by
  rw [lookup, List.findSome?_eq_some_iff]
  constructor
  · rintro ⟨inner, c, outer, hall, hc, hinner⟩
    exact ⟨inner, c, outer, hall, hinner, hc⟩
  · rintro ⟨inner, c, outer, hall, hinner, hc⟩
    exact ⟨inner, c, outer, hall, hc, hinner⟩

end Scopes

/-! ## The variables of a scope -/

/-- The variables of a storage in a scope, in the order of their declarations. -/
def Scope.ofStorage (c : Scope) (storage : Storage) : List Symbol :=
  (c.symbols.reverse.map Prod.snd).filter fun v => v.storage = storage

/-- The names of a scope are distinct, and the variables of each storage are counted, and numbered
from 0 in the order of their declarations, with numbers of 32 bits. -/
structure Scope.Numbered (c : Scope) : Prop where
  distinct : (c.symbols.map Prod.fst).Nodup
  count : ∀ storage, c.count storage = .ofNat (c.ofStorage storage).length
  indices : ∀ storage, (c.ofStorage storage).map Symbol.index =
    (List.range (c.ofStorage storage).length).map UInt32.ofNat

namespace Scope

/-- An empty scope numbers nothing. -/
theorem numbered_empty : Scope.empty.Numbered where
  distinct := List.nodup_nil
  count _ := count_empty
  indices _ := rfl

/-- If 32 bits are enough, the variables of a storage have exactly the numbers below their
count. -/
theorem Numbered.exact {c : Scope} (h : c.Numbered) {storage : Storage}
    (hsmall : (c.ofStorage storage).length < UInt32.size) :
    (c.ofStorage storage).map (fun v => v.index.toNat) = List.range (c.count storage).toNat := by
  have hall : ∀ n ∈ List.range (c.ofStorage storage).length, (UInt32.ofNat n).toNat = n :=
    fun n hn => UInt32.toNat_ofNat_of_lt' (Nat.lt_trans (List.mem_range.mp hn) hsmall)
  have hmap : (c.ofStorage storage).map (fun v => v.index.toNat) =
      ((c.ofStorage storage).map Symbol.index).map UInt32.toNat := by
    rw [List.map_map]
    rfl
  rw [hmap, h.indices, List.map_map, h.count, UInt32.toNat_ofNat_of_lt' hsmall]
  exact (List.map_congr_left hall).trans (List.map_id' _)

/-- A name that is not found is none of the names in scope. -/
theorem find?_eq_none_iff {c : Scope} {name : String} :
    c.find? name = none ↔ name ∉ c.symbols.map Prod.fst := by
  rw [find?, List.lookup_eq_none_iff]
  constructor
  · intro h hmem
    obtain ⟨entry, hentry, rfl⟩ := List.mem_map.mp hmem
    simpa using h entry hentry
  · intro h entry hentry
    rw [bne_iff_ne]
    rintro rfl
    exact h (List.mem_map_of_mem hentry)

/-- A variable comes behind those of its storage that were declared before it. -/
theorem ofStorage_insert {c : Scope} {name : String} {v : Symbol} {storage : Storage} :
    (c.insert name v).ofStorage storage =
      c.ofStorage storage ++ if v.storage = storage then [v] else [] := by
  simp only [ofStorage, Scope.insert, List.reverse_cons, List.map_append, List.filter_append,
    List.map_cons, List.map_nil]
  by_cases hs : v.storage = storage
  · rw [if_pos hs, List.filter_cons_of_pos (by simpa using hs)]
    rfl
  · rw [if_neg hs, List.filter_cons_of_neg (by simpa using hs)]
    rfl

/-- A variable that is declared in a scope without its name gets the next number. -/
theorem Numbered.insert {c : Scope} (h : c.Numbered) {name : String} {v : Symbol}
    (hname : c.find? name = none) (hindex : v.index = c.count v.storage) :
    (c.insert name v).Numbered where
  distinct := List.nodup_cons.mpr ⟨find?_eq_none_iff.mp hname, h.distinct⟩
  count storage := by
    rw [count_insert, h.count, ofStorage_insert]
    by_cases hs : v.storage = storage
    · rw [if_pos hs, if_pos hs, List.length_append, UInt32.ofNat_add]
      rfl
    · rw [if_neg hs, if_neg hs, List.append_nil, UInt32.add_zero]
  indices storage := by
    rw [ofStorage_insert]
    by_cases hs : v.storage = storage
    · rw [if_pos hs, List.map_append, h.indices, List.length_append, List.length_singleton,
        List.range_succ, List.map_append, List.map_singleton, List.map_singleton, hindex,
          h.count, hs]
    · rw [if_neg hs, List.append_nil]
      exact h.indices storage

end Scope

namespace Scopes

variable {s base : Scopes}

/-- What is done with scopes keeps their variables numbered. -/
theorem numbered_step (h : ∀ c ∈ s.all, c.Numbered) (step : ScopeStep) :
    ∀ c ∈ (s.step step).2.all, c.Numbered := by
  cases step with
  | push => exact List.forall_mem_cons.mpr ⟨Scope.numbered_empty, h⟩
  | pop => exact fun c hc => h c (mem_all_of_pop hc)
  | define name type storage shape handle =>
    cases hname : s.current.find? name.value with
    | some v =>
      rw [step_define_of_some (by rw [hname]; rfl)]
      exact h
    | none =>
      rw [all_eq, List.forall_mem_cons] at h
      rw [step_define_of_none hname, all_withCurrent]
      exact List.forall_mem_cons.mpr ⟨h.1.insert hname rfl, h.2⟩
  | lookup name => exact h
  | count storage => exact h

/-- In a run from numbered scopes all scopes are numbered. -/
theorem numbered_after (h : ∀ c ∈ s.all, c.Numbered) (steps : List ScopeStep) :
    ∀ c ∈ (s.after steps).all, c.Numbered := by
  induction steps generalizing s with
  | nil => exact h
  | cons step steps ih => exact ih (numbered_step h step)

/-! ## What stays -/

/-- A global variable is not lost. -/
theorem global_step {name : String} {v : Symbol} (h : s.global.find? name = some v)
    (step : ScopeStep) : (s.step step).2.global.find? name = some v := by
  cases step with
  | define name' type storage shape handle =>
    cases hname : s.current.find? name'.value with
    | some w =>
      rw [step_define_of_some (by rw [hname]; rfl)]
      exact h
    | none =>
      rw [step_define_of_none hname, withCurrent]
      split
      · next hinner =>
        rw [current, hinner] at hname
        rw [current, hinner, List.headD_nil, Scope.find?_insert, if_neg]
        · exact h
        · rintro rfl
          exact absurd (h.symm.trans hname) (by simp)
      · exact h
  | push => exact h
  | pop => exact h
  | lookup name => exact h
  | count storage => exact h

/-- Global variables stay for good. -/
theorem global_after {name : String} {v : Symbol} (h : s.global.find? name = some v)
    (steps : List ScopeStep) : (s.after steps).global.find? name = some v := by
  induction steps generalizing s with
  | nil => exact h
  | cons step steps ih => exact ih (global_step h step)

/-- The scopes `s` are those of `base` with others opened inside. -/
def Above (base s : Scopes) : Prop := ∃ opened, s.inner = opened ++ base.inner ∧ s.global =
    base.global

/-- Scopes as deep as those they stand above are these. -/
theorem Above.eq (h : base.Above s) (hdepth : s.depth = base.depth) : s = base := by
  obtain ⟨opened, hinner, hglobal⟩ := h
  obtain ⟨inner, global⟩ := s
  obtain ⟨inner', global'⟩ := base
  obtain rfl : inner = opened ++ inner' := hinner
  obtain rfl : global = global' := hglobal
  obtain rfl : opened = [] := by simpa [depth] using hdepth
  rfl

/-- What is done inside of scopes leaves them as they are. -/
theorem Above.step (h : base.Above s) {step : ScopeStep}
    (hdeclares : step.Declares → base.depth < s.depth)
    (hdepth : base.depth ≤ (s.step step).2.depth) :
    base.Above (s.step step).2 := by
  obtain ⟨opened, hinner, hglobal⟩ := h
  cases step with
  | push => exact ⟨.empty :: opened, congrArg (Scope.empty :: ·) hinner, hglobal⟩
  | pop =>
    cases opened with
    | cons c opened => exact ⟨opened, congrArg List.tail hinner, hglobal⟩
    | nil =>
      -- nothing is open inside of `base`, so that there is nothing to close
      have hnil : base.inner = [] := by
        have hshort : base.inner.length ≤ s.inner.tail.length := hdepth
        rw [hinner, List.nil_append, List.length_tail] at hshort
        exact List.length_eq_zero_iff.mp (by omega)
      exact ⟨[], by simp [Scopes.step, pop, hinner, hnil], hglobal⟩
  | define name type storage shape handle =>
    have hdeeper : base.inner.length < s.inner.length := hdeclares trivial
    cases opened with
    | nil => exact absurd hdeeper (by simp [hinner])
    | cons c opened =>
      cases hname : s.current.find? name.value with
      | some v =>
        rw [step_define_of_some (by rw [hname]; rfl)]
        exact ⟨c :: opened, hinner, hglobal⟩
      | none =>
        rw [step_define_of_none hname, withCurrent, hinner]
        exact ⟨_ :: opened, rfl, hglobal⟩
  | lookup name => exact ⟨opened, hinner, hglobal⟩
  | count storage => exact ⟨opened, hinner, hglobal⟩

/-- Steps from `s` on never close a scope of `base`, and what they declare, they declare inside: a
declaration in the innermost scope of `base` comes behind the end of what was opened in it. -/
structure StaysInside (base s : Scopes) (steps : List ScopeStep) : Prop where
  depth_le : ∀ front back, steps = front ++ back → base.depth ≤ (s.after front).depth
  depth_lt : ∀ front step back, steps = front ++ step :: back → step.Declares →
    base.depth < (s.after front).depth

/-- A run that stays inside does so in each of its parts. -/
theorem StaysInside.tail {step : ScopeStep} {steps : List ScopeStep}
    (h : base.StaysInside s (step :: steps)) : base.StaysInside (s.step step).2 steps where
  depth_le front back hsteps := h.depth_le (step :: front) back (congrArg (step :: ·) hsteps)
  depth_lt front next back hsteps :=
    h.depth_lt (step :: front) next back (congrArg (step :: ·) hsteps)

/-- A run that stays inside leaves the outer scopes as they are. -/
theorem Above.after (h : base.Above s) {steps : List ScopeStep}
    (hsteps : base.StaysInside s steps) :
    base.Above (s.after steps) := by
  induction steps generalizing s with
  | nil => exact h
  | cons step steps ih =>
    have hdepth := hsteps.depth_le [step] steps rfl
    exact ih (h.step (hsteps.depth_lt [] step steps rfl) hdepth) hsteps.tail

/-! ## The main statement -/

/-- What is so of the scopes of a program at any time. -/
structure Stacked (s : Scopes) : Prop where
  /-- a name stands for what the innermost scope that has it declares -/
  innermost : ∀ name v, s.lookup name = some v ↔ ∃ inner c outer, s.all = inner ++ c :: outer ∧
    (∀ c' ∈ inner, c'.find? name = none) ∧ c.find? name = some v
  /-- a declaration is refused exactly if the innermost scope has the name -/
  refuses : ∀ name type storage shape handle, (s.current.find? name.value).isSome ↔
    ∃ e, (s.step (.define name type storage shape handle)).1 = .refused e
  /-- a declaration that is refused changes nothing -/
  refused : ∀ name type storage shape handle e,
    (s.step (.define name type storage shape handle)).1 = .refused e →
      (s.step (.define name type storage shape handle)).2 = s
  /-- any other declaration adds one variable, with the next number of its storage -/
  defined : ∀ name type storage shape handle, s.current.find? name.value = none →
    ∃ s', s.step (.define name type storage shape handle) =
        (.defined ⟨type, storage, s.count storage, shape, handle⟩, s') ∧
      (∀ key, s'.lookup key = if key = name.value
        then some ⟨type, storage, s.count storage, shape, handle⟩ else s.lookup key) ∧
      ∀ other, s'.count other = s.count other + if storage = other then 1 else 0
  /-- in each scope names are distinct and variables are counted and numbered in order, with
  numbers of 32 bits -/
  numbered : ∀ c ∈ s.all, c.Numbered
  /-- so if there are not more than these can count, the variables of a storage have exactly the
  numbers from 0 to their count, in the order of their declarations -/
  exact : ∀ c ∈ s.all, ∀ storage, (c.ofStorage storage).length < UInt32.size →
    (c.ofStorage storage).map (fun v => v.index.toNat) = List.range (c.count storage).toNat
  /-- a scope that is opened and closed again leaves everything as it was -/
  restored : ∀ steps, s.StaysInside s.push steps → (s.push.after steps).depth = s.depth →
    s.push.after steps = s
  /-- the global scope is not closed -/
  bottom : s.isGlobal → s.pop = s
  /-- global variables are not lost -/
  kept : ∀ name v steps, s.global.find? name = some v →
    (s.after steps).global.find? name = some v

theorem stacked_of_numbered (h : ∀ c ∈ s.all, c.Numbered) : s.Stacked where
  innermost _ _ := lookup_eq_some_iff
  refuses name type storage shape handle := by
    cases hname : s.current.find? name.value with
    | some v =>
      have hsome : (s.current.find? name.value).isSome := by rw [hname]; rfl
      simp [step_define_of_some hsome]
    | none => simp [step_define_of_none hname]
  refused name type storage shape handle e he := by
    cases hname : s.current.find? name.value with
    | some v => rw [step_define_of_some (by rw [hname]; rfl)]
    | none =>
      rw [step_define_of_none hname] at he
      cases he
  defined name type storage shape handle hname := by
    refine ⟨_, step_define_of_none hname, fun key => lookup_insert, fun other => ?_⟩
    rw [count, current_withCurrent, Scope.count_insert]
    rfl
  numbered := h
  exact c hc _ hsmall := (h c hc).exact hsmall
  restored steps hsteps hdepth := by
    have hopened : s.Above s.push := ⟨[.empty], rfl, rfl⟩
    exact (hopened.after hsteps).eq hdepth
  bottom hglobal := by
    obtain ⟨inner, global⟩ := s
    obtain rfl : inner = [] := List.isEmpty_iff.mp hglobal
    rfl
  kept _ _ steps hglobal := global_after hglobal steps

/-- **Scopes are a stack of maps.** Whatever is done with the scopes of a program, from the
beginning on, the answers are those of a stack of maps with counters of 32 bits; and at any time a
name stands for what the innermost scope says, a second declaration of a name is refused and changes
nothing, variables are numbered in order, a scope that is closed leaves no trace, and the global
scope stays. -/
theorem run_stacked (steps : List ScopeStep) :
    (Scopes.new.run steps).1 = MapStack.new.answers steps ∧ (Scopes.new.after steps).Stacked := by
  have hnew : ∀ c ∈ Scopes.new.all, c.Numbered :=
    List.forall_mem_cons.mpr ⟨Scope.numbered_empty, fun _ h => nomatch h⟩
  have hmaps : Scopes.new.maps = .new := congrArg (MapStack.mk · []) Scope.map_empty
  exact ⟨hmaps ▸ run_answers _ steps, stacked_of_numbered (numbered_after hnew steps)⟩

end Scopes

end OnePass
