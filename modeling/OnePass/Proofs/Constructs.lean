import OnePass.Proofs.DeclarationCode

/-!
# What constructs generate

For each piece of a statement, the state of generation behind it. The pieces behind the first
one go on with what waits at the head of `Generator.pending`; so they are described for the
states in which the statement that they belong to waits there.
-/

namespace OnePass

namespace Generator

/-- How many local slots of the current function are taken so far. -/
def localCount (g : Generator) : Nat := (g.current.map fun f => f.locals.toNat).getD 0

/-- The state with instructions and labels added to the function. -/
def onBody (g : Generator) (f : Draft → Draft) : Generator := { g with body := f g.body }

/-- The state with other statements waiting. -/
def withPending (g : Generator) (ps : List Pending) : Generator := { g with pending := ps }

/-- The state with other scopes open. -/
def withScopes (g : Generator) (s : Scopes) : Generator := { g with scopes := s }

/-- Code for the current function changes no scope. -/
@[simp]
theorem onBody_scopes (g : Generator) (f : Draft → Draft) : (g.onBody f).scopes = g.scopes := rfl

end Generator

/-- A function has a return at its end. -/
theorem implicitReturn_ne_nil (returns : Option WordType) : implicitReturn returns ≠ [] := by
  cases returns <;> exact nofun

/-- What a loop begins with adds to its stream. -/
theorem Draft.longer_enterLoop (d : Draft) (l : LoopLabels) :
    d.Longer ((d.addLabel.addLabel.addLabel.emit (.jump l.test)).mark l.top.toNat) :=
  (((d.longer_addLabel.trans (longer_addLabel _)).trans (longer_addLabel _)).trans
    (longer_emit _ _)).trans (longer_mark _ _)

/-- The labels of a loop that begins behind `n` labels. -/
def LoopLabels.behind (n : Nat) : LoopLabels := ⟨.ofNat n, .ofNat (n + 1), .ofNat (n + 2)⟩

/-- The labels of a loop that begins behind `n` labels, as numbers. -/
def LoopLabels.From (l : LoopLabels) (n : Nat) : Prop :=
  l.top.toNat = n ∧ l.test.toNat = n + 1 ∧ l.exit.toNat = n + 2

/-- As long as 32 bits are enough for them. -/
theorem LoopLabels.from_behind {n : Nat} (h : n + 2 < UInt32.size) : (behind n).From n :=
  ⟨UInt32.toNat_ofNat_of_lt' (by omega), UInt32.toNat_ofNat_of_lt' (by omega),
    UInt32.toNat_ofNat_of_lt' h⟩

/-- So they are in a loop that is entered. -/
theorem LoopLabels.from_entered {d : Draft} {l : LoopLabels} (hl : l = .behind d.labels.size)
    (haddr : ((d.addLabel.addLabel.addLabel.emit (.jump l.test)).mark l.top.toNat).Addressable) :
    l.From d.labels.size := by
  have hlabels := haddr.labels
  rw [Draft.size_labels_mark] at hlabels
  rw [hl]
  exact from_behind (Nat.lt_of_succ_le (by simpa using hlabels))

namespace Gen

variable {g g' : Generator} {u : Unit} {ps : List Pending}

/-- An instruction of a function is added to its body. -/
@[simp]
theorem makes_emitBody {i : Instruction} :
    Makes (emitBody i) g u g' ↔ g' = g.onBody fun d => d.emit i := makes_emit

/-- A new label of a function is the next one of its body. -/
@[simp]
theorem makes_newBodyLabel {l : UInt32} :
    Makes newBodyLabel g l g' ↔ l = .ofNat g.body.labels.size ∧ g' = g.onBody Draft.addLabel :=
  makes_newLabel

/-- A label of a function is marked at the end of its body. -/
@[simp]
theorem makes_markBody {l : UInt32} :
    Makes (markBody l) g u g' ↔ g' = g.onBody fun d => d.mark l.toNat := makes_mark

/-- What is left open is put on top of what has been before. -/
@[simp]
theorem makes_suspend {p : Pending} :
    Makes (suspend p) g u g' ↔ g' = g.withPending (p :: g.pending) := makes_modify

/-- What was left open last is taken up first. -/
@[simp]
theorem makes_resume {p : Option Pending} :
    Makes resume g p g' ↔ p = g.pending.head? ∧ g' = g.withPending g.pending.tail := by
  simp only [resume, makes_bind, makes_get, makes_set, makes_pure]
  constructor
  · rintro ⟨_, _, ⟨rfl, rfl⟩, _, _, rfl, rfl, rfl⟩
    exact ⟨rfl, rfl⟩
  · rintro ⟨rfl, rfl⟩
    exact ⟨_, _, ⟨rfl, rfl⟩, ⟨⟩, _, rfl, rfl, rfl⟩

/-- A scope is opened in front of the others. -/
@[simp]
theorem makes_openScope : Makes openScope g u g' ↔ g' = g.withScopes g.scopes.push := makes_modify

/-- The scope that was opened last is closed. -/
@[simp]
theorem makes_closeScope : Makes closeScope g u g' ↔ g' = g.withScopes g.scopes.pop := makes_modify

/-! ## Choices -/

/-- Behind a condition stands a jump over the branch, to a label that is left open. -/
theorem makes_ifTrue {c : Expr} (h : Makes (ifTrue c) g u g') :
    ∃ g₁ l, Makes (c.compileAs .function (.scalar .bool)) g ⟨⟩ g₁ ∧
      l = .ofNat g₁.body.labels.size ∧
      g' = (g₁.onBody fun d => d.addLabel.emit (.jumpIfFalse l)).withPending
        (.choice l :: g₁.pending) := by
  simp only [ifTrue, beginIf, makes_bind, makes_newBodyLabel, makes_emitBody, makes_suspend] at h
  obtain ⟨_, g₁, hc, l, _, ⟨hl, rfl⟩, _, _, rfl, rfl⟩ := h
  exact ⟨g₁, l, hc, hl, rfl⟩

/-- The first branch ends with a jump over the second one, which begins where the condition jumps
to. -/
theorem makes_ifFalse {l : UInt32} (hp : g.pending = .choice l :: ps)
    (h : Makes ifFalse g u g') : ∃ done : UInt32, done = .ofNat g.body.labels.size ∧
      g' = (g.onBody fun d => (d.addLabel.emit (.jump done)).mark l.toNat).withPending
        (.choice done :: ps) := by
  simp only [ifFalse, makes_bind, makes_resume, hp, List.head?_cons, List.tail_cons] at h
  obtain ⟨_, _, ⟨rfl, rfl⟩, h⟩ := h
  simp only [makes_bind, makes_newBodyLabel, makes_emitBody, makes_markBody, makes_suspend] at h
  obtain ⟨done, _, ⟨hd, rfl⟩, _, _, rfl, _, _, rfl, rfl⟩ := h
  exact ⟨done, hd, rfl⟩

/-- A choice ends where the jump over its last branch leads. -/
theorem makes_endIf {l : UInt32} (hp : g.pending = .choice l :: ps) (h : Makes endIf g u g') :
    g' = (g.onBody fun d => d.mark l.toNat).withPending ps := by
  simp only [endIf, makes_bind, makes_resume, hp, List.head?_cons, List.tail_cons] at h
  obtain ⟨_, _, ⟨rfl, rfl⟩, h⟩ := h
  exact makes_markBody.mp h

/-! ## Loops -/

/-- A loop begins with a jump to its test, and its body is marked behind that. -/
theorem makes_enterLoop {l : LoopLabels} (h : Makes enterLoop g l g') :
    l = .behind g.body.labels.size ∧
      g' = g.onBody fun d =>
        (d.addLabel.addLabel.addLabel.emit (.jump l.test)).mark l.top.toNat := by
  simp only [enterLoop, makes_bind, makes_newBodyLabel, makes_emitBody, makes_markBody,
    makes_pure] at h
  obtain ⟨top, _, ⟨h₁, rfl⟩, test, _, ⟨h₂, rfl⟩, exit, _, ⟨h₃, rfl⟩, _, _, rfl, _, _, rfl,
    rfl, rfl⟩ := h
  have h₂ : test = .ofNat (g.body.labels.size + 1) := by
    simpa [Generator.onBody, Draft.addLabel] using h₂
  have h₃ : exit = .ofNat (g.body.labels.size + 1 + 1) := by
    simpa [Generator.onBody, Draft.addLabel] using h₃
  exact ⟨by rw [h₁, h₂, h₃, LoopLabels.behind], rfl⟩

/-- The labels of a loop are left open until its end. -/
theorem makes_openLoop (h : Makes openLoop g u g') :
    ∃ l, l = .behind g.body.labels.size ∧ g' = (g.onBody fun d =>
        (d.addLabel.addLabel.addLabel.emit (.jump l.test)).mark l.top.toNat).withPending
          (.loop l :: g.pending) := by
  obtain ⟨l, g₁, h₁, h₂⟩ := makes_bind.mp h
  obtain ⟨hl, rfl⟩ := makes_enterLoop h₁
  exact ⟨l, hl, makes_suspend.mp h₂⟩

/-- The test of a loop jumps back to the body, and behind it the loop is left. -/
theorem makes_closeLoop {c : Expr} {l : LoopLabels} (hp : g.pending = .loop l :: ps)
    (h : Makes (closeLoop c) g u g') :
    ∃ g₁,
      Makes (c.compileAs .function (.scalar .bool)) (g.onBody fun d => d.mark l.test.toNat) ⟨⟩ g₁ ∧
      g' = (g₁.onBody fun d => (d.emit (.jumpIfTrue l.top)).mark l.exit.toNat).withPending
        g₁.pending.tail := by
  simp only [closeLoop, endWhile, makes_bind, makes_get] at h
  obtain ⟨_, _, ⟨rfl, rfl⟩, h⟩ := h
  simp only [hp, List.head?_cons, makes_bind, makes_emitBody, makes_markBody, makes_resume,
    makes_pure] at h
  obtain ⟨_, _, rfl, _, g₁, hc, _, _, rfl, _, _, rfl, _, _, ⟨-, rfl⟩, -, rfl⟩ := h
  exact ⟨g₁, hc, rfl⟩

/-! ## Counting loops -/

/-- A counted loop has a bound. Its counter is a local variable of a scope of its own, which is set
before the first test. -/
theorem makes_openCount {counter : Name} {range : Range}
    (h : Makes (openCount counter range) g u g') :
    range.bound.isSome ∧ ∃ g₁ g₂ g₃ slot v l,
      Makes addLocal (g.withScopes g.scopes.push) slot g₁ ∧
      v = ⟨.int, .local, g₁.scopes.count .local, .scalar, .local slot⟩ ∧
      g₂ = g₁.withScopes (g₁.scopes.withCurrent (g₁.scopes.current.insert counter.value v)) ∧
      Makes (range.start.compileAs .function (.scalar .int)) g₂ ⟨⟩ g₃ ∧
      l = .behind g₃.body.labels.size ∧
      g' = (g₃.onBody fun d => ((d.emit (.storeLocal slot)).addLabel.addLabel.addLabel.emit
        (.jump l.test)).mark l.top.toNat).withPending (.count slot l :: g₃.pending) := by
  unfold openCount beginFor at h
  dsimp only at h
  rw [makes_check] at h
  obtain ⟨hb, h⟩ := h
  simp only [makes_bind, makes_openScope, makes_emitBody, makes_suspend] at h
  obtain ⟨_, _, rfl, slot, g₁, hslot, v, g₂, hv, _, g₃, hstart, _, _, rfl, l, _, hloop, rfl⟩ := h
  obtain ⟨hl, rfl⟩ := makes_enterLoop hloop
  obtain ⟨hsymbol, hg₂⟩ := makes_define hv
  have hbound : range.bound.isSome := by
    cases hr : range.bound with
    | none => exact absurd (by rw [hr]; rfl) hb
    | some b => rfl
  exact ⟨hbound, g₁, g₂, g₃, slot, v, l, hslot, hsymbol, hg₂, hstart, hl, rfl⟩

/-- Behind the body the counter takes a step, and the body is done again unless it is beyond the
bound. -/
theorem makes_closeCount {range : Range} {slot : UInt32} {l : LoopLabels}
    (hp : g.pending = .count slot l :: ps) (h : Makes (closeCount range) g u g') :
    ∃ g₁ g₂ g₃, Makes (stepOf range) (g.onBody fun d => d.emit (.loadLocal slot)) ⟨⟩ g₁ ∧
      g₂ = (g₁.onBody fun d =>
        (((d.emit (.binary .add)).emit (.storeLocal slot)).mark l.test.toNat).emit
          (.loadLocal slot)) ∧
      Makes (boundOf range) g₂ ⟨⟩ g₃ ∧
      g' = ((g₃.onBody fun d =>
        (d.emitAll [.binary .gt, .pushInt 0, .binary .eq, .jumpIfTrue l.top]).mark
          l.exit.toNat).withPending g₃.pending.tail).withScopes g₃.scopes.pop := by
  simp only [closeCount, endFor, makes_bind, makes_get] at h
  obtain ⟨_, _, ⟨rfl, rfl⟩, h⟩ := h
  simp only [hp, List.head?_cons, makes_bind, makes_emitBody, makes_emitAll, makes_markBody,
    makes_resume, makes_closeScope] at h
  obtain ⟨_, _, rfl, _, g₁, hstep, _, _, rfl, _, _, rfl, _, _, rfl, _, _, rfl, _, g₃, hbound,
    _, _, rfl, _, _, rfl, _, _, ⟨-, rfl⟩, rfl⟩ := h
  exact ⟨g₁, _, g₃, hstep, rfl, hbound, rfl⟩

/-! ## Simple statements -/

/-- The value of an expression that stands for its effect is dropped, if it has any. -/
theorem makes_effect {e : Expr} (h : Makes (effect e) g u g') :
    ∃ type g₁, Makes (e.compile .function) g type g₁ ∧
      g' = if type.hasValue then g₁.onBody fun d => d.emit .pop else g₁ := by
  obtain ⟨type, g₁, hc, hrest⟩ := makes_bind.mp h
  refine ⟨type, g₁, hc, ?_⟩
  split at hrest
  · rename_i hv
    rw [if_pos hv]
    exact makes_emitBody.mp hrest
  · rename_i hv
    rw [if_neg hv]
    exact (makes_pure.mp hrest).2

/-- A return is met with a value exactly if the function has a type. -/
theorem makes_ret {word : Span} {value : Option Expr} {f : Current} (hf : g.current = some f)
    (h : Makes (ret word value) g u g') :
    (∃ e type g₁, value = some e ∧ f.returns = some type ∧
      Makes (e.compileAs .function (.scalar type)) g ⟨⟩ g₁ ∧ g' = g₁.onBody fun d => d.emit .ret) ∨
    (value = none ∧ f.returns = none ∧ g' = g.onBody fun d => d.emit .ret) := by
  simp only [ret, returnStatement, makes_bind, makes_get] at h
  obtain ⟨_, _, ⟨rfl, rfl⟩, h⟩ := h
  rw [hf] at h
  dsimp only at h
  rcases value with _ | e <;> rcases hr : f.returns with _ | type <;> rw [hr] at h
  · exact .inr ⟨rfl, rfl, makes_emitBody.mp h⟩
  · exact absurd h not_makes_fail_bind
  · exact absurd h not_makes_fail_bind
  · obtain ⟨_, g₁, hc, hrest⟩ := makes_bind.mp h
    exact .inl ⟨e, type, g₁, rfl, rfl, hc, makes_emitBody.mp hrest⟩

/-- A `break` jumps to the exit of the innermost loop. -/
theorem makes_leave {word : Span} (h : Makes (leave word) g u g') :
    ∃ l, g.pending.findSome? Pending.exit? = some l ∧ g' = g.onBody fun d => d.emit (.jump l) := by
  simp only [leave, makes_bind, makes_get] at h
  obtain ⟨_, _, ⟨rfl, rfl⟩, h⟩ := h
  split at h
  · rename_i l hl
    exact ⟨l, hl, makes_emitBody.mp h⟩
  · exact absurd h not_makes_fail

/-! ## Functions -/

/-- Where there is no function there is none to finish. -/
theorem makes_finishFunction_none (hf : g.current = none) (h : Makes finishFunction g u g') :
    g' = g := by
  rw [makes_modify.mp h, Generator.finishFunction, hf]

/-- The function that ends is stored as a routine, and its scope is closed. -/
theorem makes_finishFunction {f : Current} (hf : g.current = some f)
    (h : Makes finishFunction g u g') :
    g' = { g with
      routines := g.routines.push
        ⟨f.name, f.params, f.returns, f.locals, (g.body.emitAll (implicitReturn f.returns)).toCode⟩
      body := .empty
      current := none } := by
  rw [makes_modify.mp h, Generator.finishFunction, hf]
  rfl

/-- Variables and what runs before the program have nothing to do with the end of a function. -/
theorem keeps_finishFunction (h : Makes finishFunction g u g') :
    g'.scopes = g.scopes ∧ g'.fields = g.fields ∧ g'.initializer = g.initializer ∧
      g'.legacy = g.legacy := by
  cases hf : g.current with
  | none =>
    rw [makes_finishFunction_none hf h]
    exact ⟨rfl, rfl, rfl, rfl⟩
  | some f =>
    rw [makes_finishFunction hf h]
    exact ⟨rfl, rfl, rfl, rfl⟩

/-- Routines that are finished stay when one more is. -/
theorem routines_finishFunction (h : Makes finishFunction g u g') :
    g.routines.toList <+: g'.routines.toList := by
  cases hf : g.current with
  | none =>
    exact makes_finishFunction_none hf h ▸ List.prefix_rfl
  | some f =>
    rw [makes_finishFunction hf h, Array.toList_push]
    exact List.prefix_append ..

/-- A function that is finished has its code among the routines. -/
theorem addressable_finishFunction (h : Makes finishFunction g u g') (hc : g.current.isSome)
    (haddr : ∀ r ∈ g'.routines, r.code.Addressable) : g.body.Addressable := by
  obtain ⟨f, hf⟩ := Option.isSome_iff_exists.mp hc
  rw [makes_finishFunction hf h] at haddr
  exact .of_toCode (haddr _ (Array.mem_push_self ..)) (implicitReturn_ne_nil _)

/-- A function gets the next routine, and its name is new. -/
theorem makes_beginFunction {h : Header} (hm : Makes (beginFunction h) g u g') :
    ∃ g₁ n, Makes finishFunction g ⟨⟩ g₁ ∧ n = .ofNat g₁.routines.size ∧
      g₁.functions.lookup h.name.value = none ∧
      g' = { g₁ with
        functions := ⟨(h.name.value, ⟨h.parameterTypes, h.returnType, .routine n⟩) ::
          g₁.functions.entries⟩
        current := some ⟨h.name.value, h.parameterTypes, h.returnType, 0⟩
        pending := [] } := by
  simp only [beginFunction, beginFunctionAs, makes_bind, makes_get, makes_lift, makes_set] at hm
  obtain ⟨_, g₁, hfinish, _, _, ⟨rfl, rfl⟩, fs, _, ⟨hd, rfl⟩, rfl⟩ := hm
  unfold Functions.define at hd
  split at hd
  · cases hd
  · rename_i hl
    obtain rfl := Except.ok.inj hd
    exact ⟨_, _, hfinish, rfl, hl, rfl⟩

/-- A parameter gets the next argument slot of its function. -/
theorem makes_parameter {name : Name} {slot : Slot} {k : Nat}
    (hk : g.scopes.count .argument = .ofNat k)
    (h : Makes (do
      let index := (← get).scopes.count .argument
      let shape := if slot.array then .array none else .scalar
      let _ ← define name slot.type .argument shape (.argument index)) g u g') :
    ∃ v : Symbol, v = ⟨slot.type, .argument, .ofNat k, if slot.array then .array none else .scalar,
        .argument (.ofNat k)⟩ ∧
      g' = g.withScopes (g.scopes.withCurrent (g.scopes.current.insert name.value v)) := by
  simp only [makes_bind, makes_get, makes_pure] at h
  obtain ⟨_, _, ⟨hget, hsame⟩, v, _, hv, -, rfl⟩ := h
  rw [hget, hsame] at hv
  obtain ⟨hsymbol, rfl⟩ := makes_define hv
  rw [hk] at hsymbol
  exact ⟨v, hsymbol, rfl⟩

/-- One parameter more is in the innermost scope. -/
theorem count_insert_argument {s : Scopes} {name : String} {v : Symbol} {k : Nat}
    (hk : s.count .argument = .ofNat k) (hv : v.storage = .argument) :
    (s.withCurrent (s.current.insert name v)).count .argument = .ofNat (k + 1) := by
  rw [Scopes.count, Scopes.current_withCurrent, Scope.count_insert, if_pos hv,
    UInt32.ofNat_add, ← hk]
  rfl

/-- Each parameter gets the next argument slot of its function, and nothing else becomes
visible. -/
theorem makes_parameters {group : ParameterGroup} {k : Nat} (hi : g.scopes.isGlobal = false)
    (hk : g.scopes.count .argument = .ofNat k) (h : Makes group.compile g u g') :
    ∃ s : Scopes, g' = g.withScopes s ∧ s.pop = g.scopes.pop ∧ s.isGlobal = false ∧
      s.count .argument = .ofNat (k + group.slots.length) ∧
      ∀ v, s.Has v → g.scopes.Has v ∨ ∃ j, v.handle = .argument (.ofNat (k + j)) ∧
        (group.slots.map Prod.snd)[j]? = some v.slot := by
  unfold ParameterGroup.compile at h
  generalize group.slots = slots at h
  induction slots generalizing g k with
  | nil =>
    obtain rfl := makes_forM_nil.mp h
    exact ⟨g'.scopes, rfl, rfl, hi, hk, fun v hv => .inl hv⟩
  | cons p ps ih =>
    obtain ⟨name, slot⟩ := p
    obtain ⟨g₁, h₁, h₂⟩ := makes_forM_cons.mp h
    obtain ⟨v, hsymbol, rfl⟩ := makes_parameter hk h₁
    have ht : v.type = slot.type := by rw [hsymbol]
    have hstorage : v.storage = .argument := by rw [hsymbol]
    have hshape : v.shape = if slot.array then .array none else .scalar := by rw [hsymbol]
    have hh : v.handle = .argument (.ofNat k) := by rw [hsymbol]
    have hslot : v.slot = slot := by
      rw [Symbol.slot, Symbol.isArray, hshape, ht]
      cases ha : slot.array <;> exact congrArg (Slot.mk slot.type) ha.symm
    obtain ⟨s, rfl, hpop, hs, hsize, hnames⟩ :=
      ih (by rw [← hi]; exact Scopes.isGlobal_withCurrent _) (count_insert_argument hk hstorage) h₂
    refine ⟨s, rfl, hpop.trans (Scopes.pop_withCurrent _ hi), hs, ?_, fun w hw => ?_⟩
    · rw [hsize, List.length_cons, Nat.add_right_comm, Nat.add_assoc]
    rcases hnames w hw with hw | ⟨j, hn, hw⟩
    · rcases hw.of_insert with rfl | hw
      · exact .inr ⟨0, hh, by simp [hslot]⟩
      · exact .inl hw
    · exact .inr ⟨j + 1, by rw [hn, Nat.add_assoc, Nat.add_comm 1], by simpa using hw⟩

/-- The parameters of several types. -/
theorem makes_parameterGroups {groups : List ParameterGroup} {k : Nat}
    (hi : g.scopes.isGlobal = false) (hk : g.scopes.count .argument = .ofNat k)
    (h : Makes ((groups.map .parameters).forM Construct.compile) g u g') :
    ∃ s : Scopes, g' = g.withScopes s ∧ s.pop = g.scopes.pop ∧ s.isGlobal = false ∧
      ∀ v, s.Has v → g.scopes.Has v ∨ ∃ j, v.handle = .argument (.ofNat (k + j)) ∧
        ((groups.flatMap ParameterGroup.slots).map Prod.snd)[j]? = some v.slot := by
  induction groups generalizing g k with
  | nil =>
    obtain rfl := makes_forM_nil.mp h
    exact ⟨g'.scopes, rfl, rfl, hi, fun v hv => .inl hv⟩
  | cons group groups ih =>
    obtain ⟨g₁, h₁, h₂⟩ := makes_forM_cons.mp h
    obtain ⟨s₁, rfl, hpop₁, hs₁, hk₁, hnames₁⟩ := makes_parameters hi hk h₁
    obtain ⟨s, rfl, hpop, hs, hnames⟩ := ih (g := g.withScopes s₁) hs₁ hk₁ h₂
    rw [List.flatMap_cons, List.map_append]
    refine ⟨s, rfl, hpop.trans hpop₁, hs, fun v hv => ?_⟩
    rcases hnames v hv with hv | ⟨j, hh, hslot⟩
    · rcases hnames₁ v hv with hv | ⟨j, hh, hslot⟩
      · exact .inl hv
      · exact .inr ⟨j, hh, getElem?_mono (List.prefix_append ..) hslot⟩
    · refine .inr ⟨group.slots.length + j, by rw [hh, Nat.add_assoc], ?_⟩
      rw [List.getElem?_append_right (by simp), List.length_map, Nat.add_sub_cancel_left, hslot]

/-! ## What pieces of statements leave alone -/

/-- `m` leads to states that are related to those it starts in. -/
def Respects {α : Type} (R : Generator → Generator → Prop) (m : Gen α) : Prop :=
  ∀ g a g', Makes m g a g' → R g g'

/-- More code of the function and the statements that wait are of no account in a relation. -/
structure Framed (R : Generator → Generator → Prop) : Prop where
  refl : ∀ g, R g g
  trans : ∀ {g g₁ g'}, R g g₁ → R g₁ g' → R g g'
  body : ∀ (g : Generator) f, g.body.Longer (f g.body) → R g (g.onBody f)
  pending : ∀ g ps, R g (g.withPending ps)

section Framed

variable {α β : Type} {R : Generator → Generator → Prop} (hR : Framed R)
include hR

/-- A relation that two parts respect is respected by one behind the other. -/
theorem Respects.bind {m : Gen α} {f : α → Gen β} (hm : Respects R m)
    (hf : ∀ a, Respects R (f a)) : Respects R (m >>= f) := by
  intro g b g'' h
  obtain ⟨a, g', h₁, h₂⟩ := makes_bind.mp h
  exact hR.trans (hm g a g' h₁) (hf a g' b g'' h₂)

/-- Code for the body of a function is respected by any such relation. -/
theorem Extends.respects {m : Gen α} (h : Extends .function m) : Respects R m := by
  intro g a g' hm
  obtain ⟨d, rfl, hd⟩ := h g a g' hm
  exact hR.body g (fun _ => d) hd.longer

/-- A value changes nothing. -/
theorem respects_pure (a : α) : Respects R (pure a) := (extends_pure a).respects hR

/-- An instruction of the body is code for the body. -/
theorem respects_emitBody (i : Instruction) : Respects R (emitBody i) :=
    (extends_emit i).respects hR

/-- A label of the body is code for the body. -/
theorem respects_newBodyLabel : Respects R newBodyLabel := by
  intro g l g' h
  rw [(makes_newBodyLabel.mp h).2]
  exact hR.body g _ (Draft.longer_addLabel _)

theorem respects_markBody (l : UInt32) : Respects R (markBody l) := by
  intro g u g' h
  rw [makes_markBody.mp h]
  exact hR.body g _ (Draft.longer_mark _ _)

/-- What is left open may be put on the stack. -/
theorem respects_suspend (p : Pending) : Respects R (suspend p) := by
  intro g u g' h
  rw [makes_suspend.mp h]
  exact hR.pending g _

/-- What was left open may be taken up. -/
theorem respects_resume : Respects R resume := by
  intro g p g' h
  rw [(makes_resume.mp h).2]
  exact hR.pending g _

/-- An expression is code for the body. -/
theorem respects_compileAs (e : Expr) (type : ExprType) :
    Respects R (e.compileAs .function type) :=
  ((Expr.operand_extends .function e).compileAs type).respects hR

/-- The beginning of a loop is code for the body. -/
theorem respects_enterLoop : Respects R enterLoop :=
  (respects_newBodyLabel hR).bind hR fun _ => (respects_newBodyLabel hR).bind hR fun _ =>
    (respects_newBodyLabel hR).bind hR fun _ => (respects_emitBody hR _).bind hR fun _ =>
      (respects_markBody hR _).bind hR fun _ => respects_pure hR _

/-- The end of a loop is code for the body, and it takes up what was left open. -/
theorem respects_closeLoop (c : Expr) : Respects R (closeLoop c) := by
  refine ((extends_get : Extends .function _).respects hR).bind hR fun g => ?_
  split
  · exact (respects_markBody hR _).bind hR fun _ => (respects_compileAs hR _ _).bind hR fun _ =>
      (respects_emitBody hR _).bind hR fun _ => (respects_markBody hR _).bind hR fun _ =>
        (respects_resume hR).bind hR fun _ => respects_pure hR _
  · exact respects_pure hR _

/-- A return is code for the body. -/
theorem respects_ret (word : Span) (value : Option Expr) : Respects R (ret word value) := by
  have hfail {e : SemanticError} {span : Span} : Respects R (fail e span : Gen Unit) :=
    (extends_fail e span).respects hR
  refine ((extends_get : Extends .function _).respects hR).bind hR fun g => ?_
  split
  · exact (extends_fail _ _).respects hR
  · rename_i f _
    rcases value with _ | e <;> rcases f.returns with _ | type
    · exact respects_emitBody hR _
    · exact hfail.bind hR fun _ => respects_emitBody hR _
    · exact hfail.bind hR fun _ => respects_emitBody hR _
    · exact (respects_compileAs hR e _).bind hR fun _ => respects_emitBody hR _

end Framed

end Gen

/-- The pieces of statements that declare nothing and leave the scopes as they are. -/
def Construct.Plain : Construct → Prop
  | .expr _ | .ifTrue _ | .ifFalse | .endIf | .openLoop | .closeLoop _ | .ret _ _ | .leave _ => True
  | _ => False

/-- The step of a range is code for the body, be it written or not. -/
theorem Gen.extends_stepOf (range : Range) : Extends .function (stepOf range) := by
  unfold stepOf
  split
  · exact (Expr.operand_extends .function _).compileAs _
  · exact extends_emit _

/-- The bound of a range is code for the body. -/
theorem Gen.extends_boundOf (range : Range) : Extends .function (boundOf range) := by
  unfold boundOf
  split
  · exact (Expr.operand_extends .function _).compileAs _
  · exact extends_pure _

namespace Gen

/-- Plain pieces of statements add code to the function and set statements aside, and no more. -/
theorem Framed.plain {R : Generator → Generator → Prop} (hR : Framed R) {c : Construct}
    (hc : c.Plain) : Respects R c.compile := by
  -- Each construct is put together from what any framed relation respects.
  cases c with
  | expr e =>
    refine ((Expr.operand_extends .function e).compile.respects hR).bind hR fun _ => ?_
    split
    · exact respects_emitBody hR _
    · exact respects_pure hR _
  | ifTrue c =>
    exact (respects_compileAs hR _ _).bind hR fun _ => (respects_newBodyLabel hR).bind hR fun _ =>
      (respects_emitBody hR _).bind hR fun _ => respects_suspend hR _
  | ifFalse =>
    refine (respects_resume hR).bind hR fun _ => ?_
    split
    · exact (respects_newBodyLabel hR).bind hR fun _ => (respects_emitBody hR _).bind hR fun _ =>
        (respects_markBody hR _).bind hR fun _ => respects_suspend hR _
    · exact respects_pure hR _
  | endIf =>
    refine (respects_resume hR).bind hR fun _ => ?_
    split
    · exact respects_markBody hR _
    · exact respects_pure hR _
  | openLoop => exact (respects_enterLoop hR).bind hR fun _ => respects_suspend hR _
  | closeLoop c => exact respects_closeLoop hR c
  | ret word value => exact respects_ret hR word value
  | leave word =>
    refine ((extends_get : Extends .function _).respects hR).bind hR fun g => ?_
    split
    · exact respects_emitBody hR _
    · exact (extends_fail _ _).respects hR
  -- The other constructs are about scopes, which are not plain.
  | _ => exact hc.elim

/-- The end of a counting loop closes a scope as well. -/
theorem Framed.closeCount {R : Generator → Generator → Prop} (hR : Framed R)
    (hscopes : ∀ g s, R g (g.withScopes s)) (range : Range) : Respects R (closeCount range) := by
  have hclose : Respects R closeScope := by
    intro g u g' h
    rw [makes_closeScope.mp h]
    exact hscopes g _
  refine ((extends_get : Extends .function _).respects hR).bind hR fun g => ?_
  split
  · exact (respects_emitBody hR _).bind hR fun _ => ((extends_stepOf range).respects hR).bind hR
      fun _ => (respects_emitBody hR _).bind hR fun _ => (respects_emitBody hR _).bind hR fun _ =>
        (respects_markBody hR _).bind hR fun _ => (respects_emitBody hR _).bind hR fun _ =>
          ((extends_boundOf range).respects hR).bind hR fun _ =>
            ((extends_emitAll _).respects hR).bind hR fun _ =>
              (respects_markBody hR _).bind hR fun _ => (respects_resume hR).bind hR fun _ => hclose
  · exact respects_pure hR _

/-! ## What stays -/

/-- Code for the body and open statements change neither the form of the code nor its routines. -/
theorem framed_later : Framed Generator.Later where
  refl := .refl
  trans := .trans
  body _ _ h := .of_longer rfl rfl rfl rfl rfl h
  pending _ _ := .of_eq rfl rfl rfl rfl rfl rfl

/-- Parameters finish no routine. -/
theorem steady_parameters (group : ParameterGroup) : Steady group.compile :=
  steady_forM fun (_, _) => steady_get.bind fun _ => (steady_define _ _ _ _ _).bind fun _ =>
    steady_pure _

/-- The beginning of a function takes back no routine. -/
theorem steady_beginFunction (h : Header) : Steady (beginFunction h) := by
  intro g u g' hm
  obtain ⟨g₁, n, hfinish, -, -, rfl⟩ := makes_beginFunction hm
  obtain ⟨-, hfields, hinitializer, hlegacy⟩ := keeps_finishFunction hfinish
  have hroutines := routines_finishFunction hfinish
  refine ⟨hlegacy, hroutines, hfields ▸ List.prefix_rfl, hinitializer ▸ .refl _, fun _ => rfl,
    fun haddr => ⟨hinitializer ▸ haddr.initializer, ?_, fun r hr => ?_⟩⟩
  · cases hf : g.current with
    | none =>
      have hbody := haddr.body
      rwa [makes_finishFunction_none hf hfinish] at hbody
    | some f => exact addressable_finishFunction hfinish (by rw [hf]; rfl) haddr.routines
  · exact haddr.routines r (Array.mem_toList_iff.mp
      (hroutines.subset (Array.mem_toList_iff.mpr hr)))

/-- The beginning of a counted loop takes back no routine. -/
theorem steady_openCount (counter : Name) (range : Range) : Steady (openCount counter range) := by
  intro g u g' h
  obtain ⟨-, g₁, g₂, g₃, slot, v, l, hslot, -, rfl, hstart, -, rfl⟩ := makes_openCount h
  have hopen : g.Later (g.withScopes g.scopes.push) := .of_eq rfl rfl rfl rfl rfl rfl
  have hdefine {s : Scopes} : g₁.Later (g₁.withScopes s) := .of_eq rfl rfl rfl rfl rfl rfl
  have hvalue := respects_compileAs framed_later _ _ _ _ _ hstart
  have henter : g₃.body.Longer (((g₃.body.emit (.storeLocal slot)).addLabel.addLabel.addLabel.emit
      (.jump l.test)).mark l.top.toNat) :=
    (Draft.longer_emit _ _).trans (Draft.longer_enterLoop _ _)
  exact (((hopen.trans (steady_addLocal _ _ _ hslot)).trans hdefine).trans hvalue).trans
    (.of_longer rfl rfl rfl rfl rfl henter)

/-- **No construct changes what has been finished.** -/
theorem steady_construct (c : Construct) : Steady c.compile := by
  cases c with
  | globals d => exact steady_declaration d
  | openFunction => exact steady_modify fun _ => .of_eq rfl rfl rfl rfl rfl rfl
  | parameters g => exact steady_parameters g
  | header h => exact steady_beginFunction h
  | closeFunction => exact steady_modify fun _ => .of_eq rfl rfl rfl rfl rfl rfl
  | openBlock => exact steady_modify fun _ => .of_eq rfl rfl rfl rfl rfl rfl
  | locals d => exact steady_declaration d
  | closeBlock => exact steady_modify fun _ => .of_eq rfl rfl rfl rfl rfl rfl
  | openCount counter range => exact steady_openCount counter range
  | closeCount range => exact framed_later.closeCount (fun _ _ =>
      .of_eq rfl rfl rfl rfl rfl rfl) range
  | _ => exact framed_later.plain trivial

/-- What stays behind constructs. -/
theorem makes_constructs_later {cs : List Construct} {g g' : Generator} {u : PUnit}
    (h : Makes (cs.forM Construct.compile) g u g') : g.Later g' :=
  steady_forM steady_construct _ _ _ h

/-! ## Functions that are known -/

/-- The same functions are known in both states, and the current one is the same. -/
structure SameFunctions (g g' : Generator) : Prop where
  known : g'.functions = g.functions
  current : g'.current.map Current.head = g.current.map Current.head

/-- Neither code nor open statements are about functions. -/
theorem framed_functions : Framed SameFunctions where
  refl _ := ⟨rfl, rfl⟩
  trans h h' := ⟨h'.known.trans h.known, h'.current.trans h.current⟩
  body _ _ _ := ⟨rfl, rfl⟩
  pending _ _ := ⟨rfl, rfl⟩

/-- A loop respects what its rounds respect. -/
theorem Respects.forM {α : Type} {R : Generator → Generator → Prop} (hR : Framed R) {xs : List α}
    {f : α → Gen Unit} (hf : ∀ x, Respects R (f x)) : Respects R (xs.forM f) := by
  induction xs with
  | nil => exact respects_pure hR _
  | cons x xs ih => exact (hf x).bind hR fun _ => ih

/-- A field is no function. -/
theorem functions_addField (name : String) (slot : Slot) :
    Respects SameFunctions (addField name slot) := by
  intro g i g' h
  rw [(makes_addField h).2]
  exact ⟨rfl, rfl⟩

theorem functions_addLocal : Respects SameFunctions addLocal := by
  intro g i g' h
  obtain ⟨f, hf, rfl⟩ := current_of_addLocal h
  exact ⟨rfl, hf⟩

/-- A variable is no function. -/
theorem functions_define (name : Name) (type : WordType) (storage : Storage) (shape : Shape)
    (handle : Handle) : Respects SameFunctions (define name type storage shape handle) := by
  intro g v g' h
  rw [(makes_define h).2]
  exact ⟨rfl, rfl⟩

/-- The place of a variable is no function. -/
theorem functions_allocate (d : Declarator) (slot : Slot) (static : Bool) :
    Respects SameFunctions (d.allocate slot static) := by
  have hR := framed_functions
  refine ((extends_get : Extends .function _).respects hR).bind hR fun g => ?_
  split
  · exact (functions_addField _ _).bind hR fun _ => respects_pure hR _
  · exact (functions_addField _ _).bind hR fun _ => respects_pure hR _
  · exact functions_addLocal.bind hR fun _ => respects_pure hR _

/-- A declarator makes no function known. -/
theorem functions_declarator (d : Declarator) (type : WordType) (static : Bool) :
    Respects SameFunctions (d.compile type static) := by
  intro g u g' h
  obtain ⟨v, _, t, g₁, -, hallocate, hprepare⟩ := Declarator.makes_symbol h
  obtain ⟨draft, rfl, -⟩ := extends_prepareCode t v d.init _ _ _ hprepare
  obtain ⟨hknown, hcurrent⟩ := functions_allocate d _ _ _ _ _ hallocate
  refine ⟨(Generator.onDraft_functions _ _ _).trans hknown, ?_⟩
  rw [Generator.onDraft_current]
  exact hcurrent

/-- A declaration makes no function known. -/
theorem functions_declaration (d : Declaration) : Respects SameFunctions d.compile :=
  .forM framed_functions fun i => functions_declarator i _ _

/-- At its end a function has been known since its beginning. -/
theorem functions_finishFunction {g g' : Generator} {u : Unit} (h : Makes finishFunction g u g') :
    g'.functions = g.functions := by
  cases hf : g.current with
  | none =>
    rw [makes_finishFunction_none hf h]
  | some f =>
    rw [makes_finishFunction hf h]

/-- **Only the head of a function makes a function known**, and the current one. -/
theorem functions_construct {c : Construct} (hc : ∀ h, c ≠ .header h) :
    Respects SameFunctions c.compile := by
  have hR := framed_functions
  have hscopes {f : Generator → Scopes} :
      Respects SameFunctions (modify fun g => g.withScopes (f g)) := by
    intro g u g' h
    rw [makes_modify.mp h]
    exact ⟨rfl, rfl⟩
  cases c with
  | globals d => exact functions_declaration d
  | openFunction => exact hscopes
  | parameters g =>
    exact Respects.forM hR fun (_, _) => ((extends_get : Extends .function _).respects hR).bind hR
      fun _ => (functions_define _ _ _ _ _).bind hR fun _ => respects_pure hR _
  | header h => exact absurd rfl (hc h)
  | closeFunction => exact hscopes
  | openBlock => exact hscopes
  | locals d => exact functions_declaration d
  | closeBlock => exact hscopes
  | openCount counter range =>
    intro g u g' h
    obtain ⟨-, g₁, g₂, g₃, slot, v, l, hslot, -, rfl, hstart, -, rfl⟩ := makes_openCount h
    have hsame := functions_addLocal (g.withScopes g.scopes.push) _ _ hslot
    have hentered := respects_compileAs hR _ _ _ _ _ hstart
    exact ⟨hentered.known.trans hsame.known, hentered.current.trans hsame.current⟩
  | closeCount range => exact hR.closeCount (fun _ _ => ⟨rfl, rfl⟩) range
  | _ => exact hR.plain trivial

/-- Only headers make functions known. -/
theorem functions_constructs {cs : List Construct} (hcs : ∀ c ∈ cs, ∀ h, c ≠ .header h)
    {g g' : Generator} (hm : Makes (cs.forM Construct.compile) g ⟨⟩ g') : SameFunctions g g' := by
  induction cs generalizing g with
  | nil =>
    rw [makes_forM_nil.mp hm]
    exact framed_functions.refl g
  | cons c cs ih =>
    obtain ⟨g₁, h₁, h₂⟩ := makes_forM_cons.mp hm
    exact framed_functions.trans (functions_construct (hcs c (.head _)) _ _ _ h₁)
      (ih (fun c hc => hcs c (.tail _ hc)) h₂)

end Gen

end OnePass
