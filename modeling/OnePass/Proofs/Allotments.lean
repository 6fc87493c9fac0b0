import OnePass.Proofs.FunctionNumbers

/-!
# Every declared variable takes storage of its own

Main statement: the variables that a statement declares take exactly the fields and the local slots
that generation hands out meanwhile, each of them once (`Stmt.declaresAll`), if there are numbers of
32 bits left for them (`Generator.Spare`).

What is handed out is a set that grows: `Fills a b xs` says that the things `xs`, all of them
different, are what `b` has more than `a`. Storage of a function that is being compiled is a `Room`,
and `Allots a b vs` says that the variables `vs` fill what the room `b` has more than the room `a`.
Since such steps compose, it is enough to look at one variable at a time, and at the four ways in
which one gets its storage.
-/

namespace OnePass

/-! ## Growing sets -/

/-- The things `xs` are what `b` holds more than `a`, each of them once. -/
structure Fills {α : Type} (a b : α → Prop) (xs : List α) : Prop where
  le : ∀ x, a x → b x
  distinct : xs.Nodup
  mem : ∀ x, x ∈ xs ↔ b x ∧ ¬ a x

namespace Fills

variable {α : Type} {a b c : α → Prop} {xs ys : List α}

/-- What is already full is filled by nothing. -/
theorem nil (h : ∀ x, a x ↔ b x) : Fills a b [] :=
  ⟨fun x => (h x).mp, .nil, fun x => ⟨nofun, fun hx => absurd ((h x).mpr hx.1) hx.2⟩⟩

/-- What is filled by one list and then by another is filled by both. -/
theorem append (h : Fills a b xs) (h' : Fills b c ys) : Fills a c (xs ++ ys) := by
  refine ⟨fun x hx => h'.le x (h.le x hx), List.nodup_append.mpr ⟨h.distinct, h'.distinct, ?_⟩,
    fun x => ?_⟩
  · rintro x hx _ hy rfl
    exact ((h'.mem x).mp hy).2 ((h.mem x).mp hx).1
  · rw [List.mem_append, h.mem, h'.mem]
    constructor
    · rintro (⟨hb, ha⟩ | ⟨hc, hb⟩)
      · exact ⟨h'.le x hb, ha⟩
      · exact ⟨hc, fun ha => hb (h.le x ha)⟩
    · rintro ⟨hc, ha⟩
      by_cases hb : b x
      · exact .inl ⟨hb, ha⟩
      · exact .inr ⟨hc, hb⟩

/-- The same set seen through `f`, which reaches all that is new. -/
theorem map {β : Type} {a' b' : β → Prop} {f : α → β} (h : Fills a b xs) (hf : f.Injective)
    (hle : ∀ y, a' y → b' y) (hnew : ∀ x, b' (f x) ∧ ¬ a' (f x) ↔ b x ∧ ¬ a x)
    (hreach : ∀ y, b' y → ¬ a' y → ∃ x, f x = y) : Fills a' b' (xs.map f) := by
  refine ⟨hle, List.Pairwise.map f (fun _ _ hne heq => hne (hf heq)) h.distinct, fun y => ?_⟩
  rw [List.mem_map]
  constructor
  · rintro ⟨x, hx, rfl⟩
    exact (hnew x).mpr ((h.mem x).mp hx)
  · rintro ⟨hb, ha⟩
    obtain ⟨x, rfl⟩ := hreach y hb ha
    exact ⟨x, (h.mem x).mpr ((hnew x).mp ⟨hb, ha⟩), rfl⟩

end Fills

/-! ## Storage -/

/-- The storage that there is for the variables of a function and for fields. -/
structure Room where
  /-- what the fields hold -/
  fields : List Slot
  /-- how many local slots there are -/
  locals : Nat
  /-- what the argument slots hold -/
  params : List Slot

namespace Room

/-- Whether there is a place. -/
def Has (a : Room) : Handle → Prop
  | .field n => n.toNat < a.fields.length
  | .local n => n.toNat < a.locals
  | .argument n => n.toNat < a.params.length

/-- Whether a variable has a place, of the kind that fits its storage, and with its type if the
places of this kind have one. -/
def Suits (a : Room) (v : Symbol) : Prop :=
  match v.storage with
  | .global | .static => ∃ n, v.handle = .field n ∧ a.fields[n.toNat]? = some v.slot
  | .local => ∃ n, v.handle = .local n ∧ n.toNat < a.locals
  | .argument => ∃ n, v.handle = .argument n ∧ a.params[n.toNat]? = some v.slot

/-- With more argument slots. -/
def withParams (a : Room) (ps : List Slot) : Room := { a with params := a.params ++ ps }

/-- No parameter needs room. -/
theorem withParams_nil (a : Room) : a.withParams [] = a := by
  rw [withParams, List.append_nil]

/-- Parameters behind others are parameters. -/
theorem withParams_append (a : Room) (ps qs : List Slot) :
    (a.withParams ps).withParams qs = a.withParams (ps ++ qs) := by
  simp only [withParams, List.append_assoc]

/-- Room for parameters is counted by them. -/
theorem length_withParams (a : Room) (ps : List Slot) :
    (a.withParams ps).params.length = a.params.length + ps.length :=
  List.length_append

/-- There is more room. -/
structure Le (a b : Room) : Prop where
  fields : a.fields <+: b.fields
  locals : a.locals ≤ b.locals
  params : a.params <+: b.params

variable {a b c : Room} {v : Symbol}

/-- There is as much room as there is. -/
theorem Le.refl (a : Room) : a.Le a := ⟨List.prefix_rfl, Nat.le_refl _, List.prefix_rfl⟩

/-- More room than more is more. -/
theorem Le.trans (h : a.Le b) (h' : b.Le c) : a.Le c :=
  ⟨h.fields.trans h'.fields, h.locals.trans h'.locals, h.params.trans h'.params⟩

/-- What there was room for there still is. -/
theorem Le.has (h : a.Le b) {x : Handle} (hx : a.Has x) : b.Has x := by
  cases x with
  | field n => exact Nat.lt_of_lt_of_le hx h.fields.length_le
  | «local» n => exact Nat.lt_of_lt_of_le hx h.locals
  | argument n => exact Nat.lt_of_lt_of_le hx h.params.length_le

/-- A variable that has its place keeps it when there is more room. -/
theorem Suits.mono (hv : a.Suits v) (h : a.Le b) : b.Suits v := by
  unfold Suits at hv ⊢
  split at hv
  · obtain ⟨n, hn, hs⟩ := hv
    exact ⟨n, hn, getElem?_mono h.fields hs⟩
  · obtain ⟨n, hn, hs⟩ := hv
    exact ⟨n, hn, getElem?_mono h.fields hs⟩
  · obtain ⟨n, hn, hs⟩ := hv
    exact ⟨n, hn, Nat.lt_of_lt_of_le hs h.locals⟩
  · obtain ⟨n, hn, hs⟩ := hv
    exact ⟨n, hn, getElem?_mono h.params hs⟩

end Room

/-- The variables `vs` get the storage that the room `b` has more than the room `a`. -/
structure Allots (a b : Room) (vs : List Symbol) : Prop where
  le : a.Le b
  fills : Fills a.Has b.Has (vs.map Symbol.handle)
  suits : ∀ v ∈ vs, b.Suits v

namespace Allots

variable {a b c : Room} {v : Symbol} {vs ws : List Symbol} {n : UInt32}

/-- Nothing is allotted to nothing. -/
theorem refl (a : Room) : Allots a a [] := ⟨.refl a, .nil fun _ => .rfl, nofun⟩

/-- Variables one after the other are given what is next each time. -/
theorem append (h : Allots a b vs) (h' : Allots b c ws) : Allots a c (vs ++ ws) := by
  refine ⟨h.le.trans h'.le, ?_, fun v hv => ?_⟩
  · rw [List.map_append]
    exact h.fills.append h'.fills
  · rcases List.mem_append.mp hv with hv | hv
    · exact (h.suits v hv).mono h'.le
    · exact h'.suits v hv

/-- One variable takes the one place that is new. -/
theorem one (hle : a.Le b) (hv : b.Suits v) (hnew : ¬ a.Has v.handle)
    (hmem : ∀ x, b.Has x ↔ a.Has x ∨ x = v.handle) : Allots a b [v] := by
  refine ⟨hle, ⟨fun _ => hle.has, List.nodup_cons.mpr ⟨nofun, .nil⟩, fun x => ?_⟩, fun w hw => ?_⟩
  · rw [hmem, List.map_singleton, List.mem_singleton]
    constructor
    · rintro rfl
      exact ⟨.inr rfl, hnew⟩
    · rintro ⟨hx | hx, hnot⟩
      · exact absurd hx hnot
      · exact hx
  · rwa [List.mem_singleton.mp hw]

/-- Below the next number are the numbers so far and the last one. -/
theorem lt_succ_iff {m k : Nat} {i : UInt32} (hn : n.toNat = k) (hm : m = k + 1) :
    i.toNat < m ↔ i.toNat < k ∨ i = n := by
  rw [← UInt32.toNat_inj, hn, hm]
  omega

/-- A global or static variable is given the next field. -/
theorem field (hs : v.storage = .global ∨ v.storage = .static) (hh : v.handle = .field n)
    (hn : n.toNat = a.fields.length) : Allots a { a with fields := a.fields ++ [v.slot] } [v] := by
  refine one ⟨List.prefix_append _ _, Nat.le_refl _, List.prefix_rfl⟩ ?_ ?_ fun x => ?_
  · have hslot : (a.fields ++ [v.slot])[n.toNat]? = some v.slot := by
      rw [hn]
      exact List.getElem?_concat_length
    unfold Room.Suits
    obtain hs | hs := hs <;> rw [hs] <;> exact ⟨n, hh, hslot⟩
  · rw [hh]
    exact hn.not_lt
  · rw [hh]
    cases x with
    | field i => simpa [Room.Has] using lt_succ_iff hn rfl
    | «local» i => simp [Room.Has]
    | argument i => simp [Room.Has]

/-- A local variable is given the next slot. -/
theorem slot {k : Nat} (hs : v.storage = .local) (hh : v.handle = .local n)
    (hn : n.toNat = a.locals) (hk : k = a.locals + 1) : Allots a { a with locals := k } [v] := by
  refine one ⟨List.prefix_rfl, ?_, List.prefix_rfl⟩ ?_ ?_ fun x => ?_
  · show a.locals ≤ k
    omega
  · unfold Room.Suits
    rw [hs]
    refine ⟨n, hh, ?_⟩
    show n.toNat < k
    omega
  · rw [hh]
    exact hn.not_lt
  · rw [hh]
    cases x with
    | field i => simp [Room.Has]
    | «local» i => simpa [Room.Has] using lt_succ_iff hn hk
    | argument i => simp [Room.Has]

/-- A parameter is given the next argument. -/
theorem argument (hs : v.storage = .argument) (hh : v.handle = .argument n)
    (hn : n.toNat = a.params.length) : Allots a (a.withParams [v.slot]) [v] := by
  refine one ⟨List.prefix_rfl, Nat.le_refl _, List.prefix_append _ _⟩ ?_ ?_ fun x => ?_
  · unfold Room.Suits
    rw [hs]
    refine ⟨n, hh, ?_⟩
    show (a.params ++ [v.slot])[n.toNat]? = some v.slot
    rw [hn]
    exact List.getElem?_concat_length
  · rw [hh]
    exact hn.not_lt
  · rw [hh]
    cases x with
    | field i => simp [Room.Has, Room.withParams]
    | «local» i => simp [Room.Has, Room.withParams]
    | argument i => simpa [Room.Has, Room.withParams] using lt_succ_iff hn rfl

end Allots

/-! ## Declared variables -/

/-- The names that a construct declares, and how long the variables of these names live. -/
def Construct.declares : Construct → List (Name × Storage)
  | .globals d => d.items.map fun i => (i.name, .global)
  | .parameters g => g.slots.map fun s => (s.1, .argument)
  | .locals d => d.items.map fun i => (i.name, if d.static.isSome then .static else .local)
  | .openCount counter _ => [(counter, .local)]
  | _ => []

/-- What the names that a construct declares stand for right behind it. -/
def Construct.symbols (c : Construct) (behind : Generator) : List (Name × Symbol) :=
  c.declares.filterMap fun x => (behind.scopes.current.find? x.1.value).map (x.1, ·)

/-- The variables that constructs declare, in order, from a state of generation on. -/
def Generator.declared : Generator → List Construct → List (Name × Symbol)
  | _, [] => []
  | g, c :: cs =>
    match c.compile.run g with
    | .ok (_, g') => c.symbols g' ++ g'.declared cs
    | .error _ => []

/-- The innermost scope gets the variables `vs` under the names in `xs`. -/
structure Scope.Enters (c c' : Scope) (xs : List (Name × Storage)) (vs : List Symbol) : Prop where
  found : List.Forall₂ (fun x v => c'.find? x.1.value = some v ∧ v.storage = x.2) xs vs
  keeps : ∀ name v, c.find? name = some v → c'.find? name = some v

namespace Scope.Enters

variable {c c₁ c' : Scope} {xs ys : List (Name × Storage)} {vs ws : List Symbol}

/-- A scope that nothing enters stays as it is. -/
theorem refl (c : Scope) : c.Enters c [] [] := ⟨.nil, fun _ _ h => h⟩

/-- Constructs behind others declare what both do. -/
theorem append (h : c.Enters c₁ xs vs) (h' : c₁.Enters c' ys ws) :
    c.Enters c' (xs ++ ys) (vs ++ ws) :=
  ⟨List.rel_append (h.found.imp fun _ _ hx => ⟨h'.keeps _ _ hx.1, hx.2⟩) h'.found,
    fun name v hv => h'.keeps name v (h.keeps name v hv)⟩

/-- A name that is new. -/
theorem insert {name : Name} {v : Symbol} (hnew : c.find? name.value = none) :
    c.Enters (c.insert name.value v) [(name, v.storage)] [v] := by
  refine ⟨.cons ⟨by rw [Scope.find?_insert, if_pos rfl], rfl⟩ .nil, fun key w hw => ?_⟩
  rw [Scope.find?_insert, if_neg fun hkey => ?_]
  · exact hw
  · rw [hkey, hnew] at hw
    cases hw

/-- The names that a construct declares are all found behind it. -/
theorem symbols {k : Construct} {g : Generator} (h : c.Enters g.scopes.current k.declares vs) :
    (k.symbols g).map Prod.snd = vs ∧
      (k.symbols g).map (fun x => (x.1, x.2.storage)) = k.declares := by
  unfold Construct.symbols
  obtain ⟨hall, -⟩ := h
  generalize k.declares = xs at hall
  induction hall with
  | nil => exact ⟨rfl, rfl⟩
  | @cons x v xs vs hx _ ih =>
    have hhead : (x.1, v.storage) = x := Prod.ext rfl hx.2
    rw [List.filterMap_cons, hx.1]
    exact ⟨congrArg _ ih.1, congrArg₂ List.cons hhead ih.2⟩

end Scope.Enters

/-! ## Declarations -/

namespace Generator

/-- The storage handed out so far; parameters are counted apart. -/
def room (g : Generator) (params : List Slot) : Room :=
  ⟨g.fields.toList.map Field.slot, g.localCount, params⟩

/-- How long a variable lives that is declared here. -/
def storage (g : Generator) (static : Bool) : Storage :=
  if g.scopes.isGlobal then .global else if static then .static else .local

/-- Whether a variable that is declared here is a field. -/
def keeps (g : Generator) (static : Bool) : Bool := g.scopes.isGlobal || static

/-- There are numbers left for `m` fields and `n` local slots. -/
structure Spare (g : Generator) (m n : Nat) : Prop where
  fields : g.fields.size + m ≤ UInt32.size
  locals : g.localCount + n < UInt32.size

/-- The number of local variables has 32 bits. -/
theorem localCount_lt (g : Generator) : g.localCount < UInt32.size := by
  unfold localCount
  cases g.current with
  | none => exact Nat.zero_lt_succ _
  | some f => exact f.locals.toNat_lt

end Generator

/-- A counter of 32 bits counts on while there is a next number. -/
theorem toNat_add_one {n : UInt32} (h : n.toNat + 1 < UInt32.size) :
    (n + 1).toNat = n.toNat + 1 := by
  rw [UInt32.toNat_add, UInt32.toNat_one, Nat.mod_eq_of_lt h]

section

variable {g g₁ g' : Generator} {params : List Slot}

namespace Declarator

variable {d : Declarator} {type : WordType} {static : Bool} {m n : Nat}

/-- A variable is stored as its declaration says, outside functions as inside. -/
theorem storage_allocate {slot : Slot} {storage : Storage} {handle : Handle} {t : Target}
    (hg : g.scopes.isGlobal = true ∨ g.current.isSome)
    (h : Gen.Makes (d.allocate slot static) g (storage, handle, t) g') :
    storage = g.storage static := by
  unfold Generator.storage
  cases hglobal : g.scopes.isGlobal with
  | true => exact (makes_allocate_global hglobal h).1
  | false =>
    have hsome := hg.resolve_left (by rw [hglobal]; exact Bool.false_ne_true)
    obtain ⟨f, hf⟩ := Option.isSome_iff_exists.mp hsome
    cases static with
    | true => exact (makes_allocate_static hglobal hf h).1
    | false => exact (makes_allocate_local hglobal hf h).1

/-- A name is declared once in its scope. -/
theorem fresh_compile {u : Unit} (h : Gen.Makes (d.compile type static) g u g') :
    g.scopes.current.find? d.name.value = none := by
  obtain ⟨shape, g₀, hshape, h₁⟩ := Gen.makes_bind.mp h
  obtain ⟨place, g₁, hallocate, h₂⟩ := Gen.makes_bind.mp h₁
  obtain ⟨v, g₂, hdefine, h₃⟩ := Gen.makes_bind.mp h₂
  obtain ⟨rfl, -⟩ := makes_shape hshape
  rw [← (keeps_allocate hallocate).1]
  exact Gen.fresh_define hdefine

/-- A variable gets one new field or one new local slot. -/
theorem allots_allocate (params : List Slot) {v : Symbol} {t : Target}
    (hg : g.scopes.isGlobal = true ∨ g.current.isSome)
    (hspare : g.Spare ((g.keeps static).toNat + m) ((!g.keeps static).toNat + n))
    (h : Gen.Makes (d.allocate v.slot static) g (v.storage, v.handle, t) g') :
    Allots (g.room params) (g'.room params) [v] ∧ g'.current.isSome = g.current.isSome ∧
      g'.Spare m n := by
  obtain ⟨hfields, hlocals⟩ := hspare
  -- a global variable and a static one both get a field
  have hfield (hk : g.keeps static = true) (hs : v.storage = .global ∨ v.storage = .static)
      {i : UInt32} {name : String} (hh : v.handle = .field i) (hi : i = .ofNat g.fields.size)
      (hg' : g' = { g with fields := g.fields.push ⟨name, v.slot⟩ }) :
      Allots (g.room params) (g'.room params) [v] ∧ g'.current.isSome = g.current.isSome ∧
        g'.Spare m n := by
    rw [hk, Bool.toNat_true] at hfields
    rw [hk, Bool.not_true, Bool.toNat_false, Nat.zero_add] at hlocals
    have hroom : g'.room params
        = { g.room params with fields := (g.room params).fields ++ [v.slot] } := by
      simp [hg', Generator.room, Generator.localCount]
    have hnumber : i.toNat = (g.room params).fields.length := by
      rw [hi, UInt32.toNat_ofNat_of_lt' (by omega)]
      simp [Generator.room]
    rw [hroom, hg']
    refine ⟨.field hs hh hnumber, rfl, ?_, hlocals⟩
    show (g.fields.push _).size + m ≤ _
    rw [Array.size_push]
    omega
  cases hglobal : g.scopes.isGlobal with
  | true =>
    obtain ⟨hs, i, name, hh, hi, -, hg'⟩ := makes_allocate_global hglobal h
    exact hfield (by rw [Generator.keeps, hglobal]; rfl) (.inl hs) hh hi hg'
  | false =>
    have hsome := hg.resolve_left (by rw [hglobal]; exact Bool.false_ne_true)
    obtain ⟨f, hf⟩ := Option.isSome_iff_exists.mp hsome
    cases static with
    | true =>
      obtain ⟨hs, i, name, hh, hi, -, hg'⟩ := makes_allocate_static hglobal hf h
      exact hfield (by rw [Generator.keeps, hglobal]; rfl) (.inr hs) hh hi hg'
    | false =>
      have hk : g.keeps false = false := by rw [Generator.keeps, hglobal]; rfl
      rw [hk, Bool.toNat_false, Nat.zero_add] at hfields
      rw [hk, Bool.not_false, Bool.toNat_true] at hlocals
      obtain ⟨hs, hh, -, rfl⟩ := makes_allocate_local hglobal hf h
      have hcount : g.localCount = f.locals.toNat := by simp [Generator.localCount, hf]
      rw [hcount] at hlocals
      have hnext : (f.locals + 1).toNat = f.locals.toNat + 1 :=
        toNat_add_one (by omega)
      refine ⟨Allots.slot (k := (f.locals + 1).toNat) hs hh hcount.symm ?_, by rw [hf]; rfl,
        hfields, ?_⟩
      · exact hnext.trans (congrArg (· + 1) hcount.symm)
      · show (f.locals + 1).toNat + n < _
        omega

/-- A declared variable gets storage of its own, and becomes visible. -/
theorem allots (params : List Slot) (hg : g.scopes.isGlobal = true ∨ g.current.isSome)
    (hspare : g.Spare ((g.keeps static).toNat + m) ((!g.keeps static).toNat + n))
    (h : Gen.Makes (d.compile type static) g ⟨⟩ g') :
    ∃ v, Allots (g.room params) (g'.room params) [v] ∧
      g.scopes.current.Enters g'.scopes.current [(d.name, g.storage static)] [v] ∧
      g'.scopes.isGlobal = g.scopes.isGlobal ∧ g'.current.isSome = g.current.isSome ∧
      g'.Spare m n := by
  have hfresh := fresh_compile h
  obtain ⟨v, storage, t, g₁, hv, hallocate, hprepare⟩ := makes_symbol h
  obtain rfl : v.storage = storage := by rw [hv]
  have hscopes := (keeps_allocate hallocate).1
  obtain ⟨hallots, hcurrent, hspare'⟩ := allots_allocate params hg hspare hallocate
  obtain ⟨draft, rfl, -⟩ := extends_prepareCode t v d.init _ _ _ hprepare
  have hroom (g₂ : Generator) : (g₂.onDraft t fun _ => draft).room params = g₂.room params := by
    cases t <;> rfl
  have hleft {g₂ : Generator} (h₂ : g₂.Spare m n) : (g₂.onDraft t fun _ => draft).Spare m n := by
    cases t <;> exact ⟨h₂.fields, h₂.locals⟩
  rw [hroom, Generator.onDraft_current, Generator.onDraft_scopes, hscopes,
    Scopes.isGlobal_withCurrent, Scopes.current_withCurrent, ← storage_allocate hg hallocate]
  exact ⟨v, hallots, .insert hfresh, rfl, hcurrent, hleft ⟨hspare'.fields, hspare'.locals⟩⟩

end Declarator

/-- The variables of a declaration, one after the other. -/
theorem Declarator.allots_items (params : List Slot) {type : WordType} {static : Bool} {m n : Nat}
    {items : List Declarator} (hg : g.scopes.isGlobal = true ∨ g.current.isSome)
    (hspare : g.Spare ((g.keeps static).toNat * items.length + m)
      ((!g.keeps static).toNat * items.length + n))
    (h : Gen.Makes (items.forM (Declarator.compile type static)) g ⟨⟩ g') :
    ∃ vs, Allots (g.room params) (g'.room params) vs ∧
      g.scopes.current.Enters g'.scopes.current (items.map fun i => (i.name, g.storage static)) vs ∧
      g'.scopes.isGlobal = g.scopes.isGlobal ∧ g'.current.isSome = g.current.isSome ∧
      g'.Spare m n := by
  induction items generalizing g with
  | nil =>
    rw [Gen.makes_forM_nil.mp h]
    simp only [List.length_nil, Nat.mul_zero, Nat.zero_add] at hspare
    exact ⟨[], .refl _, .refl _, rfl, rfl, hspare⟩
  | cons d items ih =>
    obtain ⟨g₁, hfirst, hrest⟩ := Gen.makes_forM_cons.mp h
    have hcount (k : Nat) (b : Bool) : b.toNat * (d :: items).length + k =
        b.toNat + (b.toNat * items.length + k) := by
      rw [List.length_cons, Nat.mul_succ]
      omega
    rw [hcount, hcount] at hspare
    obtain ⟨v, hv, henters, hglobal, hcurrent, hspare₁⟩ := allots params hg hspare hfirst
    have hkeeps : g₁.keeps static = g.keeps static := by
      rw [Generator.keeps, Generator.keeps, hglobal]
    obtain ⟨vs, hvs, henters', hglobal', hcurrent', hspare'⟩ :=
      ih (by rwa [hglobal, hcurrent]) (by rwa [hkeeps]) hrest
    have hstorage : g₁.storage static = g.storage static := by
      rw [Generator.storage, Generator.storage, hglobal]
    rw [hstorage] at henters'
    exact ⟨v :: vs, hv.append hvs, henters.append henters', hglobal'.trans hglobal,
      hcurrent'.trans hcurrent, hspare'⟩

/-- From the state `g` of generation on, constructs declare variables, and these get the storage
that the room `b` has more than the room `a`. -/
structure Declares (cs : List Construct) (g : Generator) (a b : Room) : Prop where
  allots : Allots a b ((g.declared cs).map Prod.snd)
  names : (g.declared cs).map (fun x => (x.1, x.2.storage)) = cs.flatMap Construct.declares

/-- The variables of constructs are those of the first and those of the others behind it. -/
theorem Generator.declared_cons {c : Construct} {cs : List Construct}
    (h : Gen.Makes c.compile g ⟨⟩ g₁) : g.declared (c :: cs) = c.symbols g₁ ++ g₁.declared cs := by
  rw [Generator.declared, show c.compile.run g = .ok (⟨⟩, g₁) from h]

/-- The variables of constructs behind others are found in the state that those leave. -/
theorem Generator.declared_append {cs cs' : List Construct}
    (h : Gen.Makes (cs.forM Construct.compile) g ⟨⟩ g₁) :
    g.declared (cs ++ cs') = g.declared cs ++ g₁.declared cs' := by
  induction cs generalizing g with
  | nil =>
    rw [Gen.makes_forM_nil.mp h]
    rfl
  | cons c cs ih =>
    obtain ⟨g₂, hfirst, hrest⟩ := Gen.makes_forM_cons.mp h
    rw [List.cons_append, declared_cons hfirst, declared_cons hfirst, ih hrest, List.append_assoc]

/-- One construct declares its own variables. -/
theorem Generator.declared_one {c : Construct} (h : Gen.Makes c.compile g ⟨⟩ g') :
    g.declared [c] = c.symbols g' := by
  rw [declared_cons h, declared, List.append_nil]

namespace Declares

variable {cs cs' : List Construct} {c : Construct} {a a₁ b : Room}

theorem append (h : Declares cs g a a₁) (hm : Gen.Makes (cs.forM Construct.compile) g ⟨⟩ g₁)
    (h' : Declares cs' g₁ a₁ b) : Declares (cs ++ cs') g a b := by
  refine ⟨?_, ?_⟩
  · rw [Generator.declared_append hm, List.map_append]
    exact h.allots.append h'.allots
  · rw [Generator.declared_append hm, List.map_append, h.names, h'.names, List.flatMap_append]

/-- One construct declares what it is allotted, if its scope takes it in. -/
theorem one {vs : List Symbol} (h : Gen.Makes c.compile g ⟨⟩ g') (hallots : Allots a b vs)
    {outer : Scope} (henters : outer.Enters g'.scopes.current c.declares vs) :
    Declares [c] g a b := by
  obtain ⟨hsymbols, hnames⟩ := henters.symbols
  refine ⟨?_, ?_⟩
  · rwa [Generator.declared_one h, hsymbols]
  · rw [Generator.declared_one h, hnames, List.flatMap_singleton]

/-- A construct that declares nothing. -/
theorem quiet (h : Gen.Makes c.compile g ⟨⟩ g') (hc : c.declares = []) (a : Room) :
    Declares [c] g a a :=
  .one h (.refl a) (hc ▸ Scope.Enters.refl _)

/-- Variables outside all functions. -/
theorem globals (params : List Slot) {d : Declaration} (hg : g.scopes.isGlobal = true)
    (hfields : g.fields.size + d.items.length ≤ UInt32.size) (h : Gen.Makes d.compile g ⟨⟩ g') :
    Declares [.globals d] g (g.room params) (g'.room params) := by
  have hkeeps : g.keeps d.static.isSome = true := by rw [Generator.keeps, hg]; rfl
  have hspare : g.Spare ((g.keeps d.static.isSome).toNat * d.items.length + 0)
      ((!g.keeps d.static.isSome).toNat * d.items.length + 0) := by
    refine ⟨?_, ?_⟩ <;> rw [hkeeps]
    · simpa using hfields
    · simpa using g.localCount_lt
  obtain ⟨vs, hvs, henters, -⟩ := Declarator.allots_items params (.inl hg) hspare h
  have hstorage : g.storage d.static.isSome = .global := by rw [Generator.storage, hg]; rfl
  rw [hstorage] at henters
  exact .one h hvs henters

end Declares

/-! ## Statements -/

/-- Inside a function, with numbers left for `m` fields and `n` local slots. -/
structure Generator.Within (g : Generator) (m n : Nat) : Prop extends g.Spare m n where
  inner : g.scopes.isGlobal = false
  current : g.current.isSome

namespace Gen

/-- Inside a function, constructs declare variables, each with storage of its own: they take `m`
fields and `n` local slots. -/
def DeclaresAll (cs : List Construct) (m n : Nat) : Prop :=
  ∀ params g g' m' n', g.Within (m + m') (n + n') → Makes (cs.forM Construct.compile) g ⟨⟩ g' →
    Declares cs g (g.room params) (g'.room params) ∧ g'.Within m' n'

/-- Neither the storage handed out nor the function has changed. -/
def Idle (g g' : Generator) : Prop := g'.fields = g.fields ∧ g'.current = g.current

/-- Idle code takes no room. -/
theorem Idle.room (h : Idle g g') (params : List Slot) : g'.room params = g.room params := by
  rw [Generator.room, Generator.room, Generator.localCount, Generator.localCount, h.1, h.2]

/-- Idle code stays within bounds. -/
theorem Idle.within (h : Idle g g') {m n : Nat} (hg : g.Within m n)
    (hs : g'.scopes.isGlobal = false) : g'.Within m n := by
  obtain ⟨hfields, hcurrent⟩ := h
  have hcount : g'.localCount = g.localCount := by
    rw [Generator.localCount, Generator.localCount, hcurrent]
  exact ⟨⟨hfields ▸ hg.fields, hcount ▸ hg.locals⟩, hs, hcurrent ▸ hg.current⟩

/-- A construct that declares nothing and leaves the storage as it is. -/
theorem Idle.declares {c : Construct} (h : Idle g g') (hm : Makes c.compile g ⟨⟩ g')
    (hc : c.declares = []) (params : List Slot) :
    Declares [c] g (g.room params) (g'.room params) :=
  h.room params ▸ .quiet hm hc _

/-- Code for the body and open statements are idle. -/
theorem framed_idle : Framed Idle :=
  ⟨fun _ => ⟨rfl, rfl⟩, fun h h' => ⟨h'.1.trans h.1, h'.2.trans h.2⟩, fun _ _ _ => ⟨rfl, rfl⟩,
    fun _ _ => ⟨rfl, rfl⟩⟩

/-- No construct declares no variable. -/
theorem DeclaresAll.nil : DeclaresAll [] 0 0 := by
  intro params g g' m' n' hg h
  rw [Nat.zero_add, Nat.zero_add] at hg
  rw [makes_forM_nil.mp h]
  exact ⟨⟨.refl _, rfl⟩, hg⟩

/-- Constructs behind others declare what both do. -/
theorem DeclaresAll.append {cs cs' : List Construct} {m n k l : Nat} (h : DeclaresAll cs m n)
    (h' : DeclaresAll cs' k l) : DeclaresAll (cs ++ cs') (m + k) (n + l) := by
  intro params g g' m' n' hg hm
  rw [Nat.add_assoc, Nat.add_assoc] at hg
  obtain ⟨g₁, h₁, h₂⟩ := makes_forM_append.mp hm
  obtain ⟨hfirst, hg₁⟩ := h params g g₁ _ _ hg h₁
  obtain ⟨hrest, hg'⟩ := h' params g₁ g' _ _ hg₁ h₂
  exact ⟨hfirst.append h₁ hrest, hg'⟩

/-- A construct that is plain declares nothing. -/
theorem DeclaresAll.plain {c : Construct} (hc : c.Plain) : DeclaresAll [c] 0 0 := by
  have hframed : Framed fun g g' => Idle g g' ∧ g'.scopes = g.scopes :=
    ⟨fun g => ⟨framed_idle.refl g, rfl⟩,
      fun h h' => ⟨framed_idle.trans h.1 h'.1, h'.2.trans h.2⟩,
      fun g f hf => ⟨framed_idle.body g f hf, rfl⟩, fun g ps => ⟨framed_idle.pending g ps, rfl⟩⟩
  intro params g g' m' n' hg h
  rw [Nat.zero_add, Nat.zero_add] at hg
  have hm := makes_forM_one.mp h
  obtain ⟨hidle, hscopes⟩ := hframed.plain hc g ⟨⟩ g' hm
  refine ⟨hidle.declares hm ?_ params, hidle.within hg (hscopes ▸ hg.inner)⟩
  cases c with
  | expr | ifTrue | ifFalse | endIf | openLoop | closeLoop | ret | leave => rfl
  | _ => exact hc.elim

/-- A declaration in a block takes a field for each static variable and a slot for each other one.
-/
theorem DeclaresAll.locals (d : Declaration) :
    DeclaresAll [.locals d] d.kept.length d.locals.length := by
  intro params g g' m' n' hg h
  have hm := makes_forM_one.mp h
  have hkeeps : g.keeps d.static.isSome = d.static.isSome := by
    rw [Generator.keeps, hg.inner, Bool.false_or]
  have hspare : g.Spare ((g.keeps d.static.isSome).toNat * d.items.length + m')
      ((!g.keeps d.static.isSome).toNat * d.items.length + n') := by
    have hleft := hg.toSpare
    unfold Declaration.kept Declaration.locals Declaration.fields at hleft
    rw [hkeeps]
    cases hs : d.static.isSome <;> simpa [hs] using hleft
  obtain ⟨vs, hvs, henters, hglobal, hcurrent, hspare'⟩ :=
    Declarator.allots_items params (.inr hg.current) hspare hm
  have hstorage : g.storage d.static.isSome = if d.static.isSome then .static else .local := by
    rw [Generator.storage, hg.inner]
    rfl
  rw [hstorage] at henters
  exact ⟨.one hm hvs henters, hspare', hglobal.trans hg.inner, hcurrent ▸ hg.current⟩

/-- Declarations in a block take what each of them takes. -/
theorem DeclaresAll.declarations (ds : List Declaration) :
    DeclaresAll (ds.map .locals) (ds.flatMap Declaration.kept).length
      (ds.flatMap Declaration.locals).length := by
  induction ds with
  | nil => exact .nil
  | cons d ds ih =>
    rw [List.flatMap_cons, List.flatMap_cons, List.length_append, List.length_append]
    exact (DeclaresAll.locals d).append ih

/-- A block takes what its declarations and its statements take, and gives none of it back at its
end. -/
theorem DeclaresAll.block (ds : List Declaration) {cs : List Construct} {m n : Nat}
    (hbody : DeclaresAll cs m n) (hbalanced : BalancedAll cs) :
    DeclaresAll (.openBlock :: ds.map .locals ++ cs ++ [.closeBlock])
      ((ds.flatMap Declaration.kept).length + m) ((ds.flatMap Declaration.locals).length + n) := by
  intro params g g' m' n' hg h
  have hscopes := (balanced_block ds hbalanced g g' h).1
  obtain ⟨g₂, hm, hend⟩ := makes_forM_append.mp h
  obtain ⟨g₁, hopen, hinner⟩ := makes_forM_cons.mp hm
  have hopened := makes_openScope.mp hopen
  have hclosed := makes_closeScope.mp (makes_forM_one.mp hend)
  have hfront : Idle g g₁ := hopened ▸ ⟨rfl, rfl⟩
  have hback : Idle g₂ g' := hclosed ▸ ⟨rfl, rfl⟩
  have hg₁ := hfront.within hg (by rw [hopened]; rfl)
  obtain ⟨hdeclares, hg₂⟩ :=
    ((DeclaresAll.declarations ds).append hbody) params g₁ g₂ _ _ hg₁ hinner
  refine ⟨?_, hback.within hg₂ (hscopes ▸ hg.inner)⟩
  exact ((hfront.declares hopen rfl params).append (makes_forM_one.mpr hopen) hdeclares).append hm
    (hback.declares (makes_forM_one.mp hend) rfl params)

/-- The counter of a loop gets one new local slot. -/
theorem declares_openCount (params : List Slot) {counter : Name} {range : Range} {m n : Nat}
    (hg : g.Within m (1 + n)) (h : Makes (openCount counter range) g ⟨⟩ g') :
    Declares [.openCount counter range] g (g.room params) (g'.room params) ∧ g'.Within m n := by
  obtain ⟨-, g₁, g₂, g₃, slot, v, l, hslot, hv, rfl, hstart, -, rfl⟩ := makes_openCount h
  obtain ⟨f, hf⟩ := Option.isSome_iff_exists.mp hg.current
  obtain ⟨hn, rfl⟩ := makes_addLocal (g := g.withScopes g.scopes.push) hf hslot
  obtain ⟨d, rfl, -⟩ := (Expr.operand_extends .function _).compileAs _ _ _ _ hstart
  have hcount : g.localCount = f.locals.toNat := by simp [Generator.localCount, hf]
  have hlocals := hg.locals
  rw [hcount] at hlocals
  have hnext : (f.locals + 1).toNat = f.locals.toNat + 1 :=
    toNat_add_one (by omega)
  have hallots : Allots (g.room params)
      { g.room params with locals := (f.locals + 1).toNat } [v] :=
    .slot (by rw [hv]) (by rw [hv]) (by rw [hn]; exact hcount.symm)
      (hnext.trans (congrArg (· + 1) hcount.symm))
  have henters : Scope.empty.Enters (Scope.empty.insert counter.value v)
      [(counter, v.storage)] [v] := .insert rfl
  rw [show v.storage = .local by rw [hv]] at henters
  refine ⟨.one h hallots henters, ⟨hg.fields, ?_⟩, rfl, rfl⟩
  show (f.locals + 1).toNat + n < _
  omega

/-- A counted loop takes a slot for its counter. -/
theorem DeclaresAll.count (counter : Name) (range : Range) {cs : List Construct} {m n : Nat}
    (hbody : DeclaresAll cs m n) (hbalanced : BalancedAll cs) :
    DeclaresAll (.openCount counter range :: cs ++ [.closeCount range]) m (n + 1) := by
  intro params g g' m' n' hg h
  rw [Nat.add_comm n 1, Nat.add_assoc] at hg
  have hscopes := (balanced_count counter range hbalanced g g' h).1
  obtain ⟨g₂, hm, hend⟩ := makes_forM_append.mp h
  obtain ⟨g₁, hopen, hinner⟩ := makes_forM_cons.mp hm
  obtain ⟨hfront, hg₁⟩ := declares_openCount params hg hopen
  obtain ⟨hdeclares, hg₂⟩ := hbody params g₁ g₂ _ _ hg₁ hinner
  have hclose := makes_forM_one.mp hend
  have hidle : Idle g₂ g' := framed_idle.closeCount (fun _ _ => ⟨rfl, rfl⟩) range g₂ ⟨⟩ g' hclose
  exact ⟨(hfront.append (makes_forM_one.mpr hopen) hdeclares).append hm
    (hidle.declares hclose rfl params), hidle.within hg₂ (hscopes ▸ hg.inner)⟩

end Gen

/-- **Each variable that a statement declares takes storage of its own**: the new fields and local
slots are those of the new variables, each of one. -/
theorem Stmt.declaresAll (s : Stmt) :
    Gen.DeclaresAll s.constructs s.kept.length s.locals.length := by
  induction s using Stmt.induct with
  | block ds body ih =>
    -- The statements of a block declare what each of them does.
    have hbody : Gen.DeclaresAll (Stmt.constructsOf body) (Stmt.keptOf body).length
        (Stmt.localsOf body).length := by
      clear ds
      induction body with
      | nil => exact .nil
      | cons s ss ih' =>
        rw [Stmt.keptOf, Stmt.localsOf, List.length_append, List.length_append]
        exact (ih s (.head _)).append (ih' fun t ht => ih t (.tail _ ht))
    rw [Stmt.kept, Stmt.locals, List.length_append, List.length_append]
    exact .block ds hbody (Gen.balanced_statements fun t _ => t.balanced)
  | expr e => exact .plain trivial
  | empty semicolon => exact .nil
  -- Around branches and bodies there are constructs that declare nothing.
  | choice c body ih =>
    have hall := ((Gen.DeclaresAll.plain (c := .ifTrue c) trivial).append ih).append
      (.plain (c := .endIf) trivial)
    simpa [Stmt.kept, Stmt.locals] using hall
  | choiceOr c body otherwise ih ih' =>
    have hbranch := (Gen.DeclaresAll.plain (c := .ifTrue c) trivial).append ih
    have hother := (Gen.DeclaresAll.plain (c := .ifFalse) trivial).append ih'
    have hall := (hbranch.append hother).append (.plain (c := .endIf) trivial)
    simpa [Stmt.kept, Stmt.locals] using hall
  | loop c body ih =>
    have hall := ((Gen.DeclaresAll.plain (c := .openLoop) trivial).append ih).append
      (.plain (c := .closeLoop c) trivial)
    simpa [Stmt.kept, Stmt.locals] using hall
  | count counter range body ih => exact .count counter range ih body.balanced
  | ret word value => exact .plain trivial
  | leave word => exact .plain trivial

/-! ## Functions -/

/-- Parameters of one type get the next argument slots. -/
theorem ParameterGroup.allots {group : ParameterGroup} {a : Room}
    (hk : g.scopes.count .argument = .ofNat a.params.length)
    (hroom : a.params.length + group.slots.length ≤ UInt32.size)
    (h : Gen.Makes group.compile g ⟨⟩ g') :
    ∃ vs, Allots a (a.withParams (group.slots.map Prod.snd)) vs ∧
      g.scopes.current.Enters g'.scopes.current (group.slots.map fun s => (s.1, .argument)) vs := by
  unfold ParameterGroup.compile at h
  generalize group.slots = slots at h hroom ⊢
  induction slots generalizing g a with
  | nil =>
    rw [Gen.makes_forM_nil.mp h, List.map_nil, Room.withParams_nil]
    exact ⟨[], .refl a, .refl _⟩
  | cons p slots ih =>
    obtain ⟨name, slot⟩ := p
    obtain ⟨g₁, hfirst, hrest⟩ := Gen.makes_forM_cons.mp h
    have hfresh := Gen.fresh_parameter hfirst
    obtain ⟨v, hv, rfl⟩ := Gen.makes_parameter hk hfirst
    rw [List.length_cons] at hroom
    -- A parameter keeps what its slot says, an array by its reference.
    have hslot : v.slot = slot := by
      rw [hv]
      obtain ⟨type, array⟩ := slot
      cases array <;> rfl
    have hone : Allots a (a.withParams [v.slot]) [v] :=
      .argument (by rw [hv]) (by rw [hv]) (UInt32.toNat_ofNat_of_lt' (by omega))
    have henters : g.scopes.current.Enters _ [(name, v.storage)] [v] := .insert hfresh
    -- The next parameter is counted from one further on.
    have hcount : (g.scopes.withCurrent (g.scopes.current.insert name.value v)).count .argument =
        .ofNat (a.params.length + 1) := Gen.count_insert_argument hk (by rw [hv])
    have hlength := a.length_withParams [v.slot]
    rw [List.length_singleton] at hlength
    obtain ⟨vs, hvs, henters'⟩ := ih (a := a.withParams [v.slot])
      (by rw [hlength]; exact hcount) hrest (by omega)
    rw [Room.withParams_append, hslot] at hvs
    rw [show v.storage = .argument by rw [hv]] at henters
    rw [Generator.withScopes, Scopes.current_withCurrent] at henters'
    exact ⟨v :: vs, (hslot ▸ hone).append hvs, henters.append henters'⟩

/-- Parameters get the argument slots of their positions. -/
theorem Header.declares_parameters {groups : List ParameterGroup} {a : Room}
    (hk : g.scopes.count .argument = .ofNat a.params.length)
    (hroom : a.params.length + (groups.flatMap ParameterGroup.slots).length ≤ UInt32.size)
    (h : Gen.Makes ((groups.map .parameters).forM Construct.compile) g ⟨⟩ g') :
    Declares (groups.map .parameters) g a
      (a.withParams ((groups.flatMap ParameterGroup.slots).map Prod.snd)) := by
  induction groups generalizing g a with
  | nil => exact ⟨a.withParams_nil.symm ▸ .refl a, rfl⟩
  | cons group groups ih =>
    obtain ⟨g₁, hfirst, hrest⟩ := Gen.makes_forM_cons.mp h
    rw [List.flatMap_cons, List.length_append] at hroom
    obtain ⟨vs, hvs, henters⟩ := group.allots hk (by omega) hfirst
    have hcount := (Gen.takes_parameters hk hfirst).2
    have hlength : (a.withParams (group.slots.map Prod.snd)).params.length =
        a.params.length + group.slots.length := by
      rw [Room.length_withParams, List.length_map]
    rw [List.flatMap_cons, List.map_append, ← Room.withParams_append]
    exact (Declares.one hfirst hvs henters).append (Gen.makes_forM_one.mpr hfirst)
      (ih (by rw [hcount, hlength]) (by omega) hrest)

/-- **A function has storage of its own**: its parameters, its locals and its static variables take
the argument slots, the local slots and the new fields. -/
theorem TopLevel.declares_function {header : Header} {body : Stmt}
    (hfields : g.fields.size + body.kept.length ≤ UInt32.size)
    (hparams : header.parameters.length ≤ UInt32.size)
    (hlocals : body.locals.length < UInt32.size)
    (h : Gen.Makes ((TopLevel.function header body).constructs.forM Construct.compile) g ⟨⟩ g') :
    Declares (TopLevel.function header body).constructs g ⟨g.fields.toList.map Field.slot, 0, []⟩
      (g'.room header.parameterTypes) := by
  obtain ⟨g₄, hm, hclose⟩ := Gen.makes_forM_append.mp h
  obtain ⟨g₂, hfront, hrest⟩ := Gen.makes_forM_append.mp hm
  obtain ⟨g₁, hopen, htaken⟩ := Gen.makes_forM_cons.mp hfront
  obtain ⟨g₃, hbegin, hbody⟩ := Gen.makes_forM_cons.mp hrest
  obtain rfl := Gen.makes_openScope.mp hopen
  obtain ⟨s, rfl, -, hinner, -⟩ :=
    Gen.makes_parameterGroups (g := g.withScopes g.scopes.push) (k := 0) rfl rfl htaken
  obtain ⟨g₅, n, hfinish, -, -, hg₃⟩ := Gen.makes_beginFunction hbegin
  obtain ⟨hscopes, hsame, -⟩ := Gen.keeps_finishFunction hfinish
  obtain rfl := Gen.makes_closeScope.mp (Gen.makes_forM_one.mp hclose)
  -- a function begins without local slots
  have hroom : g₃.room header.parameterTypes
      = Room.withParams ⟨g.fields.toList.map Field.slot, 0, []⟩ header.parameterTypes := by
    rw [hg₃, Generator.room, hsame]
    rfl
  have hg : g₃.Within (body.kept.length + 0) (body.locals.length + 0) := by
    rw [hg₃]
    refine ⟨⟨?_, ?_⟩, hscopes ▸ hinner, rfl⟩
    · rwa [hsame]
    · simpa [Generator.localCount] using hlocals
  have hopened := Declares.quiet hopen rfl ⟨g.fields.toList.map Field.slot, 0, []⟩
  have hgiven := hopened.append (Gen.makes_forM_one.mpr hopen)
    (Header.declares_parameters (a := ⟨_, 0, []⟩) rfl
      (by rw [List.length_nil, Nat.zero_add]; exact hparams) htaken)
  obtain ⟨hinside, -⟩ := body.declaresAll header.parameterTypes g₃ g₄ _ _ hg hbody
  rw [hroom] at hinside
  have hbegun := (Declares.quiet hbegin rfl _).append (Gen.makes_forM_one.mpr hbegin) hinside
  have hclosed : Gen.Idle g₄ (g₄.withScopes g₄.scopes.pop) := ⟨rfl, rfl⟩
  exact (hgiven.append hfront hbegun).append hm
    (hclosed.declares (Gen.makes_forM_one.mp hclose) rfl _)

end

end OnePass
