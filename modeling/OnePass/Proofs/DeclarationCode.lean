import OnePass.Proofs.Declarators

/-!
# Code for declarations is typed

A declared variable gets a slot of the kind that the plan has for it, and code that makes that
slot ready. For a field this code goes to the initializer; for a local variable it goes to the
function it is declared in.

A `Scene` is what stays the same while one function is compiled, `Scene.Holds` the invariant of
generation in it.
-/

namespace OnePass

namespace Program

/-- One more field can be ready only if it is an array. -/
theorem arraysBelow_succ {fields : List Slot} {n : Nat} :
    arraysBelow fields (n + 1) ⊆ insert n (arraysBelow fields n) := by
  rintro i ⟨hi, ht⟩
  rcases Nat.lt_succ_iff_lt_or_eq.mp hi with h | rfl
  · exact .inr ⟨h, ht⟩
  · exact .inl rfl

theorem arraysBelow_succ_of_scalar {fields : List Slot} {n : Nat} {t : WordType}
    (h : fields[n]? = some (.scalar t)) : arraysBelow fields (n + 1) ⊆ arraysBelow fields n := by
  intro i hi
  rcases arraysBelow_succ hi with rfl | hi
  · obtain ⟨-, u, hu⟩ := hi
    rw [h] at hu
    cases congrArg Slot.array (Option.some.inj hu)
  · exact hi

theorem arraysBelow_mono {fields : List Slot} {m n : Nat} (h : m ≤ n) :
    arraysBelow fields m ⊆ arraysBelow fields n :=
  fun _ hi => ⟨hi.1.trans_le h, hi.2⟩

end Program

/-! ## Making a slot ready -/

/-- What is ready with `l` and `f` is ready once the slot of `v` is. -/
def Setting.ReadyBy (c : Setting) (v : Symbol) (l f : Set Nat) : Prop :=
  match v.isArray, v.handle with
  | false, _ => c.locals ⊆ l ∧ c.fields ⊆ f
  | true, .field i => c.locals ⊆ l ∧ c.fields ⊆ insert i.toNat f
  | true, .local i => c.locals ⊆ insert i.toNat l ∧ c.fields ⊆ f
  | true, .argument _ => False

section Prepare

variable {c : Setting} {v : Symbol} {init : Expr}

/-- An initialiser may be computed as soon as the slot is ready. -/
theorem leads_initialise (hc : c.Sound) (hv : c.Offers v) (hd : v.Declared)
    (hk : ∀ name ∈ init.calls, ∀ f, c.functions.lookup name = some f → c.Knows f) :
    c.Leads [] (Gen.initialise c.target v init) fun _ => [] := by
  have hvalue (s : List Cell) := Expr.leads_compileAs hc init hk s (.scalar v.type)
  unfold Gen.initialise Gen.fill
  obtain ⟨hs, ha⟩ | ⟨n, hs, ha⟩ := hd
  · rw [hs]
    exact (hvalue []).bind fun _ => Setting.leads_store hv ha
  · rw [hs]
    refine Setting.leads_forBelow (fun k => ?_) 0 _
    refine (Setting.leads_load hv).bind fun _ => ?_
    rw [Rules.cell_of_array ha]
    exact (Setting.leads_emit fun _ => .pushInt (WordType.valid_int _)).bind fun _ =>
      (hvalue _).bind fun _ => Setting.leads_emit fun _ => .storeElem

/-- Storing an array that was just made makes its slot ready. -/
theorem store_charted (hv : c.Offers v) (ha : v.isArray = true) {l f : Set Nat}
    (hr : c.ReadyBy v l f) {g g' : Generator} {L : List Sketch}
    (h : Gen.Makes (Gen.store c.target v) g ⟨⟩ g')
    (hcharted : (g.draft c.target).Charted c.plan c.outline L ⟨[.fresh v.type], l, f⟩) :
    (g'.draft c.target).Charted c.plan c.outline L (c.sketch []) := by
  unfold Gen.store at h
  unfold Setting.ReadyBy at hr
  unfold Setting.Offers at hv
  rw [Symbol.slot_of_array ha] at hv
  rw [ha] at hr
  cases hh : v.handle with
  | field i =>
    rw [hh] at h hr hv
    obtain rfl := Gen.makes_emit.mp h
    rw [Generator.draft_onDraft]
    exact (hcharted.emit (.setField hv.1)).weaken ⟨rfl, hr.1, hr.2⟩
  | «local» i =>
    rw [hh] at h hr hv
    obtain rfl := Gen.makes_emit.mp h
    rw [Generator.draft_onDraft]
    exact (hcharted.emit (.setLocal hv.1)).weaken ⟨rfl, hr.1, hr.2⟩
  | argument i =>
    rw [hh] at hr
    exact hr.elim

/-- What gives a variable its first value leaves nothing behind. -/
theorem leads_init {init : Option Expr} (hc : c.Sound) (hv : c.Offers v) (hd : v.Declared)
    (hk : ∀ e ∈ init, ∀ name ∈ e.calls, ∀ f, c.functions.lookup name = some f → c.Knows f) :
    c.Leads [] (match init with
      | none => return ()
      | some init => Gen.initialise c.target v init) fun _ => [] := by
  cases init with
  | none => exact Setting.leads_pure rfl
  | some init => exact leads_initialise hc hv hd (hk init rfl)

/-- Behind a declaration the slot of its variable is ready. -/
theorem prepareCode_charted {init : Option Expr} (hc : c.Sound) (hv : c.Offers v)
    (hd : v.Declared) (hk : ∀ e ∈ init, ∀ name ∈ e.calls, ∀ f,
      c.functions.lookup name = some f → c.Knows f)
    {l f : Set Nat} (hr : c.ReadyBy v l f) {g g' : Generator} {L : List Sketch} (hf : c.Fits g)
    (h : Gen.Makes (prepareCode c.target v init) g ⟨⟩ g') (haddr : (g'.draft c.target).Addressable)
    (hcharted : (g.draft c.target).Charted c.plan c.outline L ⟨[], l, f⟩) :
    ∃ L', L <+: L' ∧ (g'.draft c.target).Charted c.plan c.outline L' (c.sketch []) := by
  have hinit := leads_init hc hv hd hk
  unfold prepareCode at h
  obtain ⟨hs, ha⟩ | ⟨n, hs, ha⟩ := hd
  · rw [hs] at h
    have hmeets : Sketch.Meets ⟨[], l, f⟩ (c.sketch []) := by
      unfold Setting.ReadyBy at hr
      rw [ha] at hr
      exact ⟨rfl, hr.1, hr.2⟩
    exact (hinit g _ g' hf h).2.charted L haddr (hcharted.weaken hmeets)
  · rw [hs] at h
    obtain ⟨_, g₁, h₁, hrest⟩ := Gen.makes_bind.mp h
    obtain ⟨_, g₂, h₂, hlast⟩ := Gen.makes_bind.mp hrest
    obtain rfl := Gen.makes_emit.mp h₁
    have hmade : ((g.onDraft c.target fun d => d.emit (.newArray n)).draft c.target).Charted
        c.plan c.outline L ⟨[.fresh v.type], l, f⟩ := by
      rw [Generator.draft_onDraft]
      exact hcharted.emit .newArray
    have hf₂ : c.Fits g₂ := (hf.onDraft _ _).extends (Gen.extends_store (t := c.target) v) h₂
    exact (hinit g₂ _ g' hf₂ hlast).2.charted L haddr (store_charted hv ha hr h₂ hmade)

end Prepare

/-! ## Fields -/

/-- What is known in the stream that runs before the program, as far as it has been generated:
all fields of arrays so far are ready. -/
def Plan.start (P : Plan) (first : Outline) (g : Generator) : Setting :=
  ⟨P, first, .initializer, ∅, Program.arraysBelow P.fields g.fields.size, g.scopes, g.functions⟩

/-- The stream that runs before the program makes the last field ready. -/
theorem Plan.prepareField {P : Plan} {first : Outline} {v : Symbol} {init : Option Expr}
    {i : UInt32} {g g₁ g' : Generator} {L : List Sketch}
    (hsize : g₁.fields.size = g.fields.size + 1)
    (hh : v.handle = .field i) (hi : i.toNat = g.fields.size)
    (hfield : P.fields[i.toNat]? = some v.slot) (hd : v.Declared) (hc : (P.start first g₁).Sound)
    (hk : ∀ e ∈ init, ∀ name ∈ e.calls, ∀ f, g₁.functions.lookup name = some f →
      (P.start first g₁).Knows f)
    (h : Gen.Makes (prepareCode .initializer v init) g₁ ⟨⟩ g') (haddr : g'.initializer.Addressable)
    (hcharted : g₁.initializer.Charted P first L ((P.start first g).sketch [])) :
    ∃ L', L <+: L' ∧ g'.initializer.Charted P first L' ((P.start first g₁).sketch []) := by
  have hoffers : (P.start first g₁).Offers v := by
    unfold Setting.Offers
    rw [hh]
    exact ⟨hfield, fun ha => ⟨by omega, v.type,
      hfield.trans (congrArg some (Symbol.slot_of_array ha))⟩⟩
  have hready :
      (P.start first g₁).ReadyBy v ∅ (Program.arraysBelow P.fields g.fields.size) := by
    unfold Setting.ReadyBy start
    rw [hsize]
    cases ha : v.isArray with
    | false =>
      rw [hi, Symbol.slot_of_scalar ha] at hfield
      exact ⟨subset_rfl, Program.arraysBelow_succ_of_scalar hfield⟩
    | true =>
      rw [hh]
      exact ⟨subset_rfl, hi ▸ Program.arraysBelow_succ⟩
  exact prepareCode_charted hc hoffers hd hk hready ⟨rfl, rfl⟩ h haddr hcharted

/-! ## Scenes -/

/-- What stays the same while one function is compiled. -/
structure Scene where
  /-- the program -/
  plan : Plan
  /-- the fields of arrays that functions have to expect not to be ready -/
  loose : Set Nat
  /-- the stream that runs before the program -/
  first : Outline
  /-- the name of the function -/
  name : String
  /-- the stream of the function -/
  outline : Outline
  /-- how many fields there are before the function -/
  base : Nat
  /-- the static variables of the function -/
  kept : List Kept

namespace Scene

/-- The program as functions have to take it. -/
def loosePlan (sc : Scene) : Plan := sc.plan.withExposed sc.loose

/-- What is known in the function itself. -/
def body (sc : Scene) (g : Generator) : Setting :=
  ⟨sc.loosePlan, sc.outline, .function, g.scopes.localArrays, sc.outline.before, g.scopes,
    g.functions⟩

/-- What is known in the stream that runs before the program. -/
def start (sc : Scene) (g : Generator) : Setting := sc.plan.start sc.first g

/-- The static variables of the function are where the plan has them, what has to be expected of
them is, and 32 bits are enough to number the slots. -/
structure Fair (sc : Scene) : Prop where
  before : sc.outline.before =
    Program.arraysBelow sc.plan.fields (sc.base + sc.kept.length)
  after : sc.outline.after = ∅
  fields : ∀ j k, sc.kept[j]? = some k → sc.plan.fields[sc.base + j]? = some k.slot
  exposed : exposedBy sc.name sc.base sc.kept ⊆ sc.plan.exposed
  slots : sc.plan.fields.length ≤ UInt32.size
  locals : sc.outline.locals.length < UInt32.size

/-- A variable has a slot as it should be. -/
def Keeps (sc : Scene) (fields : Nat) (v : Symbol) : Prop :=
  match v.handle with
  | .field i => i.toNat < fields ∧ sc.plan.fields[i.toNat]? = some v.slot
  | .local i => sc.outline.locals[i.toNat]? = some v.slot
  | .argument i => sc.outline.args[i.toNat]? = some v.slot

/-- A function is one that was finished before, or it is the present one. -/
def Knows (sc : Scene) (name : String) (f : FunctionSymbol) : Prop :=
  ∀ i, f.body = .routine i → ∃ o, sc.plan.routines[i.toNat]? = some o ∧ o.args = f.params ∧
    o.returns = f.returns ∧ (o.before ⊆ Program.arraysBelow sc.plan.fields sc.base ∨
      name = sc.name ∧ o.before = sc.outline.before)

/-- The number of local slots behind one that the plan has. -/
theorem Fair.toNat_locals {sc : Scene} (hfair : sc.Fair) {n : Nat} {slot : Slot} {locals : UInt32}
    (hl : sc.outline.locals[n]? = some slot) (hn : locals.toNat = n) :
    (locals + 1).toNat = n + 1 := by
  have hlt := (List.getElem?_eq_some_iff.mp hl).1
  rw [← hn, UInt32.toNat_add, UInt32.toNat_one, Nat.mod_eq_of_lt]
  exact hn ▸ (Nat.succ_le_of_lt hlt).trans_lt hfair.locals

/-- What is known of the names inside a function with `m` static variables so far. -/
structure Names (sc : Scene) (g : Generator) (m : Nat) : Prop where
  size : g.fields.size = sc.base + m
  bound : m ≤ sc.kept.length
  inner : g.scopes.isGlobal = false
  visible : ∀ v, g.scopes.Has v → sc.Keeps g.fields.size v
  functions : ∀ name f, g.functions.lookup name = some f → sc.Knows name f

/-- The invariant of generation inside a function with `m` static variables and `n` local
slots so far. -/
structure Holds (sc : Scene) (g : Generator) (m n : Nat) : Prop extends sc.Names g m where
  current : ∃ f, g.current = some f ∧ f.name = sc.name ∧ f.params = sc.outline.args ∧
    f.returns = sc.outline.returns ∧ f.locals.toNat = n
  closed : Draft.empty.Grows g.initializer
  initializer : ∃ L, g.initializer.Charted sc.plan sc.first L ((sc.start g).sketch [])

/-- The code of the function so far. Its end is reached with the stack `s`. -/
def Body (sc : Scene) (g : Generator) (L : List Sketch) (s : List Cell) : Prop :=
  g.body.Charted sc.loosePlan sc.outline L ((sc.body g).sketch s)

variable {sc : Scene} {g g' : Generator} {m n : Nat} {L : List Sketch} {s : List Cell}

/-- What only adds to the code of the function leaves the rest as it is. -/
theorem Holds.onBody (h : sc.Holds g m n) (f : Draft → Draft) :
    sc.Holds (g.onDraft .function f) m n :=
  ⟨⟨h.size, h.bound, h.inner, h.visible, h.functions⟩, h.current, h.closed, h.initializer⟩

/-- In the function all visible variables have their slots. -/
theorem Names.body_sound (h : sc.Names g m) (hfair : sc.Fair) : (sc.body g).Sound := by
  intro name v hv _
  have hhas := Scopes.has_of_lookup hv
  have hkeeps := h.visible v hhas
  unfold Keeps at hkeeps
  unfold Setting.Offers
  cases hh : v.handle with
  | field i =>
    rw [hh] at hkeeps
    refine ⟨hkeeps.2, fun ha => ?_⟩
    have hlt : i.toNat < sc.base + sc.kept.length :=
      hkeeps.1.trans_le (h.size ▸ Nat.add_le_add_left h.bound _)
    show i.toNat ∈ sc.outline.before
    rw [hfair.before]
    exact ⟨hlt, v.type, hkeeps.2.trans (congrArg some (Symbol.slot_of_array ha))⟩
  | «local» i =>
    rw [hh] at hkeeps
    exact ⟨hkeeps, fun ha => ⟨v, hhas, ha, i, hh, rfl⟩⟩
  | argument i =>
    rw [hh] at hkeeps
    exact hkeeps

/-- In the stream that runs before the program, all fields that are visible have their
slots. -/
theorem Names.start_sound (h : sc.Names g m) : (sc.start g).Sound := by
  intro name v hv hfield
  have hkeeps := h.visible v (Scopes.has_of_lookup hv)
  obtain ⟨i, hh⟩ := hfield rfl
  unfold Keeps at hkeeps
  unfold Setting.Offers
  rw [hh] at hkeeps ⊢
  exact ⟨hkeeps.2, fun ha => ⟨hkeeps.1, v.type,
    hkeeps.2.trans (congrArg some (Symbol.slot_of_array ha))⟩⟩

/-- All functions that exist may be called in the function. -/
theorem Names.body_knows (h : sc.Names g m) (hfair : sc.Fair) {name : String}
    {f : FunctionSymbol} (hf : g.functions.lookup name = some f) : (sc.body g).Knows f := by
  intro i hi
  obtain ⟨o, ho, hargs, hreturns, hbefore⟩ := h.functions name f hf i hi
  refine ⟨o, ho, hargs, hreturns, Set.Subset.trans ?_ Set.subset_union_left⟩
  rcases hbefore with hbefore | ⟨-, hbefore⟩
  · show o.before ⊆ sc.outline.before
    rw [hfair.before]
    exact hbefore.trans (Program.arraysBelow_mono (Nat.le_add_right _ _))
  · exact hbefore.subset

/-- Before the program all functions that exist may be called. If it is the present one, its
static variables still to come are exposed. -/
theorem Names.start_knows (h : sc.Names g (m + 1)) (hfair : sc.Fair) {k : Kept} {e : Expr}
    (hk : sc.kept[m]? = some k) (he : k.init = some e) {name : String} (hname : name ∈ e.calls)
    {f : FunctionSymbol} (hf : g.functions.lookup name = some f) : (sc.start g).Knows f := by
  intro i hi
  obtain ⟨o, ho, hargs, hreturns, hbefore⟩ := h.functions name f hf i hi
  refine ⟨o, ho, hargs, hreturns, ?_⟩
  rcases hbefore with hbefore | ⟨rfl, hbefore⟩
  · refine (hbefore.trans (Program.arraysBelow_mono ?_)).trans Set.subset_union_left
    rw [h.size]
    exact Nat.le_add_right _ _
  · intro j hj
    rw [hbefore, hfair.before] at hj
    obtain ⟨hlt, t, ht⟩ := hj
    by_cases hnow : j < g.fields.size
    · exact .inl ⟨hnow, t, ht⟩
    · -- the array stands behind the variable whose initialiser makes the call
      right
      rw [h.size] at hnow
      obtain ⟨a, ha⟩ : ∃ a, sc.kept[j - sc.base]? = some a :=
        ⟨_, List.getElem?_eq_getElem (by omega)⟩
      have hslot := hfair.fields _ a ha
      rw [show sc.base + (j - sc.base) = j by omega, ht] at hslot
      refine hfair.exposed ⟨m, j - sc.base, k, e, by omega, by omega, ⟨a, ha, ?_⟩, hk, he, hname⟩
      rw [← Option.some.inj hslot]
      rfl

/-- One function has been compiled some way further, with closed code. -/
structure Reaches (sc : Scene) (g : Generator) (L : List Sketch) (g' : Generator) (m n : Nat) :
    Prop where
  holds : sc.Holds g' m n
  outer : g'.scopes.pop = g.scopes.pop
  functions : g'.functions = g.functions
  routines : g'.routines = g.routines
  pending : g'.pending = g.pending
  grows : g.body.Grows g'.body
  body : ∃ L', L <+: L' ∧ sc.Body g' L' []

theorem Reaches.refl (h : sc.Holds g m n) (hb : sc.Body g L []) : sc.Reaches g L g m n :=
  ⟨h, rfl, rfl, rfl, rfl, .refl _, L, List.prefix_rfl, hb⟩

theorem Reaches.trans {g₁ g₂ : Generator} {m₁ n₁ m₂ n₂ : Nat} (h : sc.Reaches g L g₁ m₁ n₁)
    (h' : ∀ L₁, L <+: L₁ → sc.Body g₁ L₁ [] → sc.Reaches g₁ L₁ g₂ m₂ n₂) :
    sc.Reaches g L g₂ m₂ n₂ := by
  obtain ⟨L₁, hL₁, hb₁⟩ := h.body
  have h₂ := h' L₁ hL₁ hb₁
  obtain ⟨L₂, hL₂, hb₂⟩ := h₂.body
  exact ⟨h₂.holds, h₂.outer.trans h.outer, h₂.functions.trans h.functions,
    h₂.routines.trans h.routines, h₂.pending.trans h.pending, h.grows.trans h₂.grows, L₂,
    hL₁.trans hL₂, hb₂⟩

/-- The local arrays with one more variable among the visible ones that is none. -/
theorem localArrays_insert_subset {s : Scopes} {name : String} {v : Symbol}
    (hv : v.isArray = true → ∀ i, v.handle ≠ .local i) :
    (s.withCurrent (s.current.insert name v)).localArrays ⊆ s.localArrays := by
  rintro i ⟨w, hw, ha, k, hk, rfl⟩
  rcases hw.of_insert with rfl | hw
  · exact absurd hk (hv ha k)
  · exact ⟨w, hw, ha, k, hk, rfl⟩

/-- The names that are known with one variable more. -/
theorem Names.insert {name : String} {v : Symbol} {m' : Nat} (h : sc.Names g m)
    (hsize : g'.fields.size = sc.base + m') (hm : m ≤ m') (hbound : m' ≤ sc.kept.length)
    (hscopes : g'.scopes = g.scopes.withCurrent (g.scopes.current.insert name v))
    (hfunctions : g'.functions = g.functions) (hv : sc.Keeps g'.fields.size v) :
    sc.Names g' m' := by
  refine ⟨hsize, hbound, ?_, fun w hw => ?_, hfunctions ▸ h.functions⟩
  · rw [hscopes, Scopes.isGlobal_withCurrent]
    exact h.inner
  · rw [hscopes] at hw
    rcases hw.of_insert with rfl | hw
    · exact hv
    · have hkeeps := h.visible w hw
      unfold Keeps at hkeeps ⊢
      split at hkeeps
      · exact ⟨hkeeps.1.trans_le (by rw [hsize, h.size]; omega), hkeeps.2⟩
      · exact hkeeps
      · exact hkeeps

/-- **Static variables.** A static variable gets the next field, and the stream before the
program makes it ready. -/
theorem reaches_static {d : Declarator} {type : WordType} (hfair : sc.Fair)
    (hk : sc.kept[m]? = some ⟨d.slot type, d.init⟩) (hg : sc.Holds g m n)
    (hb : sc.Body g L []) (h : Gen.Makes (d.compile type true) g ⟨⟩ g') (haddr : g'.Addressable) :
    sc.Reaches g L g' (m + 1) n := by
  obtain ⟨v, storage, t, g₁, g₂, hslot, hdeclared, hallocate, hg₂, hprepare⟩ :=
    Declarator.makes_compile h
  obtain ⟨f, hf, hcurrent⟩ := hg.current
  obtain ⟨-, i, name, hh, hnumber, rfl, hg₁⟩ :=
    Declarator.makes_allocate_static hg.inner hf hallocate
  -- What is written goes to the initializer; the body stays as it is.
  obtain ⟨d', rfl, hextended⟩ := extends_prepareCode _ v d.init _ _ _ hprepare
  have hgrows := hextended.grows haddr.initializer.labels
  have hplan := hfair.fields m _ hk
  -- The number of the field does not wrap, since the plan has so many fields only.
  have hi : i.toNat = g.fields.size := by
    rw [hnumber, hg.size]
    exact UInt32.toNat_ofNat_of_lt' ((List.getElem?_eq_some_iff.mp hplan).1.trans_le hfair.slots)
  have hfield : sc.plan.fields[i.toNat]? = some v.slot := by
    rw [hi, hg.size, hslot]
    exact hplan
  have hsize : g₂.fields.size = g.fields.size + 1 := by
    rw [hg₂, hg₁]
    exact Array.size_push ..
  have hscopes : g₂.scopes = g.scopes.withCurrent (g.scopes.current.insert d.name.value v) := by
    rw [hg₂, hg₁]
  have hkeeps : sc.Keeps g₂.fields.size v := by
    unfold Keeps
    rw [hh]
    exact ⟨by omega, hfield⟩
  have hm : m < sc.kept.length := (List.getElem?_eq_some_iff.mp hk).1
  have hnames : sc.Names g₂ (m + 1) :=
    hg.toNames.insert (by rw [hsize, hg.size]; rfl) (Nat.le_succ m) hm hscopes
      (by rw [hg₂, hg₁]) hkeeps
  -- The initialiser is charted behind what the initializer has so far.
  obtain ⟨L₀, hL₀⟩ := hg.initializer
  obtain ⟨L₁, -, hcharted⟩ := Plan.prepareField hsize hh hi hfield hdeclared hnames.start_sound
    (fun e he name hname f hf => hnames.start_knows hfair hk he hname hf) hprepare
    haddr.initializer (by rw [hg₂, hg₁]; exact hL₀)
  have hbody : sc.Body (g₂.onDraft .initializer fun _ => d') L [] := by
    have hsame : g₂.body = g.body := by rw [hg₂, hg₁]
    show g₂.body.Charted _ _ _ _
    rw [hsame]
    -- In the body there is one more name, but it is no local array.
    refine Draft.Charted.weaken hb ⟨rfl, ?_, subset_rfl⟩
    show g₂.scopes.localArrays ⊆ g.scopes.localArrays
    rw [hscopes]
    exact localArrays_insert_subset fun _ k hk => by rw [hh] at hk; cases hk
  refine ⟨⟨⟨hnames.size, hnames.bound, hnames.inner, hnames.visible, hnames.functions⟩,
    ⟨f, by rw [hg₂, hg₁]; exact hf, hcurrent⟩, ?_, L₁, hcharted⟩, ?_, ?_, ?_, ?_, ?_, L,
    List.prefix_rfl, hbody⟩
  · rw [hg₂, hg₁] at hgrows
    exact hg.closed.trans hgrows
  · show g₂.scopes.pop = g.scopes.pop
    rw [hscopes, Scopes.pop_withCurrent _ hg.inner]
  all_goals rw [hg₂, hg₁]
  · rfl
  · rfl
  · rfl
  · exact .refl _

/-- **Local variables.** Any other variable of a block gets the next local slot, and code where
it is declared makes that ready. -/
theorem reaches_local {d : Declarator} {type : WordType} (hfair : sc.Fair)
    (hl : sc.outline.locals[n]? = some (d.slot type)) (hg : sc.Holds g m n)
    (hb : sc.Body g L []) (h : Gen.Makes (d.compile type false) g ⟨⟩ g') (haddr : g'.Addressable) :
    sc.Reaches g L g' m (n + 1) := by
  obtain ⟨v, storage, t, g₁, g₂, hslot, hdeclared, hallocate, hg₂, hprepare⟩ :=
    Declarator.makes_compile h
  obtain ⟨f, hf, hname, hparams, hreturns, hn⟩ := hg.current
  obtain ⟨-, hh, rfl, hg₁⟩ := Declarator.makes_allocate_local hg.inner hf hallocate
  -- What is written goes to the body; the initializer stays as it is.
  obtain ⟨d', rfl, hextended⟩ := extends_prepareCode _ v d.init _ _ _ hprepare
  have hgrows := hextended.grows haddr.body.labels
  have hlocals := hfair.toNat_locals hl hn
  have hslotAt : sc.outline.locals[f.locals.toNat]? = some v.slot := by rw [hn, hl, hslot]
  have hscopes : g₂.scopes = g.scopes.withCurrent (g.scopes.current.insert d.name.value v) := by
    rw [hg₂, hg₁]
  have hfields : g₂.fields = g.fields := by rw [hg₂, hg₁]
  have hkeeps : sc.Keeps g₂.fields.size v := by
    unfold Keeps
    rw [hh]
    exact hslotAt
  have hnames : sc.Names g₂ m :=
    hg.toNames.insert (hfields ▸ hg.size) le_rfl hg.bound hscopes (by rw [hg₂, hg₁]) hkeeps
  have hoffers : (sc.body g₂).Offers v := by
    unfold Setting.Offers
    rw [hh]
    refine ⟨hslotAt, fun ha => ⟨v, ?_, ha, _, hh, rfl⟩⟩
    rw [hscopes]
    exact Scopes.has_insert
  -- Behind its declaration the array is ready, and so are those that were.
  have hready : (sc.body g₂).ReadyBy v g.scopes.localArrays sc.outline.before := by
    unfold Setting.ReadyBy body
    dsimp only
    rw [hscopes]
    cases ha : v.isArray with
    | false =>
      exact ⟨localArrays_insert_subset fun h => absurd h (by simp [ha]), subset_rfl⟩
    | true =>
      rw [hh]
      refine ⟨?_, subset_rfl⟩
      rintro i ⟨w, hw, hwa, k, hk, rfl⟩
      rcases hw.of_insert with rfl | hw
      · rw [hh] at hk
        exact .inl (Handle.local.inj hk ▸ rfl)
      · exact .inr ⟨w, hw, hwa, k, hk, rfl⟩
  obtain ⟨L₁, hL₁, hcharted⟩ := prepareCode_charted (hnames.body_sound hfair) hoffers hdeclared
    (fun e he name hname f hf => hnames.body_knows hfair hf) hready ⟨rfl, rfl⟩ hprepare
    haddr.body (by rw [hg₂, hg₁]; exact hb)
  obtain ⟨L₀, hL₀⟩ := hg.initializer
  refine ⟨⟨⟨hnames.size, hnames.bound, hnames.inner, hnames.visible, hnames.functions⟩,
    ⟨{ f with locals := f.locals + 1 }, ?_, hname, hparams, hreturns, hlocals⟩, ?_, L₀, ?_⟩,
    ?_, ?_, ?_, ?_, ?_, L₁, hL₁, hcharted⟩
  · rw [hg₂, hg₁]
    rfl
  · rw [hg₂, hg₁]
    exact hg.closed
  · rw [hg₂, hg₁]
    exact hL₀
  · show g₂.scopes.pop = g.scopes.pop
    rw [hscopes, Scopes.pop_withCurrent _ hg.inner]
  all_goals rw [hg₂, hg₁] at *
  · rfl
  · rfl
  · rfl
  · exact hgrows

theorem reaches_statics {items : List Declarator} {type : WordType} (hfair : sc.Fair)
    (hk : StandsAt (items.map fun i => (⟨i.slot type, i.init⟩ : Kept)) sc.kept m)
    (hg : sc.Holds g m n) (hb : sc.Body g L [])
    (h : Gen.Makes (items.forM (Declarator.compile type true)) g ⟨⟩ g') (haddr : g'.Addressable) :
    sc.Reaches g L g' (m + items.length) n := by
  induction items generalizing g m L with
  | nil =>
    obtain rfl := Gen.makes_forM_nil.mp h
    exact .refl hg hb
  | cons i items ih =>
    obtain ⟨g₁, h₁, h₂⟩ := Gen.makes_forM_cons.mp h
    obtain ⟨hi, hrest⟩ := StandsAt.cons_iff.mp hk
    have hlater := Gen.steady_forM (fun d => Gen.steady_declarator type true d) _ _ _ h₂
    have hfirst := reaches_static hfair hi hg hb h₁ (hlater.addressable haddr)
    rw [List.length_cons, Nat.add_comm items.length, ← Nat.add_assoc]
    exact hfirst.trans fun L₁ _ hb₁ => ih hrest hfirst.holds hb₁ h₂

theorem reaches_locals {items : List Declarator} {type : WordType} (hfair : sc.Fair)
    (hl : StandsAt (items.map (Declarator.slot type)) sc.outline.locals n)
    (hg : sc.Holds g m n) (hb : sc.Body g L [])
    (h : Gen.Makes (items.forM (Declarator.compile type false)) g ⟨⟩ g') (haddr : g'.Addressable) :
    sc.Reaches g L g' m (n + items.length) := by
  induction items generalizing g n L with
  | nil =>
    obtain rfl := Gen.makes_forM_nil.mp h
    exact .refl hg hb
  | cons i items ih =>
    obtain ⟨g₁, h₁, h₂⟩ := Gen.makes_forM_cons.mp h
    obtain ⟨hi, hrest⟩ := StandsAt.cons_iff.mp hl
    have hlater := Gen.steady_forM (fun d => Gen.steady_declarator type false d) _ _ _ h₂
    have hfirst := reaches_local hfair hi hg hb h₁ (hlater.addressable haddr)
    rw [List.length_cons, Nat.add_comm items.length, ← Nat.add_assoc]
    exact hfirst.trans fun L₁ _ hb₁ => ih hrest hfirst.holds hb₁ h₂

/-- The variables of a declaration in a block. -/
theorem reaches_declaration {d : Declaration} (hfair : sc.Fair)
    (hk : StandsAt d.kept sc.kept m) (hl : StandsAt d.locals sc.outline.locals n)
    (hg : sc.Holds g m n) (hb : sc.Body g L []) (h : Gen.Makes d.compile g ⟨⟩ g')
    (haddr : g'.Addressable) :
    sc.Reaches g L g' (m + d.kept.length) (n + d.locals.length) := by
  unfold Declaration.compile at h
  unfold Declaration.kept Declaration.fields at hk ⊢
  unfold Declaration.locals at hl ⊢
  cases hs : d.static.isSome with
  | true =>
    rw [hs] at h hk
    rw [if_pos rfl, if_pos rfl, List.length_map, List.length_nil, Nat.add_zero]
    exact reaches_statics hfair hk hg hb h haddr
  | false =>
    rw [hs] at h hl
    rw [if_neg Bool.false_ne_true, if_neg Bool.false_ne_true, List.length_map, List.length_nil,
      Nat.add_zero]
    exact reaches_locals hfair hl hg hb h haddr

end Scene

end OnePass
