import OnePass.Proofs.StatementCode
import OnePass.Proofs.NodeGeneration

/-!
# Images of programs are typed

Main statement: what a source is compiled to is as the plan of its tree says (`compile_typed`).

The induction is on the declarations of the program. Between two of them the function before is
not finished yet; `Compiled` is about the routines and that function, `Between` about the rest of
the state of generation.
-/

namespace OnePass

namespace Program

/-! ## Plans of longer programs -/

/-- The headers of functions among declarations. -/
def headersOf (items : List TopLevel) : List Header := (⟨items⟩ : Program).headers

theorem headersOf_append (xs ys : List TopLevel) :
    headersOf (xs ++ ys) = headersOf xs ++ headersOf ys := List.filterMap_append

theorem length_outlinesFrom (fields : List Slot) (n : Nat) (items : List TopLevel) :
    (outlinesFrom fields n items).length = (headersOf items).length := by
  induction items generalizing n with
  | nil => rfl
  | cons item items ih =>
    cases item with
    | «variables» d => exact ih _
    | function header body => exact congrArg (· + 1) (ih _)

theorem outlinesFrom_append (fields : List Slot) (n : Nat) (xs ys : List TopLevel) :
    outlinesFrom fields n (xs ++ ys) =
      outlinesFrom fields n xs ++
        outlinesFrom fields (n + (xs.flatMap TopLevel.kept).length) ys := by
  induction xs generalizing n with
  | nil => rfl
  | cons x xs ih =>
    rw [List.flatMap_cons, List.length_append, ← Nat.add_assoc]
    cases x with
    | «variables» d => exact ih _
    | function h body => exact congrArg (_ :: ·) (ih _)

theorem exposedFrom_append (n : Nat) (xs ys : List TopLevel) :
    exposedFrom n (xs ++ ys) =
      exposedFrom n xs ∪ exposedFrom (n + (xs.flatMap TopLevel.kept).length) ys := by
  induction xs generalizing n with
  | nil => exact (Set.empty_union _).symm
  | cons x xs ih =>
    rw [List.flatMap_cons, List.length_append, ← Nat.add_assoc]
    cases x with
    | «variables» d => exact ih _
    | function h body =>
      rw [List.cons_append, exposedFrom, ih, exposedFrom, Set.union_assoc]
      rfl

end Program

namespace Program.Addressable

variable {p : Program} (hp : p.Addressable)
include hp

theorem fields_le : p.fields.length ≤ UInt32.size := by
  rw [Program.fields, List.length_map]
  exact hp.fields

theorem routines_le : p.plan.routines.length ≤ UInt32.size := by
  have hfunctions := hp.functions
  show p.outlines.length ≤ _
  rw [outlines, List.length_append, length_outlinesFrom]
  split
  · exact hfunctions.le
  · exact hfunctions

end Program.Addressable

/-! ## Routines -/

/-- The functions compiled so far are as their outlines say. The last one is still current, and
its code has no return at its end yet. -/
structure Compiled (P : Plan) (os : List Outline) (g : Generator) : Prop where
  routines : ∀ (n : Nat) (o : Outline) (r : Routine), os[n]? = some o →
    g.routines[n]? = some r → r.Typed P o
  current : (g.current = none ∧ g.body = .empty ∧ os.length = g.routines.size) ∨
    ∃ f o L l, g.current = some f ∧ os.length = g.routines.size + 1 ∧
      os[g.routines.size]? = some o ∧ o.args = f.params ∧ o.returns = f.returns ∧
      o.locals.length = f.locals.toNat ∧ o.after = ∅ ∧ Draft.empty.Grows g.body ∧
      g.body.Charted P o L ⟨[], l, o.before⟩

/-- With a return at its end the code of a function is typed. -/
theorem Draft.Charted.finishRoutine {P : Plan} {o : Outline} {d : Draft} {L : List Sketch}
    {l : Set Nat} (h : d.Charted P o L ⟨[], l, o.before⟩) (hafter : o.after = ∅)
    (hclosed : Draft.empty.Grows d) :
    (d.emitAll (implicitReturn o.returns)).toCode.Typed P o := by
  have hbefore : o.after ⊆ o.before := hafter ▸ Set.empty_subset _
  unfold implicitReturn
  cases hr : o.returns with
  | none => exact h.finish (.ret (by rw [Outline.result, hr]; rfl) hbefore) hclosed.marked
  | some type =>
    have hvalid : type.Valid (implicitValue type) := by
      cases type with
      | int => exact WordType.valid_zero .int
      | bool => exact WordType.valid_zero .bool
      | char => exact WordType.valid_ofChar '.'
    exact (h.emit (.pushInt hvalid)).finish (.ret (by rw [Outline.result, hr]; rfl) hbefore)
      (Draft.Grows.marked (hclosed.emit _))

/-- Once the current function is finished, all functions are typed. -/
theorem Compiled.finish {P : Plan} {os : List Outline} {g g' : Generator} {u : Unit}
    (h : Compiled P os g) (hm : Gen.Makes Gen.finishFunction g u g') :
    ∃ rs, g' = { g with routines := rs, body := .empty, current := none } ∧
      os.length = rs.size ∧ ∀ (n : Nat) (o : Outline) (r : Routine), os[n]? = some o →
        rs[n]? = some r → r.Typed P o := by
  obtain ⟨hf, hb, hsize⟩ | ⟨f, o, L, l, hf, hsize, ho, hargs, hreturns, hlocals, hafter, hclosed,
    hcharted⟩ := h.current
  · obtain rfl := Gen.makes_finishFunction_none hf hm
    refine ⟨g'.routines, ?_, hsize, h.routines⟩
    rw [← hf, ← hb]
  · refine ⟨_, Gen.makes_finishFunction hf hm, ?_, fun n o' r ho' hr => ?_⟩
    · rw [Array.size_push, hsize]
    · rw [Array.getElem?_push] at hr
      split at hr
      · rename_i hn
        subst hn
        obtain rfl := Option.some.inj (ho.symm.trans ho')
        obtain rfl := Option.some.inj hr
        exact ⟨hargs, hlocals, hreturns, hreturns ▸ hcharted.finishRoutine hafter hclosed⟩
      · exact h.routines n o' r ho' hr

theorem Compiled.congr {P : Plan} {os : List Outline} {g g' : Generator} (h : Compiled P os g)
    (hr : g'.routines = g.routines) (hc : g'.current = g.current) (hb : g'.body = g.body) :
    Compiled P os g' := by
  refine ⟨hr ▸ h.routines, ?_⟩
  rw [hr, hc, hb]
  exact h.current

/-! ## Between declarations -/

/-- What is known of the names between two declarations outside all functions, with `n` fields
and functions with the headers `hs` so far. -/
structure Outside (p : Program) (n : Nat) (hs : List Header) (g : Generator) : Prop where
  size : g.fields.size = n
  outer : g.scopes.isGlobal = true
  visible : ∀ v, g.scopes.Has v → ∃ i, v.handle = .field i ∧ i.toNat < n ∧
    p.fields[i.toNat]? = some v.slot
  functions : ∀ name f, g.functions.lookup name = some f → ∀ i, f.body = .routine i →
    (∃ h ∈ hs, h.name.value = name) ∧
    ∃ o, p.plan.routines[i.toNat]? = some o ∧ o.args = f.params ∧ o.returns = f.returns ∧
      o.before ⊆ Program.arraysBelow p.fields n
  headers : ∀ h ∈ hs, ∃ f i, g.functions.lookup h.name.value = some f ∧
    f.returns = h.returnType ∧ f.body = .routine i

/-- The invariant of generation between two declarations outside all functions. -/
structure Between (p : Program) (n : Nat) (hs : List Header) (g : Generator) : Prop
    extends Outside p n hs g where
  closed : Draft.empty.Grows g.initializer
  initializer : ∃ L, g.initializer.Charted p.plan (.initializer p.plan.arrays) L
    ((p.plan.start (.initializer p.plan.arrays) g).sketch [])

section

variable {p : Program} {n : Nat} {hs : List Header} {g g₁ g' : Generator}

theorem between_new (p : Program) (legacy : Bool) : Between p 0 [] (.new legacy) where
  size := rfl
  outer := rfl
  visible := by
    rintro v ⟨c, hc, name, hv⟩
    obtain rfl := List.mem_singleton.mp hc
    cases hv
  functions := by
    intro name f hf i hi
    have hmem : (name, f) ∈ Functions.new.entries := by
      obtain ⟨l₁, l₂, hl, -⟩ := List.lookup_eq_some_iff.mp hf
      exact hl ▸ List.mem_append_right _ (.head _)
    simp only [Functions.new, List.mem_cons, Prod.mk.injEq, List.not_mem_nil, or_false] at hmem
    obtain ⟨-, rfl⟩ | ⟨-, rfl⟩ := hmem <;> cases hi
  headers := fun _ h => nomatch h
  closed := Draft.Grows.refl _
  initializer := by
    refine ⟨[], Draft.Charted.weaken (Draft.Charted.empty _ _) ⟨rfl, Set.empty_subset _, ?_⟩⟩
    rintro i ⟨hi, -⟩
    exact absurd hi (Nat.not_lt_zero _)

namespace Outside

/-- Before the program, the fields so far may be used. -/
theorem start_sound (h : Outside p n hs g) (first : Outline) : (p.plan.start first g).Sound := by
  intro name v hv _
  obtain ⟨i, hh, hi, hfield⟩ := h.visible v (Scopes.has_of_lookup hv)
  unfold Setting.Offers
  rw [hh]
  exact ⟨hfield, fun ha => ⟨h.size.symm ▸ hi, v.type,
    hfield.trans (congrArg some (Symbol.slot_of_array ha))⟩⟩

/-- Before the program, the functions so far may be called. -/
theorem start_knows (h : Outside p n hs g) (first : Outline) {name : String} {f : FunctionSymbol}
    (hf : g.functions.lookup name = some f) : (p.plan.start first g).Knows f := by
  intro i hi
  obtain ⟨-, o, ho, hargs, hreturns, hbefore⟩ := h.functions name f hf i hi
  exact ⟨o, ho, hargs, hreturns, (h.size.symm ▸ hbefore).trans Set.subset_union_left⟩

end Outside

/-! ## Global variables -/

/-- A global variable gets the next field, which is made ready before the program. -/
theorem Between.variable (h : Between p n hs g) (hp : p.Addressable) {d : Declarator}
    {type : WordType} {static : Bool} (hk : p.fields[n]? = some (d.slot type))
    (hm : Gen.Makes (d.compile type static) g ⟨⟩ g') (haddr : g'.Addressable) :
    Between p (n + 1) hs g' ∧ g'.routines = g.routines ∧ g'.current = g.current ∧
      g'.body = g.body := by
  obtain ⟨v, storage, t, g₁, g₂, hslot, hdeclared, hallocate, hg₂, hprepare⟩ :=
    Declarator.makes_compile hm
  obtain ⟨-, i, name, hh, hnumber, rfl, hg₁⟩ := Declarator.makes_allocate_global h.outer hallocate
  obtain ⟨d', rfl, hextended⟩ := extends_prepareCode _ v d.init _ _ _ hprepare
  have hgrows := hextended.grows haddr.initializer.labels
  have hi : i.toNat = g.fields.size := by
    rw [hnumber, h.size]
    exact UInt32.toNat_ofNat_of_lt' ((List.getElem?_eq_some_iff.mp hk).1.trans_le hp.fields_le)
  have hfield : p.fields[i.toNat]? = some v.slot := by rw [hi, h.size, hk, hslot]
  have hsize : g₂.fields.size = g.fields.size + 1 := by
    rw [hg₂, hg₁]
    exact Array.size_push ..
  have hscopes : g₂.scopes = g.scopes.withCurrent (g.scopes.current.insert d.name.value v) := by
    rw [hg₂, hg₁]
  have hfunctions : g₂.functions = g.functions := by rw [hg₂, hg₁]
  have houtside : Outside p (n + 1) hs g₂ := by
    refine ⟨hsize.trans (congrArg (· + 1) h.size), ?_, fun w hw => ?_, fun name f hf j hj => ?_,
      hfunctions ▸ h.headers⟩
    · rw [hscopes, Scopes.isGlobal_withCurrent, h.outer]
    · rw [hscopes] at hw
      rcases hw.of_insert with rfl | hw
      · exact ⟨i, hh, by have := h.size; omega, hfield⟩
      · obtain ⟨j, hj, hlt, hw⟩ := h.visible w hw
        exact ⟨j, hj, hlt.trans (Nat.lt_succ_self n), hw⟩
    · rw [hfunctions] at hf
      obtain ⟨hname, o, ho, hargs, hreturns, hbefore⟩ := h.functions name f hf j hj
      exact ⟨hname, o, ho, hargs, hreturns,
        hbefore.trans (Program.arraysBelow_mono (Nat.le_succ n))⟩
  obtain ⟨L₀, hL₀⟩ := h.initializer
  obtain ⟨L₁, -, hcharted⟩ := Plan.prepareField hsize hh hi hfield hdeclared
    (houtside.start_sound _) (fun e _ name _ f hf => houtside.start_knows _ hf) hprepare
    haddr.initializer (by rw [hg₂, hg₁]; exact hL₀)
  have hclosed : Draft.empty.Grows d' := by
    rw [hg₂, hg₁] at hgrows
    exact h.closed.trans hgrows
  refine ⟨⟨⟨houtside.size, houtside.outer, houtside.visible, houtside.functions,
    houtside.headers⟩, hclosed, L₁, hcharted⟩, ?_⟩
  rw [hg₂, hg₁]
  exact ⟨rfl, rfl, rfl⟩

theorem Between.globals (h : Between p n hs g) (hp : p.Addressable) {d : Declaration}
    (hk : StandsAt d.fields p.kept n) (hm : Gen.Makes d.compile g ⟨⟩ g') (haddr : g'.Addressable) :
    Between p (n + d.fields.length) hs g' ∧ g'.routines = g.routines ∧ g'.current = g.current ∧
      g'.body = g.body := by
  unfold Declaration.compile at hm
  unfold Declaration.fields at hk ⊢
  rw [List.length_map]
  generalize d.items = items at hm hk ⊢
  induction items generalizing g n with
  | nil =>
    obtain rfl := Gen.makes_forM_nil.mp hm
    exact ⟨h, rfl, rfl, rfl⟩
  | cons i items ih =>
    obtain ⟨g₁, h₁, h₂⟩ := Gen.makes_forM_cons.mp hm
    obtain ⟨hi, hrest⟩ := StandsAt.cons_iff.mp hk
    have hfield : p.fields[n]? = some (i.slot d.type.value) := by
      rw [Program.fields, List.getElem?_map, hi]
      rfl
    have haddr₁ := (Gen.steady_forM (fun i => Gen.steady_declarator _ _ i) _ _ _
      h₂).addressable haddr
    obtain ⟨hfirst, hr, hc, hb⟩ := h.variable hp hfield h₁ haddr₁
    obtain ⟨hall, hr', hc', hb'⟩ := ih hfirst h₂ hrest
    rw [List.length_cons, Nat.add_comm items.length, ← Nat.add_assoc]
    exact ⟨hall, hr'.trans hr, hc'.trans hc, hb'.trans hb⟩

/-! ## Functions -/

/-- What stays the same while the function `h` is compiled, in front of which there are `n`
fields. -/
def Scene.ofFunction (p : Program) (X : Set Nat) (n : Nat) (h : Header) (body : Stmt) : Scene :=
  ⟨p.plan, X, .initializer p.plan.arrays, h.name.value, Program.outlineAt p.fields n h body, n,
    body.kept⟩

variable {X : Set Nat} {header : Header} {body : Stmt} {os : List Outline}

theorem Scene.fair_ofFunction (hp : p.Addressable) (hi : .function header body ∈ p.items)
    (hk : StandsAt body.kept p.kept n)
    (hx : exposedBy header.name.value n body.kept ⊆ p.exposed) :
    (Scene.ofFunction p X n header body).Fair := by
  refine ⟨rfl, rfl, fun j k hj => ?_, hx, hp.fields_le, hp.locals _ _ hi⟩
  show p.fields[n + j]? = some k.slot
  rw [Program.fields, List.getElem?_map, hk.getElem? hj]
  rfl

/-- Behind the header of a function, in front of which there are functions with the outlines `os`,
its code begins. -/
structure Program.Begins (p : Program) (X : Set Nat) (n : Nat) (header : Header) (body : Stmt)
    (os : List Outline) (g g' : Generator) : Prop where
  holds : (Scene.ofFunction p X n header body).Holds g' 0 0
  body : (Scene.ofFunction p X n header body).Body g' [] []
  empty : g'.body = .empty
  pending : g'.pending = []
  outer : g'.scopes.pop = g.scopes
  size : os.length = g'.routines.size
  typed : ∀ (n : Nat) (o : Outline) (r : Routine), os[n]? = some o → g'.routines[n]? = some r →
    r.Typed (p.plan.withExposed X) o
  fresh : g.functions.lookup header.name.value = none
  known : ∃ i : UInt32, i.toNat = os.length ∧ g'.functions = ⟨(header.name.value,
    ⟨header.parameterTypes, header.returnType, .routine i⟩) :: g.functions.entries⟩

/-- A function begins outside all loops. -/
theorem Program.Begins.exits {p : Program} {g : Generator}
    (h : p.Begins X n header body os g g') : (Scene.ofFunction p X n header body).Exits g' [] := by
  intro k hk
  rw [h.pending] at hk
  cases hk

theorem Between.beginFunction (h : Between p n hs g) (hp : p.Addressable)
    (hi : .function header body ∈ p.items) (hc : Compiled (p.plan.withExposed X) os g)
    (ho : p.plan.routines[os.length]? = some (Program.outlineAt p.fields n header body))
    (hm : Gen.Makes ((.openFunction :: header.params.map .parameters).forM Construct.compile)
      g ⟨⟩ g₁) (hbegin : Gen.Makes (Gen.beginFunction header) g₁ ⟨⟩ g') :
    p.Begins X n header body os g g' := by
  obtain ⟨g₀, hopen, hparams⟩ := Gen.makes_forM_cons.mp hm
  obtain rfl := Gen.makes_openScope.mp hopen
  obtain ⟨s, rfl, hpop, hinner, hnames⟩ :=
    Gen.makes_parameterGroups (g := g.withScopes g.scopes.push) (k := 0) rfl rfl hparams
  obtain ⟨g₂, i, hfinish, hnumber, hnone, rfl⟩ := Gen.makes_beginFunction hbegin
  -- Parameters change the scopes, and the code in front of the function not at all.
  have hc' : Compiled (p.plan.withExposed X) os ((g.withScopes g.scopes.push).withScopes s) :=
    hc.congr rfl rfl rfl
  obtain ⟨rs, rfl, hsize, htyped⟩ := hc'.finish hfinish
  -- What is visible in the function is a field from in front of it or a parameter.
  have hvariable (v : Symbol) (hv : s.Has v) : (∃ i, v.handle = .field i ∧ i.toNat < n ∧
      p.fields[i.toNat]? = some v.slot) ∨ ∃ i, v.handle = .argument i ∧
        header.parameterTypes[i.toNat]? = some v.slot := by
    rcases hnames v hv with hv | ⟨j, hh, hslot⟩
    · exact .inl (h.visible v (Scopes.has_push.mp hv))
    · have hj : j < header.parameterTypes.length := (List.getElem?_eq_some_iff.mp hslot).1
      refine .inr ⟨_, hh, ?_⟩
      rw [Nat.zero_add, UInt32.toNat_ofNat_of_lt' (hj.trans_le (hp.params _ _ hi))]
      exact hslot
  have hlocals : s.localArrays ⊆ ∅ := by
    rintro j ⟨v, hv, -, k, hk, -⟩
    obtain ⟨i, hh, -⟩ | ⟨i, hh, -⟩ := hvariable v hv <;> rw [hh] at hk <;> cases hk
  -- The number of the routine is the number of the functions in front.
  have hindex : i.toNat = os.length := by
    rw [hnumber, hsize]
    refine UInt32.toNat_ofNat_of_lt' ?_
    rw [← hsize]
    exact (List.getElem?_eq_some_iff.mp ho).1.trans_le hp.routines_le
  refine ⟨⟨⟨h.size, Nat.zero_le _, hinner, fun v hv => ?_, fun name f hf j hj => ?_⟩,
    ⟨_, rfl, rfl, rfl, rfl, rfl⟩, h.closed, h.initializer⟩, ?_, rfl, rfl, hpop, hsize,
      htyped, hnone,
    i, hindex, rfl⟩
  · unfold Scene.Keeps
    obtain ⟨i, hh, hlt, hslot⟩ | ⟨i, hh, hslot⟩ := hvariable v hv
    · rw [hh]
      exact ⟨h.size.symm ▸ hlt, hslot⟩
    · rw [hh]
      exact hslot
  -- The function itself is known to its body.
  · simp only [Functions.lookup, List.lookup_cons] at hf
    split at hf
    · rename_i hname
      obtain rfl := Option.some.inj hf
      obtain rfl := FunctionBody.routine.inj hj
      exact ⟨_, hindex ▸ ho, rfl, rfl, .inr ⟨beq_iff_eq.mp hname, rfl⟩⟩
    · obtain ⟨-, o, ho', hargs, hreturns, hbefore⟩ := h.functions name f hf j hj
      exact ⟨o, ho', hargs, hreturns, .inl hbefore⟩
  · exact Draft.Charted.weaken (Draft.Charted.empty _ _) ⟨rfl, hlocals, subset_rfl⟩

/-- A function, up to the return at its end. -/
theorem Between.function (h : Between p n hs g) (hp : p.Addressable)
    (hitem : .function header body ∈ p.items) (hc : Compiled (p.plan.withExposed X) os g)
    (hk : StandsAt body.kept p.kept n) (hx : exposedBy header.name.value n body.kept ⊆ p.exposed)
    (ho : p.plan.routines[os.length]? = some (Program.outlineAt p.fields n header body))
    (hm : Gen.Makes ((TopLevel.function header body).constructs.forM Construct.compile) g ⟨⟩ g')
    (haddr : g'.Addressable) : Between p (n + body.kept.length) (hs ++ [header]) g' ∧
      Compiled (p.plan.withExposed X) (os ++ [Program.outlineAt p.fields n header body]) g' := by
  -- A function is made in four parts: its scope, its header, its body and its end.
  obtain ⟨g₃, hm, hclose⟩ := Gen.makes_forM_append.mp hm
  obtain ⟨g₁, hopen, hm⟩ := Gen.makes_forM_append.mp hm
  obtain ⟨g₂, hbegin, hbody⟩ := Gen.makes_forM_cons.mp hm
  have hbegins := h.beginFunction hp hitem hc ho hopen hbegin
  have haddr₃ := (Gen.makes_constructs_later hclose).addressable haddr
  obtain ⟨i, hi, hfunctions⟩ := hbegins.known
  obtain rfl := Gen.makes_closeScope.mp (Gen.makes_forM_one.mp hclose)
  have hfair : (Scene.ofFunction p X n header body).Fair := Scene.fair_ofFunction hp hitem hk hx
  -- The body is followed by the general statement, with the plan of the function.
  obtain ⟨hr, hs₃⟩ := Scene.typed_statement hfair body g₂ [] g₃ 0 0 List.prefix_rfl List.prefix_rfl
    hbegins.holds hbegins.body hbegins.exits hbody haddr₃
  have hpop₃ : g₃.scopes.pop = g.scopes := by rw [hs₃, hbegins.outer]
  have hfunctions₃ := hr.functions.trans hfunctions
  have hsize₃ : g₃.fields.size = n + body.kept.length := by
    rw [hr.holds.size, Nat.zero_add]
    rfl
  have hle : n ≤ n + body.kept.length := Nat.le_add_right _ _
  obtain ⟨f, hf, -, hparams, hreturns, hlocals⟩ := hr.holds.current
  obtain ⟨L, -, hcode⟩ := hr.body
  refine ⟨⟨⟨hsize₃, ?_, fun v hv => ?_, fun name f hf j hj => ?_, fun k hk => ?_⟩,
    hr.holds.closed, hr.holds.initializer⟩, ⟨fun j o r hj hget => ?_, .inr ⟨f, _, L, _, hf, ?_, ?_,
      hparams.symm, hreturns.symm, ?_, rfl, hbegins.empty ▸ hr.grows, hcode⟩⟩⟩
  · show g₃.scopes.pop.isGlobal = true
    -- Behind the function its parameters and local variables are not visible.
    rw [hpop₃, h.outer]
  · have hv' : g.scopes.Has v := hpop₃ ▸ hv
    obtain ⟨j, hh, hlt, hslot⟩ := h.visible v hv'
    exact ⟨j, hh, hlt.trans_le hle, hslot⟩
  -- The function is known to what comes behind.
  · have hf' : g₃.functions.lookup name = some f := hf
    simp only [hfunctions₃, Functions.lookup, List.lookup_cons] at hf'
    split at hf'
    · rename_i hname
      obtain rfl := Option.some.inj hf'
      obtain rfl := FunctionBody.routine.inj hj
      exact ⟨⟨header, by simp, (beq_iff_eq.mp hname).symm⟩, _, hi ▸ ho, rfl, rfl, subset_rfl⟩
    · obtain ⟨⟨k, hk, hname⟩, o, ho', hargs, hreturns, hbefore⟩ := h.functions name f hf' j hj
      exact ⟨⟨k, List.mem_append_left _ hk, hname⟩, o, ho', hargs, hreturns,
        hbefore.trans (Program.arraysBelow_mono hle)⟩
  -- A header behind others has a name that none of these has.
  · show ∃ f i, g₃.functions.lookup k.name.value = some f ∧ _
    simp only [hfunctions₃, Functions.lookup, List.lookup_cons]
    rcases List.mem_append.mp hk with hk | hk
    · obtain ⟨f, j, hf, hreturns, hbody⟩ := h.headers k hk
      have hne : (k.name.value == header.name.value) = false := by
        refine beq_eq_false_iff_ne.mpr fun heq => ?_
        rw [heq, hbegins.fresh] at hf
        cases hf
      rw [hne]
      exact ⟨f, j, hf, hreturns, hbody⟩
    · obtain rfl := List.mem_singleton.mp hk
      rw [beq_self_eq_true]
      exact ⟨_, i, rfl, rfl, rfl⟩
  -- The routines from in front are still there, and the new one comes behind them.
  · have hget' : g₂.routines[j]? = some r := by
      rw [← hr.routines]
      exact hget
    have hlt := (Array.getElem?_eq_some_iff.mp hget').1
    have hsize := hbegins.size
    rw [List.getElem?_append_left (by omega)] at hj
    exact hbegins.typed j o r hj hget'
  · show _ = g₃.routines.size + 1
    rw [List.length_append, hr.routines, hbegins.size]
    rfl
  · show (os ++ _)[g₃.routines.size]? = _
    rw [hr.routines, ← hbegins.size]
    exact List.getElem?_concat_length
  · rw [hlocals, Nat.zero_add]
    rfl

/-! ## Programs -/

/-- What the plan of a program says of a function with the declarations `done` in front of it. -/
theorem Program.function_planned {done rest : List TopLevel}
    (hp : p.items = done ++ .function header body :: rest) :
    exposedBy header.name.value (done.flatMap TopLevel.kept).length body.kept ⊆ p.exposed ∧
      p.plan.routines[(Program.outlinesFrom p.fields 0 done).length]? =
        some (Program.outlineAt p.fields (done.flatMap TopLevel.kept).length header body) := by
  constructor
  · rw [Program.exposed, hp, Program.exposedFrom_append, Nat.zero_add]
    exact Set.subset_union_left.trans Set.subset_union_right
  · refine getElem?_mono (List.prefix_append _ _) ?_
    rw [hp, Program.outlinesFrom_append, Nat.zero_add]
    exact getElem?_mono (show _ ++ [_] <+: _ from ⟨_, List.append_assoc ..⟩)
      List.getElem?_concat_length

/-- Where the variables of a declaration are among those of the program. -/
theorem Program.standsAt_kept {done rest : List TopLevel} {item : TopLevel}
    (hp : p.items = done ++ item :: rest) :
    StandsAt item.kept p.kept (done.flatMap TopLevel.kept).length :=
  .of_append (b := rest.flatMap TopLevel.kept) (by
    rw [Program.kept, hp, List.flatMap_append, List.flatMap_cons])

/-- The declarations `now`, those in `done` being in front of them. -/
theorem Between.items {done now rest : List TopLevel} (hsize : p.Addressable)
    (hp : p.items = done ++ now ++ rest)
    (h : Between p (done.flatMap TopLevel.kept).length (Program.headersOf done) g)
    (hc : Compiled (p.plan.withExposed X) (Program.outlinesFrom p.fields 0 done) g)
    (hm : Gen.Makes ((now.flatMap TopLevel.constructs).forM Construct.compile) g ⟨⟩ g')
    (haddr : g'.Addressable) :
    Between p ((done ++ now).flatMap TopLevel.kept).length (Program.headersOf (done ++ now)) g' ∧
      Compiled (p.plan.withExposed X) (Program.outlinesFrom p.fields 0 (done ++ now)) g' := by
  induction now generalizing done g with
  | nil =>
    obtain rfl := Gen.makes_forM_nil.mp hm
    rw [List.append_nil]
    exact ⟨h, hc⟩
  | cons item now ih =>
    rw [List.flatMap_cons] at hm
    obtain ⟨g₁, hfirst, hrest⟩ := Gen.makes_forM_append.mp hm
    have hitems : p.items = done ++ item :: (now ++ rest) := by
      rw [hp, List.append_assoc, List.cons_append]
    have hmem : item ∈ p.items := hitems ▸ List.mem_append_right _ (.head _)
    have haddr₁ := (Gen.makes_constructs_later hrest).addressable haddr
    have hkept := Program.standsAt_kept hitems
    have hassoc : done ++ item :: now = (done ++ [item]) ++ now := by rw [List.append_assoc]; rfl
    have hlen : ((done ++ [item]).flatMap TopLevel.kept).length =
        (done.flatMap TopLevel.kept).length + item.kept.length := by
      rw [List.flatMap_append, List.length_append, List.flatMap_cons, List.flatMap_nil,
        List.append_nil]
    have hnext : Between p ((done ++ [item]).flatMap TopLevel.kept).length
          (Program.headersOf (done ++ [item])) g₁ ∧
        Compiled (p.plan.withExposed X) (Program.outlinesFrom p.fields 0 (done ++ [item])) g₁ := by
      rw [hlen, Program.headersOf_append, Program.outlinesFrom_append, Nat.zero_add]
      cases item with
      | «variables» d =>
        obtain ⟨hbetween, hr, hcurrent, hb⟩ :=
          h.globals hsize hkept (Gen.makes_forM_one.mp hfirst) haddr₁
        have hheaders : Program.headersOf [.variables d] = [] := rfl
        rw [hheaders, Program.outlinesFrom, Program.outlinesFrom, List.append_nil, List.append_nil]
        exact ⟨hbetween, hc.congr hr hcurrent hb⟩
      | function header body =>
        obtain ⟨hx, ho⟩ := Program.function_planned hitems
        exact h.function hsize hmem hc hkept hx ho hfirst haddr₁
    rw [hassoc]
    exact ih (hassoc ▸ hp) hnext.1 hnext.2 hrest

/-- Behind the declarations that a program begins with. -/
theorem between_of_makes {done rest : List TopLevel} {legacy : Bool} (hsize : p.Addressable)
    (hp : p.items = done ++ rest)
    (hm : Gen.Makes ((done.flatMap TopLevel.constructs).forM Construct.compile) (.new legacy) ⟨⟩ g)
    (haddr : g.Addressable) (X : Set Nat) :
    Between p (done.flatMap TopLevel.kept).length (Program.headersOf done) g ∧
      Compiled (p.plan.withExposed X) (Program.outlinesFrom p.fields 0 done) g := by
  have hnew : Compiled (p.plan.withExposed X) [] (.new legacy) :=
    ⟨fun _ _ _ h => (by cases h), .inl ⟨rfl, rfl, rfl⟩⟩
  have hitems : p.items = [] ++ done ++ rest := hp
  exact Between.items hsize hitems (between_new p legacy) hnew hm haddr

/-- The code in front of the program makes all fields of arrays ready. -/
theorem Between.initializer_typed (h : Between p p.kept.length hs g) :
    (g.initializer.emit .ret).toCode.Typed p.plan (.initializer p.plan.arrays) := by
  obtain ⟨L, hL⟩ := h.initializer
  refine Draft.Charted.finish hL (.ret rfl fun i hi => ?_) h.closed.marked
  obtain ⟨t, ht⟩ := hi
  refine ⟨?_, t, ht⟩
  rw [h.size, ← List.length_map (f := Kept.slot)]
  exact (List.getElem?_eq_some_iff.mp ht).1

/-- The routine that stands in for an entry function is typed. -/
theorem emptyEntry_typed (P : Plan) : emptyEntry.Typed P Program.emptyOutline := by
  have hcode : emptyEntry.code = (Draft.empty.emit .ret).toCode := by
    simp [emptyEntry, Draft.toCode, Draft.emit, Draft.empty]
  refine ⟨rfl, rfl, rfl, ?_⟩
  rw [hcode]
  exact Draft.Charted.finish (Draft.Charted.empty P Program.emptyOutline)
    (.ret rfl (Set.empty_subset _)) (Draft.Grows.marked (Draft.Grows.refl _))

theorem Program.before_subset {fields : List Slot} {n : Nat} {items : List TopLevel} {o : Outline}
    (ho : o ∈ outlinesFrom fields n items) :
    o.before ⊆ {i | ∃ t, fields[i]? = some (.ofArray t)} := by
  induction items generalizing n with
  | nil => cases ho
  | cons item items ih =>
    cases item with
    | «variables» d => exact ih ho
    | function h body =>
      rcases List.mem_cons.mp ho with rfl | ho
      · exact fun i hi => hi.2
      · exact ih ho

end

/-- What is known of the state behind a whole program. -/
structure Finished (p : Program) (g : Generator) : Prop extends
    Outside p p.kept.length p.headers g where
  initializer : g.initializer.toCode.Typed p.plan (.initializer p.plan.arrays)
  number : (Program.outlinesFrom p.fields 0 p.items).length = g.routines.size
  bound : g.routines.size < UInt32.size
  routines : ∀ X (n : Nat) (o : Outline) (r : Routine),
    (Program.outlinesFrom p.fields 0 p.items)[n]? = some o → g.routines[n]? = some r →
      r.Typed (p.plan.withExposed X) o

/-- The last function and the code in front of the program are finished. -/
theorem makes_of_finish (g : Generator) : ∃ g₁, Gen.Makes Gen.finishFunction g ⟨⟩ g₁ ∧
    g.finish = (g₁.onDraft .initializer fun d => d.emit .ret).toImage :=
  ⟨g.finishFunction, Gen.makes_modify.mpr rfl, rfl⟩

/-! ## Images -/

/-- The entry of an image is the routine of the function `main`, or one more routine. -/
theorem Generator.toImage_cases (g : Generator) :
    (∃ i, (g.functions.lookup entryName).map FunctionSymbol.body = some (.routine i) ∧
      g.toImage = ⟨true, g.fields.toList, g.initializer.toCode, g.routines, i⟩) ∨
    ((∀ i, (g.functions.lookup entryName).map FunctionSymbol.body ≠ some (.routine i)) ∧
      g.toImage = ⟨false, g.fields.toList, g.initializer.toCode, g.routines.push emptyEntry,
        .ofNat g.routines.size⟩) := by
  unfold Generator.toImage
  dsimp only
  split
  · rename_i i hmain
    exact .inl ⟨i, hmain, rfl⟩
  · rename_i hmain
    exact .inr ⟨hmain, rfl⟩

theorem Generator.fields_toImage (g : Generator) : g.toImage.fields = g.fields.toList := by
  obtain ⟨i, -, hi⟩ | ⟨-, hi⟩ := g.toImage_cases <;> rw [hi]

theorem Generator.initializer_toImage (g : Generator) :
    g.toImage.initializer = g.initializer.toCode := by
  obtain ⟨i, -, hi⟩ | ⟨-, hi⟩ := g.toImage_cases <;> rw [hi]

/-- The routine that stands in for an entry function comes last. -/
theorem Generator.routines_toImage (g : Generator) :
    g.routines.toList <+: g.toImage.routines.toList := by
  obtain ⟨i, -, hi⟩ | ⟨-, hi⟩ := g.toImage_cases <;> simp [hi]

/-- The code in front of a program is finished with a return. -/
theorem Generator.initializer_finish (g : Generator) :
    g.finish.initializer = (g.initializer.emitAll [.ret]).toCode := by
  obtain ⟨g₁, hlast, himage⟩ := makes_of_finish g
  rw [himage, Generator.initializer_toImage, ← (Gen.keeps_finishFunction hlast).2.2.1]
  rfl

/-- There is a current function behind the first one of a program, and no code of one before it. -/
theorem Program.current_or_empty {items : List TopLevel} {g g' : Generator}
    (hi : g.scopes.isGlobal = true) (hb : g.body = .empty)
    (h : Gen.Makes ((items.flatMap TopLevel.constructs).forM Construct.compile) g ⟨⟩ g') :
    g'.current.isSome ∨ g'.body = .empty := by
  induction items generalizing g with
  | nil =>
    obtain rfl := Gen.makes_forM_nil.mp h
    exact .inr hb
  | cons item items ih =>
    rw [List.flatMap_cons] at h
    obtain ⟨g₁, hfirst, hrest⟩ := Gen.makes_forM_append.mp h
    cases item with
    | «variables» d =>
      obtain ⟨hi₁, -, hb₁, -⟩ := Declaration.makes_global hi (Gen.makes_forM_one.mp hfirst)
      exact ih hi₁ (hb₁.trans hb) hrest
    | function header body =>
      obtain ⟨g₃, hfirst, hclose⟩ := Gen.makes_forM_append.mp hfirst
      obtain ⟨_, -, hfirst⟩ := Gen.makes_forM_append.mp hfirst
      obtain ⟨g₂, hbegin, hbody⟩ := Gen.makes_forM_cons.mp hfirst
      obtain ⟨_, _, -, -, -, rfl⟩ := Gen.makes_beginFunction hbegin
      exact .inl (((Gen.makes_constructs_later hbody).trans
        ((Gen.makes_constructs_later hclose).trans (Gen.makes_constructs_later hrest))).current rfl)

/-- If 32 bits are enough for an image, they were enough all along. -/
theorem Program.addressable_of_finish {p : Program} {legacy : Bool} {g : Generator}
    (h : generate legacy p.constructs = .ok g) (haddr : g.finish.Addressable) : g.Addressable := by
  obtain ⟨g₁, hlast, himage⟩ := makes_of_finish g
  have hroutines : ∀ r ∈ g₁.routines, r.code.Addressable := by
    intro r hr
    refine haddr.routines r (himage ▸ ?_)
    exact Array.mem_toList_iff.mp
      ((Generator.routines_toImage _).subset (Array.mem_toList_iff.mpr hr))
  refine ⟨?_, ?_, fun r hr => hroutines r (Array.mem_toList_iff.mp
    ((Gen.routines_finishFunction hlast).subset (Array.mem_toList_iff.mpr hr)))⟩
  · have hinitializer := haddr.initializer
    rw [Generator.initializer_finish] at hinitializer
    exact .of_toCode hinitializer (List.cons_ne_nil _ _)
  · rcases Program.current_or_empty rfl rfl (makes_of_generate h) with hc | hb
    · exact Gen.addressable_finishFunction hlast hc hroutines
    · rw [hb]
      exact ⟨by decide, by decide⟩

/-- Code generation for a whole program ends in a state in which everything is typed. -/
theorem Program.finished {p : Program} {legacy : Bool} {g : Generator} (hp : p.Addressable)
    (h : generate legacy p.constructs = .ok g) (haddr : g.Addressable) :
    ∃ g', g.finish = g'.toImage ∧ Finished p g' := by
  have hall := between_of_makes hp (List.append_nil _).symm (makes_of_generate h) haddr
  obtain ⟨g₁, hroutine, himage⟩ := makes_of_finish g
  have hbetween := (hall ∅).1
  obtain ⟨rs, rfl, hsize, -⟩ := (hall ∅).2.finish hroutine
  have hbound : rs.size < UInt32.size := by
    rw [← hsize, Program.length_outlinesFrom]
    exact hp.functions
  refine ⟨_, himage, ⟨hbetween.size, hbetween.outer, hbetween.visible, hbetween.functions,
    hbetween.headers⟩, hbetween.initializer_typed, hsize, hbound, fun X n o r ho hr => ?_⟩
  obtain ⟨rs', hg, -, htyped⟩ := (hall X).2.finish hroutine
  obtain rfl : rs = rs' := congrArg Generator.routines hg
  exact htyped n o r ho hr

theorem Program.before_subset_arrays {p : Program} {o : Outline} (ho : o ∈ p.plan.routines) :
    o.before ⊆ p.plan.arrays := by
  rcases List.mem_append.mp ho with ho | ho
  · exact Program.before_subset ho
  · split at ho
    · cases ho
    · rw [List.mem_singleton.mp ho]
      exact Set.empty_subset _

namespace Finished

variable {p : Program} {g : Generator} (h : Finished p g)
include h

theorem fields_length : p.plan.fields.length = g.fields.toList.length := by
  rw [Array.length_toList, h.size, ← List.length_map (f := Kept.slot)]
  rfl

/-- A function `main` of the program is what the state knows for its name. -/
theorem main_known {k : Header} (hk : k ∈ p.headers) (hname : k.name.value = entryName) :
    ∃ f i, g.functions.lookup entryName = some f ∧ f.returns = k.returnType ∧
      f.body = .routine i := by
  obtain ⟨f, i, hf, hr, hb⟩ := h.headers k hk
  exact ⟨f, i, hname ▸ hf, hr, hb⟩

theorem toNat_size : (UInt32.ofNat g.routines.size).toNat = g.routines.size :=
  UInt32.toNat_ofNat_of_lt' h.bound

section own

variable {i : UInt32}
  (hmain : (g.functions.lookup entryName).map FunctionSymbol.body = some (.routine i))
include hmain

/-- The routine of a function `main` has an outline, and it returns what the function does. -/
theorem entry_own : ∃ k ∈ p.headers, k.name.value = entryName ∧
    ∃ o, p.plan.routines[i.toNat]? = some o ∧ o.returns = k.returnType := by
  obtain ⟨f, hf, hb⟩ := Option.map_eq_some_iff.mp hmain
  obtain ⟨⟨k, hk, hname⟩, o, ho, -, hor, -⟩ := h.functions _ f hf i hb
  obtain ⟨f', -, hf', hr, -⟩ := h.main_known hk hname
  obtain rfl := Option.some.inj (hf.symm.trans hf')
  exact ⟨k, hk, hname, o, ho, hor.trans hr⟩

theorem outlines_own : p.plan.routines = Program.outlinesFrom p.fields 0 p.items := by
  obtain ⟨k, hk, hname, -⟩ := h.entry_own hmain
  show p.outlines = _
  rw [Program.outlines, if_pos (List.any_eq_true.mpr ⟨k, hk, decide_eq_true hname⟩),
    List.append_nil]

theorem typed_own :
    Image.Typed p.plan ⟨true, g.fields.toList, g.initializer.toCode, g.routines, i⟩ where
  fields := h.fields_length
  size := (congrArg List.length (h.outlines_own hmain)).trans h.number
  routines X n o r ho hr := h.routines X n o r (h.outlines_own hmain ▸ ho) hr
  initializer := h.initializer
  entry := by
    obtain ⟨-, -, -, o, ho, -⟩ := h.entry_own hmain
    rw [h.outlines_own hmain] at ho
    exact h.number ▸ (List.getElem?_eq_some_iff.mp ho).1
  before _ := Program.before_subset_arrays

theorem returns_own : ∃ o, p.plan.routines[i.toNat]? = some o ∧
    ∀ t, o.returns = some t ↔
      ∃ k ∈ p.headers, k.name.value = entryName ∧ k.returnType = some t := by
  obtain ⟨k, hk, hname, o, ho, hor⟩ := h.entry_own hmain
  refine ⟨o, ho, fun t => ⟨fun ht => ⟨k, hk, hname, hor ▸ ht⟩, ?_⟩⟩
  rintro ⟨k', hk', hname', ht⟩
  obtain ⟨f, -, hf, hr, -⟩ := h.main_known hk hname
  obtain ⟨f', -, hf', hr', -⟩ := h.main_known hk' hname'
  obtain rfl := Option.some.inj (hf.symm.trans hf')
  rw [hor, ← hr, hr', ht]

end own

section standIn

variable (hmain : ∀ i, (g.functions.lookup entryName).map FunctionSymbol.body ≠ some (.routine i))
include hmain

theorem no_main {k : Header} (hk : k ∈ p.headers) : k.name.value ≠ entryName := by
  intro hname
  obtain ⟨f, i, hf, -, hb⟩ := h.main_known hk hname
  exact hmain i (by rw [hf, Option.map_some, hb])

theorem outlines_standIn : p.plan.routines =
    Program.outlinesFrom p.fields 0 p.items ++ [Program.emptyOutline] := by
  have hany : (p.headers.any fun k => k.name.value = entryName) = false :=
    List.any_eq_false.mpr fun k hk => by simpa using h.no_main hmain hk
  show p.outlines = _
  rw [Program.outlines, hany]
  rfl

theorem typed_standIn : Image.Typed p.plan ⟨false, g.fields.toList, g.initializer.toCode,
    g.routines.push emptyEntry, .ofNat g.routines.size⟩ where
  fields := h.fields_length
  size := by
    rw [h.outlines_standIn hmain, List.length_append, h.number, Array.size_push]
    rfl
  routines X n o r ho hr := by
    replace hr : (g.routines.push emptyEntry)[n]? = some r := hr
    rw [h.outlines_standIn hmain] at ho
    rw [Array.getElem?_push] at hr
    split at hr
    · rename_i hn
      obtain rfl := Option.some.inj hr
      rw [hn, ← h.number, List.getElem?_concat_length] at ho
      obtain rfl := Option.some.inj ho
      exact emptyEntry_typed _
    · have hlt := (Array.getElem?_eq_some_iff.mp hr).1
      rw [List.getElem?_append_left (h.number ▸ hlt)] at ho
      exact h.routines X n o r ho hr
  initializer := h.initializer
  entry := by
    rw [h.toNat_size, Array.size_push]
    exact Nat.lt_succ_self _
  before _ := Program.before_subset_arrays

theorem returns_standIn : ∃ o, p.plan.routines[(UInt32.ofNat g.routines.size).toNat]? = some o ∧
    ∀ t, o.returns = some t ↔
      ∃ k ∈ p.headers, k.name.value = entryName ∧ k.returnType = some t := by
  refine ⟨Program.emptyOutline, ?_, fun t => ⟨nofun, ?_⟩⟩
  · rw [h.outlines_standIn hmain, h.toNat_size, ← h.number]
    exact List.getElem?_concat_length
  · rintro ⟨k, hk, hname, -⟩
    exact absurd hname (h.no_main hmain hk)

end standIn

/-- The image of a program is as its plan says, and its entry routine returns what the function
`main` does, if there is one. -/
theorem image : g.toImage.Typed p.plan ∧ ∃ o, p.plan.routines[g.toImage.entry.toNat]? = some o ∧
    ∀ t, o.returns = some t ↔
      ∃ k ∈ p.headers, k.name.value = entryName ∧ k.returnType = some t := by
  obtain ⟨i, hmain, hi⟩ | ⟨hmain, hi⟩ := g.toImage_cases <;> rw [hi]
  · exact ⟨h.typed_own hmain, h.returns_own hmain⟩
  · exact ⟨h.typed_standIn hmain, h.returns_standIn hmain⟩

end Finished

/-- 32 bits are enough to number what a program declares, and for the code it is compiled to. -/
structure Compilation.Addressable (c : Compilation) : Prop where
  tree : c.tree.Addressable
  image : c.image.Addressable

section

variable {name : String} {legacy : Bool} {source : List UInt8} {c : Compilation}

/-- What a compilation ends in, if 32 bits are enough for it. -/
theorem compile_finished (h : compile name legacy source = .ok c) (haddr : c.Addressable) :
    ∃ g, c.image = g.toImage ∧ Finished c.tree g := by
  obtain ⟨g, hgenerate, hfinish⟩ := compile_ok h
  obtain ⟨g', himage, hfinished⟩ := Program.finished haddr.tree hgenerate
    (Program.addressable_of_finish hgenerate (hfinish ▸ haddr.image))
  exact ⟨g', hfinish.trans himage, hfinished⟩

/-- **Compiled images are typed.** -/
theorem compile_typed (h : compile name legacy source = .ok c) (haddr : c.Addressable) :
    c.image.Typed c.tree.plan := by
  obtain ⟨g, himage, hfinished⟩ := compile_finished h haddr
  rw [himage]
  exact hfinished.image.1

/-- The entry routine returns a value of a type exactly if there is a function `main` that does. -/
theorem compile_returns (h : compile name legacy source = .ok c) (haddr : c.Addressable)
    {o : Outline} (ho : c.tree.plan.routines[c.image.entry.toNat]? = some o) (t : WordType) :
    o.returns = some t ↔
      ∃ k ∈ c.tree.headers, k.name.value = entryName ∧ k.returnType = some t := by
  obtain ⟨g, himage, hfinished⟩ := compile_finished h haddr
  obtain ⟨-, o', ho', hreturns⟩ := hfinished.image
  rw [himage] at ho
  obtain rfl := Option.some.inj (ho.symm.trans ho')
  exact hreturns t

/-- The entry routine returns something exactly if there is a function `main` that does. -/
theorem compile_entry (h : compile name legacy source = .ok c) (haddr : c.Addressable)
    {o : Outline} (ho : c.tree.plan.routines[c.image.entry.toNat]? = some o) :
    o.returns.isSome ↔ ∃ k ∈ c.tree.headers, k.name.value = entryName ∧ k.returns.isSome := by
  rw [Option.isSome_iff_exists]
  constructor
  · rintro ⟨t, ht⟩
    obtain ⟨k, hk, hname, hreturns⟩ := (compile_returns h haddr ho t).mp ht
    exact ⟨k, hk, hname, by rw [← Option.isSome_map, ← Header.returnType, hreturns]; rfl⟩
  · rintro ⟨k, hk, hname, hsome⟩
    obtain ⟨type, htype⟩ := Option.isSome_iff_exists.mp hsome
    exact ⟨_, (compile_returns h haddr ho _).mpr
      ⟨k, hk, hname, by rw [Header.returnType, htype]; rfl⟩⟩

end

end OnePass
