import OnePass.Proofs.DeclarationRuns
import OnePass.Proofs.StatementLayout

/-!
# Code for statements does what they do

Main statement: in any function, code for a statement that is entered with an empty stack does what
the statement says, wherever the statement stands (`Site.simulates_statement`).

The induction is on statements, `Site.Simulates` the statement that it goes through for. For each
kind of statement the pieces of code are found by the theorems about `Scene.Stands`.
-/

namespace OnePass

namespace Site

/-- The same place in a function, with other variables visible. -/
def inside (w : Site) (s : Scopes) : Site := { w with target := .function, scopes := s }

/-- What a statement is to be understood in that is compiled in a state of generation. -/
def surroundings (w : Site) (g : Generator) : Surroundings :=
  ⟨(w.inside g.scopes).situation, g.fields.size, g.localCount⟩

/-- The code of a function of a program. -/
structure Hosts (w : Site) (sc : Scene) : Prop where
  image : w.program.image.Typed w.program.tree.plan
  plan : sc.plan = w.program.tree.plan
  args : w.args = sc.outline.args
  locals : w.locals = sc.outline.locals

variable {w : Site} {sc : Scene} {g g₁ g' : Generator} {m n p p' q : Nat} {s : Scopes} {H : Heap}
  {mem : Memory} {v : Symbol} {code : Gen Unit} {u : Unit}

/-! ## Sites inside a function -/

/-- Inside a function all visible names mean something. -/
theorem Hosts.sound (hw : w.Hosts sc) (h : sc.Names g m) (hf : g.functions = w.functions) :
    (w.inside g.scopes).Sound := by
  refine ⟨fun name v hv _ => ?_, fun name f i hlookup hi => ?_⟩
  · have hkeeps := h.visible v (Scopes.has_of_lookup hv)
    unfold Scene.Keeps at hkeeps
    unfold Offers
    cases hh : v.handle with
    | field i =>
      rw [hh, hw.plan] at hkeeps
      exact hkeeps.2
    | «local» i =>
      rw [hh, ← hw.locals] at hkeeps
      exact hkeeps
    | argument i =>
      rw [hh, ← hw.args] at hkeeps
      exact hkeeps
  · obtain ⟨o, ho, hargs, hreturns, -⟩ := h.functions name f (hf ▸ hlookup) i hi
    rw [hw.plan] at ho
    have hlt : i.toNat < w.program.image.routines.size :=
      hw.image.size ▸ (List.getElem?_eq_some_iff.mp ho).1
    have hr := Array.getElem?_eq_getElem hlt
    have htyped := hw.image.routines ∅ _ o _ ho hr
    exact ⟨_, hr, htyped.args.symm.trans hargs, htyped.returns.symm.trans hreturns⟩

theorem consistent_inside : (w.inside s).Consistent H mem ↔ w.Consistent H mem :=
  ⟨fun h => ⟨h.store, h.args, h.locals⟩, fun h => ⟨h.store, h.args, h.locals⟩⟩

theorem keeps_inside {q : Heap → Prop} : (w.inside s).Keeps H mem q ↔ w.Keeps H mem q := by
  simp only [Keeps, consistent_inside]

theorem Fits.follows (hf : (w.inside s).Fits g) (h : g.Follows g₁) :
    (w.inside g₁.scopes).Fits g₁ :=
  ⟨rfl, h.functions.trans hf.functions, h.legacy.trans hf.legacy, hf.first.trans h.position⟩

/-- The surroundings depend on the visible variables and the numbers of slots only. -/
theorem surroundings_eq (h : sc.Holds g m n) :
    w.surroundings g = ⟨(w.inside g.scopes).situation, sc.base + m, n⟩ := by
  obtain ⟨f, hf, -, -, -, hn⟩ := h.current
  rw [surroundings, h.size, Generator.localCount, hf, Option.map_some, Option.getD_some, hn]

theorem surroundings_congr (h : sc.Holds g m n) (h₁ : sc.Holds g₁ m n) (hs : g₁.scopes = g.scopes) :
    w.surroundings g₁ = w.surroundings g := by
  rw [surroundings_eq h₁, hs, surroundings_eq h]

/-! ## Conditions -/

/-- Code that pushes a truth value, whatever is on the stack. -/
def Decides (w : Site) (code : Gen Unit) (ev : Eval Bool) : Prop :=
  ∀ g u g' H m s, w.Fits g → Gen.Makes code g u g' → w.Continues (g'.draft w.target) →
    w.Consistent H m →
    w.Does (w.stand (g.draft w.target).position s m) (ev.run.run m)
      (fun b m' => .active (w.stand (g'.draft w.target).position (.word (Word.ofBool b) :: s) m'))
      (fun _ m' => w.Keeps H m' fun _ => True)

theorem Pushes.decides {ev : Eval Int32} (h : w.Pushes code .bool ev) :
    w.Decides code (do return (← ev) ≠ 0) := by
  intro g u g' H m s hf hm hcode hst
  refine (h g u g' H m s hf hm hcode hst).bind fun x m' ⟨H', hst', hH, hx⟩ => ?_
  refine Does.pure ?_ ⟨H', hst', hH, trivial⟩
  rw [← WordType.eq_ofBool_of_valid hx]
  exact .refl _ _

theorem decides_holds (hw : (w.inside s).Sound) (hp : w.program.image.Typed w.program.tree.plan)
    (c : Expr) : (w.inside s).Decides (c.compileAs .function (.scalar .bool))
      ((w.inside s).situation.holds c) := by
  have h := ((computes (w := w.inside s) hw hp c).compileAs .bool).decides
  simp only [bind_assoc] at h
  exact h

/-- A variable that is no array holds a word. -/
theorem pushes_load (hv : w.Offers v) (ha : v.isArray = false) :
    w.Pushes (Gen.load w.target v) v.type (Eval.read v.handle >>= Eval.word) := by
  intro g u g' H m s hf hm hcode hst
  refine (does_load hv hf hm hcode hst).bind fun a m₁ ⟨hm₁, hfits⟩ => ?_
  subst hm₁
  rw [Rules.cell_of_scalar ha] at hfits
  obtain ⟨x, rfl, hx⟩ := hfits
  exact Does.pure (.refl _ _) (.of_consistent hst hx)

/-! ## Counters -/

section

variable {slot : UInt32} {range : Range} (hw : (w.inside s).Sound)
  (hp : w.program.image.Typed w.program.tree.plan)

include hw hp

theorem pushes_bound (hr : range.bound.isSome) :
    (w.inside s).Pushes (Gen.boundOf range) .int ((w.inside s).situation.bound range) := by
  obtain ⟨⟨last, step⟩, hlast⟩ := Option.isSome_iff_exists.mp hr
  unfold Gen.boundOf Situation.bound
  rw [hlast]
  exact (computes (w := w.inside s) hw hp last).compileAs .int

theorem pushes_stride :
    (w.inside s).Pushes (Gen.stepOf range) .int ((w.inside s).situation.stride range) := by
  have hone : (w.inside s).Pushes (Gen.emitBody (.pushInt 1)) .int (pure 1) := by
    intro g u g' H m st hf hm hcode hst
    exact ⟨reaches_emit hf hm hcode fun _ => Exec.outcome_pushInt,
      .of_consistent hst (WordType.valid_int 1)⟩
  unfold Gen.stepOf Situation.stride
  rcases range.bound with - | ⟨last, - | step⟩
  · exact hone
  · exact hone
  · exact (computes (w := w.inside s) hw hp step).compileAs .int

variable (hv : (w.inside s).Offers v) (hh : v.handle = .local slot) (ha : v.isArray = false)
  (ht : v.type = .int)

include hv hh ha

/-- The test of a counting loop. -/
theorem decides_within (hr : range.bound.isSome) : (w.inside s).Decides (Gen.withinCode slot range)
    ((w.inside s).situation.within (.local slot) range) := by
  intro g u g' H m st hf hm hcode hst
  obtain ⟨_, g₁, hload, hrest⟩ := Gen.makes_bind.mp hm
  obtain ⟨_, g₂, hbound, hcompare⟩ := Gen.makes_bind.mp hrest
  have hload' : Gen.Makes (Gen.load .function v) g ⟨⟩ g₁ := by
    unfold Gen.load
    rw [hh]
    exact hload
  have hcode₂ := hcode.extends (Gen.extends_emitAll _) hcompare
  have hf₁ := hf.extends (Gen.extends_load v) hload'
  have hboth : (w.inside s).Does ((w.inside s).stand g.body.position st m)
      (((Eval.read v.handle >>= Eval.word) >>= fun x =>
        (w.inside s).situation.bound range >>= fun last =>
          (pure (decide (x.toInt ≤ last.toInt)) : Eval Bool)).run.run m)
      (fun b m' => .active ((w.inside s).stand g'.body.position (.word (Word.ofBool b) :: st) m'))
      (fun _ m' => (w.inside s).Keeps H m' fun _ => True) := by
    refine (pushes_load hv ha g _ g₁ H m st hf hload'
      (hcode₂.extends (Gen.extends_boundOf range) hbound) hst).bind
      fun x m₁ ⟨H₁, hst₁, hH₁, _⟩ => ?_
    refine (pushes_bound hw hp hr g₁ _ g₂ H₁ m₁ _ hf₁ hbound hcode₂ hst₁).bind
      fun y m₂ ⟨H₂, hst₂, hH₂, _⟩ => ?_
    exact Does.pure (reaches_comparison .le (hf₁.extends (Gen.extends_boundOf range)
      hbound) hcompare
      hcode) ⟨H₂, hst₂, hH₁.trans hH₂, trivial⟩
  rw [hh] at hboth
  simp only [bind_assoc] at hboth
  exact hboth

include ht

/-- Behind a round the counter goes one step. -/
theorem performs_advance : (w.inside s).Performs (Gen.advanceCode slot range)
    ((w.inside s).situation.advance (.local slot) range) := by
  intro g u g' H m st hf hm hcode hst
  obtain ⟨_, g₁, hload, hrest⟩ := Gen.makes_bind.mp hm
  obtain ⟨_, g₂, hstep, hrest⟩ := Gen.makes_bind.mp hrest
  obtain ⟨_, g₃, hadd, hstore⟩ := Gen.makes_bind.mp hrest
  have hload' : Gen.Makes (Gen.load .function v) g ⟨⟩ g₁ := by
    unfold Gen.load
    rw [hh]
    exact hload
  have hstore' : Gen.Makes (Gen.store .function v) g₃ ⟨⟩ g' := by
    unfold Gen.store
    rw [hh]
    exact hstore
  have hstepx := Gen.extends_stepOf range
  have hcode₃ := hcode.extends (Gen.extends_store v) hstore'
  have hcode₂ := hcode₃.extends (Gen.extends_emit _) hadd
  have hf₁ := hf.extends (Gen.extends_load v) hload'
  have hf₂ := hf₁.extends hstepx hstep
  have hboth : (w.inside s).Does ((w.inside s).stand g.body.position st m)
      (((Eval.read v.handle >>= Eval.word) >>= fun x =>
        (w.inside s).situation.stride range >>= fun step =>
          (Eval.store (.slot v.handle) (.ofInt (x.toInt + step.toInt)) : Eval Unit)).run.run m)
      (fun _ m' => .active ((w.inside s).stand g'.body.position st m'))
      (fun _ m' => (w.inside s).Keeps H m' fun _ => True) := by
    refine (pushes_load hv ha g _ g₁ H m st hf hload' (hcode₂.extends hstepx hstep) hst).bind
      fun x m₁ ⟨H₁, hst₁, hH₁, _⟩ => ?_
    refine (pushes_stride hw hp g₁ _ g₂ H₁ m₁ _ hf₁ hstep hcode₂ hst₁).bind
      fun y m₂ ⟨H₂, hst₂, hH₂, _⟩ => ?_
    obtain ⟨hsum, -⟩ := does_operation (o := .add) (x := x) (y := y) (s := st) hf₂ hadd hcode₃ hst₂
    have hword : (Value.word (.ofInt (x.toInt + y.toInt))).Fits H₂ False (.ofSlot v.slot) := by
      rw [Rules.cell_of_scalar ha, ht]
      exact Value.fits_word (WordType.valid_int _)
    exact ⟨hsum.trans (reaches_store hv (hf₂.extends (Gen.extends_emit _) hadd) hstore' hcode hst₂),
      H₂, hst₂.set hv hword, hH₁.trans hH₂, trivial⟩
  rw [hh] at hboth
  simp only [bind_assoc] at hboth
  exact hboth

end

/-! ## Pieces of a function -/

section

variable (hf : (w.inside s).Fits g) (hm : Gen.Makes code g u g') (hcode : w.code.Continues g'.body)
  (hlast : g'.body.position ≤ w.last)

include hf hm hcode hlast

theorem Performs.carries {ev : Eval Unit} (h : (w.inside s).Performs code ev) :
    w.Carries g.body.position g'.body.position ev := by
  intro H m hst
  exact (h g u g' H m [] hf hm ⟨hcode, hlast⟩ (consistent_inside.mpr hst)).imp
    fun _ _ hkeeps => keeps_inside.mp hkeeps

theorem Decides.answers {ev : Eval Bool} (h : (w.inside s).Decides code ev) :
    w.Answers g.body.position g'.body.position ev := by
  intro H m hst
  exact (h g u g' H m [] hf hm ⟨hcode, hlast⟩ (consistent_inside.mpr hst)).imp
    fun _ _ hkeeps => keeps_inside.mp hkeeps

end

theorem carries_pure : w.Carries p p (pure ⟨⟩) :=
  fun _ _ hst => Does.pure (.refl _ _) (.of_consistent hst trivial)

theorem Carries.seq {ev ev' : Eval Unit} (h : w.Carries p p' ev) (h' : w.Carries p' q ev') :
    w.Carries p q (do ev; ev') := by
  intro H m hst
  refine (h H m hst).bind fun _ m₁ ⟨H₁, hst₁, hH₁, _⟩ => ?_
  exact (h' H₁ m₁ hst₁).imp fun _ _ hkeeps => hkeeps.trans hH₁

/-- Code that is always left at its end does no more than go on there. -/
theorem Carries.executes {ev : Eval Unit} (h : w.Carries p p' ev) :
    w.Executes p p' q (do ev; return .onward) := h.before executes_onward

/-- A loop of the code, entered at its test. -/
theorem executes_loops {entry test jump : Nat} {ev : Eval Bool} {body : Eval Completion}
    (h : w.code.Loops entry test jump) (hfirst : w.first ≤ entry) (hle : entry ≤ jump)
    (hlast : jump + 1 ≤ w.last) (htest : w.Answers test jump ev)
    (hbody : w.Executes (entry + 1) test (jump + 1) body) :
    w.Executes entry (jump + 1) q (Eval.loop ev body w.fuel) := by
  obtain ⟨top, l, hentry, hl, hjump, htop⟩ := h
  have hin : w.first ≤ jump ∧ jump < w.last := ⟨hfirst.trans hle, hlast⟩
  refine (executes_loop hin htop hjump htest hbody).after fun m => ?_
  exact ⟨1, passes_jump ⟨hfirst, by omega⟩ hl hentry⟩

/-! ## Declarations -/

section

variable (hw : w.Hosts sc) (hfair : sc.Fair) {L : List Sketch} {type : WordType} {static : Bool}
  {d : Declarator}

include hw hfair

/-- A declared variable of a block is what its surroundings say, and where it is a local one its
code makes its slot ready. -/
theorem carries_local (hl : sc.outline.locals[n]? = some (d.slot type)) (hg : sc.Holds g m n)
    (hb : sc.Body g L []) (hf : (w.inside s).Fits g) (h : Gen.Makes (d.compile type false) g ⟨⟩ g')
    (haddr : g'.Addressable) (hcode : w.code.Continues g'.body)
    (hlast : g'.body.position ≤ w.last) :
    w.surroundings g' = (w.surroundings g).declare type false d ∧
      w.Carries g.body.position g'.body.position (((w.surroundings g).declare type false d).prepare
        ((w.surroundings g).symbol type false d) d.init) := by
  have hr := Scene.reaches_local hfair hl hg hb h haddr
  obtain ⟨v, storage, t, g₁, hv, hallocate, hprepare⟩ := Declarator.makes_symbol h
  obtain ⟨f, hcurrent, -, -, -, hn⟩ := hg.current
  obtain ⟨rfl, hh, rfl, rfl⟩ := Declarator.makes_allocate_local hg.inner hcurrent hallocate
  obtain ⟨hslot, hdeclared, -⟩ :=
    Declarator.symbol_declared (d := d) (show v.type = type by rw [hv]) (by rw [hv])
  have hsymbol : (w.surroundings g).symbol type false d = v := by
    rw [surroundings_eq hg, hv, hh, ← hn]
    exact congrArg (Symbol.mk type .local _ _ <| Handle.local ·) UInt32.ofNat_toNat
  have hscopes : g'.scopes = g.scopes.withCurrent (g.scopes.current.insert d.name.value v) := by
    obtain ⟨d', rfl, -⟩ := extends_prepareCode _ v d.init _ _ _ hprepare
    rfl
  have hsound : (w.inside g'.scopes).Sound :=
    hw.sound hr.holds.toNames (hr.functions.trans hf.functions)
  rw [hscopes] at hsound
  have hoffers : (w.inside (g.scopes.withCurrent (g.scopes.current.insert d.name.value v))).Offers
      v := by
    unfold Offers
    rw [hh, hslot]
    show w.locals[f.locals.toNat]? = _
    rw [hw.locals, hn, hl]
  have hperforms := performs_prepare hoffers hdeclared d.init
    fun e => computes hsound hw.image e
  have hequation : w.surroundings g' = (w.surroundings g).declare type false d := by
    rw [surroundings_eq hr.holds, hscopes, Surroundings.declare, hsymbol, surroundings_eq hg]
    rfl
  refine ⟨hequation, ?_⟩
  rw [hsymbol, ← hequation, surroundings_eq hr.holds, hscopes]
  refine Performs.carries ?_ hprepare hcode hlast hperforms
  exact ⟨rfl, hf.functions, hf.legacy, hf.first⟩

omit hw in
/-- A static variable is what its surroundings say too, but its code is in front of the program. -/
theorem declares_static (hk : sc.kept[m]? = some ⟨d.slot type, d.init⟩) (hg : sc.Holds g m n)
    (hb : sc.Body g L []) (h : Gen.Makes (d.compile type true) g ⟨⟩ g') (haddr : g'.Addressable) :
    w.surroundings g' = (w.surroundings g).declare type true d ∧ g'.body = g.body ∧
      ∃ g₁, Gen.Makes (prepareCode .initializer ((w.surroundings g).symbol type true d) d.init) g₁
          ⟨⟩ g' ∧ g₁.initializer = g.initializer ∧ g₁.scopes = g'.scopes ∧
        g₁.functions = g.functions ∧ g₁.legacy = g.legacy := by
  have hr := Scene.reaches_static hfair hk hg hb h haddr
  obtain ⟨v, storage, t, g₁, hv, hallocate, hprepare⟩ := Declarator.makes_symbol h
  obtain ⟨f, hcurrent, -⟩ := hg.current
  obtain ⟨rfl, i, name, hh, hi, rfl, rfl⟩ :=
    Declarator.makes_allocate_static hg.inner hcurrent hallocate
  have hsymbol : (w.surroundings g).symbol type true d = v := by
    rw [surroundings_eq hg, hv, hh, hi, hg.size]
    rfl
  rw [← hsymbol] at hprepare
  have hextends := extends_prepareCode _ _ d.init _ _ _ hprepare
  refine ⟨?_, ?_, _, hprepare, rfl, ?_, rfl, rfl⟩
  · obtain ⟨d', rfl, -⟩ := hextends
    rw [surroundings_eq hr.holds, Surroundings.declare, surroundings_eq hg]
    rfl
  · obtain ⟨d', rfl, -⟩ := hextends
    rfl
  · obtain ⟨d', rfl, -⟩ := hextends
    rfl

omit hw in
theorem carries_statics {items : List Declarator}
    (hk : StandsAt (items.map fun i => (⟨i.slot type, i.init⟩ : Kept)) sc.kept m)
    (hg : sc.Holds g m n) (hb : sc.Body g L [])
    (h : Gen.Makes (items.forM (Declarator.compile type true)) g ⟨⟩ g') (haddr : g'.Addressable) :
    w.surroundings g' = (w.surroundings g).declareAll type true items ∧
      w.Carries g.body.position g'.body.position ((w.surroundings g).prepareAll type true
        items) := by
  induction items generalizing g m L with
  | nil =>
    obtain rfl := Gen.makes_forM_nil.mp h
    exact ⟨rfl, carries_pure⟩
  | cons i items ih =>
    obtain ⟨g₁, h₁, h₂⟩ := Gen.makes_forM_cons.mp h
    obtain ⟨hi, hrest⟩ := StandsAt.cons_iff.mp hk
    have haddr₁ := (Gen.steady_forM (Gen.steady_declarator _ _) _ _ _ h₂).addressable haddr
    have hfirst := Scene.reaches_static hfair hi hg hb h₁ haddr₁
    obtain ⟨L₁, -, hb₁⟩ := hfirst.body
    obtain ⟨heq, hbody, -⟩ := declares_static (w := w) hfair hi hg hb h₁ haddr₁
    obtain ⟨hall, hcarries⟩ := ih hrest hfirst.holds hb₁ h₂
    rw [heq] at hall hcarries
    rw [hbody] at hcarries
    exact ⟨hall, hcarries⟩

theorem carries_locals {items : List Declarator}
    (hl : StandsAt (items.map (Declarator.slot type)) sc.outline.locals n)
    (hg : sc.Holds g m n) (hb : sc.Body g L []) (hf : (w.inside s).Fits g)
    (h : Gen.Makes (items.forM (Declarator.compile type false)) g ⟨⟩ g') (haddr : g'.Addressable)
    (hcode : w.code.Continues g'.body) (hlast : g'.body.position ≤ w.last) :
    w.surroundings g' = (w.surroundings g).declareAll type false items ∧
      w.Carries g.body.position g'.body.position
        ((w.surroundings g).prepareAll type false items) := by
  induction items generalizing g n L s with
  | nil =>
    obtain rfl := Gen.makes_forM_nil.mp h
    exact ⟨rfl, carries_pure⟩
  | cons i items ih =>
    obtain ⟨g₁, h₁, h₂⟩ := Gen.makes_forM_cons.mp h
    obtain ⟨hi, hrest⟩ := StandsAt.cons_iff.mp hl
    have haddr₁ := (Gen.steady_forM (Gen.steady_declarator _ _) _ _ _ h₂).addressable haddr
    have hfirst := Scene.reaches_local hfair hi hg hb h₁ haddr₁
    obtain ⟨L₁, -, hb₁⟩ := hfirst.body
    have hgrows := (Scene.reaches_locals hfair hrest hfirst.holds hb₁ h₂ haddr).grows
    obtain ⟨heq, hone⟩ := carries_local hw hfair hi hg hb hf h₁ haddr₁ (hcode.mono hgrows.extended)
      (hgrows.position.trans hlast)
    obtain ⟨hall, hcarries⟩ := ih hrest hfirst.holds hb₁ (hf.follows ⟨hfirst.functions,
      (Gen.steady_declarator _ _ _ _ _ _ h₁).legacy, hfirst.grows.position⟩) h₂
    rw [heq] at hall hcarries
    exact ⟨hall, hone.seq hcarries⟩

/-- The variables of a declaration in a block are made ready, but for static ones. -/
theorem carries_declaration {d : Declaration} (hk : StandsAt d.kept sc.kept m)
    (hl : StandsAt d.locals sc.outline.locals n) (hg : sc.Holds g m n) (hb : sc.Body g L [])
    (hf : (w.inside s).Fits g) (h : Gen.Makes (Construct.locals d).compile g ⟨⟩ g')
    (haddr : g'.Addressable) (hcode : w.code.Continues g'.body)
    (hlast : g'.body.position ≤ w.last) :
    w.surroundings g' = (w.surroundings g).declareAll d.type.value d.static.isSome d.items ∧
      w.Carries g.body.position g'.body.position
        ((w.surroundings g).prepareAll d.type.value d.static.isSome d.items) := by
  unfold Declaration.kept Declaration.fields at hk
  unfold Declaration.locals at hl
  replace h : Gen.Makes (d.items.forM (Declarator.compile d.type.value d.static.isSome)) g
    ⟨⟩ g' := h
  cases hs : d.static.isSome with
  | true =>
    rw [hs] at hk h
    exact carries_statics hfair hk hg hb h haddr
  | false =>
    rw [hs] at hl h
    exact carries_locals hw hfair hl hg hb hf h haddr hcode hlast

/-- The declarations at the beginning of a block make their variables ready. -/
theorem carries_declarations {ds : List Declaration}
    (hk : StandsAt (ds.flatMap Declaration.kept) sc.kept m)
    (hl : StandsAt (ds.flatMap Declaration.locals) sc.outline.locals n) (hg : sc.Holds g m n)
    (hb : sc.Body g L []) (hf : (w.inside s).Fits g)
    (h : Gen.Makes ((ds.map .locals).forM Construct.compile) g ⟨⟩ g') (haddr : g'.Addressable)
    (hcode : w.code.Continues g'.body) (hlast : g'.body.position ≤ w.last) :
    w.surroundings g' = (w.surroundings g).behind ds ∧
      w.Carries g.body.position g'.body.position ((w.surroundings g).enter ds) := by
  induction ds generalizing g m n L s with
  | nil =>
    obtain rfl := Gen.makes_forM_nil.mp h
    exact ⟨rfl, carries_pure⟩
  | cons d ds ih =>
    rw [List.flatMap_cons] at hk hl
    obtain ⟨hk₁, hk₂⟩ := StandsAt.append_iff.mp hk
    obtain ⟨hl₁, hl₂⟩ := StandsAt.append_iff.mp hl
    obtain ⟨g₁, h₁, h₂⟩ := Gen.makes_forM_cons.mp h
    have haddr₁ := (Gen.makes_constructs_later h₂).addressable haddr
    have hfirst := Scene.reaches_declaration hfair hk₁ hl₁ hg hb h₁ haddr₁
    obtain ⟨L₁, -, hb₁⟩ := hfirst.body
    obtain ⟨_, -, -, -, hmoves⟩ := Scene.moves_declarations hfair (.refl hfirst.holds hb₁) hk₂ hl₂
      List.prefix_rfl h₂ haddr
    have hgrows : g₁.body.Grows g'.body := hmoves.grows
    obtain ⟨heq, hone⟩ := carries_declaration hw hfair hk₁ hl₁ hg hb hf h₁ haddr₁
      (hcode.mono hgrows.extended) (hgrows.position.trans hlast)
    obtain ⟨hall, hcarries⟩ := ih hk₂ hl₂ hfirst.holds hb₁ (hf.follows ⟨hfirst.functions,
      (Gen.steady_construct (.locals d) _ _ _ h₁).legacy, hfirst.grows.position⟩) h₂
    rw [heq] at hall hcarries
    exact ⟨hall, hone.seq hcarries⟩

end

/-! ## Statements -/

/-- The code of constructs does what `ex` says, wherever they stand in the function. -/
def Simulates (w : Site) (sc : Scene) (cs : List Construct) (ks : List Kept) (ls : List Slot)
    (ex : Surroundings → Eval Completion) : Prop :=
  ∀ g g' m n q, sc.Stands w.code cs ks ls g g' m n q → (w.inside g.scopes).Fits g →
    g'.body.position ≤ w.last →
    w.Executes g.body.position g'.body.position q (ex (w.surroundings g))

section

variable {cs cs' : List Construct} {ks ks' : List Kept} {ls ls' : List Slot}
  {ex ex' : Surroundings → Eval Completion}

theorem simulates_nil : w.Simulates sc [] [] [] fun _ => pure .onward := by
  intro g g' m n q hst _ _
  obtain rfl := Gen.makes_forM_nil.mp hst.makes
  exact executes_onward

theorem Simulates.append (h : w.Simulates sc cs ks ls ex) (h' : w.Simulates sc cs' ks' ls' ex')
    (hc : sc.Typed cs ks ls) (hc' : sc.Typed cs' ks' ls') :
    w.Simulates sc (cs ++ cs') (ks ++ ks') (ls ++ ls') fun r => (ex r).andThen
      (ex' { r with fields := r.fields + ks.length, locals := r.locals + ls.length }) := by
  intro g g' m n q hst hf hlast
  obtain ⟨g₁, h₁, h₂, hs⟩ := hst.append hc hc'
  have hfirst := h g g₁ m n q h₁ hf ((h₂.follows hc').position.trans hlast)
  have hsecond := h' g₁ g' _ _ q h₂ (hf.follows (h₁.follows hc)) hlast
  rw [surroundings_eq h₂.holds, hs, ← Nat.add_assoc] at hsecond
  rw [surroundings_eq hst.holds] at hfirst ⊢
  exact hfirst.seq hsecond

variable (hw : w.Hosts sc) (hfair : sc.Fair)

include hw

/-- An expression for its effect. -/
theorem simulates_effect (e : Expr) : w.Simulates sc [.expr e] [] [] fun r => do
    e.perform r.toSituation
    return .onward := by
  intro g g' m n q hst hf hlast
  have hsound := hw.sound hst.holds.toNames hf.functions
  have hperforms := performs (w := w.inside g.scopes) hsound hw.image e
  exact (hperforms.carries hf (Gen.makes_forM_one.mp hst.makes) hst.begins hlast).executes

/-- A return. -/
theorem simulates_ret (word : Span) (value : Option Expr) :
    w.Simulates sc [.ret word value] [] [] fun r => (Stmt.ret word value).execute r := by
  intro g g' m n q hst hf hlast
  have hsound := hw.sound hst.holds.toNames hf.functions
  obtain ⟨f, hcurrent, -⟩ := hst.holds.current
  obtain ⟨e, type, g₁, rfl, -, hvalue, rfl⟩ | ⟨rfl, -, rfl⟩ :=
    Gen.makes_ret hcurrent (Gen.makes_forM_one.mp hst.makes)
  · have hend : g₁.body.position + 1 ≤ w.last := Draft.position_emit g₁.body .ret ▸ hlast
    have hx := (Expr.operand_extends .function e).compileAs (.scalar type)
    have hfirst := hf.first.trans (hx.follows hvalue).position
    intro H mem hmem
    have hword := (computes (w := w.inside g.scopes) hsound hw.image e).compileAs type g _
      g₁ H mem []
      hf hvalue ⟨hst.begins.of_emit, Nat.le_of_succ_le hend⟩ (consistent_inside.mpr hmem)
    have hboth : w.Does (w.stand g.body.position [] mem)
        (((e.evaluate (w.inside g.scopes).situation >>= Eval.word) >>= fun y =>
          (pure (.returned (some (.word y))) : Eval Completion)).run.run mem)
        (w.leaves (g₁.onBody fun d => d.emit .ret).body.position q)
        fun _ m' => w.Keeps H m' fun _ => True := by
      refine Does.bind (w := w) hword fun y m₁ hkeeps => ?_
      obtain ⟨H₁, hst₁, hH₁, -⟩ := keeps_inside.mp hkeeps
      exact Does.pure ⟨1, passes_one ⟨hfirst, hend⟩ hst.begins.getElem? Exec.outcome_ret⟩
        ⟨H₁, hst₁, hH₁, trivial⟩
    simp only [bind_assoc] at hboth
    exact hboth
  · have hend : g.body.position + 1 ≤ w.last := Draft.position_emit g.body .ret ▸ hlast
    intro H mem hmem
    exact Does.pure ⟨1, passes_one ⟨hf.first, hend⟩ hst.begins.getElem? Exec.outcome_ret⟩
      (.of_consistent hmem trivial)

omit hw in
/-- An exit from a loop. -/
theorem simulates_leave (word : Span) : w.Simulates sc [.leave word] [] [] fun _ => pure .left := by
  intro g g' m n q hst hf hlast
  obtain ⟨k, hk, rfl⟩ := Gen.makes_leave (Gen.makes_forM_one.mp hst.makes)
  have hend : g.body.position + 1 ≤ w.last := Draft.position_emit g.body (.jump k) ▸ hlast
  intro H mem hmem
  exact Does.pure ⟨1, passes_jump ⟨hf.first, hend⟩ (hst.exit k hk) hst.begins.getElem?⟩
    (.of_consistent hmem trivial)

/-- The condition of a choice. Where it does not hold control goes to `p`. -/
theorem executes_ifTrue {c : Expr} {k : UInt32} {ps : List Pending} {ev ev' : Eval Completion}
    (hg : sc.Names g m) (hf : (w.inside g.scopes).Fits g) (hm : Gen.Makes (Gen.ifTrue c) g u g₁)
    (hp : g₁.pending = .choice k :: ps) (hcode : w.code.Continues g₁.body)
    (hlast : g₁.body.position ≤ w.last) (hk : w.code.target? k = some p)
    (hyes : w.Executes g₁.body.position p' q ev) (hno : w.Executes p p' q ev') :
    w.Executes g.body.position p' q (do
      if ← (w.inside g.scopes).situation.holds c then ev else ev') := by
  have hsound := hw.sound hg hf.functions
  obtain ⟨gₜ, l, htest, -, rfl⟩ := Gen.makes_ifTrue hm
  obtain rfl : l = k := by simpa using (List.cons.inj hp).1
  have hjump : w.code.Continues (gₜ.body.addLabel.emit (.jumpIfFalse l)) := hcode
  have hfollows := ((Expr.operand_extends .function c).compileAs _).follows htest
  have hposition : (gₜ.body.addLabel.emit (.jumpIfFalse l)).position = gₜ.body.position + 1 :=
    Draft.position_emit ..
  have hend : (gₜ.body.addLabel.emit (.jumpIfFalse l)).position ≤ w.last := hlast
  have hin : w.first ≤ gₜ.body.position ∧ gₜ.body.position < w.last :=
    ⟨hf.first.trans hfollows.position, by omega⟩
  have hanswers := (decides_holds hsound hw.image c).answers hf htest hjump.of_emit.of_addLabel
    hin.2.le
  have hyes' : w.Executes (gₜ.body.position + 1) p' q ev := hposition ▸ hyes
  refine hanswers.branch (fun mem => ?_) (fun mem => ?_) hyes' hno
  · exact ⟨1, passes_jumpIfFalse hin hk hjump.getElem? true⟩
  · exact ⟨1, passes_jumpIfFalse hin hk hjump.getElem? false⟩

include hfair

/-- A choice with one branch. -/
theorem simulates_choice (c : Expr) (h : w.Simulates sc cs ks ls ex) (hc : sc.Typed cs ks ls) :
    w.Simulates sc (.ifTrue c :: cs ++ [.endIf]) ks ls fun r => do
      if ← r.holds c then ex r else return .onward := by
  intro g g' m n q hst hf hlast
  obtain ⟨x⟩ := hst.choice hfair hc
  rw [x.ending] at hlast ⊢
  have hyes := h x.first x.last m n q x.branch (hf.follows (Gen.follows_ifTrue x.opens)) hlast
  rw [surroundings_congr hst.holds x.branch.holds x.scopes] at hyes
  exact executes_ifTrue hw hst.holds.toNames hf x.opens x.pending (x.branch.start hc)
    ((x.branch.follows hc).position.trans hlast) x.done_target hyes executes_onward

/-- A choice with two branches. -/
theorem simulates_choiceOr (c : Expr) (h : w.Simulates sc cs ks ls ex)
    (h' : w.Simulates sc cs' ks' ls' ex') (hc : sc.Typed cs ks ls) (hc' : sc.Typed cs' ks' ls') :
    w.Simulates sc (.ifTrue c :: cs ++ .ifFalse :: cs' ++ [.endIf]) (ks ++ ks') (ls ++ ls')
      (fun r => do
        if ← r.holds c then ex r
        else ex' { r with fields := r.fields + ks.length, locals := r.locals + ls.length }) := by
  intro g g' m n q hst hf hlast
  obtain ⟨x⟩ := hst.choiceOr hfair hc hc'
  rw [x.ending] at hlast ⊢
  have hle : x.last.body.position + 1 ≤ w.last :=
    x.position' ▸ (x.branch'.follows hc').position.trans hlast
  have hf₁ := hf.follows (Gen.follows_ifTrue x.opens)
  have hf₂ := hf₁.follows (x.branch.follows hc)
  have hyes := h x.first x.last m n q x.branch hf₁ (Nat.le_of_succ_le hle)
  have hno := h' x.first' x.last' _ _ q x.branch' (hf₂.follows x.follows) hlast
  rw [surroundings_eq x.branch.holds, x.scopes] at hyes
  rw [surroundings_eq x.branch'.holds, x.scopes', ← Nat.add_assoc] at hno
  rw [surroundings_eq hst.holds]
  refine executes_ifTrue hw hst.holds.toNames hf x.opens x.pending (x.branch.start hc)
    ((x.branch.follows hc).position.trans (Nat.le_of_succ_le hle)) x.otherwise_target
    (hyes.onto fun mem => ?_) hno
  exact ⟨1, passes_jump ⟨hf₂.first, hle⟩ x.done_target x.jump⟩

omit hfair in
/-- A loop while a condition holds. -/
theorem simulates_loop (c : Expr) (h : w.Simulates sc cs ks ls ex) (hc : sc.Typed cs ks ls) :
    w.Simulates sc (.openLoop :: cs ++ [.closeLoop c]) ks ls fun r =>
      Eval.loop (r.holds c) (ex r) r.fuel := by
  intro g g' m n q hst hf hlast
  have hsound := hw.sound hst.holds.toNames hf.functions
  obtain ⟨x⟩ := hst.loop hc
  have hf₁ := hf.follows x.enters
  have hf₃ := (hf₁.follows (x.body.follows hc)).follows x.follows
  rw [x.test_scopes] at hf₃
  have htested := (((Expr.operand_extends .function c).compileAs _).follows x.tests).position
  rw [x.test_position] at htested
  have hle : x.tested.body.position + 1 ≤ w.last := x.ending ▸ hlast
  have hround := h x.first x.last m n _ x.body hf₁ (htested.trans (Nat.le_of_succ_le hle))
  rw [surroundings_congr hst.holds x.body.holds x.scopes, x.position, x.ending] at hround
  have hanswers := (decides_holds hsound hw.image c).answers hf₃ x.tests x.tested_code
    (Nat.le_of_succ_le hle)
  rw [x.test_position] at hanswers
  rw [x.ending]
  refine executes_loops x.loops hf.first ?_ hle hanswers hround
  have hposition := x.position
  have hbehind := (x.body.follows hc).position
  omega

omit hw hfair in
theorem counter_count {counter : Name} {range : Range} (hg : sc.Holds g m n)
    (x : sc.Count w.code counter range cs ks ls g g' m n) :
    (w.surroundings g).counter = .local x.slot := by
  have hslot : UInt32.ofNat n = x.slot :=
    (congrArg UInt32.ofNat x.slot_eq).symm.trans UInt32.ofNat_toNat
  rw [surroundings_eq hg]
  exact congrArg Handle.local hslot

omit hw hfair in
/-- In a counting loop the counter is visible. -/
theorem surroundings_count {counter : Name} {range : Range} (hg : sc.Holds g m n)
    (x : sc.Count w.code counter range cs ks ls g g' m n) :
    (w.surroundings g).counting counter = w.surroundings x.start := by
  rw [surroundings_eq x.holds, x.start_scopes, x.v_eq, Surroundings.counting, counter_count hg x,
    surroundings_eq hg]
  rfl

/-- A counting loop. -/
theorem simulates_count (counter : Name) (range : Range) (h : w.Simulates sc cs ks ls ex)
    (hc : sc.Typed cs ks ls) :
    w.Simulates sc (.openCount counter range :: cs ++ [.closeCount range]) ks (.scalar .int :: ls)
      (fun r => do
        Eval.store (.slot r.counter)
          (← Eval.word (← range.start.evaluate (r.counting counter).toSituation))
        Eval.loop ((r.counting counter).within r.counter range)
          ((ex (r.counting counter)).andThen do
            (r.counting counter).advance r.counter range
            return .onward) r.fuel) := by
  intro g g' m n q hst hf hlast
  obtain ⟨x⟩ := hst.count hfair hc
  have hh : x.v.handle = .local x.slot := by rw [x.v_eq]
  have ha : x.v.isArray = false := by rw [x.v_eq]; rfl
  have ht : x.v.type = .int := by rw [x.v_eq]
  have hf₀ := hf.follows x.begins
  have hsound := hw.sound x.holds.toNames hf₀.functions
  have hoffers : (w.inside x.start.scopes).Offers x.v := by
    unfold Offers
    rw [hh, Symbol.slot_of_scalar ha, ht]
    show w.locals[x.slot.toNat]? = _
    rw [hw.locals, x.slot_eq]
    exact (StandsAt.cons_iff.mp hst.locals).1
  dsimp only
  rw [surroundings_count hst.holds x, counter_count hst.holds x]
  -- the pieces of the loop, all with the counter visible
  have hf₁ := hf₀.follows x.first_follows
  have hf₂ := hf₀.follows (x.last_follows hc)
  have hf₄ := hf₀.follows (x.test_follows hc)
  rw [x.last_scopes hc] at hf₂
  rw [x.test_scopes] at hf₄
  have hle : x.tested.body.position + 1 ≤ w.last := x.ending ▸ hlast
  have hₛ₁ := x.position
  have h₁₂ := (x.body.follows hc).position
  have h₂₃ := x.advanced_follows.position
  have h₃₄ := x.test_position
  have h₄₅ := x.tested_follows.position
  have hprepare := performs_prepare hoffers (.inl ⟨by rw [x.v_eq], ha⟩) (some range.start)
    fun e => computes hsound hw.image e
  have hstarts := hprepare.carries hf₀ x.starts x.started_code (by omega)
  have hround := h x.first x.last m (n + 1) _ x.body hf₁ (by omega)
  have hadvances := (performs_advance hsound hw.image hoffers hh ha ht).carries hf₂ x.advances
    x.advanced_code (by omega)
  have hanswers := (decides_within hsound hw.image hoffers hh ha x.bounded).answers hf₄ x.tests
    x.tested_code (by omega)
  rw [x.start_position] at hstarts
  rw [surroundings_congr x.holds x.body.holds x.scopes, x.position, x.ending] at hround
  rw [x.test_position] at hanswers
  have hloops := executes_loops (q := q) x.loops (hf₀.first.trans x.started_follows.position)
    (by omega) hle hanswers (hround.seq hadvances.executes)
  have hall := hstarts.before hloops
  unfold Situation.prepare at hall
  rw [show x.v.shape = .scalar by rw [x.v_eq], hh] at hall
  simp only [bind_assoc] at hall
  rw [x.ending]
  exact hall

/-- A block: its declarations, and then its statements. -/
theorem simulates_block (ds : List Declaration) (h : w.Simulates sc cs ks ls ex)
    (hc : sc.Typed cs ks ls) :
    w.Simulates sc (.openBlock :: ds.map .locals ++ cs ++ [.closeBlock])
      (ds.flatMap Declaration.kept ++ ks) (ds.flatMap Declaration.locals ++ ls) (fun r => do
        r.inner.enter ds
        ex (r.inner.behind ds)) := by
  intro g g' m n q hst hf hlast
  obtain ⟨x⟩ := hst.block hfair
  obtain ⟨L, hb⟩ := x.charted
  rw [x.ending] at hlast ⊢
  have hf₀ : (w.inside g.scopes.push).Fits (g.withScopes g.scopes.push) :=
    ⟨rfl, hf.functions, hf.legacy, hf.first⟩
  have hle := (x.body.follows hc).position.trans hlast
  have haddr := (Gen.makes_constructs_later x.body.makes).addressable x.body.addressable
  obtain ⟨heq, hcarries⟩ := carries_declarations hw hfair x.kept x.locals x.holds hb hf₀ x.declares
    haddr (x.body.start hc) hle
  have hinner := h x.first x.last _ _ q x.body (hf₀.follows x.follows) hlast
  rw [heq] at hinner
  exact hcarries.before hinner

omit hw in
theorem simulates_statements {body : List Stmt}
    (h : ∀ s ∈ body, w.Simulates sc s.constructs s.kept s.locals fun r => s.execute r) :
    w.Simulates sc (Stmt.constructsOf body) (Stmt.keptOf body) (Stmt.localsOf body)
      fun r => Stmt.executeAll r body := by
  induction body with
  | nil => exact simulates_nil
  | cons s ss ih =>
    exact (h s (.head _)).append (ih fun t ht => h t (.tail _ ht)) (Scene.typed_statement hfair s)
      (Scene.typed_statements hfair ss)

/-- **Code for statements does what they say.** In any function, wherever a statement stands. -/
theorem simulates_statement (s : Stmt) :
    w.Simulates sc s.constructs s.kept s.locals fun r => s.execute r := by
  induction s using Stmt.induct with
  | block ds body ih =>
    exact simulates_block hw hfair ds (simulates_statements hfair ih)
      (Scene.typed_statements hfair body)
  | expr e => exact simulates_effect hw e
  | empty semicolon => exact simulates_nil
  | choice c body ih => exact simulates_choice hw hfair c ih (Scene.typed_statement hfair body)
  | choiceOr c body otherwise ih ih' =>
    exact simulates_choiceOr hw hfair c ih ih' (Scene.typed_statement hfair body)
      (Scene.typed_statement hfair otherwise)
  | loop c body ih => exact simulates_loop hw c ih (Scene.typed_statement hfair body)
  | count counter range body ih =>
    have h := simulates_count hw hfair counter range ih (Scene.typed_statement hfair body)
    simpa only [Stmt.constructs, Stmt.kept, Stmt.locals, Stmt.execute] using h
  | ret word value => exact simulates_ret hw word value
  | leave word => exact simulates_leave word

end

end Site

end OnePass
