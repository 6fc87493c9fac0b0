import OnePass.Proofs.FunctionRuns
import OnePass.Proofs.InvocationCode
import OnePass.Proofs.NameResolution

/-!
# Calls in the code of statements

Main statement: wherever a statement stands in a function, the calls in its code are those that the
text has there (`Streams.recounts_statement`).

A statement adds to two streams, as its static variables get their first values before the program.
`Streams` are both of them, and `Streams.Recounts` says of both which calls are added between two
states of generation. In the stream of the function the pieces of statements are found by the
theorems about `Scene.Stands`; the other stream grows at declarations only
(`Gen.framed_initializer`). -/

namespace OnePass

/-! ## Calls between positions -/

namespace Site

variable {w : Site} {p q r : Nat} {xs ys : List Invocation}

/-- The calls in the stream from one position up to another are those that are listed. -/
structure Lists (w : Site) (p q : Nat) (xs : List Invocation) : Prop where
  le : p ≤ q
  links : List.Forall₂ w.Links (w.code.callsIn p q) xs

/-- There is no call in no code. -/
theorem Lists.refl (w : Site) (p : Nat) : w.Lists p p [] :=
  ⟨Nat.le_refl p, by rw [Code.callsIn_self]; exact .nil⟩

/-- Calls of one piece come in front of those of the next. -/
theorem Lists.trans (h : w.Lists p q xs) (h' : w.Lists q r ys) : w.Lists p r (xs ++ ys) :=
  ⟨h.le.trans h'.le, by
    rw [Code.callsIn_append h.le h'.le]
    exact List.rel_append h.links h'.links⟩

/-- One instruction that is no call. -/
theorem Lists.of_getElem? {i : Instruction} (h : w.code.instructions[p]? = some i)
    (hi : i.callee? = none) : w.Lists p (p + 1) [] :=
  ⟨Nat.le_succ p, by
    rw [Code.callsIn_succ h, hi]
    exact .nil⟩

/-- An instruction that is no call lists nothing. -/
theorem Lists.emit {d : Draft} {i : Instruction} (h : w.code.Continues (d.emit i))
    (hi : i.callee? = none) : w.Lists d.position (d.emit i).position [] := by
  rw [Draft.position_emit]
  exact .of_getElem? h.getElem? hi

/-- Where names mean something in a function they do before the program, too. There only fields may
be used, so that what is said of variables is of fields. -/
theorem Sound.before {u : Site} (h : w.Sound) (ht : w.target = .function)
    (hu : u.target = .initializer) (hp : u.program = w.program) (hs : u.scopes = w.scopes)
    (hf : u.functions = w.functions) : u.Sound := by
  refine ⟨fun name v hv hfield => ?_, fun name f n hn => hp ▸ h.functions name f n (hf ▸ hn)⟩
  obtain ⟨i, hi⟩ := hfield hu
  have hoffers := h.slots name v (hs ▸ hv) (by rw [ht]; nofun)
  unfold Offers at hoffers ⊢
  rw [hi] at hoffers ⊢
  exact hp ▸ hoffers

end Site

namespace Target

variable {home t : Target}

/-- In its own stream a share is the whole. -/
@[simp]
theorem share_self (t : Target) (xs : List Invocation) : t.share t xs = xs := if_pos rfl

/-- A share of nothing is nothing. -/
@[simp]
theorem share_nil : home.share t [] = [] := by
  unfold share
  split <;> rfl

end Target

/-- Declarations behind others call functions at the point behind those. -/
theorem Point.invocations_append {legacy : Bool} {t : Target} {pt : Point}
    (ds : List (Bool × Declarator)) {es : List (Bool × Declarator)} :
    pt.invocations legacy t (ds ++ es) =
      pt.invocations legacy t ds ++ (pt.declareAll ds).invocations legacy t es := by
  induction ds generalizing pt with
  | nil => rfl
  | cons d ds ih =>
    obtain ⟨kept, d⟩ := d
    rw [List.cons_append, Point.invocations, Point.invocations, ih, List.append_assoc]
    rfl

/-! ## What leaves the stream in front of the program alone -/

namespace Gen

/-- Code for the body and open statements do not touch the initializer. -/
theorem framed_initializer : Framed fun g g' => g'.initializer = g.initializer :=
  ⟨fun _ => rfl, fun h h' => h'.trans h, fun _ _ _ => rfl, fun _ _ => rfl⟩

section

variable {g g' : Generator} {u : Unit}

/-- Code that is added to the function is added to the function only. -/
theorem Extends.initializer {α : Type} {m : Gen α} {a : α} (h : Extends .function m)
    (hm : Makes m g a g') : g'.initializer = g.initializer :=
  h.respects framed_initializer g a g' hm

/-- Plain pieces of statements add to the function only. -/
theorem initializer_of_plain {c : Construct} (hc : c.Plain) (h : Makes c.compile g u g') :
    g'.initializer = g.initializer :=
  framed_initializer.plain hc g u g' h

/-- The end of a counted loop is code for the body. -/
theorem initializer_of_closeCount {range : Range} (h : Makes (closeCount range) g u g') :
    g'.initializer = g.initializer :=
  framed_initializer.closeCount (fun _ _ => rfl) range g u g' h

theorem initializer_of_addLocal {slot : UInt32} (h : Makes addLocal g slot g') :
    g'.initializer = g.initializer := by
  obtain ⟨current, -, rfl⟩ := current_of_addLocal h
  rfl

/-- The beginning of a counted loop is code for the body. -/
theorem initializer_of_openCount {counter : Name} {range : Range}
    (h : Makes (openCount counter range) g u g') : g'.initializer = g.initializer := by
  obtain ⟨-, g₁, g₂, g₃, slot, v, l, hslot, -, rfl, hstart, -, rfl⟩ := makes_openCount h
  have hlocal := initializer_of_addLocal hslot
  have hvalue := ((Expr.operand_extends .function range.start).compileAs _).initializer hstart
  exact hvalue.trans hlocal

theorem initializer_of_closeScope (h : Makes closeScope g u g') :
    g'.initializer = g.initializer := by
  rw [makes_closeScope.mp h]
  rfl

end

end Gen

/-! ## The two streams -/

/-- The stream of a routine of a program. Its local slots are there for `locals`. -/
def Compilation.bodySite (c : Compilation) (legacy : Bool) (r : Routine) (locals : List Slot) :
    Site :=
  ⟨c, .function, .new, .new, legacy, r.name, r.code, r.params, locals, [], 0,
    r.code.instructions.size, 0⟩

/-- The stream in front of a program. -/
def Compilation.startSite (c : Compilation) (legacy : Bool) : Site :=
  ⟨c, .initializer, .new, .new, legacy, "<initializer>", c.image.initializer, [], [], [], 0,
    c.image.initializer.instructions.size, 0⟩

/-- The streams that a function adds to: its own, and the one in front of the program. -/
structure Streams where
  /-- the program -/
  program : Compilation
  /-- whether the right side of a compound subtraction or division is evaluated twice -/
  legacy : Bool
  /-- the routine that the function is finished as -/
  routine : Routine
  /-- what the local slots of the function are there for -/
  locals : List Slot

namespace Streams

/-- One of the streams. -/
def site (w : Streams) : Target → Site
  | .function => w.program.bodySite w.legacy w.routine w.locals
  | .initializer => w.program.startSite w.legacy

/-- A state of generation in which the names are known that are known at a point of the text. -/
structure Shows (w : Streams) (vis : Visible) (g : Generator) : Prop where
  fits : vis.Fits w.legacy g
  functions : g.functions.Numbers w.program.tree

/-- Between two states of generation the calls are added that are listed for each stream. -/
def Recounts (w : Streams) (g g' : Generator) (xs : Target → List Invocation) : Prop :=
  ∀ t, (w.site t).Lists (g.draft t).position (g'.draft t).position (xs t)

variable {w : Streams} {vis : Visible} {sc : Scene} {g g₁ g₂ g' : Generator} {m n q : Nat}
  {t : Target} {xs ys : List Invocation}

/-- What a state shows depends on its scopes and its functions. -/
theorem Shows.congr (h : w.Shows vis g) (hs : g'.scopes = g.scopes) (hf : g.Follows g') :
    w.Shows vis g' :=
  ⟨h.fits.congr (fun _ => by rw [hs]) hf.legacy hf.functions, hf.functions ▸ h.functions⟩

/-- Where the names of a state are known they mean what they mean in the text. -/
theorem Shows.means (h : w.Shows vis g) (t : Target) : ((w.site t).knowing g).Means vis := by
  cases t <;> exact ⟨h.fits.names, h.functions⟩

/-- What a state shows fits the site of either stream. -/
theorem Shows.site_fits (h : w.Shows vis g) (t : Target) : ((w.site t).knowing g).Fits g := by
  cases t <;> exact ⟨rfl, rfl, h.fits.legacy, Nat.zero_le _⟩

/-- Inside a function all visible names mean something in both streams. -/
theorem sound (hw : (w.site .function).Hosts sc) (h : sc.Names g m) (t : Target) :
    ((w.site t).knowing g).Sound := by
  have hosts : ((w.site .function).knowing g).Hosts sc :=
    ⟨hw.image, hw.plan, hw.args, hw.locals⟩
  have hfunction := hosts.sound h rfl
  cases t with
  | function => exact hfunction
  | initializer => exact hfunction.before rfl rfl rfl rfl rfl

/-- The calls in a piece of code are in the stream. -/
theorem lists_code {α : Type} {code : Gen α} {a : α}
    (hi : ((w.site t).knowing g).Invokes code xs) (hf : ((w.site t).knowing g).Fits g₁)
    (hm : Gen.Makes code g₁ a g') (hcode : (w.site t).code.Continues (g'.draft t)) :
    (w.site t).Lists (g₁.draft t).position (g'.draft t).position xs := by
  have hlast : (g'.draft t).position ≤ (w.site t).last := by
    cases t <;> exact hcode.position_le
  cases t with
  | function => exact ⟨hi.adds.position_le hm, hi.links g₁ a g' hf hm ⟨hcode, hlast⟩⟩
  | initializer => exact ⟨hi.adds.position_le hm, hi.links g₁ a g' hf hm ⟨hcode, hlast⟩⟩

namespace Recounts

variable {xs ys : Target → List Invocation}

/-- Without constructs nothing is called. -/
theorem refl (w : Streams) (g : Generator) : w.Recounts g g fun _ => [] := fun _ => .refl _ _

/-- Constructs behind others make their calls behind them. -/
theorem trans (h : w.Recounts g g₁ xs) (h' : w.Recounts g₁ g' ys) :
    w.Recounts g g' fun t => xs t ++ ys t := fun t => (h t).trans (h' t)

/-- What is called may be written in another way. -/
theorem congr (h : w.Recounts g g' xs) (hxs : ∀ t, xs t = ys t) : w.Recounts g g' ys := by
  obtain rfl : xs = ys := funext hxs
  exact h

/-- What adds to the stream of the function only. -/
theorem of_function {xs : List Invocation}
    (h : (w.site .function).Lists g.body.position g'.body.position xs)
    (hi : g'.initializer = g.initializer) :
    w.Recounts g g' fun t => Target.function.share t xs := by
  intro t
  cases t with
  | function => exact h
  | initializer =>
    show (w.site .initializer).Lists g.initializer.position g'.initializer.position []
    rw [hi]
    exact .refl _ _

/-- What adds no calls. -/
theorem of_quiet (h : (w.site .function).Lists g.body.position g'.body.position [])
    (hi : g'.initializer = g.initializer) : w.Recounts g g' fun _ => [] :=
  (of_function h hi).congr fun _ => Target.share_nil

end Recounts

/-! ## Declarations -/

/-- A state of generation inside a function, at a point of the text. -/
theorem Shows.inside (hs : w.Shows vis g) (h : sc.Holds g m n) :
    (Point.mk vis (sc.base + m) n).Inside w.legacy g := by
  obtain ⟨f, hf, -, -, -, hn⟩ := h.current
  exact ⟨⟨hs.fits, h.size⟩, h.inner, f, hf, by rw [← hn, UInt32.ofNat_toNat]⟩

/-- Behind its name a variable gets its first value, in the stream where it belongs. -/
theorem recounts_prepare (kept : Bool) {d : Declarator} {v : Symbol}
    (hsound : ((w.site (home kept)).knowing g').Sound)
    (hp : w.program.image.Typed w.program.tree.plan) (hs : w.Shows vis g')
    (hshape : v.shape = d.declaredShape)
    (hm : Gen.Makes (prepareCode (home kept) v d.init) g₁ ⟨⟩ g')
    (hdrafts : ∀ t, g₁.draft t = g.draft t)
    (hcode : (w.site (home kept)).code.Continues (g'.draft (home kept))) :
    w.Recounts g g' fun t => (home kept).share t (d.invocations w.legacy vis) := by
  -- The code of the variable makes the calls of its initialiser.
  have hinvokes : ((w.site (home kept)).knowing g').Invokes (prepareCode (home kept) v d.init)
      (d.invocations w.legacy vis) := by
    cases kept <;> exact Site.invokes_prepareCode hsound
      hp (hs.means _) hshape
  obtain ⟨draft, hg', -⟩ := extends_prepareCode _ v d.init _ _ _ hm
  have hfits : ((w.site (home kept)).knowing g').Fits g₁ := by
    have hsame := hs.site_fits (home kept)
    refine ⟨?_, ?_, ?_, ?_⟩
    · rw [hg']
      exact (Generator.onDraft_scopes ..).symm
    · rw [hg']
      exact (Generator.onDraft_functions ..).symm
    · rw [← hsame.legacy, hg']
      exact (Generator.onDraft_legacy ..).symm
    · cases kept <;> exact Nat.zero_le _
  have hlists := lists_code hinvokes hfits hm hcode
  intro t
  dsimp only
  -- One stream has the calls, and the other is left as it was.
  by_cases ht : home kept = t
  · subst ht
    rw [Target.share_self, ← hdrafts]
    exact hlists
  · have hother : g'.draft t = g.draft t := by
      rw [hg', ← hdrafts]
      cases hk : home kept <;> cases t <;> rw [hk] at ht <;> first | rfl | exact absurd rfl ht
    have hshare : (home kept).share t (d.invocations w.legacy vis) = [] := if_neg ht
    rw [hshare, hother]
    exact .refl _ _

section Declarations

variable (hw : (w.site .function).Hosts sc)

include hw

/-- A variable declared in a block. -/
theorem recounts_declarator {pt : Point} {kept : Bool} {d : Declarator} {type : WordType}
    (hn : sc.Names g' m) (h : pt.Inside w.legacy g) (hf : g.functions.Numbers w.program.tree)
    (hm : Gen.Makes (d.compile type kept) g ⟨⟩ g')
    (hcode : ∀ t, (w.site t).code.Continues (g'.draft t)) :
    w.Recounts g g' fun t => pt.invocations w.legacy t [(kept, d)] := by
  have hfits := (traces_declarator h hm).inside.fits
  obtain ⟨v, storage, t, g₁, hv, hallocate, hprepare⟩ := Declarator.makes_symbol hm
  obtain ⟨f, hcurrent, -⟩ := h.current
  -- fields and local slots are taken differently, but what happens then is the same
  have hstep {g₂ : Generator} (hm : Gen.Makes (prepareCode (home kept) v d.init) g₂ ⟨⟩ g')
      (hdrafts : ∀ t, g₂.draft t = g.draft t) (hfunctions : g₂.functions = g.functions) :
      w.Recounts g g' fun t => pt.invocations w.legacy t [(kept, d)] := by
    have hshows : w.Shows (pt.declare kept d).visible g' := by
      refine ⟨hfits, ?_⟩
      obtain ⟨draft, rfl, -⟩ := extends_prepareCode _ v d.init _ _ _ hm
      rw [Generator.onDraft_functions, hfunctions]
      exact hf
    refine (recounts_prepare kept (sound hw hn _) hw.image hshows (by rw [hv]) hm hdrafts
      (hcode _)).congr fun t => ?_
    exact (List.append_nil _).symm
  cases kept with
  | true =>
    obtain ⟨-, n, name, -, -, rfl, rfl⟩ :=
      Declarator.makes_allocate_static h.inner hcurrent hallocate
    exact hstep hprepare (fun t => by cases t <;> rfl) rfl
  | false =>
    obtain ⟨-, -, rfl, rfl⟩ := Declarator.makes_allocate_local h.inner hcurrent hallocate
    exact hstep hprepare (fun t => by cases t <;> rfl) rfl

variable (hfair : sc.Fair) {L : List Sketch}

include hfair

/-- The variables of a declaration in a block. -/
theorem recounts_declarators (kept : Bool) {pt : Point} {items : List Declarator} {type : WordType}
    (hk : kept = true → StandsAt (items.map fun i => (⟨i.slot type, i.init⟩ : Kept)) sc.kept m)
    (hl : kept = false → StandsAt (items.map (Declarator.slot type)) sc.outline.locals n)
    (hg : sc.Holds g m n) (hb : sc.Body g L []) (h : pt.Inside w.legacy g)
    (hf : g.functions.Numbers w.program.tree)
    (hm : Gen.Makes (items.forM (Declarator.compile type kept)) g ⟨⟩ g') (haddr : g'.Addressable)
    (hcode : ∀ t, (w.site t).code.Continues (g'.draft t)) :
    w.Recounts g g' fun t => pt.invocations w.legacy t (items.map (kept, ·)) := by
  induction items generalizing pt g m n L with
  | nil =>
    obtain rfl := Gen.makes_forM_nil.mp hm
    exact .refl w _
  | cons d items ih =>
    obtain ⟨g₁, h₁, h₂⟩ := Gen.makes_forM_cons.mp hm
    have hsteady := Gen.steady_forM (Gen.steady_declarator _ _) _ _ _ h₂
    have haddr₁ := hsteady.addressable haddr
    -- A static variable takes a field, another one a local slot.
    have hreaches : sc.Reaches g L g₁ (m + kept.toNat) (n + (!kept).toNat) := by
      cases kept with
      | true => exact Scene.reaches_static hfair (StandsAt.cons_iff.mp (hk rfl)).1 hg hb h₁ haddr₁
      | false => exact Scene.reaches_local hfair (StandsAt.cons_iff.mp (hl rfl)).1 hg hb h₁ haddr₁
    have hk₁ (hkept : kept = true) := (StandsAt.cons_iff.mp (hk hkept)).2
    have hl₁ (hkept : kept = false) := (StandsAt.cons_iff.mp (hl hkept)).2
    obtain ⟨L₁, -, hb₁⟩ := hreaches.body
    have hextended (t : Target) : (g₁.draft t).Extended (g'.draft t) := by
      cases t with
      | initializer => exact hsteady.initializer
      | function =>
        cases kept with
        | true =>
          exact (Scene.reaches_statics hfair (hk₁ rfl) hreaches.holds hb₁ h₂ haddr).grows.extended
        | false =>
          exact (Scene.reaches_locals hfair (hl₁ rfl) hreaches.holds hb₁ h₂ haddr).grows.extended
    have hfirst := recounts_declarator hw hreaches.holds.toNames h hf h₁
      fun t => (hcode t).mono (hextended t)
    -- The calls of the others come behind those of the first.
    have hrest := ih (by rintro rfl; exact hk₁ rfl) (by rintro rfl; exact hl₁ rfl)
      hreaches.holds hb₁
      (traces_declarator h h₁).inside (hreaches.functions ▸ hf) h₂
    exact (hfirst.trans hrest).congr fun t => (Point.invocations_append [(kept, d)]).symm

/-- The declarations at the beginning of a block. -/
theorem recounts_declarations {pt : Point} {ds : List Declaration}
    (hk : StandsAt (ds.flatMap Declaration.kept) sc.kept m)
    (hl : StandsAt (ds.flatMap Declaration.locals) sc.outline.locals n)
    (hg : sc.Holds g m n) (hb : sc.Body g L []) (h : pt.Inside w.legacy g)
    (hf : g.functions.Numbers w.program.tree)
    (hm : Gen.Makes ((ds.map .locals).forM Construct.compile) g ⟨⟩ g') (haddr : g'.Addressable)
    (hcode : ∀ t, (w.site t).code.Continues (g'.draft t)) :
    w.Recounts g g' fun t => pt.invocations w.legacy t (ds.flatMap Declaration.blockItems) := by
  induction ds generalizing pt g m n L with
  | nil =>
    obtain rfl := Gen.makes_forM_nil.mp hm
    exact .refl w _
  | cons d ds ih =>
    rw [List.flatMap_cons] at hk hl
    obtain ⟨hk₁, hk₂⟩ := StandsAt.append_iff.mp hk
    obtain ⟨hl₁, hl₂⟩ := StandsAt.append_iff.mp hl
    obtain ⟨g₁, h₁, h₂⟩ := Gen.makes_forM_cons.mp hm
    have hlater := Gen.makes_constructs_later h₂
    have haddr₁ := hlater.addressable haddr
    have hreaches := Scene.reaches_declaration hfair hk₁ hl₁ hg hb h₁ haddr₁
    obtain ⟨L₁, -, hb₁⟩ := hreaches.body
    -- Behind the first declaration the others are followed by the general statement.
    obtain ⟨_, -, -, -, hmoves⟩ := Scene.moves_declarations hfair (.refl hreaches.holds hb₁) hk₂ hl₂
      List.prefix_rfl h₂ haddr
    have hextended (t : Target) : (g₁.draft t).Extended (g'.draft t) := by
      cases t with
      | initializer => exact hlater.initializer
      | function => exact Draft.Grows.extended hmoves.grows
    have hfirst := recounts_declarators hw hfair d.static.isSome
      (fun h => by rw [Declaration.kept, if_pos h] at hk₁; exact hk₁)
      (fun h => by rw [Declaration.locals, h] at hl₁; exact hl₁) hg hb h hf h₁ haddr₁
      fun t => (hcode t).mono (hextended t)
    -- The others see the variables of the first.
    have hinside : (pt.declareAll d.blockItems).Inside w.legacy g₁ := by
      have hone : Gen.Makes (([d].map Construct.locals).forM Construct.compile) g ⟨⟩ g₁ :=
        Gen.makes_forM_one.mpr h₁
      have htraces := traces_declarations h hone
      rw [List.flatMap_singleton] at htraces
      exact htraces.inside
    have hrest := ih hk₂ hl₂ hreaches.holds hb₁ hinside (hreaches.functions ▸ hf) h₂
    refine (hfirst.trans hrest).congr fun t => ?_
    rw [List.flatMap_cons, Point.invocations_append]
    rfl

end Declarations

/-! ## Counters -/

section Counters

variable (hsound : ((w.site .function).knowing g).Sound)
  (hp : w.program.image.Typed w.program.tree.plan) (hs : w.Shows vis g) (slot : UInt32)
  (range : Range)

include hsound hp hs

/-- A step makes the calls of what is written for it. -/
theorem invokes_advanceCode : ((w.site .function).knowing g).Invokes (Gen.advanceCode slot range)
    (range.stepInvocations w.legacy vis) := by
  have hemit {i : Instruction} (hi : i.callee? = none) :
      ((w.site .function).knowing g).Invokes (Gen.emitBody i) [] := Site.invokes_emit hi
  have hstep : ((w.site .function).knowing g).Invokes (Gen.stepOf range)
      (range.stepInvocations w.legacy vis) := by
    unfold Gen.stepOf Range.stepInvocations
    obtain ⟨start, _ | ⟨last, _ | step⟩⟩ := range
    · exact hemit rfl
    · exact hemit rfl
    · exact Site.invokes_compileAs (Site.invokes hsound hp (hs.means .function) step).compile _
  exact (hemit rfl).then fun _ => hstep.quiet fun _ => (hemit rfl).then fun _ => hemit rfl

/-- The test of a counted loop makes the calls of its bound. -/
theorem invokes_withinCode : ((w.site .function).knowing g).Invokes (Gen.withinCode slot range)
    (range.lastInvocations w.legacy vis) := by
  have hemit {i : Instruction} (hi : i.callee? = none) :
      ((w.site .function).knowing g).Invokes (Gen.emitBody i) [] := Site.invokes_emit hi
  have hbound : ((w.site .function).knowing g).Invokes (Gen.boundOf range)
      (range.lastInvocations w.legacy vis) := by
    unfold Gen.boundOf Range.lastInvocations
    obtain ⟨start, _ | ⟨last, step⟩⟩ := range
    · exact Site.invokes_pure _
    · exact Site.invokes_compileAs (Site.invokes hsound hp (hs.means .function) last).compile _
  exact (hemit rfl).then fun _ => hbound.quiet fun _ =>
    Site.invokes_emitAll (w := (w.site .function).knowing g) (by simp [Instruction.callee?])

end Counters

/-! ## Statements -/

/-- Constructs add the calls that are listed, wherever they stand in the function. -/
def RecountsAll (w : Streams) (sc : Scene) (cs : List Construct) (ks : List Kept) (ls : List Slot)
    (xs : Point → Target → List Invocation) : Prop :=
  ∀ vis g g' m n q, sc.Stands (w.site .function).code cs ks ls g g' m n q →
    (w.site .initializer).code.Continues g'.initializer → w.Shows vis g →
    w.Recounts g g' (xs ⟨vis, sc.base + m, n⟩)

section Statements

variable {cs cs' : List Construct} {ks ks' : List Kept} {ls ls' : List Slot}
  {bs bs' : Point → Target → List Invocation}

theorem recounts_nil : w.RecountsAll sc [] [] [] fun _ _ => [] := by
  intro vis g g' m n q hst _ _
  obtain rfl := Gen.makes_forM_nil.mp hst.makes
  exact .refl w _

/-- Constructs behind others make their calls at the points that those lead to. -/
theorem RecountsAll.append (h : w.RecountsAll sc cs ks ls bs)
    (h' : w.RecountsAll sc cs' ks' ls' bs')
    (hc : sc.Typed cs ks ls) (hc' : sc.Typed cs' ks' ls') :
    w.RecountsAll sc (cs ++ cs') (ks ++ ks') (ls ++ ls')
      fun pt t => bs pt t ++ bs' (pt.advance ks.length ls.length) t := by
  intro vis g g' m n q hst hi hs
  obtain ⟨g₁, h₁, h₂, hscopes⟩ := hst.append hc hc'
  have hi₁ := hi.mono (Gen.makes_constructs_later h₂.makes).initializer
  have hsecond := h' vis g₁ g' _ _ q h₂ hi (hs.congr hscopes (h₁.follows hc))
  rw [← Nat.add_assoc] at hsecond
  exact (h vis g g₁ m n q h₁ hi₁ hs).trans hsecond

variable (hw : (w.site .function).Hosts sc)

include hw

/-- A statement makes the calls of its expression. -/
theorem recounts_effect (e : Expr) : w.RecountsAll sc [.expr e] [] [] fun pt t =>
    Target.function.share t (e.invocations w.legacy pt.visible) := by
  intro vis g g' m n q hst _ hs
  obtain ⟨type, g₁, hc, rfl⟩ := Gen.makes_effect (Gen.makes_forM_one.mp hst.makes)
  have hx := (Expr.operand_extends .function e).compile
  have hi := (Site.invokes (sound hw hst.holds.toNames .function) hw.image (hs.means .function)
    e).compile
  have hsame := hx.initializer hc
  have hbegins := hst.begins
  split at hbegins
  · rename_i hv
    rw [if_pos hv]
    refine .of_function ?_ hsame
    rw [← List.append_nil (e.invocations _ _)]
    exact (lists_code hi (hs.site_fits _) hc hbegins.of_emit).trans (.emit hbegins rfl)
  · rename_i hv
    rw [if_neg hv]
    exact .of_function (lists_code hi (hs.site_fits _) hc hbegins) hsame

omit hw in
/-- What closes a piece of code without adding to it. -/
theorem recounts_close (hp : g'.body.position = g.body.position)
    (hi : g'.initializer = g.initializer) : w.Recounts g g' fun _ => [] := by
  refine .of_quiet ?_ hi
  rw [hp]
  exact .refl _ _

/-- A return makes the calls of its value, if it has one. -/
theorem recounts_ret (word : Span) (value : Option Expr) :
    w.RecountsAll sc [.ret word value] [] [] fun pt t =>
      Target.function.share t (value.elim [] fun e => e.invocations w.legacy pt.visible) := by
  intro vis g g' m n q hst _ hs
  obtain ⟨f, hf, -⟩ := hst.holds.current
  have hbegins := hst.begins
  obtain ⟨e, type, g₁, rfl, -, hc, rfl⟩ | ⟨rfl, -, rfl⟩ :=
    Gen.makes_ret hf (Gen.makes_forM_one.mp hst.makes)
  · have hi := Site.invokes_compileAs (Site.invokes (sound hw hst.holds.toNames .function) hw.image
      (hs.means .function) e).compile (.scalar type)
    have hsame := ((Expr.operand_extends .function e).compileAs (.scalar type)).initializer hc
    refine .of_function ?_ hsame
    show (w.site .function).Lists _ _ (e.invocations w.legacy vis)
    rw [← List.append_nil (e.invocations _ _)]
    exact (lists_code hi (hs.site_fits _) hc hbegins.of_emit).trans (.emit hbegins rfl)
  · exact .of_function (.emit hbegins rfl) rfl

omit hw in
theorem recounts_leave (word : Span) : w.RecountsAll sc [.leave word] [] [] fun _ _ => [] := by
  intro vis g g' m n q hst _ _
  have hbegins := hst.begins
  obtain ⟨k, -, rfl⟩ := Gen.makes_leave (Gen.makes_forM_one.mp hst.makes)
  exact .of_quiet (.emit hbegins rfl) rfl

/-! ## Choices and loops -/

/-- The condition of a choice. -/
theorem recounts_ifTrue {c : Expr} (hn : sc.Names g m) (hs : w.Shows vis g)
    (hm : Gen.Makes (Gen.ifTrue c) g ⟨⟩ g₁)
    (hcode : (w.site .function).code.Continues g₁.body) :
    w.Recounts g g₁ fun t => Target.function.share t (c.invocations w.legacy vis) := by
  have hi := Site.invokes_compileAs (Site.invokes (sound hw hn .function) hw.image
    (hs.means .function) c).compile (.scalar .bool)
  refine .of_function ?_ (Gen.initializer_of_plain (c := .ifTrue c) trivial hm)
  obtain ⟨gₜ, l, htest, -, rfl⟩ := Gen.makes_ifTrue hm
  have hjump : (w.site .function).code.Continues (gₜ.body.addLabel.emit (.jumpIfFalse l)) := hcode
  have hlast := Site.Lists.emit hjump rfl
  rw [← List.append_nil (c.invocations _ _)]
  exact (lists_code hi (hs.site_fits _) htest hjump.of_emit.of_addLabel).trans hlast

variable (hfair : sc.Fair)

include hfair

/-- A choice makes the calls of its condition in front of those of its branch. -/
theorem recounts_choice (c : Expr) (h : w.RecountsAll sc cs ks ls bs) (hc : sc.Typed cs ks ls) :
    w.RecountsAll sc (.ifTrue c :: cs ++ [.endIf]) ks ls fun pt t =>
      Target.function.share t (c.invocations w.legacy pt.visible) ++ bs pt t := by
  intro vis g g' m n q hst hi hs
  obtain ⟨x⟩ := hst.choice hfair hc
  have hsame := Gen.initializer_of_plain (c := .endIf) trivial x.closes
  have hfirst := recounts_ifTrue hw hst.holds.toNames hs x.opens (x.branch.start hc)
  have hinner := h vis x.first x.last m n q x.branch (hsame ▸ hi)
    (hs.congr x.scopes (Gen.follows_ifTrue x.opens))
  exact ((hfirst.trans hinner).trans (recounts_close x.ending hsame)).congr fun t =>
    List.append_nil _

/-- The calls of the second branch stand behind those of the first. -/
theorem recounts_choiceOr (c : Expr) (h : w.RecountsAll sc cs ks ls bs)
    (h' : w.RecountsAll sc cs' ks' ls' bs') (hc : sc.Typed cs ks ls) (hc' : sc.Typed cs' ks' ls') :
    w.RecountsAll sc (.ifTrue c :: cs ++ .ifFalse :: cs' ++ [.endIf]) (ks ++ ks') (ls ++ ls')
      fun pt t => Target.function.share t (c.invocations w.legacy pt.visible) ++ bs pt t ++
        bs' (pt.advance ks.length ls.length) t := by
  intro vis g g' m n q hst hi hs
  obtain ⟨x⟩ := hst.choiceOr hfair hc hc'
  have hsame := Gen.initializer_of_plain (c := .endIf) trivial x.closes
  have hsame' := Gen.initializer_of_plain (c := .ifFalse) trivial x.between
  have hi₄ := hsame ▸ hi
  have hi₂ := hsame' ▸ hi₄.mono (Gen.makes_constructs_later x.branch'.makes).initializer
  have hfollows₁ := Gen.follows_ifTrue x.opens
  have hfollows₃ := (hfollows₁.trans (x.branch.follows hc)).trans x.follows
  have hfirst := recounts_ifTrue hw hst.holds.toNames hs x.opens (x.branch.start hc)
  have hinner := h vis x.first x.last m n q x.branch hi₂ (hs.congr x.scopes hfollows₁)
  have hskip : w.Recounts x.last x.first' fun _ => [] := by
    refine .of_quiet ?_ hsame'
    rw [x.position']
    exact .of_getElem? x.jump rfl
  have hsecond := h' vis x.first' x.last' _ _ q x.branch' hi₄ (hs.congr x.scopes' hfollows₃)
  rw [← Nat.add_assoc] at hsecond
  refine ((((hfirst.trans hinner).trans hskip).trans hsecond).trans
    (recounts_close x.ending hsame)).congr fun t => ?_
  rw [List.append_nil, List.append_nil]
  rfl

omit hfair in
/-- The condition of a loop is compiled late, but where it is compiled the same is visible as where
it is written. -/
theorem recounts_loop (c : Expr) (h : w.RecountsAll sc cs ks ls bs) (hc : sc.Typed cs ks ls) :
    w.RecountsAll sc (.openLoop :: cs ++ [.closeLoop c]) ks ls fun pt t =>
      bs pt t ++ Target.function.share t (c.invocations w.legacy pt.visible) := by
  intro vis g g' m n q hst hi hs
  obtain ⟨x⟩ := hst.loop hc
  obtain ⟨top, l, hentry, -, hjump, -⟩ := x.loops
  have hsame := Gen.initializer_of_plain (c := .closeLoop c) trivial x.closes
  have hfollows₃ := (x.enters.trans (x.body.follows hc)).trans x.follows
  have hentered : w.Recounts g x.first fun _ => [] := by
    refine .of_quiet ?_ (Gen.initializer_of_plain (c := .openLoop) trivial x.opens)
    rw [x.position]
    exact .of_getElem? hentry rfl
  have hinner := h vis x.first x.last m n _ x.body (hsame ▸ hi) (hs.congr x.scopes x.enters)
  have hclosed : w.Recounts x.last g' fun t =>
      Target.function.share t (c.invocations w.legacy vis) := by
    have hinvokes := Site.invokes_compileAs (Site.invokes (sound hw hst.holds.toNames .function)
      hw.image (hs.means .function) c).compile (.scalar .bool)
    have hfits : ((w.site .function).knowing g).Fits x.test :=
      ⟨x.test_scopes, hfollows₃.functions, hfollows₃.legacy.trans hs.fits.legacy, Nat.zero_le _⟩
    have htested := lists_code hinvokes hfits x.tests x.tested_code
    refine .of_function ?_ hsame
    rw [x.ending, ← List.append_nil (c.invocations _ _), ← x.test_position]
    exact htested.trans (.of_getElem? hjump rfl)
  exact (hentered.trans hinner).trans hclosed

/-- A counting loop. Its counter is visible in its whole range and in its body. -/
theorem recounts_count (counter : Name) (range : Range) (h : w.RecountsAll sc cs ks ls bs)
    (hc : sc.Typed cs ks ls) :
    w.RecountsAll sc (.openCount counter range :: cs ++ [.closeCount range]) ks (.scalar .int :: ls)
      fun pt t =>
        Target.function.share t (range.start.invocations w.legacy (pt.count counter).visible) ++
          bs (pt.count counter) t ++
          Target.function.share t (range.stepInvocations w.legacy (pt.count counter).visible ++
            range.lastInvocations w.legacy (pt.count counter).visible) := by
  intro vis g g' m n q hst hi hs
  obtain ⟨x⟩ := hst.count hfair hc
  obtain ⟨top, l, hentry, -, hjump, -⟩ := x.loops
  have hsame := Gen.initializer_of_closeCount x.closes
  -- everywhere in the loop the counter is visible
  let inner := (Point.mk vis (sc.base + m) n).count counter
  have hvariable : x.v.variable = ⟨.scalar, (Point.mk vis (sc.base + m) n).next false⟩ := by
    have hslot : UInt32.ofNat n = x.slot :=
      (congrArg UInt32.ofNat x.slot_eq).symm.trans UInt32.ofNat_toNat
    rw [x.v_eq, Point.next, if_neg Bool.false_ne_true, hslot]
    rfl
  have hshows : w.Shows inner.visible x.start := by
    have hpush : vis.Fits w.legacy (g.withScopes g.scopes.push) :=
      ⟨hs.fits.names, hs.fits.legacy, hs.fits.input⟩
    have hfits := hpush.declare (n := counter) x.start_scopes x.begins.legacy x.begins.functions
    rw [hvariable] at hfits
    exact ⟨hfits, x.begins.functions ▸ hs.functions⟩
  have hsound := sound hw x.holds.toNames .function
  have hfits {gₓ : Generator} (hsₓ : gₓ.scopes = x.start.scopes) (hfₓ : x.start.Follows gₓ) :
      ((w.site .function).knowing x.start).Fits gₓ :=
    ⟨hsₓ, hfₓ.functions, hfₓ.legacy.trans hshows.fits.legacy, Nat.zero_le _⟩
  have hfirst : w.Recounts g x.first fun t =>
      Target.function.share t (range.start.invocations w.legacy inner.visible) := by
    have hinvokes := Site.invokes_prepareCode hsound hw.image (hshows.means .function) (v := x.v)
      (d := ⟨counter, none, some range.start⟩) (by rw [x.v_eq]; rfl)
    refine .of_function ?_ (Gen.initializer_of_openCount x.opens)
    rw [x.position, ← x.start_position, ← List.append_nil (range.start.invocations _ _)]
    exact (lists_code hinvokes (hshows.site_fits .function) x.starts x.started_code).trans
      (.of_getElem? hentry rfl)
  have hinner := h inner.visible x.first x.last m (n + 1) _ x.body (hsame ▸ hi)
    (hshows.congr x.scopes x.first_follows)
  have hthird : w.Recounts x.last g' fun t => Target.function.share t
      (range.stepInvocations w.legacy inner.visible ++
        range.lastInvocations w.legacy inner.visible) := by
    have hstepped := lists_code (invokes_advanceCode hsound hw.image hshows x.slot range)
      (hfits (x.last_scopes hc) (x.last_follows hc)) x.advances x.advanced_code
    have htested := lists_code (invokes_withinCode hsound hw.image hshows x.slot range)
      (hfits x.test_scopes (x.test_follows hc)) x.tests x.tested_code
    refine .of_function ?_ hsame
    rw [x.ending, ← List.append_nil (range.lastInvocations _ _)]
    exact hstepped.trans ((x.test_position ▸ htested).trans (.of_getElem? hjump rfl))
  exact (hfirst.trans hinner).trans hthird

/-! ## Blocks -/

/-- A block makes the calls of its declarations in front of those of its statements. -/
theorem recounts_block (ds : List Declaration) (h : w.RecountsAll sc cs ks ls bs)
    (hc : sc.Typed cs ks ls) :
    w.RecountsAll sc (.openBlock :: ds.map .locals ++ cs ++ [.closeBlock])
      (ds.flatMap Declaration.kept ++ ks) (ds.flatMap Declaration.locals ++ ls) fun pt t =>
        pt.invocations w.legacy t (ds.flatMap Declaration.blockItems) ++
          bs (pt.declareAll (ds.flatMap Declaration.blockItems)) t := by
  intro vis g g' m n q hst hi hs
  obtain ⟨x⟩ := hst.block hfair
  obtain ⟨L, hb⟩ := x.charted
  have hsame := Gen.initializer_of_closeScope x.closes
  have hi₂ := hsame ▸ hi
  have hpush : w.Shows vis (g.withScopes g.scopes.push) :=
    ⟨⟨hs.fits.names, hs.fits.legacy, hs.fits.input⟩, hs.functions⟩
  have hinside := hpush.inside x.holds
  have hfirst := recounts_declarations hw hfair x.kept x.locals x.holds hb hinside hpush.functions
    x.declares ((Gen.makes_constructs_later x.body.makes).addressable x.body.addressable)
      fun t => by
      cases t with
      | initializer => exact hi₂.mono (Gen.makes_constructs_later x.body.makes).initializer
      | function => exact x.body.start hc
  have hshows : w.Shows ((Point.mk vis (sc.base + m) n).declareAll
      (ds.flatMap Declaration.blockItems)).visible x.first :=
    ⟨(traces_declarations hinside x.declares).inside.fits, x.follows.functions ▸ hs.functions⟩
  have hinner := h _ x.first x.last _ _ q x.body hi₂ hshows
  obtain ⟨hfields, hlocals⟩ := Point.declareAll_counts (Point.mk vis (sc.base + m) n) ds
  rw [← Nat.add_assoc, ← hfields, ← hlocals] at hinner
  have hopened : w.Recounts g (g.withScopes g.scopes.push) fun _ => [] := recounts_close rfl rfl
  refine (((hopened.trans hfirst).trans hinner).trans (recounts_close x.ending hsame)).congr
    fun t => ?_
  rw [List.append_nil]
  rfl

omit hw in
/-- Statements make their calls one after the other. -/
theorem recounts_statements {body : List Stmt}
    (h : ∀ s ∈ body, w.RecountsAll sc s.constructs s.kept s.locals fun pt t =>
      s.invocations w.legacy t pt) :
    w.RecountsAll sc (Stmt.constructsOf body) (Stmt.keptOf body) (Stmt.localsOf body)
      fun pt t => Stmt.invocationsOf w.legacy t pt body := by
  induction body with
  | nil => exact recounts_nil
  | cons s ss ih =>
    exact (h s (.head _)).append (ih fun t ht => h t (.tail _ ht)) (Scene.typed_statement hfair s)
      (Scene.typed_statements hfair ss)

/-- **The calls in the code of statements are those in the text.** In both streams, wherever a
statement stands. -/
theorem recounts_statement (s : Stmt) :
    w.RecountsAll sc s.constructs s.kept s.locals fun pt t => s.invocations w.legacy t pt := by
  induction s using Stmt.induct with
  | block ds body ih =>
    exact recounts_block hw hfair ds (recounts_statements hfair ih)
      (Scene.typed_statements hfair body)
  | expr e => exact recounts_effect hw e
  | empty semicolon => exact recounts_nil
  | choice c body ih => exact recounts_choice hw hfair c ih (Scene.typed_statement hfair body)
  | choiceOr c body otherwise ih ih' =>
    exact recounts_choiceOr hw hfair c ih ih' (Scene.typed_statement hfair body)
      (Scene.typed_statement hfair otherwise)
  | loop c body ih => exact recounts_loop hw c ih (Scene.typed_statement hfair body)
  | count counter range body ih =>
    exact recounts_count hw hfair counter range ih (Scene.typed_statement hfair body)
  | ret word value => exact recounts_ret hw word value
  | leave word => exact recounts_leave word

end Statements

end Streams

end OnePass
