import OnePass.Proofs.BalancedScopes
import OnePass.Proofs.ResolvedExpressions
import OnePass.Proofs.Safety
import OnePass.Proofs.UsedPlaces

/-!
# Names stand for what they stand for in the text

Main statement: the variables that the code of a program uses are those that lexical scoping gives
for its tree (`compile_resolves`).

`Point.Inside` says that a state of generation is at a point of the text, `Traces` that a piece of
the text leads from one state to another and adds its uses of variables. Code that comes late, for
the condition of a loop or the end of a range, is generated in a state in which the names are those
of the point where it is written, because the body in between is balanced.
-/

namespace OnePass

/-! ## Names and scopes -/

namespace Visible

variable {vis : Visible} {legacy : Bool} {g g' : Generator}

/-- A variable hides those of its name. -/
theorem find?_declare {n m : Name} {v : Variable} :
    (vis.declare n v).find? m = if m.value = n.value then some v else vis.find? m := by
  rw [find?, declare, List.lookup_cons]
  by_cases h : m.value = n.value
  · rw [if_pos h, beq_iff_eq.mpr h]
  · rw [if_neg h, beq_eq_false_iff_ne.mpr h]
    rfl

/-- A variable that becomes visible in the innermost scope hides all others of its name. -/
theorem Fits.declare (h : vis.Fits legacy g) {n : Name} {v : Symbol}
    (hs : g'.scopes = g.scopes.withCurrent (g.scopes.current.insert n.value v))
    (hl : g'.legacy = g.legacy) (hf : g'.functions = g.functions) :
    (vis.declare n v.variable).Fits legacy g' := by
  refine ⟨fun m => ?_, hl.trans h.legacy, by rw [hf]; exact h.input⟩
  rw [hs, Scopes.lookup_insert, find?_declare, ← h.names]
  split <;> rfl

/-- In front of the program only fields may be used, so only they have to be known. -/
theorem Fits.serves_fields (h : vis.Fits legacy g) : vis.fields.Serves legacy .initializer g := by
  refine ⟨fun n v hv hfield => find?_fields ((h.serves .initializer).names n v hv hfield) ?_,
    h.legacy, h.input⟩
  obtain ⟨i, hi⟩ := hfield rfl
  rw [Symbol.variable, hi]
  rfl

/-- What is visible depends on the scopes, the form of generation and the functions. -/
theorem Fits.congr (h : vis.Fits legacy g)
    (hs : ∀ name, g'.scopes.lookup name = g.scopes.lookup name)
    (hl : g'.legacy = g.legacy) (hf : g'.functions = g.functions) : vis.Fits legacy g' :=
  ⟨fun n => (congrArg _ (hs n.value)).trans (h.names n), hl.trans h.legacy,
    by rw [hf]; exact h.input⟩

end Visible

/-! ## Points and states -/

namespace Point

/-- A state of generation is at a point of the text, as far as names and fields go. -/
structure Knows (pt : Point) (legacy : Bool) (g : Generator) : Prop where
  fits : pt.visible.Fits legacy g
  fields : g.fields.size = pt.fields

/-- A state of generation is at a point inside a function. -/
structure Inside (pt : Point) (legacy : Bool) (g : Generator) : Prop extends pt.Knows legacy g where
  inner : g.scopes.isGlobal = false
  current : ∃ f, g.current = some f ∧ f.locals = .ofNat pt.locals

/-- A state of generation is at a point outside all functions. -/
structure Outside (pt : Point) (legacy : Bool) (g : Generator) : Prop extends
    pt.Knows legacy g where
  outer : g.scopes.isGlobal = true

variable {pt pt' : Point} {legacy : Bool} {g g₁ g' : Generator}

/-- Code does not change what is known at a point. -/
theorem Knows.onDraft (h : pt.Knows legacy g) (t : Target) (f : Draft → Draft) :
    pt.Knows legacy (g.onDraft t f) :=
  ⟨h.fits.onDraft t f, by rw [Generator.onDraft_fields, h.fields]⟩

/-- Code does not change whether a point is inside a function. -/
theorem Inside.onDraft (h : pt.Inside legacy g) (t : Target) (f : Draft → Draft) :
    pt.Inside legacy (g.onDraft t f) :=
  ⟨h.toKnows.onDraft t f, by rw [Generator.onDraft_scopes, h.inner],
    by rw [Generator.onDraft_current]; exact h.current⟩

/-- What is left open does not change what is visible. -/
theorem Inside.withPending (h : pt.Inside legacy g) (ps : List Pending) :
    pt.Inside legacy (g.withPending ps) :=
  ⟨⟨⟨h.fits.names, h.fits.legacy, h.fits.input⟩, h.fields⟩, h.inner, h.current⟩

/-- A new scope hides nothing. -/
theorem Inside.openScope (h : pt.Inside legacy g) :
    pt.Inside legacy (g.withScopes g.scopes.push) :=
  ⟨⟨⟨h.fits.names, h.fits.legacy, h.fits.input⟩, h.fields⟩, rfl, h.current⟩

/-- Where a scope is closed the same is visible as where it was opened. -/
theorem Inside.closeScope (h : pt.Inside legacy g) (h' : pt'.Inside legacy g')
    (hs : g'.scopes.pop = g.scopes) :
    ({ pt' with visible := pt.visible } : Point).Inside legacy (g'.withScopes g'.scopes.pop) := by
  refine ⟨⟨⟨fun n => ?_, h'.fits.legacy, h'.fits.input⟩, h'.fields⟩, ?_, h'.current⟩
  · rw [← h.fits.names]
    exact congrArg (fun s => (s.lookup n.value).map Symbol.variable) hs
  · exact (congrArg Scopes.isGlobal hs).trans h.inner

end Point

/-- A piece of the text leads to a state at a point, and adds its uses of variables to each of the
two streams. -/
structure Traces (legacy : Bool) (g : Generator) (pt : Point) (g' : Generator)
    (xs : Target → Accesses) : Prop where
  inside : pt.Inside legacy g'
  accesses : ∀ t, (g'.draft t).accesses = (g.draft t).accesses ++ xs t
  fields : FieldsOnly (xs .initializer)
  routines : g'.routines = g.routines

section

variable {legacy : Bool} {pt pt' : Point} {g g₁ g' : Generator} {xs ys : Target → Accesses}

/-- Uses in one stream are uses in that stream, part by part. -/
theorem Target.only_append {home t : Target} {xs ys : Accesses} :
    home.only t (xs ++ ys) = home.only t xs ++ home.only t ys := by
  unfold Target.only
  split <;> rfl

namespace Traces

/-- Without constructs nothing is used. -/
theorem refl (h : pt.Inside legacy g) : Traces legacy g pt g fun _ => [] :=
  ⟨h, fun _ => (List.append_nil _).symm, keepsTo_nil, rfl⟩

/-- Constructs behind others use what is visible behind those. -/
theorem trans (h : Traces legacy g pt g₁ xs) (h' : Traces legacy g₁ pt' g' ys) :
    Traces legacy g pt' g' fun t => xs t ++ ys t :=
  ⟨h'.inside, fun t => by rw [h'.accesses, h.accesses, List.append_assoc],
    h.fields.append h'.fields, h'.routines.trans h.routines⟩

/-- What is used may be written in another way. -/
theorem congr (h : Traces legacy g pt g' xs) (hxs : ∀ t, xs t = ys t) :
    Traces legacy g pt g' ys := by
  obtain rfl : xs = ys := funext hxs
  exact h

/-- Statements are set aside or taken up. -/
theorem withPending (h : Traces legacy g pt g' xs) (ps : List Pending) :
    Traces legacy g pt (g'.withPending ps) xs :=
  ⟨h.inside.withPending ps, fun t => by
    rw [show (g'.withPending ps).draft t = g'.draft t by cases t <;> rfl, h.accesses], h.fields,
    h.routines⟩

/-- Instructions and labels are added to the function. -/
theorem onBody (h : Traces legacy g pt g' xs) {f : Draft → Draft} (zs : Accesses)
    (hf : (f g'.body).accesses = g'.body.accesses ++ zs) :
    Traces legacy g pt (g'.onBody f) fun t => xs t ++ Target.function.only t zs := by
  refine ⟨h.inside.onDraft .function f, fun t => ?_, h.fields.append keepsTo_nil, h.routines⟩
  rw [← List.append_assoc, ← h.accesses]
  cases t with
  | function => exact hf
  | initializer => exact (List.append_nil _).symm

/-- Instructions and labels that are no uses of variables. -/
theorem onBodyQuiet (h : Traces legacy g pt g' xs) {f : Draft → Draft}
    (hf : (f g'.body).accesses = g'.body.accesses) : Traces legacy g pt (g'.onBody f) xs :=
  (h.onBody [] (hf.trans (List.append_nil _).symm)).congr fun t => by
    cases t <;> exact List.append_nil _

/-- Code of the function with its uses. -/
theorem code {α : Type} (h : Traces legacy g pt g₁ xs) {m : Gen α} {a : α} {zs : Accesses}
    (hu : Gen.Uses pt.visible legacy .function m zs) (he : Gen.Extends .function m)
    (hm : Gen.Makes m g₁ a g') :
    Traces legacy g pt g' fun t => xs t ++ Target.function.only t zs := by
  have haccesses := (hu _ _ _ (h.inside.fits.serves _) hm).2
  obtain ⟨d, rfl, -⟩ := he _ _ _ hm
  rw [Generator.draft_onDraft] at haccesses
  exact h.onBody _ (f := fun _ => d) haccesses

/-- An expression of the body uses what is visible there. -/
theorem value (h : Traces legacy g pt g₁ xs) {e : Expr} {type : ExprType}
    (hm : Gen.Makes (e.compileAs .function type) g₁ ⟨⟩ g') :
    Traces legacy g pt g' fun t => xs t ++ Target.function.only t (e.accesses legacy pt.visible) :=
  h.code (Gen.uses_exprAs e type) ((Expr.operand_extends .function e).compileAs type) hm

end Traces

/-! ## Declarations -/

namespace Point

/-- A declared variable is visible as what it is. -/
theorem Knows.declare (h : pt.Knows legacy g) {kept : Bool} {d : Declarator} {v : Symbol}
    (hs : v.shape = d.declaredShape) (hh : v.handle = pt.next kept)
    (hscopes : g'.scopes = g.scopes.withCurrent (g.scopes.current.insert d.name.value v))
    (hl : g'.legacy = g.legacy) (hf : g'.functions = g.functions)
    (hfields : g'.fields.size = g.fields.size + kept.toNat) :
    (pt.declare kept d).Knows legacy g' := by
  have hv : v.variable = ⟨d.declaredShape, pt.next kept⟩ := by rw [Symbol.variable, hs, hh]
  refine ⟨?_, hfields.trans (h.fields ▸ rfl)⟩
  have hfits := h.fits.declare hscopes hl hf
  rwa [hv] at hfits

/-- A field gets its first value in front of the program, by fields only. -/
theorem Knows.keepsTo_fields (h : (pt.declare true d).Knows legacy g) {v : Symbol}
    (hs : v.shape = d.declaredShape) (hh : v.handle = pt.next true)
    (hm : Gen.Makes (prepareCode .initializer v d.init) g ⟨⟩ g') :
    FieldsOnly
      (d.accesses legacy (pt.declare true d).visible (pt.next true)) := by
  have haccesses := (uses_prepareCode hs g ⟨⟩ g' (h.fits.serves _) hm).2
  have hfields := (uses_prepareCode hs g ⟨⟩ g' h.fits.serves_fields hm).2
  -- the uses are the same if names of other variables are not known at all
  rw [haccesses] at hfields
  rw [← hh, List.append_cancel_left hfields]
  exact Point.keepsTo_declarator (Visible.within_fields _) (by rw [hh]; rfl) d

/-- Behind its name a variable gets its first value, in the stream where it belongs. -/
theorem Knows.prepare (h : (pt.declare kept d).Knows legacy g) {v : Symbol}
    (hs : v.shape = d.declaredShape) (hh : v.handle = pt.next kept)
    (hm : Gen.Makes (prepareCode (home kept) v d.init) g ⟨⟩ g') :
    ∃ draft, g' = g.onDraft (home kept) (fun _ => draft) ∧ (∀ t, (g'.draft t).accesses =
      (g.draft t).accesses ++ (home kept).only t
        (d.accesses legacy (pt.declare kept d).visible (pt.next kept))) ∧
      FieldsOnly ((home kept).only .initializer
        (d.accesses legacy (pt.declare kept d).visible (pt.next kept))) := by
  have haccesses := (uses_prepareCode hs g ⟨⟩ g' (h.fits.serves _) hm).2
  have hfields : FieldsOnly ((home kept).only .initializer
      (d.accesses legacy (pt.declare kept d).visible (pt.next kept))) := by
    cases kept with
    | true => exact h.keepsTo_fields hs hh hm
    | false => exact keepsTo_nil
  obtain ⟨draft, rfl, -⟩ := extends_prepareCode _ v d.init _ _ _ hm
  refine ⟨draft, rfl, fun t => ?_, hfields⟩
  unfold Target.only
  split
  · rename_i ht
    subst ht
    rw [haccesses, hh]
  · rename_i ht
    rw [List.append_nil]
    cases hk : home kept <;> cases t <;> rw [hk] at ht <;> first | rfl | exact absurd rfl ht

end Point

/-- A variable declared in a block. -/
theorem traces_declarator (h : pt.Inside legacy g) {kept : Bool} {d : Declarator} {type : WordType}
    (hm : Gen.Makes (d.compile type kept) g ⟨⟩ g') :
    Traces legacy g (pt.declare kept d) g' fun t => pt.declared legacy t [(kept, d)] := by
  obtain ⟨v, storage, t, g₁, hv, hallocate, hprepare⟩ := Declarator.makes_symbol hm
  have hs : v.shape = d.declaredShape := by rw [hv]
  obtain ⟨f, hf, hlocals⟩ := h.current
  -- fields and local slots are taken differently, but what happens then is the same
  have hstep {g₂ : Generator} (hm : Gen.Makes (prepareCode (home kept) v d.init) g₂ ⟨⟩ g')
      (hh : v.handle = pt.next kept) (hknows : (pt.declare kept d).Knows legacy g₂)
      (hinner : g₂.scopes.isGlobal = false)
      (hcurrent : ∃ f, g₂.current = some f ∧ f.locals = .ofNat (pt.declare kept d).locals)
      (hdrafts : ∀ t, g₂.draft t = g.draft t) (hroutines : g₂.routines = g.routines) :
      Traces legacy g (pt.declare kept d) g' fun t => pt.declared legacy t [(kept, d)] := by
    obtain ⟨draft, rfl, haccesses, hfields⟩ := hknows.prepare hs hh hm
    refine ⟨Point.Inside.onDraft ⟨hknows, hinner, hcurrent⟩ _ _, fun t => ?_,
      hfields.append keepsTo_nil, ?_⟩
    · rw [haccesses, hdrafts, Point.declared, Point.declared, List.append_nil]
    · rw [Generator.onDraft_routines, hroutines]
  cases kept with
  | true =>
    obtain ⟨-, n, name, hh, hn, rfl, rfl⟩ := Declarator.makes_allocate_static h.inner hf hallocate
    have hnext : v.handle = pt.next true := by
      rw [hh, Point.next, if_pos rfl, ← h.fields, ← hn]
    refine hstep hprepare hnext (h.toKnows.declare hs hnext rfl rfl rfl (Array.size_push ..)) ?_
      ⟨f, hf, hlocals⟩ (fun t => by cases t <;> rfl) rfl
    exact (Scopes.isGlobal_withCurrent _).trans h.inner
  | false =>
    obtain ⟨-, hh, rfl, rfl⟩ := Declarator.makes_allocate_local h.inner hf hallocate
    have hnext : v.handle = pt.next false := by
      rw [hh, Point.next, if_neg Bool.false_ne_true, ← hlocals]
    refine hstep hprepare hnext (h.toKnows.declare hs hnext rfl rfl rfl rfl) ?_ ⟨_, rfl, ?_⟩
      (fun t => by cases t <;> rfl) rfl
    · exact (Scopes.isGlobal_withCurrent _).trans h.inner
    · show f.locals + 1 = .ofNat (pt.locals + 1)
      rw [hlocals, UInt32.ofNat_add]
      rfl

/-- Declarations behind others see the variables of those. -/
theorem Point.declared_append {t : Target} (ds : List (Bool × Declarator))
    {es : List (Bool × Declarator)} :
    pt.declared legacy t (ds ++ es) =
      pt.declared legacy t ds ++ (pt.declareAll ds).declared legacy t es := by
  induction ds generalizing pt with
  | nil => rfl
  | cons d ds ih =>
    obtain ⟨kept, d⟩ := d
    rw [List.cons_append, Point.declared, Point.declared, ih, List.append_assoc]
    rfl

/-- The declarations at the beginning of a block. -/
theorem traces_declarations (h : pt.Inside legacy g) {ds : List Declaration}
    (hm : Gen.Makes ((ds.map .locals).forM Construct.compile) g ⟨⟩ g') :
    Traces legacy g (pt.declareAll (ds.flatMap Declaration.blockItems)) g' fun t =>
      pt.declared legacy t (ds.flatMap Declaration.blockItems) := by
  have hitems {type : WordType} {kept : Bool} {items : List Declarator} {pt : Point}
      {g g' : Generator} (h : pt.Inside legacy g)
      (hm : Gen.Makes (items.forM (Declarator.compile type kept)) g ⟨⟩ g') :
      Traces legacy g (pt.declareAll (items.map (kept, ·))) g' fun t =>
        pt.declared legacy t (items.map (kept, ·)) := by
    induction items generalizing pt g with
    | nil =>
      rw [Gen.makes_forM_nil.mp hm]
      exact .refl h
    | cons d items ih =>
      obtain ⟨g₁, h₁, h₂⟩ := Gen.makes_forM_cons.mp hm
      have hfirst := traces_declarator h h₁
      refine (hfirst.trans (ih hfirst.inside h₂)).congr fun t => ?_
      exact (Point.declared_append [(kept, d)]).symm
  induction ds generalizing pt g with
  | nil =>
    rw [Gen.makes_forM_nil.mp hm]
    exact .refl h
  | cons d ds ih =>
    obtain ⟨g₁, h₁, h₂⟩ := Gen.makes_forM_cons.mp hm
    have hfirst := hitems h h₁
    have hrest := ih hfirst.inside h₂
    rw [List.flatMap_cons]
    have hall : pt.declareAll (d.blockItems ++ ds.flatMap Declaration.blockItems) =
        (pt.declareAll d.blockItems).declareAll (ds.flatMap Declaration.blockItems) :=
      List.foldl_append ..
    rw [hall]
    exact (hfirst.trans hrest).congr fun t => (Point.declared_append _).symm

/-! ## Statements -/

/-- The constructs of a piece of the text with `m` static variables and `n` local slots, wherever
it stands. -/
def TracedAll (legacy : Bool) (cs : List Construct) (m n : Nat)
    (xs : Point → Target → Accesses) : Prop :=
  ∀ pt g g', Point.Inside pt legacy g → Gen.Makes (cs.forM Construct.compile) g ⟨⟩ g' →
    Traces legacy g (pt.advance m n) g' (xs pt)

section Statements

variable {cs cs' : List Construct} {m n m' n' : Nat} {bs bs' : Point → Target → Accesses}

/-- No construct uses nothing. -/
theorem traced_nil : TracedAll legacy [] 0 0 fun _ _ => [] := by
  intro pt g g' h hm
  rw [Gen.makes_forM_nil.mp hm]
  exact .refl h

/-- Constructs behind others use variables at the points that those lead to. -/
theorem TracedAll.append (h : TracedAll legacy cs m n bs) (h' : TracedAll legacy cs' m' n' bs') :
    TracedAll legacy (cs ++ cs') (m + m') (n + n')
      fun pt t => bs pt t ++ bs' (pt.advance m n) t := by
  intro pt g g' hg hm
  obtain ⟨g₁, h₁, h₂⟩ := Gen.makes_forM_append.mp hm
  have hfirst := h pt g g₁ hg h₁
  have hpt : pt.advance (m + m') (n + n') = (pt.advance m n).advance m' n' := by
    simp only [Point.advance, Nat.add_assoc]
  rw [hpt]
  exact hfirst.trans (h' _ g₁ g' hfirst.inside h₂)

/-- A statement uses what its expression uses. -/
theorem traced_effect (e : Expr) : TracedAll legacy [.expr e] 0 0 fun pt t =>
    Target.function.only t (e.accesses legacy pt.visible) := by
  intro pt g g' hg hm
  obtain ⟨type, g₁, hc, rfl⟩ := Gen.makes_effect (Gen.makes_forM_one.mp hm)
  have hcode := (Traces.refl hg).code (Gen.uses_compile e)
    (Expr.operand_extends .function e).compile hc
  split
  · exact hcode.onBodyQuiet (by simp [accessesIn, Instruction.access?])
  · exact hcode

/-- A return uses what its value uses, if it has one. -/
theorem traced_ret (word : Span) (value : Option Expr) : TracedAll legacy [.ret word value] 0 0
    fun pt t => Target.function.only t (value.elim [] fun e => e.accesses legacy pt.visible) := by
  intro pt g g' hg hm
  obtain ⟨f, hf, -⟩ := hg.current
  obtain ⟨e, type, g₁, rfl, -, hc, rfl⟩ | ⟨rfl, -, rfl⟩ :=
    Gen.makes_ret hf (Gen.makes_forM_one.mp hm)
  · exact ((Traces.refl hg).value hc).onBodyQuiet (by simp [accessesIn, Instruction.access?])
  · refine ((Traces.refl hg).onBodyQuiet (by simp [accessesIn, Instruction.access?])).congr
      fun t => ?_
    cases t <;> rfl

/-- A `break` uses nothing. -/
theorem traced_leave (word : Span) : TracedAll legacy [.leave word] 0 0 fun _ _ => [] := by
  intro pt g g' hg hm
  obtain ⟨l, -, rfl⟩ := Gen.makes_leave (Gen.makes_forM_one.mp hm)
  exact (Traces.refl hg).onBodyQuiet (by simp [accessesIn, Instruction.access?])

/-! ## Choices and loops -/

/-- The condition of a choice. -/
theorem traces_ifTrue {c : Expr} (h : pt.Inside legacy g) (hm : Gen.Makes (Gen.ifTrue c) g ⟨⟩ g') :
    Traces legacy g pt g' fun t => Target.function.only t (c.accesses legacy pt.visible) := by
  obtain ⟨g₁, l, hc, -, rfl⟩ := Gen.makes_ifTrue hm
  exact (((Traces.refl h).value hc).onBodyQuiet
    (by simp [accessesIn, Instruction.access?])).withPending _

/-- A choice uses what its condition uses and then what its branch uses. -/
theorem traced_choice (c : Expr) (hbody : TracedAll legacy cs m n bs) (hb : Gen.BalancedAll cs) :
    TracedAll legacy (.ifTrue c :: cs ++ [.endIf]) m n fun pt t =>
      Target.function.only t (c.accesses legacy pt.visible) ++ bs pt t := by
  intro pt g g' hg hm
  obtain ⟨g₂, hm, hend⟩ := Gen.makes_forM_append.mp hm
  obtain ⟨g₁, hc, hinner⟩ := Gen.makes_forM_cons.mp hm
  have hfirst := traces_ifTrue hg hc
  obtain ⟨-, l, hp₁⟩ := Gen.pending_ifTrue hc
  obtain ⟨-, hp₂⟩ := hb g₁ g₂ hinner
  obtain rfl := Gen.makes_endIf (hp₂.trans hp₁) (Gen.makes_forM_one.mp hend)
  exact ((hfirst.trans (hbody pt g₁ g₂ hfirst.inside hinner)).onBodyQuiet (by simp)).withPending _

/-- The second branch of a choice uses variables behind the declarations of the first. These take up
slots, though they are not visible any more. -/
theorem traced_choiceOr (c : Expr) (hbody : TracedAll legacy cs m n bs) (hb : Gen.BalancedAll cs)
    (hotherwise : TracedAll legacy cs' m' n' bs') (hb' : Gen.BalancedAll cs') :
    TracedAll legacy (.ifTrue c :: cs ++ .ifFalse :: cs' ++ [.endIf]) (m + m') (n + n')
      fun pt t => Target.function.only t (c.accesses legacy pt.visible) ++ bs pt t ++
        bs' (pt.advance m n) t := by
  intro pt g g' hg hm
  obtain ⟨g₄, hm, hend⟩ := Gen.makes_forM_append.mp hm
  obtain ⟨g₂, hm, helse⟩ := Gen.makes_forM_append.mp hm
  obtain ⟨g₁, hc, hinner⟩ := Gen.makes_forM_cons.mp hm
  obtain ⟨g₃, hbetween, hlast⟩ := Gen.makes_forM_cons.mp helse
  have hfirst := traces_ifTrue hg hc
  obtain ⟨-, l, hp₁⟩ := Gen.pending_ifTrue hc
  obtain ⟨-, hp₂⟩ := hb g₁ g₂ hinner
  have hsecond := hfirst.trans (hbody pt g₁ g₂ hfirst.inside hinner)
  obtain ⟨done, -, rfl⟩ := Gen.makes_ifFalse (hp₂.trans hp₁) hbetween
  have hthird := (hsecond.onBodyQuiet (f := fun d => (d.addLabel.emit (.jump done)).mark l.toNat)
    (by simp [accessesIn, Instruction.access?])).withPending (.choice done :: g.pending)
  obtain ⟨-, hp₄⟩ := hb' _ g₄ hlast
  obtain rfl := Gen.makes_endIf hp₄ (Gen.makes_forM_one.mp hend)
  have hpt : pt.advance (m + m') (n + n') = (pt.advance m n).advance m' n' := by
    simp only [Point.advance, Nat.add_assoc]
  rw [hpt]
  exact ((hthird.trans (hotherwise _ _ g₄ hthird.inside hlast)).onBodyQuiet (by simp)).withPending _

/-- The condition of a loop is compiled late, but where it is compiled the same is visible as where
it is written. -/
theorem traced_loop (c : Expr) (hbody : TracedAll legacy cs m n bs) (hb : Gen.BalancedAll cs) :
    TracedAll legacy (.openLoop :: cs ++ [.closeLoop c]) m n fun pt t =>
      bs pt t ++ Target.function.only t (c.accesses legacy pt.visible) := by
  intro pt g g' hg hm
  obtain ⟨g₂, hm, hend⟩ := Gen.makes_forM_append.mp hm
  obtain ⟨g₁, hopen, hinner⟩ := Gen.makes_forM_cons.mp hm
  obtain ⟨l, -, rfl⟩ := Gen.makes_openLoop hopen
  have hfirst := ((Traces.refl hg).onBodyQuiet
    (f := fun d => (d.addLabel.addLabel.addLabel.emit (.jump l.test)).mark l.top.toNat)
    (by simp [accessesIn, Instruction.access?])).withPending (.loop l :: g.pending)
  have hsecond := hfirst.trans (hbody pt _ g₂ hfirst.inside hinner)
  -- behind the body it is this loop that is closed, as the body is balanced
  obtain ⟨-, hp₂⟩ := hb _ g₂ hinner
  obtain ⟨g₃, hc, rfl⟩ := Gen.makes_closeLoop hp₂ (Gen.makes_forM_one.mp hend)
  have hthird := (hsecond.onBodyQuiet (f := fun d => d.mark l.test.toNat) (by simp)).value hc
  exact (hthird.onBodyQuiet (by simp [accessesIn, Instruction.access?])).withPending _

/-- A counter is visible behind its name. -/
theorem traces_counter (h : pt.Inside legacy g) {counter : Name} {slot : UInt32} {v : Symbol}
    (hslot : Gen.Makes Gen.addLocal (g.withScopes g.scopes.push) slot g₁)
    (hv : v.variable = ⟨.scalar, .local slot⟩)
    (hg' : g' = g₁.withScopes (g₁.scopes.withCurrent (g₁.scopes.current.insert counter.value v))) :
    .local slot = pt.next false ∧ Traces legacy g (pt.count counter) g' fun _ => [] := by
  obtain ⟨f, hf, hlocals⟩ := h.current
  obtain ⟨rfl, rfl⟩ := Gen.makes_addLocal (g := g.withScopes g.scopes.push) hf hslot
  have hnext : .local f.locals = pt.next false := by
    rw [Point.next, if_neg Bool.false_ne_true, ← hlocals]
  have hscopes : g'.scopes = g.scopes.push.withCurrent
      (g.scopes.push.current.insert counter.value v) := by
    rw [hg']
    rfl
  have hfits := h.openScope.fits.declare (n := counter) hscopes
    (show g'.legacy = g.legacy by rw [hg']; rfl) (show g'.functions = g.functions by rw [hg']; rfl)
  rw [hv, hnext] at hfits
  refine ⟨hnext, ⟨⟨⟨hfits, ?_⟩, ?_, { f with locals := f.locals + 1 }, ?_, ?_⟩, fun t => ?_,
    keepsTo_nil, ?_⟩⟩
  · rw [hg']
    exact h.fields
  · rw [hscopes, Scopes.isGlobal_withCurrent]
    rfl
  · rw [hg']
    rfl
  · show f.locals + 1 = .ofNat (pt.locals + 1)
    rw [hlocals, UInt32.ofNat_add]
    rfl
  · rw [List.append_nil, hg']
    cases t <;> rfl
  · rw [hg']
    rfl

/-- The counter of a loop is visible in its whole range and in its body. -/
theorem traces_openCount {counter : Name} {range : Range} (h : pt.Inside legacy g)
    (hm : Gen.Makes (Gen.openCount counter range) g ⟨⟩ g') :
    ∃ slot l, .local slot = pt.next false ∧ g'.pending = .count slot l :: g.pending ∧
      Traces legacy g (pt.count counter) g' fun t => Target.function.only t
        (range.start.accesses legacy (pt.count counter).visible ++
          [some (.store (pt.next false))]) := by
  obtain ⟨-, slot', l', hp⟩ := Gen.pending_openCount hm
  obtain ⟨-, g₁, g₂, g₃, slot, v, l, hslot, hv, hg₂, hstart, -, rfl⟩ := Gen.makes_openCount hm
  obtain ⟨hnext, hcounter⟩ := traces_counter h hslot (by rw [hv]; rfl) hg₂
  obtain ⟨rfl, rfl⟩ : slot = slot' ∧ l = l' := by
    have hhead := congrArg List.head? hp
    simpa [Generator.withPending] using hhead
  have hentered := ((hcounter.value hstart).onBody [some (.store (.local slot))]
    (f := fun d => ((d.emit (.storeLocal slot)).addLabel.addLabel.addLabel.emit
      (.jump l.test)).mark l.top.toNat)
    (by simp [accessesIn, Instruction.access?])).withPending (.count slot l :: g₃.pending)
  refine ⟨slot, l, hnext, hp, hentered.congr fun t => ?_⟩
  rw [List.nil_append, Target.only_append, hnext]

/-- A step uses what is written for it, if anything is. -/
theorem uses_stepOf {vis : Visible} (range : Range) :
    Gen.Uses vis legacy .function (Gen.stepOf range) (range.step legacy vis) := by
  unfold Gen.stepOf Range.step
  obtain ⟨start, _ | ⟨last, _ | step⟩⟩ := range
  · exact Gen.uses_emit _
  · exact Gen.uses_emit _
  · exact Gen.uses_exprAs step _

/-- A bound uses what is written for it. -/
theorem uses_boundOf {vis : Visible} (range : Range) :
    Gen.Uses vis legacy .function (Gen.boundOf range) (range.last legacy vis) := by
  unfold Gen.boundOf Range.last
  obtain ⟨start, _ | ⟨last, step⟩⟩ := range
  · exact Gen.uses_pure _
  · exact Gen.uses_exprAs last _

/-- The step and the end of a range are compiled late, but in the scope of the counter. -/
theorem traces_closeCount {range : Range} {slot : UInt32} {l : LoopLabels} {ps : List Pending}
    (h : pt.Inside legacy g) (hp : g.pending = .count slot l :: ps)
    (hm : Gen.Makes (Gen.closeCount range) g ⟨⟩ g') :
    ∃ g₁, g' = (g₁.withPending ps).withScopes g₁.scopes.pop ∧ g₁.scopes = g.scopes ∧
      Traces legacy g pt g₁ fun t => Target.function.only t (some (.load (.local slot)) ::
        range.step legacy pt.visible ++ some (.store (.local slot)) ::
          some (.load (.local slot)) :: range.last legacy pt.visible) := by
  obtain ⟨g₁, g₂, g₃, hstep, hg₂, hbound, rfl⟩ := Gen.makes_closeCount hp hm
  have hloaded := (Traces.refl h).onBody [some (.load (.local slot))]
    (f := fun d => d.emit (.loadLocal slot)) (by simp [accessesIn, Instruction.access?])
  have hstepped := (hloaded.code (uses_stepOf range) (Gen.extends_stepOf range) hstep).onBody
    [some (.store (.local slot)), some (.load (.local slot))]
    (f := fun d => (((d.emit (.binary .add)).emit (.storeLocal slot)).mark l.test.toNat).emit
      (.loadLocal slot)) (by simp [accessesIn, Instruction.access?])
  rw [← hg₂] at hstepped
  have hcompared := (hstepped.code (uses_boundOf range) (Gen.extends_boundOf range)
    hbound).onBodyQuiet
    (f := fun d => (d.emitAll [.binary .gt, .pushInt 0, .binary .eq, .jumpIfTrue l.top]).mark
      l.exit.toNat) (by simp [accessesIn, Instruction.access?])
  obtain ⟨hs₁, hp₁⟩ := (Gen.extends_stepOf range).balanced _ _ hstep
  obtain ⟨hs₃, hp₃⟩ := (Gen.extends_boundOf range).balanced _ _ hbound
  have hsame : g₂.scopes = g₁.scopes ∧ g₂.pending = g₁.pending := by
    rw [hg₂]
    exact ⟨rfl, rfl⟩
  refine ⟨g₃.onBody fun d => (d.emitAll [.binary .gt, .pushInt 0, .binary .eq,
    .jumpIfTrue l.top]).mark l.exit.toNat, ?_, hs₃.trans (hsame.1.trans hs₁),
    hcompared.congr fun t => ?_⟩
  · have hpending : g₃.pending = .count slot l :: ps := by rw [hp₃, hsame.2, hp₁, ← hp]; rfl
    rw [hpending]
    rfl
  · simp only [← Target.only_append, List.nil_append, List.cons_append, List.append_assoc]

/-- A counted loop uses its first value and its body in a scope with the counter, and the step and
the bound behind the body. -/
theorem traced_count (counter : Name) (range : Range) (hbody : TracedAll legacy cs m n bs)
    (hb : Gen.BalancedAll cs) :
    TracedAll legacy (.openCount counter range :: cs ++ [.closeCount range]) m (n + 1) fun pt t =>
      Target.function.only t (range.start.accesses legacy (pt.count counter).visible ++
        [some (.store (pt.next false))]) ++ bs (pt.count counter) t ++
        Target.function.only t (some (.load (pt.next false)) ::
          range.step legacy (pt.count counter).visible ++
          some (.store (pt.next false)) :: some (.load (pt.next false)) ::
            range.last legacy (pt.count counter).visible) := by
  intro pt g g' hg hm
  obtain ⟨g₂, hm, hend⟩ := Gen.makes_forM_append.mp hm
  obtain ⟨g₁, hopen, hinner⟩ := Gen.makes_forM_cons.mp hm
  obtain ⟨slot, l, hnext, hp₁, hfirst⟩ := traces_openCount hg hopen
  obtain ⟨hpop, -⟩ := Gen.pending_openCount hopen
  have hsecond := hfirst.trans (hbody _ g₁ g₂ hfirst.inside hinner)
  -- behind the body the innermost scope is that of the counter again
  obtain ⟨hs₂, hp₂⟩ := hb g₁ g₂ hinner
  obtain ⟨g₃, rfl, hs₃, hthird⟩ := traces_closeCount hsecond.inside (hp₂.trans hp₁)
    (Gen.makes_forM_one.mp hend)
  have hall := (hsecond.trans hthird).withPending g.pending
  have hscopes : g₃.scopes.pop = g.scopes := by rw [hs₃, hs₂, hpop]
  have hpt : pt.advance m (n + 1) =
      { (pt.count counter).advance m n with visible := pt.visible } := by
    rw [Point.advance, Nat.add_comm n 1, ← Nat.add_assoc]
    rfl
  rw [hpt]
  rw [hnext] at hall
  refine ⟨hg.closeScope hall.inside hscopes, fun t => ?_, hall.fields, hall.routines⟩
  have haccesses := hall.accesses t
  cases t <;> exact haccesses

/-! ## Blocks -/

/-- A block uses what its declarations use and then what its statements use, with the declared
variables visible. -/
theorem traced_block (ds : List Declaration) (hbody : TracedAll legacy cs m n bs)
    (hb : Gen.BalancedAll cs) :
    TracedAll legacy (.openBlock :: ds.map .locals ++ cs ++ [.closeBlock])
      ((ds.flatMap Declaration.kept).length + m) ((ds.flatMap Declaration.locals).length + n)
      fun pt t => pt.declared legacy t (ds.flatMap Declaration.blockItems) ++
        bs (pt.declareAll (ds.flatMap Declaration.blockItems)) t := by
  intro pt g g' hg hm
  obtain ⟨g₃, hm, hend⟩ := Gen.makes_forM_append.mp hm
  obtain ⟨g₂, hm, hinner⟩ := Gen.makes_forM_append.mp hm
  obtain ⟨g₁, hopen, hdecls⟩ := Gen.makes_forM_cons.mp hm
  obtain rfl := Gen.makes_openScope.mp hopen
  have hfirst := traces_declarations hg.openScope hdecls
  have hsecond := hfirst.trans (hbody _ g₂ g₃ hfirst.inside hinner)
  obtain ⟨hpop, -⟩ := Gen.keeps_declarations rfl hdecls
  obtain ⟨hs, -⟩ := hb g₂ g₃ hinner
  obtain rfl := Gen.makes_closeScope.mp (Gen.makes_forM_one.mp hend)
  have hscopes : g₃.scopes.pop = g.scopes := (congrArg Scopes.pop hs).trans hpop
  obtain ⟨hfields, hlocals⟩ := Point.declareAll_counts pt ds
  have hpt : pt.advance ((ds.flatMap Declaration.kept).length + m)
      ((ds.flatMap Declaration.locals).length + n) = { (pt.declareAll
        (ds.flatMap Declaration.blockItems)).advance m n with visible := pt.visible } := by
    simp only [Point.advance, hfields, hlocals, Nat.add_assoc]
  rw [hpt]
  refine ⟨hg.closeScope hsecond.inside hscopes, fun t => ?_, hsecond.fields, hsecond.routines⟩
  have haccesses := hsecond.accesses t
  cases t <;> exact haccesses

end Statements

/-- **Statements.** Wherever a statement stands, its names stand for what they stand for there. -/
theorem Stmt.traced (legacy : Bool) (s : Stmt) :
    TracedAll legacy s.constructs s.kept.length s.locals.length fun pt t =>
      s.accesses legacy t pt := by
  induction s using Stmt.induct with
  | block ds body ih =>
    have hbody : TracedAll legacy (Stmt.constructsOf body) (Stmt.keptOf body).length
        (Stmt.localsOf body).length fun pt t => Stmt.accessesOf legacy t pt body := by
      induction body with
      | nil => exact traced_nil
      | cons s ss ihs =>
        rw [Stmt.keptOf, Stmt.localsOf, List.length_append, List.length_append]
        exact (ih s (.head _)).append (ihs fun t ht => ih t (.tail _ ht))
    rw [Stmt.kept, Stmt.locals, List.length_append, List.length_append]
    exact traced_block ds hbody (Gen.balanced_statements fun s _ => s.balanced)
  | expr e => exact traced_effect e
  | empty semicolon => exact traced_nil
  | choice c body ih => exact traced_choice c ih body.balanced
  | choiceOr c body otherwise ih ih' =>
    rw [Stmt.kept, Stmt.locals, List.length_append, List.length_append]
    exact traced_choiceOr c ih body.balanced ih' otherwise.balanced
  | loop c body ih => exact traced_loop c ih body.balanced
  | count counter range body ih => exact traced_count counter range ih body.balanced
  | ret word value => exact traced_ret word value
  | leave word => exact traced_leave word

/-! ## Global variables -/

/-- The code in front of the program gets these uses of variables, all of them of fields. -/
structure StartUses (g g' : Generator) (xs : Accesses) : Prop where
  accesses : g'.initializer.accesses = g.initializer.accesses ++ xs
  fields : FieldsOnly xs

/-- Without constructs the initializer grows by nothing. -/
theorem StartUses.refl (g : Generator) : StartUses g g [] :=
  ⟨(List.append_nil _).symm, keepsTo_nil⟩

/-- The initializer grows by one part and then by the other. -/
theorem StartUses.trans {xs ys : Accesses} (h : StartUses g g₁ xs) (h' : StartUses g₁ g' ys) :
    StartUses g g' (xs ++ ys) :=
  ⟨by rw [h'.accesses, h.accesses, List.append_assoc], h.fields.append h'.fields⟩

/-- A variable declared outside all functions. -/
theorem Point.Outside.variable (h : pt.Outside legacy g) {d : Declarator} {type : WordType}
    {static : Bool} (hm : Gen.Makes (d.compile type static) g ⟨⟩ g') :
    (pt.declare true d).Outside legacy g' ∧
      StartUses g g' (pt.declared legacy .initializer [(true, d)]) ∧
      g'.routines = g.routines ∧ g'.current = g.current ∧ g'.body = g.body := by
  obtain ⟨v, storage, t, g₁, hv, hallocate, hprepare⟩ := Declarator.makes_symbol hm
  have hs : v.shape = d.declaredShape := by rw [hv]
  obtain ⟨-, n, name, hh, hn, rfl, rfl⟩ := Declarator.makes_allocate_global h.outer hallocate
  have hnext : v.handle = pt.next true := by
    rw [hh, Point.next, if_pos rfl, ← h.fields, ← hn]
  have hstep {g₂ : Generator} (hm : Gen.Makes (prepareCode (home true) v d.init) g₂ ⟨⟩ g')
      (hknows : (pt.declare true d).Knows legacy g₂) (houter : g₂.scopes.isGlobal = true)
      (hi : g₂.initializer = g.initializer) :
      (pt.declare true d).Outside legacy g' ∧
        StartUses g g' (pt.declared legacy .initializer [(true, d)]) ∧
        g'.routines = g₂.routines ∧ g'.current = g₂.current ∧ g'.body = g₂.body := by
    obtain ⟨draft, rfl, haccesses, hfields⟩ := hknows.prepare hs hnext hm
    refine ⟨⟨hknows.onDraft _ _, houter⟩, ⟨?_, hfields.append keepsTo_nil⟩, rfl, rfl, rfl⟩
    rw [Point.declared, Point.declared, List.append_nil, ← hi]
    exact haccesses .initializer
  have houter := (Scopes.isGlobal_withCurrent (s := g.scopes)
    (g.scopes.current.insert d.name.value v)).trans h.outer
  have hall := hstep hprepare (h.toKnows.declare hs hnext rfl rfl rfl (Array.size_push ..))
    houter rfl
  exact hall

/-- Outside functions a declaration adds its initialisers to the initializer, and nothing else. -/
theorem Point.Outside.globals (h : pt.Outside legacy g) {d : Declaration}
    (hm : Gen.Makes d.compile g ⟨⟩ g') :
    (pt.declareAll d.globalItems).Outside legacy g' ∧
      StartUses g g' (pt.declared legacy .initializer d.globalItems) ∧
      g'.routines = g.routines ∧ g'.current = g.current ∧ g'.body = g.body := by
  unfold Declaration.compile at hm
  unfold Declaration.globalItems
  generalize d.items = items at hm ⊢
  induction items generalizing pt g with
  | nil =>
    rw [Gen.makes_forM_nil.mp hm]
    exact ⟨h, .refl g, rfl, rfl, rfl⟩
  | cons i items ih =>
    obtain ⟨g₁, h₁, h₂⟩ := Gen.makes_forM_cons.mp hm
    obtain ⟨hfirst, hi, hr, hc, hb⟩ := h.variable h₁
    obtain ⟨hrest, hi', hr', hc', hb'⟩ := ih hfirst h₂
    refine ⟨hrest, ?_, hr'.trans hr, hc'.trans hc, hb'.trans hb⟩
    rw [List.map_cons, ← List.singleton_append, Point.declared_append]
    exact hi.trans hi'

/-! ## Functions -/

/-- The uses of variables in the functions so far. The last one may not be finished yet. -/
def Listed (g : Generator) (xs : List Accesses) : Prop :=
  (g.current = none ∧ g.body = .empty ∧ g.routines.toList.map (fun r => r.code.accesses) = xs) ∨
    ∃ f, g.current = some f ∧
      g.routines.toList.map (fun r => r.code.accesses) ++ [g.body.accesses] = xs

/-- The return at the end of a function uses no variables. -/
theorem Draft.accesses_finished (d : Draft) (returns : Option WordType) :
    (d.emitAll (implicitReturn returns)).toCode.accesses = d.accesses := by
  have hreturn : accessesIn (implicitReturn returns) = [] := by
    cases returns <;> rfl
  rw [show ∀ d : Draft, d.toCode.accesses = d.accesses from fun _ => rfl,
    Draft.accesses_emitAll, hreturn, List.append_nil]

/-- The uses of a function are those of its routine when it ends. -/
theorem Listed.finish {as : List Accesses} (h : Listed g as)
    (hm : Gen.Makes Gen.finishFunction g ⟨⟩ g') : ∃ rs : Array Routine,
      g' = { g with routines := rs, body := .empty, current := none } ∧
      rs.toList.map (fun r => r.code.accesses) = as := by
  obtain ⟨hf, hb, rfl⟩ | ⟨f, hf, rfl⟩ := h
  · obtain rfl := Gen.makes_finishFunction_none hf hm
    refine ⟨g'.routines, ?_, rfl⟩
    rw [← hf, ← hb]
  · refine ⟨_, Gen.makes_finishFunction hf hm, ?_⟩
    rw [Array.toList_push, List.map_append, List.map_singleton, Draft.accesses_finished]

/-- Parameters behind others are counted on. -/
theorem Visible.parameters_append {vis : Visible} {k : Nat} {ps qs : List (Name × Slot)} :
    vis.parameters k (ps ++ qs) = (vis.parameters k ps).parameters (k + ps.length) qs := by
  induction ps generalizing vis k with
  | nil => rfl
  | cons p ps ih =>
    rw [List.cons_append, Visible.parameters, Visible.parameters, ih, List.length_cons,
      Nat.add_comm ps.length, ← Nat.add_assoc]

/-- Parameters are visible in the body of their function, by their positions. -/
theorem Visible.Fits.parameters {vis : Visible} (h : vis.Fits legacy g) {group : ParameterGroup}
    {k : Nat} (hk : g.scopes.count .argument = .ofNat k)
    (hm : Gen.Makes group.compile g ⟨⟩ g') :
    (vis.parameters k group.slots).Fits legacy g' ∧
      g'.scopes.count .argument = .ofNat (k + group.slots.length) := by
  unfold ParameterGroup.compile at hm
  generalize group.slots = slots at hm ⊢
  induction slots generalizing vis g k with
  | nil =>
    rw [Gen.makes_forM_nil.mp hm]
    exact ⟨h, hk⟩
  | cons p ps ih =>
    obtain ⟨name, slot⟩ := p
    obtain ⟨g₁, h₁, h₂⟩ := Gen.makes_forM_cons.mp hm
    obtain ⟨v, hv, rfl⟩ := Gen.makes_parameter hk h₁
    have hfits : (vis.declare name v.variable).Fits legacy
        (g.withScopes (g.scopes.withCurrent (g.scopes.current.insert name.value v))) :=
      h.declare rfl rfl rfl
    have hvariable : v.variable =
        ⟨if slot.array then .array none else .scalar, .argument (.ofNat k)⟩ := by
      rw [hv, Symbol.variable]
    rw [hvariable] at hfits
    obtain ⟨hall, hcount⟩ := ih hfits (Gen.count_insert_argument hk (by rw [hv])) h₂
    refine ⟨hall, hcount.trans ?_⟩
    rw [List.length_cons, Nat.add_assoc, Nat.add_comm 1]

/-- Groups of parameters are visible in the order of the text. -/
theorem Visible.Fits.parameterGroups {vis : Visible} (h : vis.Fits legacy g)
    {groups : List ParameterGroup} {k : Nat} (hk : g.scopes.count .argument = .ofNat k)
    (hm : Gen.Makes ((groups.map .parameters).forM Construct.compile) g ⟨⟩ g') :
    (vis.parameters k (groups.flatMap ParameterGroup.slots)).Fits legacy g' := by
  induction groups generalizing vis g k with
  | nil =>
    rw [Gen.makes_forM_nil.mp hm]
    exact h
  | cons group groups ih =>
    obtain ⟨g₁, h₁, h₂⟩ := Gen.makes_forM_cons.mp hm
    obtain ⟨hfirst, hcount⟩ := h.parameters hk h₁
    rw [List.flatMap_cons, Visible.parameters_append]
    exact ih hfirst hcount h₂

/-- A new function reads no input, and the one that does is still there. -/
theorem Visible.Fits.beginFunction {vis : Visible} (h : vis.Fits legacy g) {name : String}
    {f : FunctionSymbol} (hnone : g.functions.lookup name = none) (hf : f.body ≠ .intrinsic .put)
    (hs : g'.scopes = g.scopes) (hl : g'.legacy = g.legacy)
    (hfunctions : g'.functions = ⟨(name, f) :: g.functions.entries⟩) : vis.Fits legacy g' := by
  refine ⟨by rw [hs]; exact h.names, hl.trans h.legacy, fun key => ?_⟩
  have hlookup : g'.functions.lookup key =
      if key = name then some f else g.functions.lookup key := by
    rw [hfunctions, Functions.lookup_cons]
  rw [hlookup, ← h.input]
  by_cases hkey : key = name
  · subst hkey
    rw [if_pos rfl, hnone]
    constructor
    · rintro ⟨_, ⟨⟩, hbody⟩
      exact absurd hbody hf
    · rintro ⟨_, ⟨⟩, -⟩
  · rw [if_neg hkey]

/-- The head of a function: its parameters are visible, and so is all that was before. -/
theorem Point.Outside.enter (h : pt.Outside legacy g) {as : List Accesses} (hl : Listed g as)
    {header : Header} (hopen : Gen.Makes ((.openFunction :: header.params.map .parameters).forM
      Construct.compile) g ⟨⟩ g₁) (hbegin : Gen.Makes (Gen.beginFunction header) g₁ ⟨⟩ g') :
    (pt.enter header).Inside legacy g' ∧ g'.scopes.pop = g.scopes ∧ g'.body = .empty ∧
      g'.initializer = g.initializer ∧ g'.routines.toList.map (fun r => r.code.accesses) = as := by
  obtain ⟨g₀, hscope, hparams⟩ := Gen.makes_forM_cons.mp hopen
  obtain rfl := Gen.makes_openScope.mp hscope
  have hfits : pt.visible.Fits legacy (g.withScopes g.scopes.push) :=
    h.fits.congr (fun _ => Scopes.lookup_push) rfl rfl
  have hparameters := hfits.parameterGroups (k := 0) rfl hparams
  obtain ⟨s, rfl, hpop, hinner, -⟩ := Gen.makes_parameterGroups (k := 0) rfl rfl hparams
  obtain ⟨g₂, n, hfinish, -, hnone, rfl⟩ := Gen.makes_beginFunction hbegin
  have hlisted : Listed ((g.withScopes g.scopes.push).withScopes s) as := hl
  obtain ⟨rs, rfl, has⟩ := hlisted.finish hfinish
  refine ⟨⟨⟨?_, h.fields⟩, hinner, _, rfl, rfl⟩, hpop, rfl, rfl, has⟩
  exact hparameters.beginFunction hnone
    (f := ⟨header.parameterTypes, header.returnType, .routine n⟩) nofun rfl rfl rfl

/-- A function, up to the return at its end. -/
theorem Point.Outside.function (h : pt.Outside legacy g) {as : List Accesses} (hl : Listed g as)
    {header : Header} {body : Stmt}
    (hm : Gen.Makes ((TopLevel.function header body).constructs.forM Construct.compile) g ⟨⟩ g') :
    (pt.pass (.function header body)).Outside legacy g' ∧
      Listed g' (as ++ [body.accesses legacy .function (pt.enter header)]) ∧
      StartUses g g' (body.accesses legacy .initializer (pt.enter header)) := by
  obtain ⟨g₃, hm, hclose⟩ := Gen.makes_forM_append.mp hm
  obtain ⟨g₁, hopen, hm⟩ := Gen.makes_forM_append.mp hm
  obtain ⟨g₂, hbegin, hbody⟩ := Gen.makes_forM_cons.mp hm
  -- the function before is finished here, and this one when the next one begins
  obtain ⟨hinside, hpop, hempty, hinitializer, has⟩ := h.enter hl hopen hbegin
  obtain rfl := Gen.makes_closeScope.mp (Gen.makes_forM_one.mp hclose)
  have htraced := body.traced legacy _ g₂ g₃ hinside hbody
  obtain ⟨hs, -⟩ := body.balanced g₂ g₃ hbody
  have hscopes : g₃.scopes.pop = g.scopes := (congrArg Scopes.pop hs).trans hpop
  refine ⟨⟨⟨⟨fun n => ?_, htraced.inside.fits.legacy, htraced.inside.fits.input⟩,
    htraced.inside.fields⟩, ?_⟩, .inr ?_, ?_⟩
  · rw [Point.pass, ← h.fits.names]
    exact congrArg (fun s => (s.lookup n.value).map Symbol.variable) hscopes
  · exact (congrArg Scopes.isGlobal hscopes).trans h.outer
  · obtain ⟨f, hf, -⟩ := htraced.inside.current
    refine ⟨f, hf, ?_⟩
    have hcode : g₃.body.accesses = body.accesses legacy .function (pt.enter header) := by
      have haccesses := htraced.accesses .function
      rwa [Generator.draft, Generator.draft, hempty] at haccesses
    show g₃.routines.toList.map _ ++ [g₃.body.accesses] = _
    rw [hcode, htraced.routines, has]
  · have haccesses := htraced.accesses .initializer
    rw [Generator.draft, Generator.draft, hinitializer] at haccesses
    exact ⟨haccesses, htraced.fields⟩

/-- The declarations of a program from a point on. -/
theorem Point.Outside.items (h : pt.Outside legacy g) {as : List Accesses} (hl : Listed g as)
    {items : List TopLevel}
    (hm : Gen.Makes ((items.flatMap TopLevel.constructs).forM Construct.compile) g ⟨⟩ g') :
    Listed g' (as ++ Program.bodiesFrom legacy pt items) ∧
      StartUses g g' (Program.startFrom legacy pt items) := by
  induction items generalizing pt g as with
  | nil =>
    rw [Gen.makes_forM_nil.mp hm]
    exact ⟨by rwa [Program.bodiesFrom, List.append_nil], .refl g⟩
  | cons item items ih =>
    obtain ⟨g₁, h₁, h₂⟩ := Gen.makes_forM_append.mp hm
    cases item with
    | «variables» d =>
      obtain ⟨hfirst, hi, hr, hc, hb⟩ := h.globals (Gen.makes_forM_one.mp h₁)
      have hl₁ : Listed g₁ as := by
        unfold Listed
        rw [hr, hc, hb]
        exact hl
      obtain ⟨hl', hi'⟩ := ih hfirst hl₁ h₂
      exact ⟨hl', hi.trans hi'⟩
    | function header body =>
      obtain ⟨hfirst, hl₁, hi⟩ := h.function hl h₁
      obtain ⟨hl', hi'⟩ := ih hfirst hl₁ h₂
      rw [List.append_assoc] at hl'
      exact ⟨hl', hi.trans hi'⟩

/-- At the start no variables are visible, and one function reads input. -/
theorem Point.Outside.origin (legacy : Bool) : Point.origin.Outside legacy (.new legacy) := by
  refine ⟨⟨⟨fun _ => rfl, rfl, fun name => ?_⟩, rfl⟩, rfl⟩
  show (∃ f, Functions.new.lookup name = some f ∧ _) ↔ _
  rw [Functions.lookup, Functions.new, List.lookup_cons, List.lookup_cons, List.lookup_nil]
  by_cases hprint : name = "print"
  · subst hprint
    decide
  · rw [beq_eq_false_iff_ne.mpr hprint]
    by_cases hput : name = inputName
    · subst hput
      exact ⟨fun _ => rfl, fun _ => ⟨_, rfl, rfl⟩⟩
    · rw [show (name == "put") = false from beq_eq_false_iff_ne.mpr hput]
      exact ⟨fun h => by simp at h, fun h => absurd h hput⟩

/-! ## The entry function -/

/-- The name of a routine is known. -/
def Functions.KnowsRoutine (fs : Functions) (name : String) : Prop :=
  ∃ i, (fs.lookup name).map FunctionSymbol.body = some (.routine i)

/-- There are no heads of functions inside a statement. -/
theorem Stmt.header_not_mem (s : Stmt) (h : Header) : .header h ∉ s.constructs := by
  induction s using Stmt.induct with
  | block ds body ih =>
    have hbody : .header h ∉ Stmt.constructsOf body := by
      induction body with
      | nil => exact List.not_mem_nil
      | cons s ss ihs =>
        rw [Stmt.constructsOf, List.mem_append, not_or]
        exact ⟨ih s (.head _), ihs fun t ht => ih t (.tail _ ht)⟩
    simpa using hbody
  | choice c body ih => simpa using ih
  | choiceOr c body otherwise ih ih' => simpa using ⟨ih, ih'⟩
  | loop c body ih => simpa using ih
  | count counter range body ih => simpa using ih
  | _ => simp

/-- A statement makes no function known, and leaves the current one what it is. -/
theorem Gen.functions_statement {s : Stmt}
    (hm : Gen.Makes (s.constructs.forM Construct.compile) g ⟨⟩ g') : SameFunctions g g' :=
  functions_constructs (fun _ hc h => by rintro rfl; exact s.header_not_mem h hc) hm

/-- The routines that are known behind declarations are those from before and the new functions. -/
theorem Program.knowsRoutine_iff {items : List TopLevel}
    (hm : Gen.Makes ((items.flatMap TopLevel.constructs).forM Construct.compile) g ⟨⟩ g')
    (name : String) : g'.functions.KnowsRoutine name ↔
      g.functions.KnowsRoutine name ∨ ∃ k ∈ headersOf items, k.name.value = name := by
  induction items generalizing g with
  | nil =>
    rw [Gen.makes_forM_nil.mp hm]
    exact ⟨.inl, fun h => h.elim id fun ⟨_, hk, _⟩ => absurd hk List.not_mem_nil⟩
  | cons item items ih =>
    rw [List.flatMap_cons] at hm
    obtain ⟨g₁, hfirst, hrest⟩ := Gen.makes_forM_append.mp hm
    rw [ih hrest]
    cases item with
    | «variables» d =>
      have hsame : g₁.functions = g.functions :=
        (Gen.functions_declaration d _ _ _ (Gen.makes_forM_one.mp hfirst)).known
      rw [hsame]
      exact Iff.rfl
    | function header body =>
      obtain ⟨g₂, hfirst, hclose⟩ := Gen.makes_forM_append.mp hfirst
      obtain ⟨g₃, hopen, hfirst⟩ := Gen.makes_forM_append.mp hfirst
      obtain ⟨g₄, hbegin, hbody⟩ := Gen.makes_forM_cons.mp hfirst
      have hsame₁ : g₁.functions = g₂.functions :=
        (Gen.functions_constructs (by simp) hclose).known
      have hsame₂ : g₂.functions = g₄.functions := (Gen.functions_statement hbody).known
      have hsame₃ : g₃.functions = g.functions := (Gen.functions_constructs (by simp) hopen).known
      obtain ⟨g₅, n, hfinish, -, hnone, hg₄⟩ := Gen.makes_beginFunction hbegin
      rw [Gen.functions_finishFunction hfinish, hsame₃] at hnone
      have hlookup : g₁.functions.lookup name = if name = header.name.value then
          some ⟨header.parameterTypes, header.returnType, .routine n⟩
          else g.functions.lookup name := by
        rw [hsame₁, hsame₂, hg₄, ← hsame₃, ← Gen.functions_finishFunction hfinish]
        exact Functions.lookup_cons
      have hheaders : headersOf (.function header body :: items) =
          header :: headersOf items := rfl
      rw [hheaders, Functions.KnowsRoutine, hlookup]
      by_cases hname : name = header.name.value
      · subst hname
        simp [Functions.KnowsRoutine]
      · rw [if_neg hname]
        simp [Functions.KnowsRoutine, Ne.symm hname]

/-- The return at the end of the code in front of the program uses no variables, and neither does
the routine that stands in for an entry function. -/
theorem Generator.accesses_toImage (g : Generator) :
    (g.onDraft .initializer fun d => d.emit .ret).toImage.initializer.accesses =
        g.initializer.accesses ∧
      (g.functions.KnowsRoutine entryName ∧
          (g.onDraft .initializer fun d => d.emit .ret).toImage.routines = g.routines ∨
        ¬ g.functions.KnowsRoutine entryName ∧
          (g.onDraft .initializer fun d => d.emit .ret).toImage.routines =
            g.routines.push emptyEntry) := by
  have hcode : (g.initializer.emit .ret).toCode.accesses = g.initializer.accesses := by
    rw [show ∀ d : Draft, d.toCode.accesses = d.accesses from fun _ => rfl, Draft.accesses_emit]
    exact List.append_nil _
  obtain ⟨i, hmain, hi⟩ | ⟨hmain, hi⟩ :=
    (g.onDraft .initializer fun d => d.emit .ret).toImage_cases <;> rw [hi]
  · exact ⟨hcode, .inl ⟨⟨i, hmain⟩, rfl⟩⟩
  · exact ⟨hcode, .inr ⟨fun ⟨i, h⟩ => hmain i h, rfl⟩⟩

end

section

variable {name : String} {legacy : Bool} {source : List UInt8} {c : Compilation}

/-- **Names are resolved lexically.** The code of an accepted program uses the variables that its
tree says, in the code in front of the program and in each function; and every statement leaves the
visible variables and the statements around it as they were. -/
theorem compile_resolves (h : compile name legacy source = .ok c) :
    c.image.initializer.accesses = c.tree.startAccesses legacy ∧
      c.image.routines.toList.map (fun r => r.code.accesses) = c.tree.bodyAccesses legacy ++
        (if c.tree.headers.any fun k => k.name.value = entryName then [] else [[]]) ∧
      ∀ (s : Stmt) (g g' : Generator), Gen.Makes (s.constructs.forM Construct.compile) g ⟨⟩ g' →
        g'.scopes = g.scopes ∧ g'.pending = g.pending := by
  obtain ⟨g, hgenerate, hfinish⟩ := compile_ok h
  obtain ⟨g₁, hlast, himage⟩ := makes_of_finish g
  have hnone : Listed (.new legacy) [] := .inl ⟨rfl, rfl, rfl⟩
  obtain ⟨hlisted, hstart⟩ :=
    (Point.Outside.origin legacy).items hnone (makes_of_generate hgenerate)
  obtain ⟨rs, rfl, hbodies⟩ := hlisted.finish hlast
  obtain ⟨hinitializer, hroutines⟩ := Generator.accesses_toImage
    { g with routines := rs, body := .empty, current := none }
  rw [hfinish, himage]
  refine ⟨hinitializer.trans hstart.accesses, ?_, fun s g g' hm => s.balanced g g' hm⟩
  -- a routine stands in for an entry function exactly if there is no function of that name
  have hmain : g.functions.KnowsRoutine entryName ↔
      c.tree.headers.any (fun k => k.name.value = entryName) = true := by
    rw [Program.knowsRoutine_iff (makes_of_generate hgenerate), List.any_eq_true]
    simp only [decide_eq_true_eq]
    refine ⟨fun h => h.resolve_left ?_, .inr⟩
    rintro ⟨i, hi⟩
    cases hi
  obtain ⟨hknown, hr⟩ | ⟨hunknown, hr⟩ := hroutines
  · rw [hr, if_pos (hmain.mp hknown), List.append_nil]
    exact hbodies
  · rw [hr, if_neg fun h => hunknown (hmain.mpr h), Array.toList_push, List.map_append, hbodies]
    rfl

/-- A program in which one name stands for three variables. The counter of the loop is meant in the
whole range, the variable of the block in its own initialiser, and the global variable behind. -/
theorem compile_resolves_shadowed :
    ∃ c, compile "" false ("int i : 7; int main() \x7b for i = i to i by i do " ++
        "\x7b int i : i; print(i); \x7d return i; \x7d").toUTF8.toList = .ok c ∧
      c.image.initializer.accesses = [some (.store (.field 0))] ∧
      c.image.routines.toList.map (fun r => r.code.accesses) =
        [[some (.load (.local 0)), some (.store (.local 0)),
          some (.load (.local 1)), some (.store (.local 1)), some (.load (.local 1)),
          some (.load (.local 0)), some (.load (.local 0)), some (.store (.local 0)),
          some (.load (.local 0)), some (.load (.local 0)), some (.load (.field 0))]] := by
  obtain ⟨c, hc, -, hq⟩ := exists_compilation (q := fun c => decide
      (c.tree.startAccesses false = [some (.store (.field 0))] ∧
        c.tree.bodyAccesses false = [[some (.load (.local 0)), some (.store (.local 0)),
          some (.load (.local 1)), some (.store (.local 1)), some (.load (.local 1)),
          some (.load (.local 0)), some (.load (.local 0)), some (.store (.local 0)),
          some (.load (.local 0)), some (.load (.local 0)), some (.load (.field 0))]] ∧
        c.tree.headers.any (fun k => k.name.value = entryName)))
    (show (compile "" false ("int i : 7; int main() \x7b for i = i to i by i do " ++
      "\x7b int i : i; print(i); \x7d return i; \x7d").toUTF8.toList).toOption.any _ = true by
        decide +kernel)
  obtain ⟨hstart, hbody, hmain⟩ := of_decide_eq_true hq
  obtain ⟨hinitializer, hroutines, -⟩ := compile_resolves hc
  refine ⟨c, hc, hinitializer.trans hstart, ?_⟩
  rw [hroutines, hbody, if_pos hmain, List.append_nil]

end

end OnePass
