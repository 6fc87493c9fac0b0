import OnePass.Proofs.FunctionLinkage
import OnePass.Proofs.Preparations

/-!
# Declarations are carried out in order

Main statement: a run first carries out the declarations of global and static variables, in the
order of the text and each of them once, and the declarations of a block are carried out wherever it
is entered (`compile_initialises`).

A function adds to two streams. What its static variables add in front of the program is found like
the code of its statements: `Site.Readies` says for constructs, wherever they stand, that the stream
in front of the program makes their static variables ready. The induction is on statements.
-/

namespace OnePass

open Preparation (carryOutAll carryOutAll_append)

namespace Site

variable {w : Site} {sc : Scene} {g g₁ g' : Generator} {m n p q : Nat} {s : Scopes} {H : Heap}
  {mem : Memory} {L : List Sketch}

/-! ## In front of the program -/

/-- The stream in front of the program, where the same names are known. -/
def outset (w : Site) : Site :=
  { w with
    target := .initializer
    name := "<initializer>"
    code := w.program.image.initializer
    args := []
    locals := []
    first := 0
    last := w.program.image.initializer.instructions.size }

/-- Which names are known does not matter to code. -/
theorem carries_knowing {s : Scopes} {fs : Functions} {legacy : Bool} {ev : Eval Unit} :
    ({ w with scopes := s, functions := fs, legacy } : Site).Carries p q ev ↔ w.Carries p q ev := by
  have hconsistent (H : Heap) (mem : Memory) :
      ({ w with scopes := s, functions := fs, legacy } : Site).Consistent H mem ↔
        w.Consistent H mem :=
    ⟨fun h => ⟨h.store, h.args, h.locals⟩, fun h => ⟨h.store, h.args, h.locals⟩⟩
  constructor
  · intro h H mem hst
    exact (h H mem ((hconsistent H mem).mpr hst)).imp fun _ _ ⟨H', hst', hkeeps⟩ =>
      ⟨H', (hconsistent _ _).mp hst', hkeeps⟩
  · intro h H mem hst
    exact (h H mem ((hconsistent H mem).mp hst)).imp fun _ _ ⟨H', hst', hkeeps⟩ =>
      ⟨H', (hconsistent _ _).mpr hst', hkeeps⟩

/-- A field is made ready by the code of its declaration. -/
theorem carries_field {u : Site} (ht : u.target = .initializer) (hu : u.Sound)
    (hp : u.program.image.Typed u.program.tree.plan) {v : Symbol} (hv : u.Offers v)
    (hd : v.Declared) {init : Option Expr}
    (hm : Gen.Makes (prepareCode .initializer v init) g ⟨⟩ g') (hf : u.Fits g)
    (hcode : u.Continues g'.initializer) :
    u.Carries g.initializer.position g'.initializer.position
      (Preparation.mk u.situation v init).carryOut := by
  obtain ⟨program, target, scopes, functions, legacy, name, code, args, locals, callers, first,
    last, fuel⟩ := u
  obtain rfl : target = .initializer := ht
  have hperforms := performs_prepare hv hd init fun e => computes hu hp e
  rw [Situation.prepare_eq] at hperforms
  exact fun H mem hst => hperforms g _ g' H mem [] hf hm hcode hst

/-! ## Declarations in blocks -/

section

variable (hw : w.Hosts sc) (hfair : sc.Fair) {type : WordType} {d : Declarator}

/-- Inside a function all visible fields mean something in front of the program. -/
theorem Hosts.outset_sound (hw : w.Hosts sc) (h : sc.Names g m) (hf : g.functions = w.functions) :
    (w.outset.withScopes g.scopes).Sound := (hw.sound h hf).before rfl rfl rfl rfl rfl

/-- A local variable has code in its function only. -/
theorem initializer_of_local (hg : sc.Holds g m n) (h : Gen.Makes (d.compile type false) g ⟨⟩ g') :
    g'.initializer = g.initializer := by
  obtain ⟨v, storage, t, g₁, -, hallocate, hprepare⟩ := Declarator.makes_symbol h
  obtain ⟨f, hcurrent, -⟩ := hg.current
  obtain ⟨-, -, rfl, locals, -, rfl⟩ := Declarator.makes_allocate_local hg.inner hcurrent hallocate
  have hsame := (extends_prepareCode .function v d.init).initializer hprepare
  exact hsame

include hfair

theorem initializer_of_locals {items : List Declarator}
    (hl : StandsAt (items.map (Declarator.slot type)) sc.outline.locals n) (hg : sc.Holds g m n)
    (hb : sc.Body g L []) (h : Gen.Makes (items.forM (Declarator.compile type false)) g ⟨⟩ g')
    (haddr : g'.Addressable) : g'.initializer = g.initializer := by
  induction items generalizing g n L with
  | nil => rw [Gen.makes_forM_nil.mp h]
  | cons i items ih =>
    obtain ⟨g₁, h₁, h₂⟩ := Gen.makes_forM_cons.mp h
    obtain ⟨hi, hrest⟩ := StandsAt.cons_iff.mp hl
    have haddr₁ := (Gen.steady_forM (Gen.steady_declarator _ _) _ _ _ h₂).addressable haddr
    have hfirst := Scene.reaches_local hfair hi hg hb h₁ haddr₁
    obtain ⟨L₁, -, hb₁⟩ := hfirst.body
    exact (ih hrest hfirst.holds hb₁ h₂).trans (initializer_of_local hg h₁)

include hw

/-- A static variable is made ready in front of the program. -/
theorem readies_static (hk : sc.kept[m]? = some ⟨d.slot type, d.init⟩) (hg : sc.Holds g m n)
    (hb : sc.Body g L []) (hf : (w.inside s).Fits g) (h : Gen.Makes (d.compile type true) g ⟨⟩ g')
    (haddr : g'.Addressable) (hcode : w.program.image.initializer.Continues g'.initializer) :
    w.outset.Carries g.initializer.position g'.initializer.position
      (Preparation.mk ((w.surroundings g).declare type true d).toSituation
        ((w.surroundings g).symbol type true d) d.init).carryOut := by
  have hr := Scene.reaches_static hfair hk hg hb h haddr
  obtain ⟨heq, -, g₁, hprepare, hsame, hscopes, hfunctions, hlegacy⟩ :=
    declares_static (w := w) hfair hk hg hb h haddr
  have hsound := hw.outset_sound hr.holds.toNames (hr.functions.trans hf.functions)
  have hvisible : g'.scopes.lookup d.name.value = some ((w.surroundings g).symbol type true d) := by
    have hinsert : g'.scopes = ((w.surroundings g).declare type true d).scopes := by rw [← heq]; rfl
    rw [hinsert]
    exact Scopes.lookup_insert.trans (if_pos rfl)
  have hoffers := hsound.slots _ _ hvisible fun _ => ⟨_, rfl⟩
  obtain ⟨-, hdeclared, -⟩ := Declarator.symbol_declared (d := d)
    (show ((w.surroundings g).symbol type true d).type = type from rfl) rfl
  have hready := carries_field (u := w.outset.withScopes g'.scopes) rfl hsound hw.image hoffers
    hdeclared hprepare
    ⟨hscopes, hfunctions.trans hf.functions, hlegacy.trans hf.legacy, Nat.zero_le _⟩
    ⟨hcode, hcode.position_le⟩
  rw [← heq, ← hsame]
  exact carries_knowing.mp hready

theorem readies_statics {items : List Declarator}
    (hk : StandsAt (items.map fun i => (⟨i.slot type, i.init⟩ : Kept)) sc.kept m)
    (hg : sc.Holds g m n) (hb : sc.Body g L []) (hf : (w.inside s).Fits g)
    (h : Gen.Makes (items.forM (Declarator.compile type true)) g ⟨⟩ g') (haddr : g'.Addressable)
    (hcode : w.program.image.initializer.Continues g'.initializer) :
    w.outset.Carries g.initializer.position g'.initializer.position
      (carryOutAll ((w.surroundings g).preparationsOf type true items)) := by
  induction items generalizing g m L s with
  | nil =>
    obtain rfl := Gen.makes_forM_nil.mp h
    exact carries_pure
  | cons i items ih =>
    obtain ⟨g₁, h₁, h₂⟩ := Gen.makes_forM_cons.mp h
    obtain ⟨hi, hrest⟩ := StandsAt.cons_iff.mp hk
    have hlater := Gen.steady_forM (Gen.steady_declarator _ _) _ _ _ h₂
    have haddr₁ := hlater.addressable haddr
    have hfirst := Scene.reaches_static hfair hi hg hb h₁ haddr₁
    obtain ⟨L₁, -, hb₁⟩ := hfirst.body
    obtain ⟨heq, -⟩ := declares_static (w := w) hfair hi hg hb h₁ haddr₁
    have hone := readies_static hw hfair hi hg hb hf h₁ haddr₁ (hcode.mono hlater.initializer)
    -- the others are declared in what is visible behind the first one
    have hmore := ih hrest hfirst.holds hb₁ (hf.follows ⟨hfirst.functions,
      (Gen.steady_declarator _ _ _ _ _ _ h₁).legacy, hfirst.grows.position⟩) h₂
    rw [heq] at hmore
    exact hone.seq hmore

theorem readies_declaration {d : Declaration} (hk : StandsAt d.kept sc.kept m)
    (hl : StandsAt d.locals sc.outline.locals n) (hg : sc.Holds g m n) (hb : sc.Body g L [])
    (hf : (w.inside s).Fits g) (h : Gen.Makes (Construct.locals d).compile g ⟨⟩ g')
    (haddr : g'.Addressable) (hcode : w.program.image.initializer.Continues g'.initializer) :
    w.outset.Carries g.initializer.position g'.initializer.position
      (carryOutAll (if d.static.isSome then
        (w.surroundings g).preparationsOf d.type.value d.static.isSome d.items else [])) := by
  unfold Declaration.kept Declaration.fields at hk
  unfold Declaration.locals at hl
  replace h : Gen.Makes (d.items.forM (Declarator.compile d.type.value d.static.isSome)) g
    ⟨⟩ g' := h
  cases hs : d.static.isSome with
  | true =>
    rw [hs] at hk h
    exact readies_statics hw hfair hk hg hb hf h haddr hcode
  | false =>
    rw [hs] at hl h
    rw [initializer_of_locals hfair hl hg hb h haddr]
    exact carries_pure

/-- The static variables of a block are made ready in front of the program. -/
theorem readies_declarations {ds : List Declaration}
    (hk : StandsAt (ds.flatMap Declaration.kept) sc.kept m)
    (hl : StandsAt (ds.flatMap Declaration.locals) sc.outline.locals n) (hg : sc.Holds g m n)
    (hb : sc.Body g L []) (hf : (w.inside s).Fits g)
    (h : Gen.Makes ((ds.map .locals).forM Construct.compile) g ⟨⟩ g') (haddr : g'.Addressable)
    (hbody : w.code.Continues g'.body) (hlast : g'.body.position ≤ w.last)
    (hcode : w.program.image.initializer.Continues g'.initializer) :
    w.outset.Carries g.initializer.position g'.initializer.position
      (carryOutAll ((w.surroundings g).statics ds)) := by
  induction ds generalizing g m n L s with
  | nil =>
    obtain rfl := Gen.makes_forM_nil.mp h
    exact carries_pure
  | cons d ds ih =>
    rw [List.flatMap_cons] at hk hl
    obtain ⟨hk₁, hk₂⟩ := StandsAt.append_iff.mp hk
    obtain ⟨hl₁, hl₂⟩ := StandsAt.append_iff.mp hl
    obtain ⟨g₁, h₁, h₂⟩ := Gen.makes_forM_cons.mp h
    have hlater := Gen.makes_constructs_later h₂
    have haddr₁ := hlater.addressable haddr
    have hfirst := Scene.reaches_declaration hfair hk₁ hl₁ hg hb h₁ haddr₁
    obtain ⟨L₁, -, hb₁⟩ := hfirst.body
    obtain ⟨_, -, -, -, hmoves⟩ := Scene.moves_declarations hfair (.refl hfirst.holds hb₁) hk₂ hl₂
      List.prefix_rfl h₂ haddr
    have hgrows : g₁.body.Grows g'.body := hmoves.grows
    obtain ⟨heq, -⟩ := carries_declaration hw hfair hk₁ hl₁ hg hb hf h₁ haddr₁
      (hbody.mono hgrows.extended) (hgrows.position.trans hlast)
    have hmore := ih hk₂ hl₂ hfirst.holds hb₁ (hf.follows ⟨hfirst.functions,
      (Gen.steady_construct (.locals d) _ _ _ h₁).legacy, hfirst.grows.position⟩) h₂
    rw [heq] at hmore
    rw [Surroundings.statics_cons, carryOutAll_append]
    have hone := readies_declaration hw hfair hk₁ hl₁ hg hb hf h₁ haddr₁
      (hcode.mono hlater.initializer)
    exact hone.seq hmore

end

/-! ## Statements -/

/-- What constructs add in front of the program makes static variables ready, wherever the
constructs stand in their function. -/
def Readies (w : Site) (sc : Scene) (cs : List Construct) (ks : List Kept) (ls : List Slot)
    (xs : Surroundings → List Preparation) : Prop :=
  ∀ g g' m n q, sc.Stands w.code cs ks ls g g' m n q → (w.inside g.scopes).Fits g →
    g'.body.position ≤ w.last → w.program.image.initializer.Continues g'.initializer →
    w.outset.Carries g.initializer.position g'.initializer.position
      (carryOutAll (xs (w.surroundings g)))

section

variable {cs cs' : List Construct} {ks ks' : List Kept} {ls ls' : List Slot}
  {xs xs' : Surroundings → List Preparation}

theorem readies_nil : w.Readies sc [] [] [] fun _ => [] := by
  intro g g' m n q hst _ _ _
  obtain rfl := Gen.makes_forM_nil.mp hst.makes
  exact carries_pure

theorem Readies.append (h : w.Readies sc cs ks ls xs) (h' : w.Readies sc cs' ks' ls' xs')
    (hc : sc.Typed cs ks ls) (hc' : sc.Typed cs' ks' ls') :
    w.Readies sc (cs ++ cs') (ks ++ ks') (ls ++ ls') fun r => xs r ++
      xs' { r with fields := r.fields + ks.length, locals := r.locals + ls.length } := by
  intro g g' m n q hst hf hlast hcode
  obtain ⟨g₁, h₁, h₂, hs⟩ := hst.append hc hc'
  have hcode₁ := hcode.mono (Gen.makes_constructs_later h₂.makes).initializer
  have hfirst := h g g₁ m n q h₁ hf ((h₂.follows hc').position.trans hlast) hcode₁
  have hsecond := h' g₁ g' _ _ q h₂ (hf.follows (h₁.follows hc)) hlast hcode
  rw [surroundings_eq h₂.holds, hs, ← Nat.add_assoc] at hsecond
  rw [surroundings_eq hst.holds] at hfirst ⊢
  rw [carryOutAll_append]
  exact hfirst.seq hsecond

/-- What neither opens nor closes anything declares nothing. -/
theorem readies_plain {c : Construct} (hc : c.Plain) : w.Readies sc [c] [] [] fun _ => [] := by
  intro g g' m n q hst _ _ _
  rw [Gen.initializer_of_plain hc (Gen.makes_forM_one.mp hst.makes)]
  exact carries_pure

variable (hfair : sc.Fair)

include hfair

theorem readies_choice (c : Expr) (h : w.Readies sc cs ks ls xs) (hc : sc.Typed cs ks ls) :
    w.Readies sc (.ifTrue c :: cs ++ [.endIf]) ks ls xs := by
  intro g g' m n q hst hf hlast hcode
  obtain ⟨x⟩ := hst.choice hfair hc
  rw [Gen.initializer_of_plain (c := .endIf) trivial x.closes] at hcode ⊢
  have hinner := h x.first x.last m n q x.branch (hf.follows (Gen.follows_ifTrue x.opens))
    (x.ending ▸ hlast) hcode
  rw [surroundings_congr hst.holds x.branch.holds x.scopes,
    Gen.initializer_of_plain (c := .ifTrue c) trivial x.opens] at hinner
  exact hinner

theorem readies_choiceOr (c : Expr) (h : w.Readies sc cs ks ls xs)
    (h' : w.Readies sc cs' ks' ls' xs') (hc : sc.Typed cs ks ls) (hc' : sc.Typed cs' ks' ls') :
    w.Readies sc (.ifTrue c :: cs ++ .ifFalse :: cs' ++ [.endIf]) (ks ++ ks') (ls ++ ls')
      fun r => xs r ++
        xs' { r with fields := r.fields + ks.length, locals := r.locals + ls.length } := by
  intro g g' m n q hst hf hlast hcode
  obtain ⟨x⟩ := hst.choiceOr hfair hc hc'
  -- both branches add to the stream in front, whichever of them is taken in the function
  rw [Gen.initializer_of_plain (c := .endIf) trivial x.closes] at hcode ⊢
  rw [x.ending] at hlast
  have hsame := Gen.initializer_of_plain (c := .ifFalse) trivial x.between
  have hcode₂ := hsame ▸ hcode.mono (Gen.makes_constructs_later x.branch'.makes).initializer
  have hle := x.follows.position.trans ((x.branch'.follows hc').position.trans hlast)
  have hf₁ := hf.follows (Gen.follows_ifTrue x.opens)
  have hfirst := h x.first x.last m n q x.branch hf₁ hle hcode₂
  have hf₃ := (hf₁.follows (x.branch.follows hc)).follows x.follows
  have hsecond := h' x.first' x.last' _ _ q x.branch' hf₃ hlast hcode
  rw [surroundings_eq x.branch.holds, x.scopes,
    Gen.initializer_of_plain (c := .ifTrue c) trivial x.opens] at hfirst
  rw [surroundings_eq x.branch'.holds, x.scopes', ← Nat.add_assoc, hsame] at hsecond
  rw [surroundings_eq hst.holds, carryOutAll_append]
  exact hfirst.seq hsecond

omit hfair in
theorem readies_loop (c : Expr) (h : w.Readies sc cs ks ls xs) (hc : sc.Typed cs ks ls) :
    w.Readies sc (.openLoop :: cs ++ [.closeLoop c]) ks ls xs := by
  intro g g' m n q hst hf hlast hcode
  obtain ⟨x⟩ := hst.loop hc
  rw [Gen.initializer_of_plain (c := .closeLoop c) trivial x.closes] at hcode ⊢
  have hle : x.last.body.position ≤ w.last := by
    have hbehind := x.follows.position
    have htested := (((Expr.operand_extends .function c).compileAs _).follows x.tests).position
    have hending := x.ending
    omega
  have hinner := h x.first x.last m n _ x.body (hf.follows x.enters) hle hcode
  rw [surroundings_congr hst.holds x.body.holds x.scopes,
    Gen.initializer_of_plain (c := .openLoop) trivial x.opens] at hinner
  exact hinner

/-- In a counting loop the counter is visible. -/
theorem readies_count (counter : Name) (range : Range) (h : w.Readies sc cs ks ls xs)
    (hc : sc.Typed cs ks ls) :
    w.Readies sc (.openCount counter range :: cs ++ [.closeCount range]) ks (.scalar .int :: ls)
      fun r => xs (r.counting counter) := by
  intro g g' m n q hst hf hlast hcode
  obtain ⟨x⟩ := hst.count hfair hc
  rw [Gen.initializer_of_closeCount x.closes] at hcode ⊢
  have hle : x.last.body.position ≤ w.last := by
    have hbehind := x.advanced_follows.trans (x.follows.trans x.tested_follows)
    have hposition := hbehind.position
    have hending := x.ending
    omega
  have hf₁ := (hf.follows x.begins).follows x.first_follows
  have hinner := h x.first x.last m (n + 1) _ x.body hf₁ hle hcode
  rw [surroundings_congr x.holds x.body.holds x.scopes, ← surroundings_count hst.holds x,
    Gen.initializer_of_openCount x.opens] at hinner
  exact hinner

variable (hw : w.Hosts sc)

include hw

theorem readies_block (ds : List Declaration) (h : w.Readies sc cs ks ls xs)
    (hc : sc.Typed cs ks ls) :
    w.Readies sc (.openBlock :: ds.map .locals ++ cs ++ [.closeBlock])
      (ds.flatMap Declaration.kept ++ ks) (ds.flatMap Declaration.locals ++ ls) fun r =>
        r.inner.statics ds ++ xs (r.inner.behind ds) := by
  intro g g' m n q hst hf hlast hcode
  obtain ⟨x⟩ := hst.block hfair
  obtain ⟨L, hb⟩ := x.charted
  rw [x.ending] at hlast
  rw [Gen.initializer_of_closeScope x.closes] at hcode ⊢
  have hf₀ : (w.inside g.scopes.push).Fits (g.withScopes g.scopes.push) :=
    ⟨rfl, hf.functions, hf.legacy, hf.first⟩
  have hle := (x.body.follows hc).position.trans hlast
  have hlater := Gen.makes_constructs_later x.body.makes
  have haddr := hlater.addressable x.body.addressable
  have hstart := x.body.start hc
  obtain ⟨heq, -⟩ := carries_declarations hw hfair x.kept x.locals x.holds hb hf₀ x.declares haddr
    hstart hle
  have hfirst := readies_declarations hw hfair x.kept x.locals x.holds hb hf₀ x.declares haddr
    hstart hle (hcode.mono hlater.initializer)
  have hinner := h x.first x.last _ _ q x.body (hf₀.follows x.follows) hlast hcode
  rw [heq] at hinner
  rw [carryOutAll_append]
  exact hfirst.seq hinner

omit hw in
theorem readies_statements {body : List Stmt}
    (h : ∀ s ∈ body, w.Readies sc s.constructs s.kept s.locals s.statics) :
    w.Readies sc (Stmt.constructsOf body) (Stmt.keptOf body) (Stmt.localsOf body)
      fun r => Stmt.staticsOf r body := by
  induction body with
  | nil => exact readies_nil
  | cons s ss ih =>
    exact (h s (.head _)).append (ih fun t ht => h t (.tail _ ht)) (Scene.typed_statement hfair s)
      (Scene.typed_statements hfair ss)

/-- **Code in front of the program makes the static variables of statements ready, in order.** In
any function, wherever a statement stands. -/
theorem readies_statement (s : Stmt) :
    w.Readies sc s.constructs s.kept s.locals fun r => s.statics r := by
  induction s using Stmt.induct with
  | block ds body ih =>
    exact readies_block hfair hw ds (readies_statements hfair ih)
      (Scene.typed_statements hfair body)
  | expr e => exact readies_plain (c := .expr e) trivial
  | empty semicolon => exact readies_nil
  | choice c body ih => exact readies_choice hfair c ih (Scene.typed_statement hfair body)
  | choiceOr c body otherwise ih ih' =>
    exact readies_choiceOr hfair c ih ih' (Scene.typed_statement hfair body)
      (Scene.typed_statement hfair otherwise)
  | loop c body ih => exact readies_loop c ih (Scene.typed_statement hfair body)
  | count counter range body ih =>
    exact readies_count hfair counter range ih (Scene.typed_statement hfair body)
  | ret word value => exact readies_plain (c := .ret word value) trivial
  | leave word => exact readies_plain (c := .leave word) trivial

end

end Site

/-! ## Parameters -/

namespace Gen

variable {g g' : Generator}

theorem makes_parameters_eq {group : ParameterGroup} (h : Makes group.compile g ⟨⟩ g') :
    g' = g.withScopes (group.slots.foldl Scopes.parameter g.scopes) := by
  unfold ParameterGroup.compile at h
  generalize group.slots = slots at h ⊢
  induction slots generalizing g with
  | nil => rw [makes_forM_nil.mp h]; rfl
  | cons p ps ih =>
    obtain ⟨g₁, h₁, h₂⟩ := makes_forM_cons.mp h
    obtain ⟨v, hv, rfl⟩ := makes_parameter UInt32.ofNat_toNat.symm h₁
    have hparameter : g.scopes.withCurrent (g.scopes.current.insert p.1.value v) =
        g.scopes.parameter p := by
      rw [hv, Scopes.parameter, UInt32.ofNat_toNat]
    rw [hparameter] at h₂
    exact ih h₂

/-- The parameters of a function become visible in their order. -/
theorem makes_parameterGroups_eq {groups : List ParameterGroup}
    (h : Makes ((groups.map .parameters).forM Construct.compile) g ⟨⟩ g') :
    g' = g.withScopes ((groups.flatMap ParameterGroup.slots).foldl Scopes.parameter g.scopes) := by
  induction groups generalizing g with
  | nil => rw [makes_forM_nil.mp h]; rfl
  | cons group groups ih =>
    obtain ⟨g₁, h₁, h₂⟩ := makes_forM_cons.mp h
    rw [ih h₂, makes_parameters_eq h₁, List.flatMap_cons, List.foldl_append]
    rfl

end Gen

theorem Scopes.pop_parameters (ps : List (Name × Slot)) {s : Scopes} (h : s.isGlobal = false) :
    (ps.foldl Scopes.parameter s).pop = s.pop := by
  induction ps generalizing s with
  | nil => rfl
  | cons p ps ih =>
    exact (ih ((Scopes.isGlobal_withCurrent _).trans h)).trans (Scopes.pop_withCurrent _ h)

/-! ## Declarations of a program -/

/-- What a declaration behind a state of generation is to be understood in, before the program. -/
def Compilation.around (c : Compilation) (legacy : Bool) (fuel : Nat) (g : Generator) :
    Surroundings :=
  ⟨⟨c.image, g.scopes, g.functions, legacy, 1, fuel⟩, g.fields.size, 0⟩

section

variable {legacy : Bool} {done after rest : List TopLevel} {g g₀ g₁ g' gₑ : Generator}
  {c : Compilation} {header : Header} {body : Stmt} {n : Nat} {hs : List Header}

/-- A variable outside all functions is made ready in front of the program. -/
theorem readies_global (fuel : Nat) {d : Declarator} {type : WordType} {static : Bool}
    (htyped : c.image.Typed c.tree.plan) (hb : Outside c.tree n hs g')
    (hi : g.scopes.isGlobal = true) (hl : g.legacy = legacy)
    (h : Gen.Makes (d.compile type static) g ⟨⟩ g')
    (hcode : c.image.initializer.Continues g'.initializer) :
    c.around legacy fuel g' = (c.around legacy fuel g).declareGlobal type d ∧
      ((c.startSite legacy).withFuel fuel).Carries g.initializer.position g'.initializer.position
        (Preparation.mk ((c.around legacy fuel g).declareGlobal type d).toSituation
          ((c.around legacy fuel g).global type d) d.init).carryOut := by
  -- A global variable is given a field, and its initialiser goes to the initializer.
  obtain ⟨v, storage, t, g₁, hv, hallocate, hprepare⟩ := Declarator.makes_symbol h
  obtain ⟨rfl, i, name, hh, hn, rfl, rfl⟩ := Declarator.makes_allocate_global hi hallocate
  have hsymbol : (c.around legacy fuel g).global type d = v := by
    rw [hv, hh, hn]
    rfl
  have hscopes : g'.scopes = g.scopes.withCurrent (g.scopes.current.insert d.name.value v) := by
    obtain ⟨d', rfl, -⟩ := extends_prepareCode _ v d.init _ _ _ hprepare
    rfl
  -- Behind it the surroundings know one more name and one more field.
  have heq : c.around legacy fuel g' = (c.around legacy fuel g).declareGlobal type d := by
    rw [Surroundings.declareGlobal, hsymbol]
    obtain ⟨d', rfl, -⟩ := extends_prepareCode _ v d.init _ _ _ hprepare
    exact congrArg (Surroundings.mk _ · 0) (Array.size_push ..)
  refine ⟨heq, ?_⟩
  -- The site is that of the initializer with the names that are known now.
  let u : Site := ((c.startSite legacy).knowing g').withFuel fuel
  have hknown := Streams.sound_outside (w := ⟨c, legacy, emptyEntry, []⟩) htyped hb
  have hsound : u.Sound := ⟨hknown.slots, hknown.functions⟩
  have hvisible : u.scopes.lookup d.name.value = some v := by
    show g'.scopes.lookup _ = _
    rw [hscopes]
    exact Scopes.lookup_insert.trans (if_pos rfl)
  obtain ⟨-, hdeclared, -⟩ := Declarator.symbol_declared (d := d) (show v.type = type by rw [hv])
    (by rw [hv])
  have hfunctions : g.functions = g'.functions :=
    (Gen.functions_declarator d _ _ _ _ _ h).known.symm
  have hready := Site.carries_field (u := u) rfl hsound htyped
    (hsound.slots _ _ hvisible fun _ => ⟨i, hh⟩) hdeclared hprepare
    ⟨hscopes.symm, hfunctions, hl, Nat.zero_le _⟩ ⟨hcode, hcode.position_le⟩
  rw [hsymbol, ← heq]
  exact Site.carries_knowing.mp hready

theorem readies_globals (fuel : Nat) {type : WordType} {items : List Declarator}
    (hsize : c.tree.Addressable) (htyped : c.image.Typed c.tree.plan) (hb : Between c.tree n hs g)
    (hl : g.legacy = legacy)
    (hk : StandsAt (items.map fun i => (⟨i.slot type, i.init⟩ : Kept)) c.tree.kept n)
    {static : Bool} (h : Gen.Makes (items.forM (Declarator.compile type static)) g ⟨⟩ g')
    (haddr : g'.Addressable) (hcode : c.image.initializer.Continues g'.initializer) :
    c.around legacy fuel g' = (c.around legacy fuel g).declareGlobals type items ∧
      ((c.startSite legacy).withFuel fuel).Carries g.initializer.position g'.initializer.position
        (carryOutAll ((c.around legacy fuel g).globals type items)) := by
  induction items generalizing g n with
  | nil =>
    obtain rfl := Gen.makes_forM_nil.mp h
    exact ⟨rfl, Site.carries_pure⟩
  | cons i items ih =>
    obtain ⟨g₁, h₁, h₂⟩ := Gen.makes_forM_cons.mp h
    obtain ⟨hi, hrest⟩ := StandsAt.cons_iff.mp hk
    have hfield : c.tree.fields[n]? = some (i.slot type) := by
      rw [Program.fields, List.getElem?_map, hi]
      rfl
    have hlater := Gen.steady_forM (Gen.steady_declarator _ _) _ _ _ h₂
    obtain ⟨hb₁, -⟩ := hb.variable hsize hfield h₁ (hlater.addressable haddr)
    obtain ⟨heq, hone⟩ := readies_global fuel htyped hb₁.toOutside hb.outer hl h₁
      (hcode.mono hlater.initializer)
    obtain ⟨hall, hmore⟩ := ih hb₁ ((Gen.steady_declarator _ _ _ _ _ _ h₁).legacy.trans hl) hrest h₂
    rw [heq] at hall hmore
    exact ⟨hall, hone.seq hmore⟩

/-- In front of the body of a function its parameters are visible, and the function itself is
known. -/
theorem Passed.surroundings_body (h : Passed legacy done g)
    (hall : Addressed c.tree legacy gₑ c.image)
    (hp : c.tree.items = done ++ .function header body :: after)
    (hm : Gen.Makes ((header.front []).forM Construct.compile) g ⟨⟩ g₀) (r : Routine)
    (locals : List Slot) (g' : Generator) (fuel : Nat) :
    (Site.piece c r locals g₀ g' [] fuel).surroundings g₀ =
      (c.around legacy fuel g).enterFunction (Program.headersOf done).length header := by
  obtain ⟨g₁, hnone, hheader⟩ := Gen.makes_forM_append.mp hm
  obtain rfl := Gen.makes_forM_nil.mp hnone
  obtain ⟨g₂, hopen, hbegin⟩ := Gen.makes_forM_append.mp hheader
  obtain ⟨hbetween, hcompiled⟩ := h.between hall hp
  obtain ⟨-, ho⟩ := Program.function_planned hp
  have hmem : .function header body ∈ c.tree.items := hp ▸ List.mem_append_right _ (.head _)
  obtain ⟨i, hi, hfunctions⟩ := (hbetween.beginFunction hall.size hmem hcompiled ho hopen
    (Gen.makes_forM_one.mp hbegin)).known
  rw [Program.length_outlinesFrom] at hi
  obtain ⟨g₃, hscope, hparams⟩ := Gen.makes_forM_cons.mp hopen
  obtain rfl := Gen.makes_openScope.mp hscope
  obtain rfl := Gen.makes_parameterGroups_eq hparams
  obtain ⟨g₄, k, hfinish, -, -, hg₀⟩ := Gen.makes_beginFunction (Gen.makes_forM_one.mp hbegin)
  obtain ⟨hscopes, hfields, -, hsame⟩ := Gen.keeps_finishFunction hfinish
  have hlegacy := hsame.trans h.outside.fits.legacy
  have hnumber : i = .ofNat (Program.headersOf done).length := by rw [← hi, UInt32.ofNat_toNat]
  have hsituation : ((Site.piece c r locals g₀ g' [] fuel).inside g₀.scopes).situation =
      ⟨c.image, g₄.scopes, g₀.functions, g₄.legacy, 1, fuel⟩ := by
    rw [hg₀]
    rfl
  have hcounts : g₀.fields = g₄.fields ∧ g₀.localCount = 0 := by
    rw [hg₀]
    exact ⟨rfl, rfl⟩
  rw [Site.surroundings, hsituation, hcounts.1, hcounts.2, hscopes, hfields, hlegacy, hfunctions,
    hnumber]
  rfl

/-- The static variables of a function are made ready in front of the program. -/
theorem BodyStands.readies {f : Current}
    (h : BodyStands c.tree legacy c.image done header body f g₀ g₁)
    (htyped : c.image.Typed c.tree.plan) (hcode : c.image.initializer.Continues g₁.initializer)
    (fuel : Nat) :
    ((c.startSite legacy).withFuel fuel).Carries g₀.initializer.position g₁.initializer.position
      (carryOutAll (body.statics
        ((Site.piece c (f.routine g₁.body) body.locals g₀ g₁ [] fuel).surroundings g₀))) := by
  have hhosts : (Site.piece c (f.routine g₁.body) body.locals g₀ g₁ [] fuel).Hosts
      (Scene.ofFunction c.tree ∅ (done.flatMap TopLevel.kept).length header body) :=
    ⟨htyped, rfl, h.params, rfl⟩
  have hready := Site.readies_statement h.fair hhosts body g₀ g₁ 0 0 0 (h.stands 0)
    ⟨rfl, rfl, rfl, Nat.le_refl _⟩ (Nat.le_refl _) hcode
  exact Site.carries_knowing.mp hready

/-- Behind a function nothing of it is visible but the function. -/
theorem Passed.around_function (h : Passed legacy done g)
    (hall : Addressed c.tree legacy gₑ c.image)
    (hp : c.tree.items = done ++ .function header body :: after)
    (hm : Gen.Makes ((TopLevel.function header body).constructs.forM Construct.compile) g ⟨⟩ g')
    (fuel : Nat) :
    c.around legacy fuel g' =
      (c.around legacy fuel g).leaveFunction (Program.headersOf done).length header body := by
  obtain ⟨f, g₀, g₁, hbody, hfront, -, rfl⟩ := h.bodyStands hall hp hm
  have hentered := h.surroundings_body hall hp hfront emptyEntry [] g₁ fuel
  have hstands := hbody.stands 0
  obtain ⟨⟨L, hr⟩, hscopes⟩ := hstands.reaches (Scene.typed_statement hbody.fair body)
  have hpop : g₁.scopes.pop = g.scopes := by
    have hfront : g₀.scopes = header.parameters.foldl Scopes.parameter g.scopes.push :=
      congrArg (fun r : Surroundings => r.scopes) hentered
    rw [hscopes, hfront]
    exact Scopes.pop_parameters _ rfl
  have hfields : g₁.fields.size = g.fields.size + body.kept.length := by
    have hfront : g₀.fields.size = g.fields.size := congrArg Surroundings.fields hentered
    rw [hr.holds.size, ← hfront, hstands.holds.size]
    omega
  have hfunctions : g₁.functions = g₀.functions := hr.functions
  have hknown := congrArg (fun r : Surroundings => r.functions) hentered
  show (⟨⟨c.image, g₁.scopes.pop, g₁.functions, legacy, 1, fuel⟩, g₁.fields.size, 0⟩ :
    Surroundings) = _
  rw [hpop, hfields, hfunctions, show g₀.functions = _ from hknown]
  rfl

/-- What is carried out before the program, of declarations behind others. -/
theorem Passed.readies (h : Passed legacy done g) (htyped : c.image.Typed c.tree.plan)
    (hall : Addressed c.tree legacy gₑ c.image) (hp : c.tree.items = done ++ rest)
    (hm : Gen.Makes ((rest.flatMap TopLevel.constructs).forM Construct.compile) g ⟨⟩ g')
    (hcode : c.image.initializer.Continues g'.initializer) (fuel : Nat) :
    ((c.startSite legacy).withFuel fuel).Carries g.initializer.position g'.initializer.position
      (carryOutAll (Program.preparationsFrom (c.around legacy fuel g)
        (Program.headersOf done).length rest)) := by
  induction rest generalizing done g with
  | nil =>
    obtain rfl := Gen.makes_forM_nil.mp hm
    exact Site.carries_pure
  | cons item rest ih =>
    rw [List.flatMap_cons] at hm
    obtain ⟨g₁, hfirst, hrest⟩ := Gen.makes_forM_append.mp hm
    have hcode₁ := hcode.mono (Gen.makes_constructs_later hrest).initializer
    -- What has been passed grows by one item.
    have hnext : c.tree.items = (done ++ [item]) ++ rest := by rw [hp, List.append_assoc]; rfl
    cases item with
    | «variables» d =>
      have hvariables := Gen.makes_forM_one.mp hfirst
      have hkept : StandsAt d.fields c.tree.kept (done.flatMap TopLevel.kept).length :=
        Program.standsAt_kept hp
      obtain ⟨heq, hone⟩ := readies_globals fuel hall.size htyped (h.between hall hp).1
        h.outside.fits.legacy hkept hvariables ((h.variables hvariables).addressable hall hnext)
        hcode₁
      have hmore := ih (h.variables hvariables) hnext hrest
      have hheaders : Program.headersOf (done ++ [.variables d]) = Program.headersOf done :=
        (Program.headersOf_append done _).trans (List.append_nil _)
      rw [heq, hheaders] at hmore
      rw [Program.preparationsFrom, carryOutAll_append]
      exact hone.seq hmore
    -- A function adds the preparations of its static variables.
    | function header body =>
      have heq := h.around_function hall hp hfirst fuel
      have hmore := ih (h.function hall.size hp hfirst) hnext hrest
      obtain ⟨f, g₂, g₃, hbody, hfront, hstart, rfl⟩ := h.bodyStands hall hp hfirst
      have hone := hbody.readies htyped hcode₁ fuel
      rw [h.surroundings_body hall hp hfront, hstart] at hone
      rw [heq, Program.headersOf_append, List.length_append] at hmore
      rw [Program.preparationsFrom, carryOutAll_append]
      exact hone.seq hmore

end

/-! ## Runs -/

namespace Compilation

/-- A run that carries something out before anything else comes to what is left of that: if it is
done the entry routine begins, if it fails the run fails. Until then the initializer runs. If it
comes to nothing the initializer runs on, for as many instructions as a call may take. -/
def Begins (c : Compilation) (st : Store) (fuel : Nat)
    (x : Option (Except MachineError Unit × Memory)) : Prop :=
  ∃ n, (∀ k < n, ∃ p, Run.advance c.image k (Execution.start c.image st) = .active p ∧
      p.stage = .initializer) ∧
    match x with
    | some (.ok _, m) =>
      Run.advance c.image n (Execution.start c.image st) = Execution.enter c.image m.store
    | some (.error e, m) =>
      Run.advance c.image n (Execution.start c.image st) = .done (.error e) m.store
    | none => fuel ≤ n

/-- Declarations are carried out in order. -/
structure Initialises (c : Compilation) (legacy : Bool) : Prop where
  /-- before the program those of global and static variables are, in the order of the text -/
  listed : ∀ fuel, Preparation.Fields (c.preparations legacy fuel) 0 c.tree.kept
  /-- a run carries them out before anything else -/
  start : ∀ st, st.AtRest c.image → ∀ fuel,
    c.Begins st fuel ((carryOutAll (c.preparations legacy fuel)).run.run ⟨#[], #[], st⟩)
  /-- and never again -/
  once : ∀ st n p, Run.advance c.image n (Execution.enter c.image st) = .active p → p.stage = .entry
  /-- those of the local variables of a block are carried out wherever it is entered -/
  blocks : ∀ before header body after,
    c.tree.items = before ++ .function header body :: after → ∀ cs loop ds stmts,
    body.Part cs loop (.block ds stmts) →
    ∃ r g g', c.image.routines[(Program.headersOf before).length]? = some r ∧
      r.name = header.name.value ∧
      Gen.Makes ((header.front before ++ cs).forM Construct.compile) (.new legacy) ⟨⟩ g ∧
      Gen.Makes ((.openBlock :: ds.map .locals).forM Construct.compile) g ⟨⟩ g' ∧
      ∀ callers fuel, (Site.piece c r body.locals g g' callers fuel).Carries g.body.position
        g'.body.position (carryOutAll
          (((Site.piece c r body.locals g g' callers fuel).surroundings g).inner.locally ds))

end Compilation

section

variable {name : String} {legacy : Bool} {source : List UInt8} {c : Compilation} {st : Store}

/-- What the finished code in front of a program does is what a run begins with. -/
theorem begins_of_carries {fuel : Nat} {d : Draft} {ev : Eval Unit}
    (himage : c.image.Typed c.tree.plan)
    (hfinish : c.image.initializer = (d.emitAll [.ret]).toCode)
    (h : ((c.startSite legacy).withFuel fuel).Carries 0 d.position ev) (hst : st.AtRest c.image) :
    c.Begins st fuel (ev.run.run ⟨#[], #[], st⟩) := by
  obtain ⟨H, hH⟩ := hst.fits himage
  have hstart : Execution.start c.image st =
      .active ⟨((c.startSite legacy).withFuel fuel).stand 0 [] ⟨#[], #[], st⟩, .initializer⟩ := by
    unfold Execution.start Image.entryRoutine?
    rw [Array.getElem?_eq_getElem himage.entry]
    rfl
  have hdoes := h H ⟨#[], #[], st⟩ ⟨hH, Site.slotsFit_nil _, Site.slotsFit_nil _⟩
  -- as long as its outermost frame does not return the initializer goes on
  have hactive {k : Nat} {c' : Calls} (hk : Calls.advance c.image 0 k
      (.active (((c.startSite legacy).withFuel fuel).stand 0 [] ⟨#[], #[], st⟩)) = .active c') :
      Run.advance c.image k (Execution.start c.image st) = .active ⟨c', .initializer⟩ := by
    rw [hstart]
    exact Run.advance_active .initializer hk
  match ev.run.run ⟨#[], #[], st⟩, hdoes with
  | none, ⟨n, c', hn, hpasses⟩ =>
    refine ⟨n, fun k hk => ?_, hn⟩
    obtain ⟨c', hc', -⟩ := hpasses.2 k hk
    exact ⟨_, hactive hc', rfl⟩
  | some (.error e, m), ⟨n, hpasses⟩ =>
    refine ⟨n, fun k hk => ?_, ?_⟩
    · obtain ⟨c', hc', -⟩ := hpasses.2 k hk
      exact ⟨_, hactive hc', rfl⟩
    · rw [hstart]
      exact Run.advance_failed .initializer hpasses.1
  | some (.ok _, m), ⟨⟨n, hpasses⟩, _⟩ =>
    refine ⟨n + 1, fun k hk => ?_, ?_⟩
    · obtain hk | rfl := Nat.lt_succ_iff_lt_or_eq.mp hk
      · obtain ⟨c', hc', -⟩ := hpasses.2 k hk
        exact ⟨_, hactive hc', rfl⟩
      · exact ⟨_, hactive hpasses.1, rfl⟩
    · have hret : c.image.initializer.instructions[d.position]? = some .ret := by
        rw [hfinish, ← Array.getElem?_toList]
        show (d.emitAll [.ret]).instructions.toList[d.position]? = _
        rw [Draft.toList_emitAll]
        exact List.getElem?_concat_length
      have hstep := Site.advance_one (w := (c.startSite legacy).withFuel fuel) (s := []) (m := m)
        hret Exec.outcome_ret
      rw [Run.advance_add, hactive hpasses.1, Run.advance, Run.advance]
      unfold Execution.step
      rw [Calls.advance_succ, Calls.advance_zero] at hstep
      dsimp only
      rw [show Calls.step c.image 0 _ = _ from hstep]
      rfl

/-- **Declarations are carried out in order.** In an accepted program, a run first carries out the
declarations of global and static variables, in the order of the text and each of them once, whether
their function is called or not; and wherever control gets to the beginning of a block the
declarations of its local variables are carried out, in order. -/
theorem compile_initialises (h : compile name legacy source = .ok c)
    (hsource : source.length < UInt32.size) (haddr : c.image.Addressable) :
    c.Initialises legacy := by
  have hsize := compile_addressable h hsource haddr
  obtain ⟨gₑ, hall⟩ := addressed_of_compile h hsize
  have htyped := compile_typed h hsize
  have hmakes := makes_of_generate hall.generate
  have hcode := hall.continues
  -- The three parts: all fields are prepared once, the run does not come back, and a block prepares
  -- its variables where it begins.
  refine ⟨c.fields_preparations legacy, fun st hst fuel => ?_, fun st n p hn => ?_,
    fun before header body after hp cs loop ds stmts hpart => ?_⟩
  · have hready := (passed_new legacy).readies htyped hall rfl hmakes hcode fuel
    exact begins_of_carries htyped (hall.finish ▸ gₑ.initializer_finish) hready hst
  · -- without an entry routine the run is done
    unfold Execution.enter at hn
    split at hn
    · rw [Run.advance_done] at hn
      cases hn
    · exact Execution.stage_advance rfl hn
  · obtain ⟨r, g, g₁, p, hr, hname, hfront, hmakes, -, sc, m, n, hfair, hhosts, hstands⟩ :=
      compile_stands h hsource haddr hp hpart
    obtain ⟨x⟩ := (hstands p fun _ => rfl).block hfair
    obtain ⟨L, hb⟩ := x.charted
    refine ⟨r, g, x.first, hr, hname, hfront,
      Gen.makes_forM_cons.mpr ⟨_, Gen.makes_openScope.mpr rfl, x.declares⟩, fun callers fuel => ?_⟩
    have hcarries := Site.carries_declarations
      (w := Site.piece c r body.locals g x.first callers fuel) (s := g.scopes.push)
      ⟨htyped, (hhosts [] 0).plan, (hhosts [] 0).args, (hhosts [] 0).locals⟩ hfair x.kept x.locals
      x.holds hb ⟨rfl, rfl, rfl, Nat.le_refl _⟩ x.declares
      ((Gen.makes_constructs_later x.body.makes).addressable x.body.addressable)
      (x.body.start (Scene.typed_statements hfair stmts)) (Nat.le_refl _)
    rw [← Surroundings.enter_eq]
    exact hcarries.2

/-- An initialiser is evaluated for each element anew, and a static variable gets its first value
though its function is never called. -/
theorem compile_initialises_never_called :
    ∃ c, compile "" false ("int n; int next() \x7b static int k : 5; n = n + 1; return n * k; " ++
        "\x7d int a[3] : next(); int f() \x7b static int m : next(); return m; \x7d " ++
        "int main() return a[2];").toUTF8.toList = .ok c ∧ c.Initialises false ∧
      ∃ n st, Run.advance c.image n (Execution.start c.image (.trial c.image [])) =
          Execution.enter c.image st ∧
        st.fields = #[.word 4, .word 5, .array 0, .word 20] ∧ st.arrays = #[#[5, 10, 15]] := by
  obtain ⟨c, hc, haddr, hq⟩ := exists_compilation (q := fun c =>
      ((carryOutAll (c.preparations false 30)).run.run ⟨#[], #[], .trial c.image []⟩).any
        fun x => x.1.isOk ∧ x.2.store.fields = #[.word 4, .word 5, .array 0, .word 20] ∧
          x.2.store.arrays = #[#[5, 10, 15]])
    (show (compile "" false ("int n; int next() \x7b static int k : 5; n = n + 1; return n * k; " ++
      "\x7d int a[3] : next(); int f() \x7b static int m : next(); return m; \x7d " ++
      "int main() return a[2];").toUTF8.toList).toOption.any _ = true by decide +kernel)
  obtain ⟨⟨outcome, m⟩, hrun, hm⟩ := (Option.any_eq_true _ _).mp hq
  obtain ⟨hok, hfields, harrays⟩ := of_decide_eq_true hm
  have hinitialises := compile_initialises hc (by decide +kernel) haddr
  obtain ⟨n, -, hn⟩ := hinitialises.start _ (Store.atRest_trial _ _) 30
  rw [hrun] at hn
  cases outcome with
  | error e => cases hok
  | ok _ => exact ⟨c, hc, hinitialises, n, m.store, hn, hfields, harrays⟩

end

end OnePass
