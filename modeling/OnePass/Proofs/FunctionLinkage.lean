import OnePass.Proofs.FunctionNumbers

/-!
# Functions are linked by their numbers

Main statement: in a compiled program the routines are the functions in their order, and all calls
are of the routines of the functions that they name (`compile_linked`).
-/

namespace OnePass

variable {legacy : Bool} {done after rest : List TopLevel} {g g₀ g₁ g' : Generator}
  {c : Compilation} {header : Header} {body : Stmt} {f : Current}

/-! ## Bodies of functions -/

/-- The calls in the body of a function are those in the text, and so are those that its static
variables add in front of the program. -/
theorem BodyStands.recounts (h : BodyStands c.tree legacy c.image done header body f g₀ g₁)
    (htyped : c.image.Typed c.tree.plan)
    (hp : c.tree.items = done ++ .function header body :: after)
    (hi : c.image.initializer.Continues g₁.initializer) :
    (Streams.mk c legacy (f.routine g₁.body) body.locals).Recounts g₀ g₁ fun t =>
      body.invocations legacy t ((Point.behind done).enter header) := by
  have hhosts : (Streams.site ⟨c, legacy, f.routine g₁.body, body.locals⟩ .function).Hosts
      (Scene.ofFunction c.tree ∅ (done.flatMap TopLevel.kept).length header body) :=
    ⟨htyped, rfl, h.params, rfl⟩
  have hnumbers : g₀.functions.Numbers c.tree := by
    have hall := h.covers.toNumbers.append after
    rw [List.append_assoc, List.singleton_append, ← hp] at hall
    exact hall
  have hrecounts := Streams.recounts_statement hhosts h.fair body _ g₀ g₁ 0 0 0 (h.stands 0) hi
    ⟨h.inside.fits, hnumbers⟩
  have hfields : (Scene.ofFunction c.tree ∅ (done.flatMap TopLevel.kept).length header body).base +
      0 = ((Point.behind done).enter header).fields :=
    (h.stands 0).holds.size.symm.trans h.inside.fields
  rw [hfields] at hrecounts
  exact hrecounts

/-- Calls in a finished stream. -/
theorem Site.Lists.finish {w : Site} {d : Draft} {xs : List Invocation} {is : List Instruction}
    (h : w.Lists 0 d.position xs) (hcode : w.code = (d.emitAll is).toCode)
    (his : ∀ i ∈ is, i.callee? = none) : List.Forall₂ w.Links w.code.calls xs := by
  have hall : w.code.instructions.toList = d.instructions.toList ++ is := by
    rw [hcode]
    exact Draft.toList_emitAll d is
  have hsize : w.code.instructions.size = d.position + is.length := by
    rw [← Array.length_toList, hall, List.length_append]
    rfl
  have hnone : w.code.callsIn d.position (d.position + is.length) = [] :=
    Code.callsIn_eq_nil (hall ▸ List.prefix_rfl) his
  unfold Code.calls
  rw [hsize, Code.callsIn_append (Nat.zero_le d.position) (Nat.le_add_right ..), hnone,
    List.append_nil]
  exact h.links

/-! ## The stream in front of the program -/

namespace Streams

variable {w : Streams} {n : Nat} {hs : List Header} {pt : Point}

/-- Outside all functions all visible names mean something in front of the program. -/
theorem sound_outside (htyped : w.program.image.Typed w.program.tree.plan)
    (h : Outside w.program.tree n hs g) : ((w.site .initializer).knowing g).Sound := by
  refine ⟨fun name v hv _ => ?_, fun name f i hf hi => ?_⟩
  · obtain ⟨i, hh, -, hslot⟩ := h.visible v (Scopes.has_of_lookup hv)
    unfold Site.Offers
    rw [hh]
    exact hslot
  · obtain ⟨-, o, ho, hargs, hreturns, -⟩ := h.functions name f hf i hi
    have hlt : i.toNat < w.program.image.routines.size :=
      htyped.size ▸ (List.getElem?_eq_some_iff.mp ho).1
    have hr := Array.getElem?_eq_getElem hlt
    have hroutine := htyped.routines ∅ _ o _ ho hr
    exact ⟨_, hr, hroutine.args.symm.trans hargs, hroutine.returns.symm.trans hreturns⟩

/-- A variable declared outside all functions. -/
theorem recounts_variable {d : Declarator} {type : WordType} {static : Bool}
    (htyped : w.program.image.Typed w.program.tree.plan) (hb : Outside w.program.tree n hs g')
    (h : pt.Outside w.legacy g) (hf : g.functions.Numbers w.program.tree)
    (hm : Gen.Makes (d.compile type static) g ⟨⟩ g')
    (hcode : w.program.image.initializer.Continues g'.initializer) :
    w.Recounts g g' fun t => pt.invocations w.legacy t [(true, d)] := by
  have hsame := (Gen.functions_declarator d _ _ _ _ _ hm).known
  have hshows : w.Shows (pt.declare true d).visible g' := ⟨(h.variable hm).1.fits, hsame ▸ hf⟩
  obtain ⟨v, storage, t, g₁, hv, hallocate, hprepare⟩ := Declarator.makes_symbol hm
  obtain ⟨-, i, name, -, -, rfl, rfl⟩ := Declarator.makes_allocate_global h.outer hallocate
  refine (recounts_prepare true (sound_outside htyped hb) htyped hshows (by rw [hv])
    hprepare (fun t => by cases t <;> rfl) hcode).congr fun t => ?_
  exact (List.append_nil _).symm

theorem recounts_globals {d : Declaration} (htyped : w.program.image.Typed w.program.tree.plan)
    (hb : Between w.program.tree n hs g) (hk : StandsAt d.fields w.program.tree.kept n)
    (h : pt.Outside w.legacy g) (hf : g.functions.Numbers w.program.tree)
    (hm : Gen.Makes d.compile g ⟨⟩ g') (hsize : w.program.tree.Addressable)
    (haddr : g'.Addressable) (hcode : w.program.image.initializer.Continues g'.initializer) :
    w.Recounts g g' fun t => pt.invocations w.legacy t d.globalItems := by
  unfold Declaration.compile at hm
  unfold Declaration.fields at hk
  unfold Declaration.globalItems
  generalize d.items = items at hm hk ⊢
  induction items generalizing pt g n with
  | nil =>
    obtain rfl := Gen.makes_forM_nil.mp hm
    exact .refl w _
  | cons i items ih =>
    obtain ⟨g₁, h₁, h₂⟩ := Gen.makes_forM_cons.mp hm
    obtain ⟨hi, hrest⟩ := StandsAt.cons_iff.mp hk
    have hfield : w.program.tree.fields[n]? = some (i.slot d.type.value) := by
      rw [Program.fields, List.getElem?_map, hi]
      rfl
    have hlater := Gen.steady_forM (fun _ => Gen.steady_declarator _ _ _) _ _ _ h₂
    obtain ⟨hb₁, -⟩ := hb.variable hsize hfield h₁ (hlater.addressable haddr)
    have hsame := (Gen.functions_declarator i _ _ _ _ _ h₁).known
    have hfirst := recounts_variable htyped hb₁.toOutside h hf h₁ (hcode.mono hlater.initializer)
    have hall := ih hb₁ (h.variable h₁).1 (hsame ▸ hf) h₂ hrest
    exact (hfirst.trans hall).congr fun t => (Point.invocations_append [(true, i)]).symm

end Streams

/-- The calls in front of the program, those of declarations from a point on. -/
theorem Passed.starts (h : Passed legacy done g) (htyped : c.image.Typed c.tree.plan)
    {gₑ : Generator} (hall : Addressed c.tree legacy gₑ c.image) (hp : c.tree.items = done ++ rest)
    (hm : Gen.Makes ((rest.flatMap TopLevel.constructs).forM Construct.compile) g ⟨⟩ g')
    (hcode : c.image.initializer.Continues g'.initializer) :
    (c.startSite legacy).Lists g.initializer.position g'.initializer.position
      (Program.startInvocationsFrom legacy (Point.behind done) rest) := by
  induction rest generalizing done g with
  | nil =>
    obtain rfl := Gen.makes_forM_nil.mp hm
    exact .refl _ _
  | cons item rest ih =>
    rw [List.flatMap_cons] at hm
    obtain ⟨g₁, hfirst, hrest⟩ := Gen.makes_forM_append.mp hm
    have hcode₁ := hcode.mono (Gen.makes_constructs_later hrest).initializer
    -- The induction goes through the text, with what has been passed growing by one item.
    have hnext : c.tree.items = (done ++ [item]) ++ rest := by rw [hp, List.append_assoc]; rfl
    cases item with
    | «variables» d =>
      -- The initialisers of global variables make their calls here.
      have hvariables := Gen.makes_forM_one.mp hfirst
      have hkept : StandsAt d.fields c.tree.kept (done.flatMap TopLevel.kept).length :=
        Program.standsAt_kept hp
      have hnumbers : g.functions.Numbers c.tree := by
        have hmany := h.covers.toNumbers.append (.variables d :: rest)
        rwa [← hp] at hmany
      have hone := Streams.recounts_globals (w := ⟨c, legacy, emptyEntry, []⟩) htyped
        (h.between hall hp).1 hkept h.outside hnumbers hvariables hall.size
        ((h.variables hvariables).addressable hall hnext) hcode₁ .initializer
      have hmore := ih (h.variables hvariables) hnext hrest
      rw [Point.behind_append] at hmore
      exact hone.trans hmore
    | function header body =>
      -- A function adds the calls of the initialisers of its static variables.
      obtain ⟨f, g₂, g₃, hbody, -, hstart, rfl⟩ := h.bodyStands hall hp hfirst
      have hone := hbody.recounts htyped hp hcode₁ .initializer
      have hmore := ih (h.function hall.size hp hfirst) hnext hrest
      rw [Point.behind_append] at hmore
      rw [← hstart]
      exact hone.trans hmore

/-! ## Programs -/

namespace Compilation

/-- A routine is what a function is compiled to, in front of which there are the declarations
`before`. -/
structure Implements (c : Compilation) (legacy : Bool) (before : List TopLevel) (header : Header)
    (body : Stmt) (r : Routine) : Prop where
  name : r.name = header.name.value
  returns : r.returns = header.returnType
  /-- parameters have the argument slots of their positions -/
  params : r.params = header.parameterTypes
  room : header.parameters.length ≤ UInt32.size
  /-- in front of the body a name stands for an argument slot exactly if it is the name of the
  parameter with that number -/
  arguments : ∀ (n : Name) (i : UInt32), (((Point.behind before).enter header).visible.find? n).map
      Variable.handle = some (.argument i) ↔
    (header.parameters.map fun p => p.1.value)[i.toNat]? = some n.value
  /-- names in the body stand for what they stand for there -/
  accesses : r.code.accesses =
    body.accesses legacy .function ((Point.behind before).enter header)
  /-- the calls in the code are those in the text -/
  calls : List.Forall₂ (c.bodySite legacy r body.locals).Links r.code.calls
    (body.invocations legacy .function ((Point.behind before).enter header))

/-- The functions of a program are linked by their numbers. -/
structure Linked (c : Compilation) (legacy : Bool) : Prop where
  /-- each function is the routine with its number -/
  functions : ∀ before header body after, c.tree.items = before ++ .function header body :: after →
    c.tree.number? header.name.value = some (Program.headersOf before).length ∧
      ∃ r, c.image.routines[(Program.headersOf before).length]? = some r ∧
        c.Implements legacy before header body r
  /-- the calls in front of the program are those in the text -/
  start : List.Forall₂ (c.startSite legacy).Links c.image.initializer.calls
    (c.tree.startInvocations legacy)
  /-- an entry function is the entry, and there are no routines but those of functions -/
  entry : ∀ k, c.tree.number? entryName = some k → c.image.userEntry = true ∧
    c.image.entry.toNat = k ∧ c.image.routines.size = c.tree.headers.length
  /-- where there is none an empty routine stands in for it, behind all others -/
  noEntry : c.tree.number? entryName = none → c.image.userEntry = false ∧
    c.image.entry.toNat = c.tree.headers.length ∧
    c.image.routines.size = c.tree.headers.length + 1 ∧ c.image.routines.back? = some emptyEntry

end Compilation

section

variable {image : Image} {gₑ : Generator}

/-- The parameters of a function are in the argument slots of their positions. -/
theorem Passed.parameters (h : Passed legacy done g) {p : Program}
    (hall : Addressed p legacy gₑ image) (hp : p.items = done ++ .function header body :: after)
    (hm : Gen.Makes ((.openFunction :: header.params.map .parameters).forM Construct.compile) g
      ⟨⟩ g') :
    header.parameters.length ≤ UInt32.size ∧ ∀ (n : Name) (i : UInt32),
      (((Point.behind done).enter header).visible.find? n).map Variable.handle =
          some (.argument i) ↔
        (header.parameters.map fun p => p.1.value)[i.toNat]? = some n.value := by
  obtain ⟨g₀, hscope, hparams⟩ := Gen.makes_forM_cons.mp hm
  obtain rfl := Gen.makes_openScope.mp hscope
  have htakes := Gen.takes_parameterGroups (g := g.withScopes g.scopes.push) (k := 0) rfl hparams
  have hroom : header.parameters.length ≤ UInt32.size := by
    have hmem : .function header body ∈ p.items := hp ▸ List.mem_append_right _ (.head _)
    have hparams := hall.size.params header body hmem
    rwa [Header.parameterTypes, List.length_map] at hparams
  refine ⟨hroom, fun n => Visible.argument_iff htakes.distinct hroom fun v i hv hi => ?_⟩
  -- outside all functions there are only fields
  rw [← h.outside.fits.names, Option.map_eq_some_iff] at hv
  obtain ⟨s, hs, rfl⟩ := hv
  obtain ⟨j, hj, -⟩ := (h.between hall hp).1.visible s (Scopes.has_of_lookup hs)
  rw [Symbol.variable, hj] at hi
  cases hi

theorem implicitReturn_calls (returns : Option WordType) :
    ∀ i ∈ implicitReturn returns, i.callee? = none := by
  cases returns <;> simp [implicitReturn, Instruction.callee?]

/-- A function is implemented by its routine. -/
theorem Passed.implements (h : Passed legacy done g) (htyped : c.image.Typed c.tree.plan)
    (hall : Addressed c.tree legacy gₑ c.image)
    (hp : c.tree.items = done ++ .function header body :: after)
    (hm : Gen.Makes ((TopLevel.function header body).constructs.forM Construct.compile) g ⟨⟩ g')
    (hcode : c.image.initializer.Continues g'.initializer) :
    c.tree.number? header.name.value = some (Program.headersOf done).length ∧
      ∃ r, c.image.routines[(Program.headersOf done).length]? = some r ∧
        c.Implements legacy done header body r := by
  obtain ⟨f, g₀, g₁, hbody, -, -, rfl⟩ := h.bodyStands hall hp hm
  obtain ⟨-, ho⟩ := Program.function_planned hp
  rw [Program.length_outlinesFrom] at ho
  have hroutine := htyped.routines ∅ _ _ _ ho hbody.routine
  obtain ⟨_, hopened, -⟩ := Gen.makes_forM_append.mp hm
  obtain ⟨_, hopen, -⟩ := Gen.makes_forM_append.mp hopened
  obtain ⟨hroom, harguments⟩ := h.parameters hall hp hopen
  have hcalls := hbody.recounts htyped hp hcode .function
  have htraced := (body.traced legacy _ g₀ g₁ hbody.inside (hbody.stands 0).makes).accesses
    .function
  have hempty : g₀.draft .function = .empty := hbody.empty
  rw [hempty] at hcalls htraced
  refine ⟨hbody.number, _, hbody.routine, hbody.name, hroutine.returns.symm, hbody.params, hroom,
    harguments, ?_, ?_⟩
  · exact (Draft.accesses_finished _ _).trans htraced
  · exact hcalls.finish rfl (implicitReturn_calls _)

/-- Behind all declarations the code in front of the program is finished as it is. -/
theorem Addressed.continues (hall : Addressed c.tree legacy gₑ c.image) :
    c.image.initializer.Continues gₑ.initializer := by
  rw [hall.finish, Generator.initializer_finish]
  exact hall.addressable.initializer.continues [.ret]

/-- What a program starts with, by the number of its entry function. -/
theorem Passed.entry (h : Passed legacy c.tree.items gₑ)
    (hall : Addressed c.tree legacy gₑ c.image) :
    (∀ k, c.tree.number? entryName = some k → c.image.userEntry = true ∧
        c.image.entry.toNat = k ∧ c.image.routines.size = c.tree.headers.length) ∧
      (c.tree.number? entryName = none → c.image.userEntry = false ∧
        c.image.entry.toNat = c.tree.headers.length ∧
        c.image.routines.size = c.tree.headers.length + 1 ∧
        c.image.routines.back? = some emptyEntry) := by
  obtain ⟨g₁, hlast, himage⟩ := makes_of_finish gₑ
  obtain ⟨rs, rfl, hsize, -⟩ := (h.between hall (List.append_nil _).symm).2.finish hlast
  rw [Program.length_outlinesFrom] at hsize
  have hbound : rs.size < UInt32.size := hsize ▸ hall.size.functions
  have hnumber {k : Nat} : c.tree.number? entryName = some k ↔ _ :=
    h.covers.number?_eq_some_iff
  rw [hall.finish, himage]
  obtain ⟨i, hmain, hi⟩ | ⟨hmain, hi⟩ := Generator.toImage_cases _ <;> rw [hi]
  · obtain ⟨f, hf, hb⟩ := Option.map_eq_some_iff.mp hmain
    have hentry : c.tree.number? entryName = some i.toNat := hnumber.mpr ⟨f, i, hf, hb, rfl⟩
    refine ⟨fun k hk => ⟨rfl, Option.some.inj (hentry.symm.trans hk), hsize.symm⟩, fun hnone => ?_⟩
    rw [hentry] at hnone
    cases hnone
  · refine ⟨fun k hk => ?_, fun _ => ⟨rfl, ?_, ?_, Array.back?_push⟩⟩
    · obtain ⟨f, i, hf, hb, -⟩ := hnumber.mp hk
      exact absurd (Option.map_eq_some_iff.mpr ⟨f, hf, hb⟩) (hmain i)
    · exact (UInt32.toNat_ofNat_of_lt' hbound).trans hsize.symm
    · exact (Array.size_push _).trans (congrArg (· + 1) hsize.symm)

/-- **Functions are linked by their numbers.** In an accepted program each function is the routine
with its number in the order of declaration, with its name, its result and its parameters, and in
its body the parameter with the number `k` is the argument slot `k`. All calls, in front of the
program and in functions, are those in the text: each is of the routine with the number of the
function that is named, and in front of it is the code that pushes its arguments, in order. The
entry of the program is the function `main`, or an empty routine behind all others. 32 bits have to
be enough for the source and its code. -/
theorem compile_linked {name : String} {source : List UInt8}
    (h : compile name legacy source = .ok c) (hsource : source.length < UInt32.size)
    (haddr : c.image.Addressable) : c.Linked legacy := by
  have hsize := compile_addressable h hsource haddr
  have htyped := compile_typed h hsize
  obtain ⟨gₑ, hall⟩ := addressed_of_compile h hsize
  have hcode := hall.continues
  obtain ⟨hentry, hnoEntry⟩ := hall.passed.entry hall
  refine ⟨fun before header body after hp => ?_, ?_, hentry, hnoEntry⟩
  · obtain ⟨g, hfront, hrest⟩ := hall.split hp
    obtain ⟨g₁, hfunction, hafter⟩ := Gen.makes_forM_append.mp hrest
    exact hfront.implements htyped hall hp hfunction
      (hcode.mono (Gen.makes_constructs_later hafter).initializer)
  · have hmakes := makes_of_generate hall.generate
    have hstart := (passed_new legacy).starts htyped hall rfl hmakes hcode
    have hfinished : c.image.initializer = (gₑ.initializer.emitAll [.ret]).toCode := by
      rw [hall.finish, Generator.initializer_finish]
    exact hstart.finish hfinished (by simp [Instruction.callee?])

/-- A function that calls itself, and is called in front of the program and in a later function. -/
theorem compile_linked_recursion :
    ∃ c, compile "" false ("int f(int a, b; char c[]) \x7b if a > 0 then return f(a - 1, b, c); " ++
        "return b; \x7d char s[9]; int n : f(1, 2, s); int main() return f(n, 3, s);"
        ).toUTF8.toList = .ok c ∧
      c.Linked false ∧
      c.image.routines.map Routine.params = #[[.scalar .int, .scalar .int, ⟨.char, true⟩], []] ∧
      c.image.initializer.calls = [(5, 0)] ∧
      c.image.routines.map (fun r => r.code.calls) = #[[(9, 0)], [(3, 0)]] ∧
      c.image.userEntry = true ∧ c.image.entry = 1 := by
  obtain ⟨c, hc, haddr, hq⟩ := exists_compilation (q := fun c =>
      c.image.routines.map Routine.params = #[[.scalar .int, .scalar .int, ⟨.char, true⟩], []] ∧
        c.image.initializer.calls = [(5, 0)] ∧
        c.image.routines.map (fun r => r.code.calls) = #[[(9, 0)], [(3, 0)]] ∧
        c.image.userEntry = true ∧ c.image.entry = 1)
    (show (compile "" false (
        "int f(int a, b; char c[]) \x7b if a > 0 then return f(a - 1, b, c); " ++
        "return b; \x7d char s[9]; int n : f(1, 2, s); int main() return f(n, 3, s);"
      ).toUTF8.toList).toOption.any _ = true by decide +kernel)
  exact ⟨c, hc, compile_linked hc (by decide +kernel) haddr, of_decide_eq_true hq⟩

end

end OnePass
