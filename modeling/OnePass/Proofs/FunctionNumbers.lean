import OnePass.Proofs.LaterDeclarations
import OnePass.Proofs.StatementInvocations

/-!
# Functions are numbered in order

Main statements: parameters have different names and get the argument slots of their positions
(`Gen.takes_parameterGroups`, `Visible.argument_iff`), and behind any declarations of a program each
function that is known is a routine with its number (`Passed`).

A number is given to a function before there is its routine, as the length of a list that grows only
when the next function begins. `Functions.Covers` ties it to the order of declaration.
-/

namespace OnePass

/-! ## Parameters -/

/-- The names of parameters. -/
def parameterNames (ps : List (Name × Slot)) : List String := ps.map fun p => p.1.value

/-- A scope takes parameters: all of them have different names that are new in it. -/
structure Scope.Takes (c c' : Scope) (ps : List (Name × Slot)) : Prop where
  fresh : ∀ name ∈ parameterNames ps, c.find? name = none
  distinct : (parameterNames ps).Nodup
  behind : ∀ name, c'.find? name = none → c.find? name = none ∧ name ∉ parameterNames ps

theorem Scope.Takes.append {c c₁ c' : Scope} {ps qs : List (Name × Slot)} (h : c.Takes c₁ ps)
    (h' : c₁.Takes c' qs) : c.Takes c' (ps ++ qs) := by
  have hnames : parameterNames (ps ++ qs) = parameterNames ps ++ parameterNames qs :=
    List.map_append
  refine ⟨fun name hname => ?_, ?_, fun name hname => ?_⟩
  · rw [hnames, List.mem_append] at hname
    exact hname.elim (h.fresh name) fun hq => (h.behind name (h'.fresh name hq)).1
  · rw [hnames, List.nodup_append]
    refine ⟨h.distinct, h'.distinct, ?_⟩
    rintro name hp _ hq rfl
    exact (h.behind name (h'.fresh name hq)).2 hp
  · obtain ⟨h₁, hq⟩ := h'.behind name hname
    obtain ⟨hc, hp⟩ := h.behind name h₁
    rw [hnames, List.mem_append]
    exact ⟨hc, not_or.mpr ⟨hp, hq⟩⟩

namespace Gen

variable {g g' : Generator} {k : Nat}

/-- A name is declared once in its scope. -/
theorem fresh_define {name : Name} {type : WordType} {storage : Storage} {shape : Shape}
    {handle : Handle} {v : Symbol} (h : Makes (define name type storage shape handle) g v g') :
    g.scopes.current.find? name.value = none := by
  simp only [define, makes_bind, makes_get, makes_lift] at h
  obtain ⟨_, _, ⟨rfl, rfl⟩, _, _, ⟨hd, -⟩, -⟩ := h
  unfold Scopes.define at hd
  split at hd
  · cases hd
  · assumption

/-- The name of a parameter is new in the scope of its function. -/
theorem fresh_parameter {name : Name} {slot : Slot} {u : Unit}
    (h : Makes (do
      let index := (← get).scopes.count .argument
      let shape := if slot.array then .array none else .scalar
      let _ ← define name slot.type .argument shape (.argument index)) g u g') :
    g.scopes.current.find? name.value = none := by
  simp only [makes_bind, makes_get, makes_pure] at h
  obtain ⟨_, _, ⟨-, rfl⟩, v, _, hv, -, -⟩ := h
  exact fresh_define hv

theorem takes_parameters {group : ParameterGroup} (hk : g.scopes.count .argument = .ofNat k)
    (hm : Makes group.compile g ⟨⟩ g') :
    g.scopes.current.Takes g'.scopes.current group.slots ∧
      g'.scopes.count .argument = .ofNat (k + group.slots.length) := by
  unfold ParameterGroup.compile at hm
  generalize group.slots = slots at hm ⊢
  induction slots generalizing g k with
  | nil =>
    rw [makes_forM_nil.mp hm]
    exact ⟨⟨nofun, .nil, fun name h => ⟨h, nofun⟩⟩, hk⟩
  | cons p ps ih =>
    obtain ⟨name, slot⟩ := p
    obtain ⟨g₁, h₁, h₂⟩ := makes_forM_cons.mp hm
    have hfresh := fresh_parameter h₁
    obtain ⟨v, hv, rfl⟩ := makes_parameter hk h₁
    -- The first parameter enters the scope, which did not have its name.
    have hfirst : g.scopes.current.Takes
        (g.withScopes (g.scopes.withCurrent (g.scopes.current.insert name.value
          v))).scopes.current [(name, slot)] := by
      refine ⟨?_, List.nodup_cons.mpr ⟨nofun, .nil⟩, fun key hkey => ?_⟩
      · intro key hkey
        rw [List.mem_singleton.mp hkey]
        exact hfresh
      · have hcurrent : (g.withScopes (g.scopes.withCurrent (g.scopes.current.insert name.value
            v))).scopes.current = g.scopes.current.insert name.value v :=
          Scopes.current_withCurrent _
        rw [hcurrent, Scope.find?, Scope.insert, List.lookup_cons] at hkey
        split at hkey
        · cases hkey
        · rename_i hne
          refine ⟨hkey, fun hmem => ?_⟩
          rw [List.mem_singleton.mp hmem, beq_self_eq_true] at hne
          cases hne
    obtain ⟨hrest, hcount⟩ := ih (count_insert_argument hk (by rw [hv])) h₂
    refine ⟨hfirst.append hrest, hcount.trans ?_⟩
    rw [List.length_cons, Nat.add_assoc, Nat.add_comm 1]

theorem takes_parameterGroups {groups : List ParameterGroup}
    (hk : g.scopes.count .argument = .ofNat k)
    (hm : Makes ((groups.map .parameters).forM Construct.compile) g ⟨⟩ g') :
    g.scopes.current.Takes g'.scopes.current (groups.flatMap ParameterGroup.slots) := by
  induction groups generalizing g k with
  | nil =>
    rw [makes_forM_nil.mp hm]
    exact ⟨nofun, .nil, fun name h => ⟨h, nofun⟩⟩
  | cons group groups ih =>
    obtain ⟨g₁, h₁, h₂⟩ := makes_forM_cons.mp hm
    obtain ⟨hfirst, hcount⟩ := takes_parameters hk h₁
    exact hfirst.append (ih hcount h₂)

end Gen

namespace Visible

variable {vis : Visible} {ps : List (Name × Slot)} {name : Name} {k : Nat}

/-- Parameters do not hide what has another name. -/
theorem find?_parameters_of_notMem (h : name.value ∉ parameterNames ps) :
    (vis.parameters k ps).find? name = vis.find? name := by
  induction ps generalizing vis k with
  | nil => rfl
  | cons p ps ih =>
    obtain ⟨hne, hrest⟩ := not_or.mp (mt List.mem_cons.mpr h)
    rw [parameters, ih hrest, find?_declare, if_neg hne]

/-- A parameter is visible by its position. -/
theorem find?_parameters (vis : Visible) (hdistinct : (parameterNames ps).Nodup) {j : Nat}
    (h : (parameterNames ps)[j]? = some name.value) :
    ((vis.parameters k ps).find? name).map Variable.handle = some (.argument (.ofNat (k + j))) := by
  induction ps generalizing vis k j with
  | nil => cases h
  | cons p ps ih =>
    obtain ⟨hnew, hrest⟩ := List.nodup_cons.mp hdistinct
    cases j with
    | zero =>
      obtain hname : p.1.value = name.value := Option.some.inj h
      rw [parameters, find?_parameters_of_notMem (hname ▸ hnew), find?_declare, if_pos hname.symm]
      rfl
    | succ j =>
      have hall := ih (vis.declare p.1
        ⟨if p.2.array then .array none else .scalar, .argument (.ofNat k)⟩) (k := k + 1) hrest h
      rw [Nat.add_right_comm, Nat.add_assoc] at hall
      exact hall

/-- In front of the body of a function a name stands for an argument slot exactly if it is the name
of the parameter with that number. -/
theorem argument_iff (hdistinct : (parameterNames ps).Nodup) (hroom : ps.length ≤ UInt32.size)
    (houter : ∀ v i, vis.find? name = some v → v.handle ≠ .argument i) (i : UInt32) :
    ((vis.parameters 0 ps).find? name).map Variable.handle = some (.argument i) ↔
      (parameterNames ps)[i.toNat]? = some name.value := by
  constructor
  · intro h
    by_cases hname : name.value ∈ parameterNames ps
    · obtain ⟨j, hj⟩ := List.getElem?_of_mem hname
      have hlt : j < UInt32.size := by
        have hlength := (List.getElem?_eq_some_iff.mp hj).1
        rw [parameterNames, List.length_map] at hlength
        omega
      rw [find?_parameters _ hdistinct hj, Nat.zero_add] at h
      obtain rfl := Handle.argument.inj (Option.some.inj h)
      rw [UInt32.toNat_ofNat_of_lt' hlt]
      exact hj
    · rw [find?_parameters_of_notMem hname] at h
      obtain ⟨v, hv, hi⟩ := Option.map_eq_some_iff.mp h
      exact absurd hi (houter v i hv)
  · intro h
    rw [find?_parameters _ hdistinct h, Nat.zero_add, UInt32.ofNat_toNat]

end Visible

/-! ## The table of functions -/

namespace Program

theorem number?_append (xs ys : List TopLevel) {name : String} {k : Nat}
    (h : (⟨xs⟩ : Program).number? name = some k) :
    (⟨xs ++ ys⟩ : Program).number? name = some k := by
  unfold number? at h ⊢
  rw [show (⟨xs ++ ys⟩ : Program).headers = headersOf xs ++
    headersOf ys from headersOf_append xs ys,
    List.findIdx?_append, show (headersOf xs).findIdx? _ = some k from h]
  rfl

/-- A function of a new name gets the next number. -/
theorem number?_function {xs : List TopLevel} {header : Header} {body : Stmt}
    (h : ∀ k ∈ headersOf xs, k.name.value ≠ header.name.value) :
    (⟨xs ++ [.function header body]⟩ : Program).number? header.name.value =
      some (headersOf xs).length := by
  have hnone : (headersOf xs).findIdx? (fun k => k.name.value = header.name.value) = none :=
    List.findIdx?_eq_none_iff.mpr fun k hk => decide_eq_false (h k hk)
  unfold number?
  rw [show (⟨xs ++ [.function header body]⟩ : Program).headers = headersOf xs ++ [header] from
    headersOf_append xs _, List.findIdx?_append, hnone]
  simp

end Program

namespace Functions

variable {fs : Functions} {xs : List TopLevel} {header : Header} {body : Stmt}

theorem Numbers.append (h : fs.Numbers ⟨xs⟩) (ys : List TopLevel) : fs.Numbers ⟨xs ++ ys⟩ := by
  refine ⟨h.builtIn, fun name f n hf hn => ?_⟩
  obtain ⟨hnumber, k, hk, hparams, hreturns⟩ := h.routine name f n hf hn
  refine ⟨Program.number?_append xs ys hnumber, k, ?_, hparams, hreturns⟩
  rw [show (⟨xs ++ ys⟩ : Program).headers = Program.headersOf xs ++ Program.headersOf ys from
    Program.headersOf_append xs ys]
  exact getElem?_mono (List.prefix_append ..) hk

/-- The functions that are known are those that are always there and those that are declared, each
by its number. -/
structure Covers (fs : Functions) (items : List TopLevel) : Prop extends fs.Numbers ⟨items⟩ where
  builtIns : ∀ name, isBuiltIn name = true → (fs.lookup name).isSome
  headers : ∀ k ∈ Program.headersOf items, ∃ f n, fs.lookup k.name.value = some f ∧ f.body =
    .routine n

theorem covers_new : Functions.new.Covers [] := by
  refine ⟨⟨fun name f hf => ?_, fun name f n hf hn => absurd hn (not_routine_of_new hf)⟩,
    fun name h => h, nofun⟩
  have hbuiltIn : isBuiltIn name = true := by
    unfold isBuiltIn
    rw [hf]
    rfl
  refine ⟨fun _ => ?_, fun _ => hbuiltIn⟩
  cases hbody : f.body with
  | intrinsic i => exact ⟨i, rfl⟩
  | routine n => exact absurd hbody (not_routine_of_new hf)

theorem Covers.variables (h : fs.Covers xs) (d : Declaration) :
    fs.Covers (xs ++ [.variables d]) := by
  have hheaders : Program.headersOf (xs ++ [.variables d]) = Program.headersOf xs :=
    (Program.headersOf_append xs _).trans (List.append_nil _)
  exact ⟨h.toNumbers.append _, h.builtIns, hheaders ▸ h.headers⟩

/-- A name that is not known is not that of a function. -/
theorem Covers.fresh (h : fs.Covers xs) {name : String} (hnew : fs.lookup name = none) :
    ∀ k ∈ Program.headersOf xs, k.name.value ≠ name := by
  rintro k hk rfl
  obtain ⟨f, n, hf, -⟩ := h.headers k hk
  rw [hnew] at hf
  cases hf

/-- A function that is declared has a name that is new, and the next number. -/
theorem Covers.function (h : fs.Covers xs) (hnew : fs.lookup header.name.value = none) {i : UInt32}
    (hi : i.toNat = (Program.headersOf xs).length) :
    Covers ⟨(header.name.value, ⟨header.parameterTypes, header.returnType, .routine i⟩) ::
      fs.entries⟩ (xs ++ [.function header body]) := by
  have hheaders : Program.headersOf (xs ++ [.function header body]) =
      Program.headersOf xs ++ [header] := Program.headersOf_append xs _
  refine ⟨⟨fun name f hf => ?_, fun name f n hf hn => ?_⟩, fun name hname => ?_, fun k hk => ?_⟩
  -- A name stands for the new function, or for what it stood for before.
  · rw [lookup_cons] at hf
    split at hf
    · rename_i hname
      subst hname
      obtain rfl := Option.some.inj hf
      constructor
      -- The new function is none of those that are built in, since these had been there.
      · intro hbuiltIn
        have hsome := h.builtIns _ hbuiltIn
        rw [hnew] at hsome
        cases hsome
      · rintro ⟨_, ⟨⟩⟩
    · exact h.builtIn name f hf
  · rw [lookup_cons] at hf
    split at hf
    · rename_i hname
      subst hname
      obtain rfl := Option.some.inj hf
      obtain rfl := FunctionBody.routine.inj hn
      rw [hi]
      refine ⟨Program.number?_function (h.fresh hnew), header, ?_, rfl, rfl⟩
      show (Program.headersOf (xs ++ [.function header body]))[_]? = _
      rw [hheaders]
      exact List.getElem?_concat_length
    · exact (h.toNumbers.append _).routine name f n hf hn
  · rw [lookup_cons]
    split
    · rfl
    · exact h.builtIns name hname
  · rw [hheaders, List.mem_append, List.mem_singleton] at hk
    rw [lookup_cons]
    split
    · exact ⟨_, i, rfl, rfl⟩
    · rename_i hname
      obtain hk | rfl := hk
      · exact h.headers k hk
      · exact absurd rfl hname

/-- The number of a name is that of the routine that is known for it. -/
theorem Covers.number?_eq_some_iff (h : fs.Covers xs) {name : String} {k : Nat} :
    (⟨xs⟩ : Program).number? name = some k ↔
      ∃ f n, fs.lookup name = some f ∧ f.body = .routine n ∧ n.toNat = k := by
  constructor
  · intro hk
    obtain ⟨hlt, hname, -⟩ := List.findIdx?_eq_some_iff_getElem.mp hk
    obtain ⟨f, n, hf, hn⟩ := h.headers _ (List.getElem_mem hlt)
    rw [of_decide_eq_true hname] at hf
    have hnumber := (h.routine name f n hf hn).1
    rw [hk] at hnumber
    exact ⟨f, n, hf, hn, (Option.some.inj hnumber).symm⟩
  · rintro ⟨f, n, hf, hn, rfl⟩
    exact (h.routine name f n hf hn).1

end Functions

/-! ## Between declarations -/

/-- The code of a whole program has been generated, and 32 bits are enough to number what it
declares. -/
structure Generated (p : Program) (legacy : Bool) (g : Generator) (image : Image) : Prop where
  generate : generate legacy p.constructs = .ok g
  finish : image = g.finish
  size : p.Addressable

/-- 32 bits are enough for the code of the program too. -/
structure Addressed (p : Program) (legacy : Bool) (g : Generator) (image : Image) : Prop extends
    Generated p legacy g image where
  addressable : g.Addressable

theorem generated_of_compile {name : String} {legacy : Bool} {source : List UInt8} {c : Compilation}
    (h : compile name legacy source = .ok c) (hsize : c.tree.Addressable) :
    ∃ g, Generated c.tree legacy g c.image := by
  obtain ⟨g, hgenerate, hfinish⟩ := compile_ok h
  exact ⟨g, hgenerate, hfinish, hsize⟩

theorem addressed_of_compile {name : String} {legacy : Bool} {source : List UInt8} {c : Compilation}
    (h : compile name legacy source = .ok c) (haddr : c.Addressable) :
    ∃ g, Addressed c.tree legacy g c.image := by
  obtain ⟨g, hall⟩ := generated_of_compile h haddr.tree
  exact ⟨g, hall, Program.addressable_of_finish hall.generate (hall.finish ▸ haddr.image)⟩

/-- The point behind declarations of a program. -/
def Point.behind (items : List TopLevel) : Point := items.foldl Point.pass .origin

theorem Point.behind_append (xs : List TopLevel) (x : TopLevel) :
    Point.behind (xs ++ [x]) = (Point.behind xs).pass x := List.foldl_append

/-- Code has been generated for the declarations `done`, and for none behind them. There is a
routine for each function among them, but the last one may not be finished. -/
structure Passed (legacy : Bool) (done : List TopLevel) (g : Generator) : Prop where
  makes : Gen.Makes ((done.flatMap TopLevel.constructs).forM Construct.compile) (.new legacy) ⟨⟩ g
  outside : (Point.behind done).Outside legacy g
  listed : ∃ as, Listed g as ∧ as.length = (Program.headersOf done).length
  covers : g.functions.Covers done

theorem passed_new (legacy : Bool) : Passed legacy [] (.new legacy) :=
  ⟨Gen.makes_forM_nil.mpr rfl, .origin legacy, ⟨[], .inl ⟨rfl, rfl, rfl⟩, rfl⟩,
    Functions.covers_new⟩

/-- A function begins behind the declarations `done`. -/
structure Begun (legacy : Bool) (done : List TopLevel) (header : Header) (body : Stmt)
    (g g₀ : Generator) : Prop where
  inside : ((Point.behind done).enter header).Inside legacy g₀
  empty : g₀.body = .empty
  initializer : g₀.initializer = g.initializer
  current : g₀.current = some ⟨header.name.value, header.parameterTypes, header.returnType, 0⟩
  size : g₀.routines.size = (Program.headersOf done).length
  fresh : ∀ k ∈ Program.headersOf done, k.name.value ≠ header.name.value
  covers : g₀.functions.Covers (done ++ [.function header body])

section

variable {legacy : Bool} {done after rest : List TopLevel} {g g' : Generator} {p : Program}
  {image : Image} {header : Header} {body : Stmt}

theorem Passed.behind (h : Passed legacy done g) {item : TopLevel}
    (hm : Gen.Makes (item.constructs.forM Construct.compile) g ⟨⟩ g') :
    Gen.Makes (((done ++ [item]).flatMap TopLevel.constructs).forM Construct.compile) (.new legacy)
      ⟨⟩ g' := by
  rw [List.flatMap_append, List.flatMap_singleton]
  exact Gen.makes_forM_append.mpr ⟨g, h.makes, hm⟩

/-- The declarations behind those that are done. -/
theorem Passed.onwards (h : Passed legacy done g) (hall : Generated p legacy g' image)
    (hp : p.items = done ++ rest) :
    Gen.Makes ((rest.flatMap TopLevel.constructs).forM Construct.compile) g ⟨⟩ g' := by
  have hmakes := makes_of_generate hall.generate
  rw [Program.constructs, hp, List.flatMap_append] at hmakes
  obtain ⟨g₁, hfirst, hrest⟩ := Gen.makes_forM_append.mp hmakes
  obtain rfl := (h.makes.unique hfirst).2
  exact hrest

/-- If 32 bits are enough for a whole program, they are enough for its beginning. -/
theorem Passed.addressable (h : Passed legacy done g) (hall : Addressed p legacy g' image)
    (hp : p.items = done ++ rest) : g.Addressable :=
  (Gen.makes_constructs_later (h.onwards hall.toGenerated hp)).addressable hall.addressable

theorem Passed.between (h : Passed legacy done g) (hall : Addressed p legacy g' image)
    (hp : p.items = done ++ rest) :
    Between p (done.flatMap TopLevel.kept).length (Program.headersOf done) g ∧
      Compiled (p.plan.withExposed ∅) (Program.outlinesFrom p.fields 0 done) g :=
  between_of_makes hall.size hp h.makes (h.addressable hall hp) ∅

theorem Passed.variables (h : Passed legacy done g) {d : Declaration}
    (hm : Gen.Makes d.compile g ⟨⟩ g') : Passed legacy (done ++ [.variables d]) g' := by
  obtain ⟨houtside, -, hr, hc, hb⟩ := h.outside.globals hm
  obtain ⟨as, hlisted, hlength⟩ := h.listed
  refine ⟨h.behind (Gen.makes_forM_one.mpr hm), ?_, ⟨as, ?_, ?_⟩, ?_⟩
  · rw [Point.behind_append]
    exact houtside
  · unfold Listed
    rw [hr, hc, hb]
    exact hlisted
  · rw [hlength, Program.headersOf_append]
    exact congrArg List.length (List.append_nil _).symm
  · have hsame := (Gen.functions_declaration d _ _ _ hm).known
    rw [hsame]
    exact h.covers.variables d

/-- The head of a function gives it the next number. -/
theorem Passed.begun (h : Passed legacy done g) (hsize : p.Addressable)
    (hp : p.items = done ++ .function header body :: after) {g₁ g₀ : Generator}
    (hopen : Gen.Makes ((.openFunction :: header.params.map .parameters).forM Construct.compile)
      g ⟨⟩ g₁) (hbegin : Gen.Makes (Gen.beginFunction header) g₁ ⟨⟩ g₀) :
    Begun legacy done header body g g₀ := by
  obtain ⟨as, hlisted, hlength⟩ := h.listed
  obtain ⟨hinside, -, hempty, hinitializer, has⟩ := h.outside.enter hlisted hopen hbegin
  obtain ⟨g₂, i, hfinish, hi, hnone, rfl⟩ := Gen.makes_beginFunction hbegin
  have hnumber : g₂.routines.size = (Program.headersOf done).length := by
    rw [← hlength, ← has, List.length_map, Array.length_toList]
  have hfunctions : g₂.functions = g.functions :=
    (Gen.functions_finishFunction hfinish).trans (Gen.functions_constructs (by simp) hopen).known
  have hlt : (Program.headersOf done).length < UInt32.size := by
    have hheaders : p.headers = Program.headersOf done ++ _ :=
      (congrArg Program.headersOf hp).trans (Program.headersOf_append done _)
    have hfew := hsize.functions
    rw [hheaders, List.length_append] at hfew
    omega
  have hindex : i.toNat = (Program.headersOf done).length := by
    rw [hi, hnumber, UInt32.toNat_ofNat_of_lt' hlt]
  rw [hfunctions] at hnone
  refine ⟨hinside, hempty, hinitializer, rfl, hnumber, h.covers.fresh hnone, ?_⟩
  show Functions.Covers ⟨_ :: g₂.functions.entries⟩ _
  rw [hfunctions]
  exact h.covers.function hnone hindex

theorem Passed.function (h : Passed legacy done g) (hsize : p.Addressable)
    (hp : p.items = done ++ .function header body :: after)
    {g₂ : Generator}
    (hm : Gen.Makes ((TopLevel.function header body).constructs.forM Construct.compile) g ⟨⟩ g₂) :
    Passed legacy (done ++ [.function header body]) g₂ := by
  obtain ⟨as, hlisted, hlength⟩ := h.listed
  obtain ⟨houtside, hlisted', -⟩ := h.outside.function hlisted hm
  refine ⟨h.behind hm, ?_, ⟨_, hlisted', ?_⟩, ?_⟩
  · rw [Point.behind_append]
    exact houtside
  · rw [List.length_append, hlength, Program.headersOf_append, List.length_append]
    rfl
  · obtain ⟨g₃, hm, hclose⟩ := Gen.makes_forM_append.mp hm
    obtain ⟨g₁, hopen, hm⟩ := Gen.makes_forM_append.mp hm
    obtain ⟨g₀, hbegin, hbody⟩ := Gen.makes_forM_cons.mp hm
    have hclosed := (Gen.functions_constructs (by simp) hclose).known
    have hinner := (Gen.functions_statement hbody).known
    rw [hclosed, hinner]
    exact (h.begun hsize hp hopen hbegin).covers

/-- The declarations `now`, those in `done` being in front of them. -/
theorem Passed.items {now : List TopLevel} (h : Passed legacy done g) (hsize : p.Addressable)
    (hp : p.items = done ++ now ++ rest) {g₂ : Generator}
    (hm : Gen.Makes ((now.flatMap TopLevel.constructs).forM Construct.compile) g ⟨⟩ g₂) :
    Passed legacy (done ++ now) g₂ := by
  induction now generalizing done g with
  | nil =>
    obtain rfl := Gen.makes_forM_nil.mp hm
    rw [List.append_nil]
    exact h
  | cons item now ih =>
    rw [List.flatMap_cons] at hm
    obtain ⟨g₁, hfirst, hrest⟩ := Gen.makes_forM_append.mp hm
    have hitems : p.items = done ++ item :: (now ++ rest) := by
      rw [hp, List.append_assoc, List.cons_append]
    have hassoc : done ++ item :: now = (done ++ [item]) ++ now := by rw [List.append_assoc]; rfl
    have hnext : Passed legacy (done ++ [item]) g₁ := by
      cases item with
      | «variables» d => exact h.variables (Gen.makes_forM_one.mp hfirst)
      | function header body => exact h.function hsize hitems hfirst
    rw [hassoc]
    exact ih hnext (hassoc ▸ hp) hrest

/-- The state behind declarations at the beginning of a program. -/
theorem Generated.split (hall : Generated p legacy g' image) (hp : p.items = done ++ rest) :
    ∃ g, Passed legacy done g ∧
      Gen.Makes ((rest.flatMap TopLevel.constructs).forM Construct.compile) g ⟨⟩ g' := by
  have hmakes := makes_of_generate hall.generate
  rw [Program.constructs, hp, List.flatMap_append] at hmakes
  obtain ⟨g, hfirst, hrest⟩ := Gen.makes_forM_append.mp hmakes
  have hitems : p.items = [] ++ done ++ rest := hp
  exact ⟨g, (passed_new legacy).items hall.size hitems hfirst, hrest⟩

/-- The state behind a whole program. -/
theorem Generated.passed (hall : Generated p legacy g' image) : Passed legacy p.items g' := by
  obtain ⟨g, hpassed, hrest⟩ := hall.split (List.append_nil p.items).symm
  obtain rfl := Gen.makes_forM_nil.mp hrest
  exact hpassed

/-! ## Functions -/

/-- A function with the declarations `done` in front of it is the routine with its number, and uses
the variables that it says. -/
structure Numbered (legacy : Bool) (image : Image) (done : List TopLevel) (header : Header)
    (body : Stmt) (f : Current) (d : Draft) : Prop where
  routine : image.routines[(Program.headersOf done).length]? = some (f.routine d)
  name : f.name = header.name.value
  params : f.params = header.parameterTypes
  locals : f.locals = .ofNat body.locals.length
  accesses : d.accesses = body.accesses legacy .function ((Point.behind done).enter header)

theorem Passed.numbered (h : Passed legacy done g) (hall : Generated p legacy g' image)
    (hp : p.items = done ++ .function header body :: after) {g₂ : Generator}
    (hm : Gen.Makes ((TopLevel.function header body).constructs.forM Construct.compile) g ⟨⟩ g₂) :
    ∃ f, g₂.current = some f ∧ Numbered legacy image done header body f g₂.body := by
  have hnext := h.function hall.size hp hm
  obtain ⟨g₃, hm, hclose⟩ := Gen.makes_forM_append.mp hm
  obtain ⟨g₁, hopen, hm⟩ := Gen.makes_forM_append.mp hm
  obtain ⟨g₀, hbegin, hbody⟩ := Gen.makes_forM_cons.mp hm
  obtain rfl := Gen.makes_closeScope.mp (Gen.makes_forM_one.mp hclose)
  have hbegun := h.begun hall.size hp hopen hbegin
  have htraced := body.traced legacy _ g₀ g₃ hbegun.inside hbody
  obtain ⟨f, hf, hlocals⟩ := htraced.inside.current
  have hhead := (Gen.functions_statement hbody).current
  rw [hf, hbegun.current, Option.map_some, Option.map_some, Option.some.injEq, Current.head,
    Current.head, Prod.mk.injEq, Prod.mk.injEq] at hhead
  have hrest := hnext.onwards hall (show p.items = done ++ [.function header body] ++ after by
    rw [hp, List.append_assoc]; rfl)
  have hroutine := Program.routine_of_current hnext.outside.outer hf hrest
  have hsize : (g₃.withScopes g₃.scopes.pop).routines.size = (Program.headersOf done).length :=
    (congrArg Array.size htraced.routines).trans hbegun.size
  rw [hsize, ← hall.finish] at hroutine
  refine ⟨f, hf, hroutine, hhead.1, hhead.2.1, ?_, ?_⟩
  · rw [hlocals]
    exact congrArg UInt32.ofNat (Nat.zero_add _)
  · have haccesses := htraced.accesses .function
    rwa [Generator.draft, Generator.draft, hbegun.empty] at haccesses

theorem Generated.numbered (hall : Generated p legacy g' image)
    (hp : p.items = done ++ .function header body :: after) :
    ∃ f d, Numbered legacy image done header body f d := by
  obtain ⟨g, hpassed, hrest⟩ := hall.split hp
  obtain ⟨g₂, hm, -⟩ := Gen.makes_forM_append.mp hrest
  obtain ⟨f, -, hf⟩ := hpassed.numbered hall hp hm
  exact ⟨f, g₂.body, hf⟩

/-- The body of a function in a program, in front of which there are the declarations `done`. It is
generated between the states `g₀` and `g₁`, and finished as a routine of the image. -/
structure BodyStands (p : Program) (legacy : Bool) (image : Image) (done : List TopLevel)
    (header : Header) (body : Stmt) (f : Current) (g₀ g₁ : Generator) : Prop where
  routine : image.routines[(Program.headersOf done).length]? = some (f.routine g₁.body)
  name : f.name = header.name.value
  params : f.params = header.parameterTypes
  fair : (Scene.ofFunction p ∅ (done.flatMap TopLevel.kept).length header body).Fair
  stands : ∀ q, (Scene.ofFunction p ∅ (done.flatMap TopLevel.kept).length header body).Stands
    (f.routine g₁.body).code body.constructs body.kept body.locals g₀ g₁ 0 0 q
  inside : ((Point.behind done).enter header).Inside legacy g₀
  empty : g₀.body = .empty
  covers : g₀.functions.Covers (done ++ [.function header body])
  number : p.number? header.name.value = some (Program.headersOf done).length

/-- The body of a function, in a program that is compiled. -/
theorem Passed.bodyStands (h : Passed legacy done g) (hall : Addressed p legacy g' image)
    (hp : p.items = done ++ .function header body :: after)
    {g₂ : Generator}
    (hm : Gen.Makes ((TopLevel.function header body).constructs.forM Construct.compile) g ⟨⟩ g₂) :
    ∃ f g₀ g₁, BodyStands p legacy image done header body f g₀ g₁ ∧
      Gen.Makes ((header.front []).forM Construct.compile) g ⟨⟩ g₀ ∧
      g₀.initializer = g.initializer ∧ g₂ = g₁.withScopes g₁.scopes.pop := by
  obtain ⟨g₃, hm, hclose⟩ := Gen.makes_forM_append.mp hm
  obtain ⟨g₄, hopen, hm⟩ := Gen.makes_forM_append.mp hm
  obtain ⟨g₅, hbegin, hbody⟩ := Gen.makes_forM_cons.mp hm
  have hbegun := h.begun hall.size hp hopen hbegin
  obtain ⟨f, g₀, g₁, hf⟩ :=
    Program.function_stands hall.size hall.generate hall.addressable hp
  rw [← hall.finish] at hf
  have hheader : Gen.Makes ((header.front []).forM Construct.compile) g ⟨⟩ g₅ :=
    Gen.makes_forM_append.mpr ⟨g, Gen.makes_forM_nil.mpr rfl,
      Gen.makes_forM_append.mpr ⟨g₄, hopen, Gen.makes_forM_one.mpr hbegin⟩⟩
  have hfront' : Gen.Makes ((header.front done).forM Construct.compile) (.new legacy) ⟨⟩ g₅ :=
    Gen.makes_forM_append.mpr ⟨g, h.makes, hheader⟩
  obtain rfl := (hf.front.unique hfront').2
  obtain rfl : g₁ = g₃ := ((hf.stands 0).makes.unique hbody).2
  refine ⟨f, g₀, g₁,
    ⟨hf.routine, hf.name, hf.params, hf.fair, hf.stands, hbegun.inside, hbegun.empty,
      hbegun.covers, ?_⟩,
    hheader, hbegun.initializer, Gen.makes_closeScope.mp (Gen.makes_forM_one.mp hclose)⟩
  have hlast : (⟨done ++ [.function header body]⟩ : Program).number? header.name.value = _ :=
    Program.number?_function hbegun.fresh
  have hnumber := Program.number?_append _ after hlast
  rw [List.append_assoc, List.singleton_append, ← hp] at hnumber
  exact hnumber

end

end OnePass
