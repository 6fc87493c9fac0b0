import OnePass.Proofs.Allotments
import OnePass.Proofs.DeclaredNames

/-!
# Variables do not share storage

Main statement: in a compiled program any two declared variables have different places, wherever
they are declared, and code uses the places of the variables of its own function and fields only
(`compile_separates`).

Fields belong to the program; local slots and argument slots belong to a function each. So a place
is told apart by the function that it belongs to, if it does to one. While the declarations of a
program are gone through, the places that are taken grow by those of the declared variables.
-/

namespace OnePass

/-! ## Places -/

/-- A place, with the number of the function it belongs to unless it is a field. -/
def Handle.place (owner : Option Nat) : Handle → Option Nat × Handle
  | .field n => (none, .field n)
  | .local n => (owner, .local n)
  | .argument n => (owner, .argument n)

@[simp]
theorem Handle.snd_place (owner : Option Nat) (h : Handle) : (h.place owner).2 = h := by
  cases h <;> rfl

theorem Handle.place_injective (owner : Option Nat) : (Handle.place owner).Injective := by
  intro h h' heq
  rw [← h.snd_place owner, ← h'.snd_place owner, heq]

/-- A declared variable of a program. -/
structure Declared where
  /-- its name, where it is declared -/
  name : Name
  /-- the number of the function that it is declared in, if it is declared in one -/
  owner : Option Nat
  /-- what its name stands for there -/
  symbol : Symbol

namespace Declared

/-- A variable that is declared in a function, or outside all functions. -/
def of (owner : Option Nat) (x : Name × Symbol) : Declared := ⟨x.1, owner, x.2⟩

/-- Where a variable is kept. -/
def place (v : Declared) : Option Nat × Handle := v.symbol.handle.place v.owner

/-- The image has a place of its own for a variable: a field of its type, a local slot of its
function, or an argument slot of its type. -/
def StoredIn (image : Image) (v : Declared) : Prop :=
  match v.symbol.storage with
  | .global | .static => ∃ n f, v.symbol.handle = .field n ∧ image.fields[n.toNat]? = some f ∧
      f.slot = v.symbol.slot
  | .local => ∃ n k r, v.symbol.handle = .local n ∧ v.owner = some k ∧
      image.routines[k]? = some r ∧ n.toNat < r.locals.toNat
  | .argument => ∃ n k r, v.symbol.handle = .argument n ∧ v.owner = some k ∧
      image.routines[k]? = some r ∧ r.params[n.toNat]? = some v.symbol.slot

theorem map_place (owner : Option Nat) (xs : List (Name × Symbol)) :
    (xs.map (of owner)).map place =
      ((xs.map Prod.snd).map Symbol.handle).map (Handle.place owner) := by
  simp only [List.map_map]
  rfl

end Declared

/-- The places of the first `m` fields and of the first `k` functions. -/
def Image.Taken (image : Image) (m k : Nat) : Option Nat × Handle → Prop
  | (none, .field n) => n.toNat < m
  | (some j, .local n) => j < k ∧ ∃ r, image.routines[j]? = some r ∧ n.toNat < r.locals.toNat
  | (some j, .argument n) => j < k ∧ ∃ r, image.routines[j]? = some r ∧ n.toNat < r.params.length
  | _ => False

theorem Image.Taken.mono {image : Image} {m m' k k' : Nat} (hm : m ≤ m') (hk : k ≤ k')
    {x : Option Nat × Handle} (h : image.Taken m k x) : image.Taken m' k' x := by
  match x, h with
  | (none, .field n), h => exact Nat.lt_of_lt_of_le h hm
  | (some j, .local n), ⟨hj, hr⟩ => exact ⟨Nat.lt_of_lt_of_le hj hk, hr⟩
  | (some j, .argument n), ⟨hj, hr⟩ => exact ⟨Nat.lt_of_lt_of_le hj hk, hr⟩

theorem Image.not_taken (image : Image) (x : Option Nat × Handle) : ¬ image.Taken 0 0 x := by
  match x with
  | (none, .field n) => exact Nat.not_lt_zero _
  | (some j, .local n) => exact fun h => Nat.not_lt_zero _ h.1
  | (some j, .argument n) => exact fun h => Nat.not_lt_zero _ h.1
  | (none, .local n) | (none, .argument n) | (some j, .field n) => exact id

/-- The variables `vs` have the places that fields and functions from `m` and `k` up to `m'` and
`k'` have, each of them one. -/
structure Image.Houses (image : Image) (m k m' k' : Nat) (vs : List Declared) : Prop where
  fills : Fills (image.Taken m k) (image.Taken m' k') (vs.map Declared.place)
  stored : ∀ v ∈ vs, v.StoredIn image

namespace Image.Houses

variable {image : Image} {m k m₁ k₁ m' k' : Nat} {vs ws : List Declared}

theorem nil (image : Image) (m k : Nat) : image.Houses m k m k [] := ⟨.nil fun _ => .rfl, nofun⟩

theorem append (h : image.Houses m k m₁ k₁ vs) (h' : image.Houses m₁ k₁ m' k' ws) :
    image.Houses m k m' k' (vs ++ ws) := by
  refine ⟨?_, fun v hv => (List.mem_append.mp hv).elim (h.stored v) (h'.stored v)⟩
  rw [List.map_append]
  exact h.fills.append h'.fills

end Image.Houses

section

variable {image : Image} {a b : Room} {k : Nat} {r : Routine} {xs : List (Name × Symbol)}

/-- What fits a room is stored in the image. -/
theorem Room.Suits.storedIn {x : Name × Symbol} {owner : Option Nat} (hx : b.Suits x.2)
    (hfields : b.fields <+: image.fields.map Field.slot)
    (hroutine : x.2.storage = .local ∨ x.2.storage = .argument → ∃ k r, owner = some k ∧
      image.routines[k]? = some r ∧ b.locals = r.locals.toNat ∧ b.params = r.params) :
    (Declared.of owner x).StoredIn image := by
  have hfield {n : UInt32} (hn : b.fields[n.toNat]? = some x.2.slot) :
      ∃ f, image.fields[n.toNat]? = some f ∧ f.slot = x.2.slot := by
    have hslot := getElem?_mono hfields hn
    rwa [List.getElem?_map, Option.map_eq_some_iff] at hslot
  unfold Room.Suits at hx
  unfold Declared.StoredIn Declared.of
  dsimp only
  cases hs : x.2.storage with
  | «global» =>
    rw [hs] at hx
    obtain ⟨n, hn, hslot⟩ := hx
    obtain ⟨f, hf⟩ := hfield hslot
    exact ⟨n, f, hn, hf⟩
  | static =>
    rw [hs] at hx
    obtain ⟨n, hn, hslot⟩ := hx
    obtain ⟨f, hf⟩ := hfield hslot
    exact ⟨n, f, hn, hf⟩
  | «local» =>
    rw [hs] at hx
    obtain ⟨n, hn, hlt⟩ := hx
    obtain ⟨k, r, howner, hr, hlocals, -⟩ := hroutine (.inl hs)
    exact ⟨n, k, r, hn, howner, hr, hlocals ▸ hlt⟩
  | argument =>
    rw [hs] at hx
    obtain ⟨n, hn, hslot⟩ := hx
    obtain ⟨k, r, howner, hr, -, hparams⟩ := hroutine (.inr hs)
    exact ⟨n, k, r, hn, howner, hr, hparams ▸ hslot⟩

/-- The storage of the variables of a function. -/
theorem Allots.houses_function (h : Allots a b (xs.map Prod.snd)) (hlocals : a.locals = 0)
    (hparams : a.params = []) (hr : image.routines[k]? = some r)
    (hlocals' : b.locals = r.locals.toNat) (hparams' : b.params = r.params)
    (hfields : b.fields <+: image.fields.map Field.slot) :
    image.Houses a.fields.length k b.fields.length (k + 1) (xs.map (.of (some k))) := by
  refine ⟨?_, fun v hv => ?_⟩
  · rw [Declared.map_place]
    -- the places that are new are fields and all those of the function `k`
    refine h.fills.map (Handle.place_injective _) (fun _ => .mono h.le.fields.length_le k.le_succ)
      (fun x => ?_) fun y hb ha => ?_
    · cases x with
      | field n => rfl
      | «local» n =>
        simp [Handle.place, Image.Taken, Room.Has, hr, hlocals, hlocals']
      | argument n =>
        simp [Handle.place, Image.Taken, Room.Has, hr, hparams, hparams']
    · obtain ⟨_ | j, n | n | n⟩ := y
      · exact ⟨.field n, rfl⟩
      · exact False.elim hb
      · exact False.elim hb
      · exact False.elim hb
      · obtain ⟨hj, hn⟩ := hb
        have hk : ¬ j < k := fun hlt => ha ⟨hlt, hn⟩
        obtain rfl : j = k := by omega
        exact ⟨.local n, rfl⟩
      · obtain ⟨hj, hn⟩ := hb
        have hk : ¬ j < k := fun hlt => ha ⟨hlt, hn⟩
        obtain rfl : j = k := by omega
        exact ⟨.argument n, rfl⟩
  · obtain ⟨x, hx, rfl⟩ := List.mem_map.mp hv
    exact (h.suits x.2 (List.mem_map_of_mem hx)).storedIn hfields fun _ =>
      ⟨k, r, rfl, hr, hlocals', hparams'⟩

/-- The storage of variables outside all functions. -/
theorem Allots.houses_globals (h : Allots a b (xs.map Prod.snd)) (hlocals : b.locals = a.locals)
    (hparams : b.params = a.params) (hglobal : ∀ x ∈ xs, x.2.storage = .global)
    (hfields : b.fields <+: image.fields.map Field.slot) (k : Nat) :
    image.Houses a.fields.length k b.fields.length k (xs.map (.of none)) := by
  refine ⟨?_, fun v hv => ?_⟩
  · rw [Declared.map_place]
    -- the places that are new are fields
    refine h.fills.map (Handle.place_injective _)
      (fun _ => .mono h.le.fields.length_le (Nat.le_refl k)) (fun x => ?_) fun y hb ha => ?_
    · cases x with
      | field n => rfl
      | «local» n => simp [Handle.place, Image.Taken, Room.Has, hlocals]
      | argument n => simp [Handle.place, Image.Taken, Room.Has, hparams]
    · obtain ⟨_ | j, n | n | n⟩ := y
      · exact ⟨.field n, rfl⟩
      · exact False.elim hb
      · exact False.elim hb
      · exact False.elim hb
      · exact absurd hb ha
      · exact absurd hb ha
  · obtain ⟨x, hx, rfl⟩ := List.mem_map.mp hv
    refine (h.suits x.2 (List.mem_map_of_mem hx)).storedIn hfields fun hs => ?_
    rw [hglobal x hx] at hs
    rcases hs with hs | hs <;> cases hs

end

/-! ## The variables of a program -/

/-- The number of the function that a declaration is, in front of which there are `k` functions. -/
def TopLevel.owner (k : Nat) : TopLevel → Option Nat
  | .variables _ => none
  | .function _ _ => some k

namespace Program

/-- The variables that declarations declare, in order, in front of which there are `k` functions:
for each one the number of its function, its name and how long it lives. -/
def declaresFrom (k : Nat) : List TopLevel → List (Option Nat × Name × Storage)
  | [] => []
  | x :: xs => ((x.constructs.flatMap Construct.declares).map fun d => (x.owner k, d)) ++
      declaresFrom (k + (headersOf [x]).length) xs

/-- The variables that a program declares, in order. -/
def declares (p : Program) : List (Option Nat × Name × Storage) := declaresFrom 0 p.items

end Program

/-- The variables of declarations as generation knows them, in front of which there are `k`
functions. -/
def Generator.variables (g : Generator) (k : Nat) : List TopLevel → List Declared
  | [] => []
  | x :: xs =>
    match (x.constructs.forM Construct.compile).run g with
    | .ok (_, g') => (g.declared x.constructs).map (.of (x.owner k)) ++
        g'.variables (k + (Program.headersOf [x]).length) xs
    | .error _ => []

/-- The variables of a program that is compiled, in the order of their declarations. -/
def Compilation.variables (c : Compilation) (legacy : Bool) : List Declared :=
  (Generator.new legacy).variables 0 c.tree.items

section

variable {legacy : Bool} {done now after : List TopLevel} {g g₁ g' : Generator} {p : Program}
  {image : Image}

/-- There is a field for each variable that is kept. -/
theorem Passed.size_fields (h : Passed legacy done g) :
    g.fields.size = (done.flatMap TopLevel.kept).length :=
  (h.outside.fields.trans (Point.origin.foldl_pass_counts done).1).trans (Nat.zero_add _)

theorem Generator.length_room (g : Generator) (params : List Slot) :
    (g.room params).fields.length = g.fields.size := by
  rw [Generator.room, List.length_map, Array.length_toList]

/-- There are numbers left for the fields of the next declaration. -/
theorem Passed.fields_le {x : TopLevel} (h : Passed legacy done g)
    (hall : Generated p legacy g' image)
    (hp : p.items = done ++ x :: after) : g.fields.size + x.kept.length ≤ UInt32.size := by
  have hsize := hall.size.fields
  rw [Program.kept, hp, List.flatMap_append, List.flatMap_cons, List.length_append,
    List.length_append] at hsize
  rw [h.size_fields]
  omega

/-- One declaration outside all functions, or a function. -/
theorem Passed.houses_item {x : TopLevel} (h : Passed legacy done g)
    (hall : Generated p legacy g' image) (hp : p.items = done ++ x :: after)
    (hm : Gen.Makes (x.constructs.forM Construct.compile) g ⟨⟩ g₁)
    (hfields : g₁.fields.toList <+: image.fields) {k : Nat}
    (hk : (Program.headersOf done).length = k) :
    image.Houses g.fields.size k g₁.fields.size (k + (Program.headersOf [x]).length)
        ((g.declared x.constructs).map (.of (x.owner k))) ∧
      (g.declared x.constructs).map (fun v => (v.1, v.2.storage)) =
        x.constructs.flatMap Construct.declares := by
  have hslots : g₁.fields.toList.map Field.slot <+: image.fields.map Field.slot := hfields.map _
  cases x with
  | «variables» d =>
    have hd := Gen.makes_forM_one.mp hm
    obtain ⟨-, -, -, hcurrent, -⟩ := h.outside.globals hd
    have hroom := h.fields_le hall hp
    rw [TopLevel.kept, Declaration.fields, List.length_map] at hroom
    have hdeclares := Declares.globals [] h.outside.outer hroom hd
    have hlocals : (g₁.room []).locals = (g.room []).locals := by
      rw [Generator.room, Generator.room, Generator.localCount, Generator.localCount, hcurrent]
    have hglobal (v : Name × Symbol) (hv : v ∈ g.declared [.globals d]) :
        v.2.storage = .global := by
      have hname : (v.1, v.2.storage) ∈ d.items.map fun i => (i.name, Storage.global) := by
        have hmem := List.mem_map_of_mem (f := fun x => (x.1, x.2.storage)) hv
        rwa [hdeclares.names, List.flatMap_singleton] at hmem
      obtain ⟨i, -, hi⟩ := List.mem_map.mp hname
      exact (Prod.mk.inj hi).2.symm
    refine ⟨?_, hdeclares.names⟩
    have hhouses := hdeclares.allots.houses_globals hlocals rfl hglobal hslots k
    rw [Generator.length_room, Generator.length_room] at hhouses
    exact hhouses
  | function header body =>
    -- the routine that it becomes has the local slots that there are at its end
    obtain ⟨f, hcurrent, hf⟩ := h.numbered hall hp hm
    have hmem : .function header body ∈ p.items := hp ▸ List.mem_append_right _ (.head _)
    have hparams := hall.size.params header body hmem
    rw [Header.parameterTypes, List.length_map] at hparams
    have hdeclares := TopLevel.declares_function (h.fields_le hall hp) hparams
      (hall.size.locals header body hmem) hm
    refine ⟨?_, hdeclares.names⟩
    have hlocals : (g₁.room header.parameterTypes).locals = f.locals.toNat := by
      rw [Generator.room, Generator.localCount, hcurrent]
      rfl
    have hhouses := hdeclares.allots.houses_function (r := f.routine g₁.body) rfl rfl
      (hk ▸ hf.routine) hlocals hf.params.symm hslots
    rw [Generator.length_room, List.length_map, Array.length_toList] at hhouses
    exact hhouses

theorem Passed.houses (h : Passed legacy done g) (hall : Generated p legacy g' image)
    (hp : p.items = done ++ now)
    (hm : Gen.Makes ((now.flatMap TopLevel.constructs).forM Construct.compile) g ⟨⟩ g')
    (hfields : image.fields = g'.fields.toList) {k : Nat}
    (hk : (Program.headersOf done).length = k) :
    image.Houses g.fields.size k g'.fields.size (k + (Program.headersOf now).length)
        (g.variables k now) ∧
      (g.variables k now).map (fun v => (v.owner, v.name, v.symbol.storage)) =
        Program.declaresFrom k now := by
  induction now generalizing done g k with
  | nil =>
    obtain rfl := Gen.makes_forM_nil.mp hm
    exact ⟨.nil .., rfl⟩
  | cons x now ih =>
    rw [List.flatMap_cons] at hm
    obtain ⟨g₁, hfirst, hrest⟩ := Gen.makes_forM_append.mp hm
    have hlater := Gen.makes_constructs_later hrest
    obtain ⟨hone, hname⟩ := h.houses_item hall hp hfirst (hfields ▸ hlater.fields) hk
    have hnext : Passed legacy (done ++ [x]) g₁ :=
      h.items hall.size (show p.items = done ++ [x] ++ now by rw [hp]; simp)
        (by simpa using hfirst)
    have hk' : (Program.headersOf (done ++ [x])).length = k + (Program.headersOf [x]).length := by
      rw [Program.headersOf_append, List.length_append, hk]
    obtain ⟨hmore, hnames⟩ := ih hnext (by rw [hp]; simp) hrest hk'
    have hcount : k + (Program.headersOf (x :: now)).length
        = k + (Program.headersOf [x]).length + (Program.headersOf now).length := by
      rw [show x :: now = [x] ++ now from rfl, Program.headersOf_append, List.length_append,
        Nat.add_assoc]
    rw [Generator.variables, show (x.constructs.forM Construct.compile).run g = .ok (⟨⟩, g₁) from
      hfirst, hcount]
    refine ⟨hone.append hmore, ?_⟩
    rw [List.map_append, hnames, Program.declaresFrom, ← hname, List.map_map, List.map_map]
    rfl

end

/-! ## Code -/

/-- A stream uses a variable. -/
def Code.Uses (c : Code) (h : Handle) : Prop :=
  ∃ i ∈ c.instructions, (i.access?).map Access.handle = some h

/-- What is true of all places in the uses of a stream is true of what the stream uses. -/
theorem Code.Uses.of_keepsTo {c : Code} {h : Handle} {P : Handle → Prop} (hh : c.Uses h)
    (hc : KeepsTo P c.accesses) : P h := by
  obtain ⟨i, hi, hh⟩ := hh
  obtain ⟨a, ha, rfl⟩ := Option.map_eq_some_iff.mp hh
  exact hc a (List.mem_map_of_mem
    (List.mem_filterMap.mpr ⟨i, Array.mem_toList_iff.mpr hi, ha⟩))

/-! ## Programs -/

/-- The declared variables `vs` of a program have places of their own, and code keeps to those of
its function. -/
structure Compilation.Separate (c : Compilation) (vs : List Declared) : Prop where
  /-- they are those of the text, in order -/
  declared : vs.map (fun v => (v.owner, v.name, v.symbol.storage)) = c.tree.declares
  /-- no two of them have the same place -/
  distinct : (vs.map Declared.place).Nodup
  /-- the image has the places -/
  stored : ∀ v ∈ vs, v.StoredIn c.image
  /-- the function with a number is the routine with that number -/
  functions : ∀ before header body after, c.tree.items = before ++ .function header body :: after →
    ∃ r, c.image.routines[(Program.headersOf before).length]? = some r ∧
      r.name = header.name.value ∧ r.params = header.parameterTypes
  /-- a routine uses fields of declared variables and variables of its own function -/
  own : ∀ (k : Nat) (r : Routine), c.image.routines[k]? = some r → ∀ h, r.code.Uses h →
    ∃ v ∈ vs, v.place = h.place (some k)
  /-- what runs before the program uses fields of declared variables only -/
  start : ∀ h, c.image.initializer.Uses h → ∃ v ∈ vs, v.symbol.handle = h ∧ ∃ n, h = .field n

/-- A routine uses the fields in front of its function and in it, and the local slots and argument
slots of its function. -/
theorem Numbered.keepsTo {legacy : Bool} {image : Image} {done : List TopLevel} {header : Header}
    {body : Stmt} {f : Current} {d : Draft} (hf : Numbered legacy image done header body f d)
    {P : Handle → Prop}
    (hfields : ∀ i < (done.flatMap TopLevel.kept).length + body.kept.length, P (.field (.ofNat i)))
    (hlocals : ∀ i < body.locals.length, P (.local (.ofNat i)))
    (harguments : ∀ i < header.parameters.length, P (.argument (.ofNat i))) :
    KeepsTo P (f.routine d).code.accesses := by
  have haccesses : (f.routine d).code.accesses = d.accesses := Draft.accesses_finished d _
  rw [haccesses, hf.accesses]
  obtain ⟨hbefore, hnone⟩ := Point.origin.foldl_pass_counts done
  rw [show Point.origin.fields = 0 from rfl, Nat.zero_add] at hbefore
  have hvisible : (Point.behind done).visible.Within P := by
    refine Point.within_foldl_pass (fun n v hv => by cases hv)
      ⟨fun i hi => hfields i ?_, fun i hi => ?_⟩
    · exact (hbefore ▸ hi).trans_le (Nat.le_add_right _ _)
    · rw [hnone] at hi
      cases hi
  refine body.keepsTo legacy _ (Point.within_enter hvisible harguments)
    ⟨fun i hi => hfields i ?_, fun i hi => hlocals i ?_⟩
  · rw [← hbefore]
    exact hi
  · exact hi.trans_eq (Nat.zero_add _)

namespace Program

/-- Every number below that of the functions is the number of one. -/
theorem exists_function {items : List TopLevel} {n : Nat} (hn : n < (headersOf items).length) :
    ∃ before header body after, items = before ++ .function header body :: after ∧
      (headersOf before).length = n := by
  induction items generalizing n with
  | nil => cases hn
  | cons item items ih =>
    cases item with
    | «variables» d =>
      obtain ⟨before, header, body, after, rfl, rfl⟩ := ih hn
      exact ⟨.variables d :: before, header, body, after, rfl, rfl⟩
    | function header body =>
      cases n with
      | zero => exact ⟨[], header, body, items, rfl, rfl⟩
      | succ n =>
        obtain ⟨before, header', body', after, rfl, rfl⟩ := ih (Nat.lt_of_succ_lt_succ hn)
        exact ⟨.function header body :: before, header', body', after, rfl, rfl⟩

variable {p : Program} {legacy : Bool} {g : Generator} {image : Image}

/-- Behind the routines of the functions there is at most the one that stands in for an entry
function. -/
theorem routines_behind (hall : Generated p legacy g image) {n : Nat}
    (hn : (headersOf p.items).length ≤ n) {r : Routine} (hr : image.routines[n]? = some r) :
    r = emptyEntry := by
  obtain ⟨as, hlisted, hlength⟩ := (hall.passed).listed
  obtain ⟨g₁, hlast, himage⟩ := makes_of_finish g
  obtain ⟨rs, rfl, has⟩ := hlisted.finish hlast
  have hsize : rs.size = (headersOf p.items).length := by
    rw [← hlength, ← has, List.length_map, Array.length_toList]
  rw [← hsize] at hn
  rw [hall.finish, himage] at hr
  obtain ⟨-, hi⟩ | ⟨-, hi⟩ := (Generator.accesses_toImage { g with
    routines := rs, body := .empty, current := none }).2 <;> rw [hi] at hr
  · rw [Array.getElem?_eq_none hn] at hr
    cases hr
  · rw [Array.getElem?_push] at hr
    split at hr
    · exact (Option.some.inj hr).symm
    · rw [Array.getElem?_eq_none hn] at hr
      cases hr

/-- What the code of a routine uses is a field, or belongs to the function that it is. -/
theorem taken_of_uses (hall : Generated p legacy g image) {k : Nat} {r : Routine}
    (hr : image.routines[k]? = some r) {h : Handle} (hh : r.code.Uses h) :
    image.Taken p.kept.length (headersOf p.items).length (h.place (some k)) := by
  by_cases hk : k < (headersOf p.items).length
  · obtain ⟨before, header, body, after, hp, hbefore⟩ := exists_function hk
    have hmem : .function header body ∈ p.items := hp ▸ List.mem_append_right _ (.head _)
    obtain ⟨f, d, hf⟩ := hall.numbered hp
    obtain rfl := Option.some.inj (hf.routine.symm.trans (hbefore ▸ hr))
    have hkept : (before.flatMap TopLevel.kept).length + body.kept.length ≤ p.kept.length := by
      rw [kept, hp, List.flatMap_append, List.flatMap_cons, List.length_append, List.length_append,
        ← Nat.add_assoc]
      exact Nat.le_add_right _ _
    refine hh.of_keepsTo (P := fun h => image.Taken _ _ (h.place (some k)))
      (hf.keepsTo (fun i hi => ?_) (fun i hi => ?_) fun i hi => ?_)
    · exact (Nat.mod_le _ _).trans_lt (hi.trans_le hkept)
    · refine ⟨hk, _, hr, (Nat.mod_le _ _).trans_lt ?_⟩
      show i < f.locals.toNat
      rwa [hf.locals, UInt32.toNat_ofNat_of_lt' (hall.size.locals header body hmem)]
    · refine ⟨hk, _, hr, (Nat.mod_le _ _).trans_lt ?_⟩
      show i < f.params.length
      rwa [hf.params, Header.parameterTypes, List.length_map]
  · -- the routine that stands in for an entry function
    obtain rfl := routines_behind hall (Nat.le_of_not_lt hk) hr
    obtain ⟨i, hi, hh⟩ := hh
    obtain rfl : i = .ret := by simpa [emptyEntry] using hi
    cases hh

/-- What the code in front of a program uses is a field. -/
theorem field_of_uses (hall : Generated p legacy g image) {h : Handle}
    (hh : image.initializer.Uses h) : ∃ n, h = .field n ∧ n.toNat < p.kept.length := by
  obtain ⟨-, hstart⟩ := (Point.Outside.origin legacy).items (.inl ⟨rfl, rfl, rfl⟩)
    (makes_of_generate hall.generate)
  have haccesses : image.initializer.accesses = startFrom legacy .origin p.items := by
    rw [hall.finish, Generator.initializer_finish]
    show (g.initializer.emitAll [.ret]).accesses = _
    rw [Draft.accesses_emitAll, hstart.accesses]
    exact List.append_nil _
  obtain ⟨hfields, -⟩ := Point.origin.foldl_pass_counts p.items
  have hbound : KeepsTo (fun h => ∀ n, h = .field n → n.toNat < p.kept.length)
      (startFrom legacy .origin p.items) := by
    refine keepsTo_start (fun n v hv => by cases hv) ⟨fun i hi n hn => ?_, fun i hi n hn => ?_⟩
      (fun i n hn => by cases hn) fun i n hn => by cases hn
    · obtain rfl := Handle.field.inj hn
      rw [hfields] at hi
      exact (Nat.mod_le _ _).trans_lt (hi.trans_eq (Nat.zero_add _))
    · cases hn
  have hfield := hh.of_keepsTo (haccesses ▸ hstart.fields)
  have hlt := hh.of_keepsTo (haccesses ▸ hbound)
  cases h with
  | field n => exact ⟨n, rfl, hlt n rfl⟩
  | _ => cases hfield

end Program

/-- **Distinct variables never share storage.** 32 bits have to be enough for the source, but not
for its code. -/
theorem compile_separates {name : String} {legacy : Bool} {source : List UInt8} {c : Compilation}
    (h : compile name legacy source = .ok c) (hsource : source.length < UInt32.size) :
    c.Separate (c.variables legacy) := by
  obtain ⟨g, hall⟩ := generated_of_compile h (compile_tree_addressable h hsource)
  obtain ⟨g₁, hlast, himage⟩ := makes_of_finish g
  have hfields : c.image.fields = g.fields.toList := by
    rw [hall.finish, himage, Generator.fields_toImage, Generator.onDraft_fields,
      (Gen.keeps_finishFunction hlast).2.1]
  obtain ⟨hhouses, hnames⟩ := (passed_new legacy).houses (k := 0) hall
    (List.nil_append _).symm (makes_of_generate hall.generate) hfields rfl
  rw [Nat.zero_add, hall.passed.size_fields] at hhouses
  -- whatever the image has a place for is a declared variable
  have hfilled {x : Option Nat × Handle}
      (hx : c.image.Taken c.tree.kept.length (Program.headersOf c.tree.items).length x) :
      ∃ v ∈ c.variables legacy, v.place = x :=
    List.mem_map.mp ((hhouses.fills.mem x).mpr ⟨hx, c.image.not_taken x⟩)
  refine ⟨hnames, hhouses.fills.distinct, hhouses.stored, fun before header body after hp => ?_,
    fun k r hr h hh => hfilled (Program.taken_of_uses hall hr hh), fun h hh => ?_⟩
  · obtain ⟨f, d, hf⟩ := hall.numbered hp
    exact ⟨_, hf.routine, hf.name, hf.params⟩
  · obtain ⟨n, rfl, hn⟩ := Program.field_of_uses hall hh
    obtain ⟨v, hv, hplace⟩ := hfilled (x := (none, .field n)) hn
    exact ⟨v, hv, (Handle.snd_place _ _).symm.trans (congrArg Prod.snd hplace), n, rfl⟩

/-- Two functions, one of them with a parameter, blocks, a counter and a static variable. -/
def blocksSource : List UInt8 :=
  ("int f(int n) \x7b static int k; for i = 1 to n do \x7b int x : i; \x7d " ++
    "\x7b int x; k += x; \x7d return k; \x7d " ++
    "int main() \x7b int x : 2; return f(x); \x7d").toUTF8.toList

/-- The places of their variables, in the order of the declarations. -/
def blocksPlaces : List (Option Nat × Handle) :=
  [(some 0, .argument 0), (none, .field 0), (some 0, .local 0), (some 0, .local 1),
    (some 0, .local 2), (some 1, .local 0)]

theorem compile_separates_blocks : ∃ c, compile "" false blocksSource = .ok c ∧
    (c.variables false).map Declared.place = blocksPlaces ∧ c.Separate (c.variables false) := by
  obtain ⟨c, hc, -, hplaces⟩ := exists_compilation
    (q := fun c => decide ((c.variables false).map Declared.place = blocksPlaces))
    (show (compile "" false blocksSource).toOption.any _ = true by decide +kernel)
  exact ⟨c, hc, of_decide_eq_true hplaces, compile_separates hc (by decide +kernel)⟩

end OnePass
