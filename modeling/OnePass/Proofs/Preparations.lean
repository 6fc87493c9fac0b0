import OnePass.Compile
import OnePass.Proofs.Execution

/-!
# What declarations are carried out

A declared variable is made ready in what is visible behind its name: that is its `Preparation`.
Declarations that are carried out one after another are a list of them. The ones of a block are
carried out where the block is entered, those of its static variables apart; and these are carried
out before the program, together with global variables, in the order of the text
(`Compilation.preparations`).
-/

namespace OnePass

/-- A declared variable that is to be made ready. -/
structure Preparation where
  /-- what its initialiser is to be understood in -/
  situation : Situation
  /-- the variable -/
  symbol : Symbol
  /-- what initialises it, or each of its elements -/
  init : Option Expr

namespace Preparation

/-- Carries out a declaration. A variable that is an array gets a new one first, of zeros. Then the
initialiser is evaluated, once for a word, and for an array once for each element in order, its
value being stored before the next one is computed. Where there is none a word is left as it is. -/
def carryOut (x : Preparation) : Eval Unit :=
  match x.symbol.shape, x.init with
  | .array (some n), none => do
    let a ← Eval.newArray n
    modify fun m => m.set x.symbol.handle a
  | .array (some n), some e => do
    let a ← Eval.newArray n
    modify fun m => m.set x.symbol.handle a
    (List.range n.toNat).forM fun k => do
      let a ← Eval.read x.symbol.handle
      Eval.store (.element a (UInt32.ofNat k).toInt32) (← Eval.word (← e.evaluate x.situation))
  | _, none => return
  | _, some e => do
    Eval.store (.slot x.symbol.handle) (← Eval.word (← e.evaluate x.situation))

/-- Whether the variable is a local slot, which is made ready where its block is entered. -/
def isLocal (x : Preparation) : Bool := x.symbol.storage = .local

/-- What a slot holds that is made ready, and what initialises it. -/
def kept (x : Preparation) : Kept := ⟨x.symbol.slot, x.init⟩

/-- Carries out declarations in order. -/
def carryOutAll (xs : List Preparation) : Eval Unit := xs.forM carryOut

theorem carryOutAll_append (xs ys : List Preparation) :
    carryOutAll (xs ++ ys) = (do carryOutAll xs; carryOutAll ys) := by
  simp only [carryOutAll, List.forM_eq_forM, List.forM_append]

end Preparation

/-- The elements of an array are initialised in order. -/
theorem Eval.fill_eq (h : Handle) (value : Eval Int32) (start n : Nat) :
    Eval.fill h value start n = (List.range' start n).forM (fun k => do
      let a ← Eval.read h
      Eval.store (.element a (UInt32.ofNat k).toInt32) (← value)) := by
  induction n generalizing start with
  | zero => rfl
  | succ n ih =>
    simp only [List.range'_succ, List.forM_eq_forM, List.forM_cons] at ih ⊢
    rw [← ih, Eval.fill]
    simp only [bind_assoc]

/-- Making a variable ready is carrying out its declaration. -/
theorem Situation.prepare_eq (s : Situation) (v : Symbol) (init : Option Expr) :
    s.prepare v init = (Preparation.mk s v init).carryOut := by
  unfold Situation.prepare Preparation.carryOut
  dsimp only
  generalize v.shape = shape
  match shape, init with
  | .array (some n), none => rfl
  | .array (some n), some e =>
    simp only [Eval.fill_eq, List.range_eq_range', bind_assoc]
  | .array none, none => rfl
  | .array none, some e => rfl
  | .scalar, none => rfl
  | .scalar, some e => rfl

namespace Surroundings

/-- The preparations of declared variables of one type. -/
def preparationsOf (r : Surroundings) (type : WordType) (static : Bool) :
    List Declarator → List Preparation
  | [] => []
  | d :: ds =>
    let r' := r.declare type static d
    ⟨r'.toSituation, r.symbol type static d, d.init⟩ :: r'.preparationsOf type static ds

/-- The preparations of the variables that are declared in a block, static ones included. -/
def preparations (r : Surroundings) : List Declaration → List Preparation
  | [] => []
  | d :: ds => r.preparationsOf d.type.value d.static.isSome d.items ++
      (r.declareAll d.type.value d.static.isSome d.items).preparations ds

/-- What is carried out where a block is entered. -/
def locally (r : Surroundings) (ds : List Declaration) : List Preparation :=
  (r.preparations ds).filter Preparation.isLocal

/-- What is carried out before the program of the declarations of a block. -/
def statics (r : Surroundings) (ds : List Declaration) : List Preparation :=
  (r.preparations ds).filter fun x => !x.isLocal

section

variable {r : Surroundings} {type : WordType} {items : List Declarator}

theorem isLocal_of_mem (static : Bool) {x : Preparation}
    (h : x ∈ r.preparationsOf type static items) : x.isLocal = !static := by
  induction items generalizing r with
  | nil => cases h
  | cons d ds ih =>
    rcases List.mem_cons.mp h with rfl | h
    · cases static <;> rfl
    · exact ih h

theorem filter_preparationsOf (static : Bool) :
    (r.preparationsOf type static items).filter Preparation.isLocal =
        (if static then [] else r.preparationsOf type static items) ∧
      (r.preparationsOf type static items).filter (fun x => !x.isLocal) =
        (if static then r.preparationsOf type static items else []) := by
  have hlocal (x) (hx : x ∈ r.preparationsOf type static items) := isLocal_of_mem static hx
  cases static
  · exact ⟨List.filter_eq_self.mpr hlocal,
      List.filter_eq_nil_iff.mpr fun x hx => by simp [hlocal x hx]⟩
  · exact ⟨List.filter_eq_nil_iff.mpr fun x hx => by simp [hlocal x hx],
      List.filter_eq_self.mpr fun x hx => by simp [hlocal x hx]⟩

variable {d : Declaration} {ds : List Declaration}

theorem locally_cons : r.locally (d :: ds) =
    (if d.static.isSome then [] else r.preparationsOf d.type.value d.static.isSome d.items) ++
      (r.declareAll d.type.value d.static.isSome d.items).locally ds := by
  rw [← (filter_preparationsOf d.static.isSome).1]
  exact List.filter_append ..

theorem statics_cons : r.statics (d :: ds) =
    (if d.static.isSome then r.preparationsOf d.type.value d.static.isSome d.items else []) ++
      (r.declareAll d.type.value d.static.isSome d.items).statics ds := by
  rw [← (filter_preparationsOf d.static.isSome).2]
  exact List.filter_append ..

theorem prepareAll_local : r.prepareAll type false items =
    Preparation.carryOutAll (r.preparationsOf type false items) := by
  induction items generalizing r with
  | nil => rfl
  | cons d ds ih =>
    rw [prepareAll, ih, Situation.prepare_eq]
    rfl

theorem prepareAll_static : r.prepareAll type true items = pure ⟨⟩ := by
  induction items generalizing r with
  | nil => rfl
  | cons d ds ih =>
    rw [prepareAll, ih]
    rfl

/-- Where a block is entered its local variables are made ready, one after another. -/
theorem enter_eq (r : Surroundings) (ds : List Declaration) :
    r.enter ds = Preparation.carryOutAll (r.locally ds) := by
  induction ds generalizing r with
  | nil => rfl
  | cons d ds ih =>
    rw [enter, ih, locally_cons, Preparation.carryOutAll_append]
    cases d.static.isSome with
    | true =>
      rw [prepareAll_static]
      rfl
    | false =>
      rw [prepareAll_local]
      rfl

end

end Surroundings

/-! ## Before the program -/

namespace Stmt

mutual

/-- The preparations of the static variables of a statement, in order. -/
def statics (r : Surroundings) : Stmt → List Preparation
  | .block ds body => r.inner.statics ds ++ staticsOf (r.inner.behind ds) body
  | .expr _ => []
  | .empty _ => []
  | .choice _ body none => body.statics r
  | .choice _ body (some otherwise) => body.statics r ++ otherwise.statics (r.after body)
  | .loop _ body => body.statics r
  | .count counter _ body => body.statics (r.counting counter)
  | .ret _ _ => []
  | .leave _ => []

/-- The same for statements one after another. -/
def staticsOf (r : Surroundings) : List Stmt → List Preparation
  | [] => []
  | s :: ss => s.statics r ++ staticsOf (r.after s) ss

end

end Stmt

/-- The innermost scope with one more parameter, which has the next argument slot. -/
def Scopes.parameter (s : Scopes) (p : Name × Slot) : Scopes :=
  s.withCurrent (s.current.insert p.1.value ⟨p.2.type, .argument, s.count .argument,
    if p.2.array then .array none else .scalar, .argument (s.count .argument)⟩)

namespace Surroundings

/-- A variable declared outside all functions. -/
def global (r : Surroundings) (type : WordType) (d : Declarator) : Symbol :=
  ⟨type, .global, r.scopes.count .global, d.declaredShape, .field (.ofNat r.fields)⟩

/-- Behind the name of a variable outside all functions. -/
def declareGlobal (r : Surroundings) (type : WordType) (d : Declarator) : Surroundings :=
  { r.insert d.name.value (r.global type d) with fields := r.fields + 1 }

/-- Behind variables outside all functions. -/
def declareGlobals (r : Surroundings) (type : WordType) (ds : List Declarator) : Surroundings :=
  ds.foldl (·.declareGlobal type) r

/-- The preparations of variables outside all functions. -/
def globals (r : Surroundings) (type : WordType) : List Declarator → List Preparation
  | [] => []
  | d :: ds =>
    let r' := r.declareGlobal type d
    ⟨r'.toSituation, r.global type d, d.init⟩ :: r'.globals type ds

/-- In front of the body of a function, which is the routine `n`. Its parameters are visible and
the function itself is known. -/
def enterFunction (r : Surroundings) (n : Nat) (header : Header) : Surroundings :=
  { r with
    scopes := header.parameters.foldl Scopes.parameter r.scopes.push
    functions := ⟨(header.name.value,
      ⟨header.parameterTypes, header.returnType, .routine (.ofNat n)⟩) :: r.functions.entries⟩
    locals := 0 }

/-- Behind a function. -/
def leaveFunction (r : Surroundings) (n : Nat) (header : Header) (body : Stmt) : Surroundings :=
  { r with
    functions := (r.enterFunction n header).functions
    fields := r.fields + body.kept.length }

end Surroundings

/-- What is carried out before the program, of declarations in front of which there are `n`
functions. -/
def Program.preparationsFrom (r : Surroundings) (n : Nat) : List TopLevel → List Preparation
  | [] => []
  | .variables d :: items => r.globals d.type.value d.items ++
      preparationsFrom (r.declareGlobals d.type.value d.items) n items
  | .function header body :: items => body.statics (r.enterFunction n header) ++
      preparationsFrom (r.leaveFunction n header body) (n + 1) items

/-- What is carried out before a program, in which a call may take `fuel` instructions: the
declarations of global and static variables in the order of the text. -/
def Compilation.preparations (c : Compilation) (legacy : Bool) (fuel : Nat) : List Preparation :=
  Program.preparationsFrom ⟨⟨c.image, .new, .new, legacy, 1, fuel⟩, 0, 0⟩ 0 c.tree.items

/-! ## They are the fields -/

/-- Variables have the fields from the number `n` on, in order. -/
structure Preparation.Fields (xs : List Preparation) (n : Nat) (ks : List Kept) : Prop where
  kept : xs.map Preparation.kept = ks
  handles : xs.map (fun x => x.symbol.handle) =
    (List.range' n ks.length).map fun i => .field (.ofNat i)

namespace Preparation.Fields

variable {xs ys : List Preparation} {n : Nat} {ks ls : List Kept}

theorem nil : Fields [] n [] := ⟨rfl, rfl⟩

theorem append (h : Fields xs n ks) (h' : Fields ys (n + ks.length) ls) :
    Fields (xs ++ ys) n (ks ++ ls) := by
  constructor
  · rw [List.map_append, h.kept, h'.kept]
  · rw [List.map_append, h.handles, h'.handles, ← List.map_append, List.range'_append_1,
      List.length_append]

theorem cons {x : Preparation} (hx : x.symbol.handle = .field (.ofNat n))
    (h : Fields xs (n + 1) ks) : Fields (x :: xs) n (x.kept :: ks) := by
  constructor
  · rw [List.map_cons, h.kept]
  · rw [List.map_cons, h.handles, hx]
    rfl

end Preparation.Fields

namespace Surroundings

open Preparation (Fields)

variable {r : Surroundings}

theorem fields_preparationsOf {type : WordType} {items : List Declarator} :
    Fields (r.preparationsOf type true items) r.fields
      (items.map fun i => ⟨i.slot type, i.init⟩) := by
  induction items generalizing r with
  | nil => exact .nil
  | cons d ds ih =>
    have hslot : (r.symbol type true d).slot = d.slot type :=
      (Declarator.symbol_declared rfl rfl).1
    rw [List.map_cons, ← hslot]
    exact .cons rfl ih

theorem fields_declareAll {type : WordType} {static : Bool} {items : List Declarator} :
    (r.declareAll type static items).fields =
      r.fields + if static then items.length else 0 := by
  induction items generalizing r with
  | nil => cases static <;> rfl
  | cons d ds ih =>
    rw [declareAll, ih]
    cases static
    · rfl
    · exact Nat.add_right_comm ..

theorem fields_declaration (r : Surroundings) (d : Declaration) :
    Fields (if d.static.isSome then r.preparationsOf d.type.value d.static.isSome d.items else [])
        r.fields d.kept ∧
      (r.declareAll d.type.value d.static.isSome d.items).fields = r.fields + d.kept.length := by
  rw [fields_declareAll]
  unfold Declaration.kept Declaration.fields
  cases d.static.isSome with
  | true => exact ⟨fields_preparationsOf, by simp⟩
  | false => exact ⟨.nil, rfl⟩

theorem fields_statics (r : Surroundings) (ds : List Declaration) :
    Fields (r.statics ds) r.fields (ds.flatMap Declaration.kept) ∧
      (r.behind ds).fields = r.fields + (ds.flatMap Declaration.kept).length := by
  induction ds generalizing r with
  | nil => exact ⟨.nil, rfl⟩
  | cons d ds ih =>
    obtain ⟨hfirst, hfields⟩ := fields_declaration r d
    obtain ⟨hrest, hbehind⟩ := ih (r.declareAll d.type.value d.static.isSome d.items)
    rw [hfields] at hrest hbehind
    rw [statics_cons, List.flatMap_cons, behind, hbehind, List.length_append, Nat.add_assoc]
    exact ⟨hfirst.append hrest, rfl⟩

theorem fields_globals (r : Surroundings) (type : WordType) (items : List Declarator) :
    Fields (r.globals type items) r.fields (items.map fun i => ⟨i.slot type, i.init⟩) ∧
      (r.declareGlobals type items).fields = r.fields + items.length := by
  induction items generalizing r with
  | nil => exact ⟨.nil, rfl⟩
  | cons d ds ih =>
    have hslot : (r.global type d).slot = d.slot type := (Declarator.symbol_declared rfl rfl).1
    obtain ⟨hrest, hfields⟩ := ih (r.declareGlobal type d)
    rw [List.map_cons, ← hslot]
    refine ⟨.cons rfl hrest, hfields.trans ?_⟩
    exact Nat.add_right_comm ..

end Surroundings

namespace Stmt

open Preparation (Fields)

theorem fields_staticsOf {body : List Stmt}
    (h : ∀ s ∈ body, ∀ r, Fields (s.statics r) r.fields s.kept) (r : Surroundings) :
    Fields (staticsOf r body) r.fields (keptOf body) := by
  induction body generalizing r with
  | nil => exact .nil
  | cons s ss ih =>
    exact (h s (.head _) r).append (ih (fun t ht => h t (.tail _ ht)) (r.after s))

/-- The static variables of a statement have fields in order. -/
theorem fields_statics (s : Stmt) : ∀ r, Fields (s.statics r) r.fields s.kept := by
  induction s using Stmt.induct with
  | block ds body ih =>
    intro r
    obtain ⟨hdeclared, hfields⟩ := r.inner.fields_statics ds
    have hbody := fields_staticsOf ih (r.inner.behind ds)
    rw [hfields] at hbody
    exact hdeclared.append hbody
  | choiceOr c body otherwise ih ih' => exact fun r => (ih r).append (ih' (r.after body))
  | choice c body ih => exact ih
  | loop c body ih => exact ih
  | count counter range body ih => exact fun r => ih (r.counting counter)
  | _ => exact fun r => .nil

end Stmt

theorem Program.fields_preparationsFrom (items : List TopLevel) (r : Surroundings) (n : Nat) :
    Preparation.Fields (preparationsFrom r n items) r.fields (items.flatMap TopLevel.kept) := by
  induction items generalizing r n with
  | nil => exact .nil
  | cons item items ih =>
    cases item with
    | «variables» d =>
      obtain ⟨hfirst, hfields⟩ :=
        Surroundings.fields_globals r d.type.value d.items
      have hrest := ih (r.declareGlobals d.type.value d.items) n
      rw [hfields] at hrest
      refine hfirst.append ?_
      rw [List.length_map]
      exact hrest
    | function header body =>
      exact (body.fields_statics (r.enterFunction n header)).append (ih _ _)

/-- **The preparations before a program are those of its fields, in the order of the text.** -/
theorem Compilation.fields_preparations (c : Compilation) (legacy : Bool) (fuel : Nat) :
    Preparation.Fields (c.preparations legacy fuel) 0 c.tree.kept :=
  Program.fields_preparationsFrom c.tree.items _ 0

end OnePass
