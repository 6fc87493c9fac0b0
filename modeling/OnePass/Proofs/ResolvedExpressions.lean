import OnePass.Proofs.LexicalScoping

/-!
# Names in expressions

Code for an expression uses the variables that the names in it stand for where it is compiled
(`Expr.uses`), and so do an initialiser and the making of an array behind it (`uses_prepareCode`).

`Gen.Uses` is kept by all ways to compose generators; each rule of code generation then adds the
uses that its form of expression adds to those of its parts.
-/

namespace OnePass

/-- Uses stand in the order of the instructions. -/
theorem accessesIn_append (is js : List Instruction) :
    accessesIn (is ++ js) = accessesIn is ++ accessesIn js := by
  rw [accessesIn, List.filterMap_append, List.map_append]
  rfl

namespace Draft

/-- The uses of variables in a stream under construction. -/
def accesses (d : Draft) : Accesses := accessesIn d.instructions.toList

/-- An instruction adds the use that it makes. -/
@[simp]
theorem accesses_emit (d : Draft) (i : Instruction) :
    (d.emit i).accesses = d.accesses ++ accessesIn [i] := by
  rw [accesses, emit, Array.toList_push, accessesIn_append]
  rfl

/-- Instructions add the uses that they make. -/
@[simp]
theorem accesses_emitAll (d : Draft) (is : List Instruction) :
    (d.emitAll is).accesses = d.accesses ++ accessesIn is := by
  induction is generalizing d with
  | nil => exact (List.append_nil _).symm
  | cons i is ih =>
    rw [show d.emitAll (i :: is) = (d.emit i).emitAll is from rfl, ih, accesses_emit,
      List.append_assoc, ← accessesIn_append]
    rfl

/-- A label uses no variable. -/
@[simp]
theorem accesses_addLabel (d : Draft) : d.addLabel.accesses = d.accesses := rfl

@[simp]
theorem accesses_mark (d : Draft) (label : Nat) : (d.mark label).accesses = d.accesses := rfl

end Draft

/-- What a variable is to those who use it. -/
def Symbol.variable (v : Symbol) : Variable := ⟨v.shape, v.handle⟩

/-- In a state of generation the names stand for what they stand for in the text. -/
structure Visible.Fits (vis : Visible) (legacy : Bool) (g : Generator) : Prop where
  names : ∀ n : Name, (g.scopes.lookup n.value).map Symbol.variable = vis.find? n
  legacy : g.legacy = legacy
  input : ∀ name, (∃ f, g.functions.lookup name = some f ∧ f.body = .intrinsic .put) ↔
    name = inputName

/-- In a state of generation the names that may be used in the stream of `t` stand for what they
stand for in the text. -/
structure Visible.Serves (vis : Visible) (legacy : Bool) (t : Target) (g : Generator) : Prop where
  names : ∀ (n : Name) v, g.scopes.lookup n.value = some v →
    (t = .initializer → ∃ i, v.handle = .field i) → vis.find? n = some v.variable
  legacy : g.legacy = legacy
  input : ∀ name, (∃ f, g.functions.lookup name = some f ∧ f.body = .intrinsic .put) ↔
    name = inputName

namespace Visible

variable {vis : Visible} {legacy : Bool} {t : Target} {g : Generator}

/-- What fits a state of generation serves code for either target. -/
theorem Fits.serves (h : vis.Fits legacy g) (t : Target) : vis.Serves legacy t g :=
  ⟨fun n v hv _ => by rw [← h.names, hv]; rfl, h.legacy, h.input⟩

/-- What is visible does not depend on the code. -/
theorem Fits.onDraft (h : vis.Fits legacy g) (t : Target) (f : Draft → Draft) :
    vis.Fits legacy (g.onDraft t f) :=
  ⟨by simpa using h.names, by simpa using h.legacy, by simpa using h.input⟩

/-- What serves goes on to serve behind more code. -/
theorem Serves.onDraft (h : vis.Serves legacy t g) (f : Draft → Draft) :
    vis.Serves legacy t (g.onDraft t f) :=
  ⟨by simpa using h.names, by simpa using h.legacy, by simpa using h.input⟩

/-- Only the name of the function for input stands for it. -/
theorem Serves.input_iff (h : vis.Serves legacy t g) {name : String} {f : FunctionSymbol}
    (hf : g.functions.lookup name = some f) : f.body = .intrinsic .put ↔ name = inputName := by
  rw [← h.input]
  constructor
  · exact fun hbody => ⟨f, hf, hbody⟩
  · rintro ⟨f', hf', hbody⟩
    rwa [Option.some.inj (hf.symm.trans hf')]

end Visible

namespace Gen

variable {α β : Type} {vis : Visible} {legacy : Bool} {t : Target}

/-- `m` adds these uses of variables to the stream of `t`, and leaves names as they are. -/
def Uses (vis : Visible) (legacy : Bool) (t : Target) (m : Gen α) (xs : Accesses) : Prop :=
  ∀ g a g', vis.Serves legacy t g → Makes m g a g' →
    vis.Serves legacy t g' ∧ (g'.draft t).accesses = (g.draft t).accesses ++ xs

/-! ## Composition -/

variable {xs ys : Accesses}

/-- What leaves the state as it is uses nothing. -/
theorem Uses.of_same {m : Gen α} (h : ∀ g a g', Makes m g a g' → g' = g) :
    Uses vis legacy t m [] := by
  intro g a g' hf hm
  obtain rfl := h g a g' hm
  exact ⟨hf, (List.append_nil _).symm⟩

/-- A value uses nothing. -/
theorem uses_pure (a : α) : Uses vis legacy t (pure a) [] :=
  .of_same fun _ _ _ h => (makes_pure.mp h).2

/-- Where there is no run, anything is true of the uses. -/
theorem uses_fail (e : SemanticError) (span : Span) : Uses vis legacy t (fail e span : Gen α) xs :=
  fun _ _ _ _ h => absurd h not_makes_fail

theorem uses_fail_bind {e : SemanticError} {span : Span} {f : α → Gen β} :
    Uses vis legacy t (fail e span >>= f) xs :=
  fun _ _ _ _ h => absurd h not_makes_fail_bind

/-- Uses of one part come in front of the uses of the next. -/
theorem Uses.bind {m : Gen α} {f : α → Gen β} (hm : Uses vis legacy t m xs)
    (hf : ∀ a, Uses vis legacy t (f a) ys) : Uses vis legacy t (m >>= f) (xs ++ ys) := by
  intro g b g'' hfits h
  obtain ⟨a, g', h₁, h₂⟩ := makes_bind.mp h
  obtain ⟨hfits', hxs⟩ := hm g a g' hfits h₁
  obtain ⟨hfits'', hys⟩ := hf a g' b g'' hfits' h₂
  exact ⟨hfits'', by rw [hys, hxs, List.append_assoc]⟩

/-- What uses no variables, and what comes behind it. -/
theorem Uses.then {m : Gen α} {f : α → Gen β} (hm : Uses vis legacy t m [])
    (hf : ∀ a, Uses vis legacy t (f a) ys) : Uses vis legacy t (m >>= f) ys := hm.bind hf

/-- What comes behind it uses no variables. -/
theorem Uses.quiet {m : Gen α} {f : α → Gen β} (hm : Uses vis legacy t m xs)
    (hf : ∀ a, Uses vis legacy t (f a) []) : Uses vis legacy t (m >>= f) xs := by
  have h := hm.bind hf
  rwa [List.append_nil] at h

/-- What looks at the state uses what it uses in each state that is served. -/
theorem uses_get_bind {f : Generator → Gen α} (hf : ∀ g, vis.Serves legacy t g →
    Uses vis legacy t (f g) xs) : Uses vis legacy t (get >>= f) xs :=
  fun g a g' hfits h => hf g hfits g a g' hfits h

/-- A loop over numbers uses as often what its round uses. -/
theorem uses_forBelow {f : UInt32 → Gen Unit} (hf : ∀ n, Uses vis legacy t (f n) xs)
    (start n : Nat) : Uses vis legacy t (forBelow f start n) (List.replicate n xs).flatten := by
  induction n generalizing start with
  | zero => exact uses_pure _
  | succ n ih => exact (hf _).bind fun _ => ih _

/-! ## Parts -/

/-- An instruction makes its own use. -/
theorem uses_emit (i : Instruction) : Uses vis legacy t (emit t i) (accessesIn [i]) := by
  intro g u g' hf h
  obtain rfl := makes_emit.mp h
  exact ⟨hf.onDraft _, by rw [Generator.draft_onDraft, Draft.accesses_emit]⟩

theorem uses_emitAll (is : List Instruction) :
    Uses vis legacy t (emitAll t is) (accessesIn is) := by
  intro g u g' hf h
  obtain rfl := makes_emitAll.mp h
  exact ⟨hf.onDraft _, by rw [Generator.draft_onDraft, Draft.accesses_emitAll]⟩

/-- Types are compared without using anything. -/
theorem uses_expectType (span : Span) (expected found : ExprType) :
    Uses vis legacy t (expectType span expected found) [] := by
  unfold expectType
  split
  · exact uses_pure _
  · exact uses_fail _ _

/-- A load uses the place of its variable. -/
theorem uses_load (v : Symbol) : Uses vis legacy t (load t v) [some (.load v.handle)] := by
  unfold load
  split <;> rename_i h <;> rw [h] <;> exact uses_emit _

/-- A store uses the place of its variable. -/
theorem uses_store (v : Symbol) : Uses vis legacy t (store t v) [some (.store v.handle)] := by
  unfold store
  split <;> rename_i h <;> rw [h] <;> exact uses_emit _

/-- A variable that is found is the one that the name stands for in the text. -/
theorem find?_of_makes_resolve {name : Name} {v : Symbol} {g g' : Generator}
    (hf : vis.Serves legacy t g) (h : Makes (resolve t name) g v g') :
    vis.find? name = some v.variable := by
  obtain ⟨-, hv, hfield⟩ := makes_resolve h
  exact hf.names name v hv hfield

/-- What a name stands for is what is visible by it. -/
theorem uses_resolve_bind {name : Name} {f : Symbol → Gen α}
    (hf : ∀ v, vis.find? name = some v.variable → Uses vis legacy t (f v) xs) :
    Uses vis legacy t (resolve t name >>= f) xs := by
  intro g a g'' hfits h
  obtain ⟨v, g', h₁, h₂⟩ := makes_bind.mp h
  have hv := find?_of_makes_resolve hfits h₁
  obtain rfl := (makes_resolve h₁).1
  exact hf v hv g' a g'' hfits h₂

end Gen

namespace Visible

variable {vis : Visible} {name : Name} {v : Symbol} (h : vis.find? name = some v.variable)
include h

/-- The load of a visible variable is one of its place. -/
theorem load_eq : vis.load name = some (.load v.handle) := by
  rw [load, h]
  rfl

/-- The store to a visible variable is one to its place. -/
theorem store_eq : vis.store name = some (.store v.handle) := by
  rw [store, h]
  rfl

/-- A visible variable is an array if its symbol is. -/
theorem isArray_eq : vis.isArray (.var name) = v.isArray := by
  rw [isArray, h, Option.any_some, Symbol.isArray, Symbol.variable]
  cases v.shape <;> rfl

end Visible

/-! ## Rules -/

namespace Rules

open Gen

variable {vis : Visible} {legacy : Bool} {t : Target} {o l r value : Operand}
  {xs ys ps is : Accesses}

/-- A type that is expected of an operand adds no use. -/
theorem uses_compileAs (ho : Uses vis legacy t o.compile xs) (type : ExprType) :
    Uses vis legacy t (o.compileAs type) xs := ho.quiet fun _ => uses_expectType _ _ _

/-- A value that is expected of an operand adds no use. -/
theorem uses_compileUnder (ho : Uses vis legacy t o.compile xs) (op : Token) :
    Uses vis legacy t (o.compileUnder op) xs := by
  refine ho.quiet fun _ => ?_
  split
  · exact uses_fail _ _
  · exact uses_pure _

theorem uses_literal (l : Literal) : Uses vis legacy t (literal t l) [] := by
  cases l <;> exact (uses_emit _).quiet fun _ => uses_pure _

/-- A random number is made without variables. -/
theorem uses_random : Uses vis legacy t (random t) [] := by
  intro g u g' hf h
  obtain ⟨positive, done, rfl, -⟩ := makes_random h
  exact ⟨hf.onDraft _, by simp [randomCode, accessesIn, Instruction.access?]⟩

section Operators

variable (ho : Uses vis legacy t o.compile xs) (hl : Uses vis legacy t l.compile xs)
  (hr : Uses vis legacy t r.compile ys)

include hl hr in
/-- Both sides of a logical operator are evaluated, from left to right. -/
theorem uses_logic (op : LogicOp) : Uses vis legacy t (logic t op l r) (xs ++ ys) :=
  (uses_compileAs hl _).bind fun _ => (uses_compileAs hr _).quiet fun _ =>
    (uses_emit _).quiet fun _ => uses_pure _

include ho in
theorem uses_negate : Uses vis legacy t (negate t o) xs :=
  (uses_compileAs ho _).quiet fun _ => (uses_emitAll _).quiet fun _ => uses_pure _

include hl hr in
/-- Both sides of a comparison are evaluated, from left to right. -/
theorem uses_compare (op : RelOp) : Uses vis legacy t (compare t l op r) (xs ++ ys) := by
  refine hl.bind fun left => hr.quiet fun right => ?_
  split
  · refine (uses_expectType _ _ _).quiet fun _ => ?_
    cases op <;> exact (uses_emitAll _).quiet fun _ => uses_pure _
  · exact uses_fail _ _

include hl hr in
/-- Both sides of an arithmetic operator are evaluated, from left to right. -/
theorem uses_arith (op : ArithOp) : Uses vis legacy t (arith t l op r) (xs ++ ys) :=
  (uses_compileUnder hl _).bind fun _ => (uses_compileUnder hr _).quiet fun _ =>
    (uses_emit _).quiet fun _ => uses_pure _

include ho in
theorem uses_lead (op : LeadOp) : Uses vis legacy t (lead t op o) xs := by
  cases op with
  | length =>
    refine ho.quiet fun found => ?_
    split
    · exact (uses_emit _).quiet fun _ => uses_pure _
    · exact uses_fail _ _
  | negative =>
    exact (uses_compileUnder ho _).quiet fun _ => (uses_emit _).quiet fun _ => uses_pure _
  | random =>
    exact (uses_compileUnder ho _).quiet fun _ => uses_random.quiet fun _ => uses_pure _

end Operators

/-! ## Variables, elements and assignments -/

/-- A name is used once where it stands. -/
theorem uses_var (name : Name) : Uses vis legacy t (var t name) [vis.load name] := by
  refine uses_resolve_bind fun v hv => ?_
  rw [vis.load_eq hv]
  exact (uses_load v).quiet fun _ => uses_pure _

/-- An element uses its array, and then what its index uses. -/
theorem uses_elem {index : Gen Unit} (hi : Uses vis legacy t index is) (span : Span) (name : Name) :
    Uses vis legacy t (elem t span name index) (vis.load name :: is) := by
  refine uses_resolve_bind fun v hv => ?_
  rw [vis.load_eq hv]
  refine (uses_load v).bind fun _ => ?_
  split
  · exact hi.quiet fun _ => (uses_emit _).quiet fun _ => uses_pure _
  · exact uses_fail _ _

end Rules

namespace Expr

/-- Compiling an expression, or the index of an element, uses the variables of its names. -/
structure Uses (vis : Visible) (legacy : Bool) (t : Target) (e : Expr) : Prop where
  compile : Gen.Uses vis legacy t (e.operand t).compile (e.accesses legacy vis)
  index : ∀ n i, e = .elem n i →
    Gen.Uses vis legacy t (i.operand t).compile (i.accesses legacy vis)

/-- Outside elements there is no index to use once more. -/
theorem Uses.of_compile {vis : Visible} {legacy : Bool} {t : Target} {e : Expr}
    (h : Gen.Uses vis legacy t (e.operand t).compile (e.accesses legacy vis))
    (he : ∀ n i, e ≠ .elem n i) : e.Uses vis legacy t :=
  ⟨h, fun n i hi => absurd hi (he n i)⟩

/-- A place is a variable or an element. -/
theorem place_cases {t : Target} {p : Expr} {name : Name} {index : Option (Gen Unit)}
    (h : (p.operand t).place? = some ⟨name, index⟩) : p = .var name ∧ index = none ∨
      ∃ i, p = .elem name i ∧ index = some (i.operand t).compileInt := by
  cases p with
  | var n =>
    cases h
    exact .inl ⟨rfl, rfl⟩
  | elem n i =>
    cases h
    exact .inr ⟨i, rfl, rfl⟩
  | _ => cases h

end Expr

namespace Rules

open Gen

variable {vis : Visible} {legacy : Bool} {t : Target}

section Places

variable {p : Expr} {name : Name} {index : Option (Gen Unit)} {v : Symbol}
  (hp : (p.operand t).place? = some ⟨name, index⟩) (hu : p.Uses vis legacy t)
  (hv : vis.find? name = some v.variable)
include hp hv

include hu in
/-- In front of an assigned value an array and its index are used. -/
theorem uses_beforeValue :
    Gen.Uses vis legacy t (beforeValue t v index) (p.before (p.accesses legacy vis)) := by
  obtain ⟨rfl, rfl⟩ | ⟨i, rfl, rfl⟩ := Expr.place_cases hp
  · exact uses_pure _
  · have helem : (Expr.elem name i).accesses legacy vis =
        vis.load name :: i.accesses legacy vis := rfl
    rw [Expr.before, helem, vis.load_eq hv]
    exact (uses_load v).bind fun _ => uses_compileAs (hu.index _ _ rfl) _

include hu in
/-- The present value of a target uses what the target itself uses. -/
theorem uses_presentValue :
    Gen.Uses vis legacy t (presentValue t v index) (p.accesses legacy vis) := by
  obtain ⟨rfl, rfl⟩ | ⟨i, rfl, rfl⟩ := Expr.place_cases hp
  · have hvar : (Expr.var name).accesses legacy vis = [vis.load name] := rfl
    rw [hvar, vis.load_eq hv]
    exact (uses_load v).quiet fun _ => uses_pure _
  · have helem : (Expr.elem name i).accesses legacy vis =
        vis.load name :: i.accesses legacy vis := rfl
    rw [helem, vis.load_eq hv]
    exact (uses_load v).bind fun _ =>
      (uses_compileAs (hu.index _ _ rfl) _).quiet fun _ => uses_emit _

/-- Behind an assigned value a variable is stored to. An element is stored to through its array. -/
theorem uses_afterValue : Gen.Uses vis legacy t (afterValue t v index) (p.behind vis) := by
  obtain ⟨rfl, rfl⟩ | ⟨i, rfl, rfl⟩ := Expr.place_cases hp
  · rw [Expr.behind, vis.store_eq hv]
    exact uses_store v
  · exact uses_emit _

end Places

/-- A compound assignment uses the present value of its target in front of or behind the assigned
value, as its operator has it. -/
theorem uses_compound {v : Symbol} {index : Option (Gen Unit)} {value : Operand}
    {ps xs : Accesses} (hpresent : Gen.Uses vis legacy t (presentValue t v index) ps)
    (hvalue : Gen.Uses vis legacy t value.compile xs) (op : AssignOp) :
    Gen.Uses vis legacy t (compound t v index op value) (op.accesses legacy ps xs) := by
  have hcommutative (instruction : BinaryOp) : Gen.Uses vis legacy t (do
      value.compileInt
      presentValue t v index
      emit t (.binary instruction)) (xs ++ ps) :=
    (uses_compileAs hvalue _).bind fun _ => hpresent.quiet fun _ => uses_emit _
  have hordered (instruction : BinaryOp) :
      Gen.Uses vis legacy t (compound.ordered t v index value instruction)
        (if legacy then xs ++ ps ++ xs else xs ++ ps) := by
    cases legacy with
    | true =>
      rw [if_pos rfl, List.append_assoc]
      refine (uses_compileAs hvalue _).bind fun _ => uses_get_bind fun g hg => ?_
      rw [hg.legacy]
      exact (uses_emit _).then fun _ => hpresent.bind fun _ => hvalue.quiet fun _ => uses_emit _
    | false =>
      rw [if_neg Bool.false_ne_true]
      refine (uses_compileAs hvalue _).bind fun _ => uses_get_bind fun g hg => ?_
      rw [hg.legacy]
      exact hpresent.quiet fun _ => (uses_emit _).then fun _ => uses_emit _
  cases op with
  | set => exact uses_compileAs hvalue _
  | add => exact hcommutative _
  | mul => exact hcommutative _
  | sub => exact hordered _
  | div => exact hordered _

/-- An increment uses its target for its index, for its present value and for the store. -/
theorem uses_step {p : Expr} (hu : p.Uses vis legacy t) (op : Located StepOp) :
    Gen.Uses vis legacy t (step t (p.operand t) op.value)
      ((Expr.step p op).accesses legacy vis) := by
  intro g type g' hf h
  obtain ⟨-, name, index, v, hp, hresolve, -, -, hcode⟩ := makes_step h
  have hv := find?_of_makes_resolve hf hresolve
  have hstep : Gen.Uses vis legacy t (stepCode t v index op.value)
      (p.before (p.accesses legacy vis) ++ (p.accesses legacy vis ++ p.behind vis)) :=
    (uses_beforeValue hp hu hv).bind fun _ => (uses_presentValue hp hu hv).bind fun _ =>
      (uses_emit _).then fun _ => (uses_emit _).then fun _ => uses_afterValue hp hv
  have haccesses : (Expr.step p op).accesses legacy vis =
      p.before (p.accesses legacy vis) ++ p.accesses legacy vis ++ p.behind vis := rfl
  rw [haccesses, List.append_assoc]
  exact hstep g ⟨⟩ g' hf hcode

/-- A whole array is copied element by element. -/
theorem uses_copyArray {x : Name} {a : Symbol} (ha : vis.find? x = some a.variable) (e : Expr) :
    Gen.Uses vis legacy t (copyArray t a x (e.operand t)) (vis.copy (.var x) e) := by
  unfold copyArray
  split
  · rename_i y hy
    obtain ⟨rfl, -⟩ | ⟨i, -, hi⟩ := Expr.place_cases hy
    on_goal 2 => cases hi
    have hcopy (b : Symbol) (hb : vis.find? y = some b.variable) : Gen.Uses vis legacy t (do
        let length ← copyLength a x b y ((Expr.var y).operand t).span
        forBelow (fun i => do
          load t a
          emit t (.pushInt i.toInt32)
          load t b
          emitAll t [.pushInt i.toInt32, .loadElem, .storeElem]) 0 length.toInt32.toInt.toNat)
        (vis.copy (.var x) (.var y)) := by
      intro g u g' hf h
      obtain ⟨n, g₁, hn, hall⟩ := makes_bind.mp h
      obtain ⟨rfl, k, l, hk, hl, hcount⟩ := makes_copyLength hn
      have hshapes : vis.copy (.var x) (.var y) = (List.replicate (Rules.copies k l)
          [some (.load a.handle), some (.load b.handle)]).flatten := by
        rw [Visible.copy, ha, hb, Symbol.variable, Symbol.variable, hk, hl]
      rw [hcount] at hall
      rw [hshapes]
      exact uses_forBelow (fun i => (uses_load a).bind fun _ => (uses_emit _).then fun _ =>
        (uses_load b).quiet fun _ => uses_emitAll _) 0 _ _ _ _ hf hall
    refine uses_resolve_bind fun b hb => ?_
    dsimp only
    split
    · exact uses_fail_bind
    · split
      · exact uses_fail_bind
      · exact hcopy b hb
  · exact uses_fail _ _

/-- An assignment of words uses its target around its value. An assignment of arrays uses both for
every element. -/
theorem uses_assign {p e : Expr} (hu : p.Uses vis legacy t) (he : e.Uses vis legacy t)
    (op : Located AssignOp) : Gen.Uses vis legacy t (assign t (p.operand t) op (e.operand t))
      ((Expr.assign p op e).accesses legacy vis) := by
  intro g type g' hf h
  obtain ⟨-, name, index, v, hp, hresolve, hcases⟩ := makes_assign h
  have hv := find?_of_makes_resolve hf hresolve
  have hplace := Expr.place_cases hp
  have haccesses : (Expr.assign p op e).accesses legacy vis =
      if vis.isArray p then vis.copy p e
      else p.before (p.accesses legacy vis) ++
        op.value.accesses legacy (p.accesses legacy vis) (e.accesses legacy vis) ++
        p.behind vis := rfl
  rw [haccesses]
  obtain ⟨rfl, ha, -, hcopy⟩ | ⟨ha, -, hcode⟩ := hcases
  · obtain ⟨rfl, -⟩ | ⟨i, -, hi⟩ := hplace
    on_goal 2 => cases hi
    rw [if_pos (by rw [vis.isArray_eq hv, ha])]
    exact uses_copyArray hv e g ⟨⟩ g' hf hcopy
  · have hword : vis.isArray p = false := by
      obtain ⟨rfl, rfl⟩ | ⟨i, rfl, -⟩ := hplace
      · rw [vis.isArray_eq hv, ha]
        rfl
      · rfl
    rw [if_neg (by simp [hword]), List.append_assoc]
    have hassign : Gen.Uses vis legacy t (assignCode t v index op.value (e.operand t)) _ :=
      (uses_beforeValue hp hu hv).bind fun _ =>
        (uses_compound (uses_presentValue hp hu hv) he.compile op.value).bind fun _ =>
          uses_afterValue hp hv
    exact hassign g ⟨⟩ g' hf hcode

/-! ## Calls -/

section Calls

variable {args : List Expr} (ha : ∀ a ∈ args, a.Uses vis legacy t)

include ha in
/-- Arguments are used from left to right. -/
theorem uses_arguments (params : List Slot) (hlength : args.length = params.length) :
    Gen.Uses vis legacy t (arguments (Expr.operands t args) params)
      (Expr.accessesOf legacy vis args) := by
  induction args generalizing params with
  | nil => exact uses_pure _
  | cons a as ih =>
    obtain ⟨s, ss, rfl⟩ := List.exists_cons_of_length_eq_add_one hlength.symm
    exact (uses_compileAs (ha a (.head _)).compile _).bind fun _ =>
      ih (fun b hb => ha b (.tail _ hb)) ss (by simpa using hlength)

include ha in
/-- The arguments of a format are used from left to right. -/
theorem uses_formatArguments : Gen.Uses vis legacy t
    (formatArguments t (Expr.operands t args)) (Expr.accessesOf legacy vis args) := by
  induction args with
  | nil => exact uses_pure _
  | cons a as ih =>
    have has := ih fun b hb => ha b (.tail _ hb)
    refine (ha a (.head _)).compile.bind fun found => ?_
    dsimp only
    split
    · exact (uses_emit _).then fun _ => has
    · exact has
    · exact uses_fail_bind

include ha in
/-- A call of `print` uses what its arguments use. -/
theorem uses_print (name : Name) : Gen.Uses vis legacy t
    (print t name (Expr.operands t args)) (Expr.accessesOf legacy vis args) := by
  match args with
  | [] => exact uses_fail _ _
  | [a] =>
    have haccesses : Expr.accessesOf legacy vis [a] = a.accesses legacy vis ++ [] := rfl
    rw [haccesses, List.append_nil]
    refine (ha a (.head _)).compile.quiet fun found => ?_
    dsimp only
    split
    · exact (uses_emit _).quiet fun _ => uses_pure _
    · exact (uses_emit _).quiet fun _ => uses_pure _
    · exact uses_fail_bind
  | a :: b :: rest =>
    have hrest := uses_formatArguments fun c hc => ha c (.tail _ hc)
    refine (ha a (.head _)).compile.bind fun found => ?_
    dsimp only
    split
    · exact uses_fail_bind
    · exact hrest.quiet fun _ => (uses_emit _).quiet fun _ => uses_pure _

/-- Reading into a target uses its index and stores to it. -/
theorem uses_putOne {p : Expr} (hu : p.Uses vis legacy t) : Gen.Uses vis legacy t
    (putOne t (p.operand t)) (p.before (p.accesses legacy vis) ++ p.behind vis) := by
  intro g u g' hf h
  obtain ⟨name, index, v, hp, hresolve, -, hcode⟩ := makes_putOne h
  have hv := find?_of_makes_resolve hf hresolve
  have hput : Gen.Uses vis legacy t (do
      beforeValue t v index
      emitAll t [.readLine, .parse v.type]
      afterValue t v index) (p.before (p.accesses legacy vis) ++ p.behind vis) :=
    (uses_beforeValue hp hu hv).bind fun _ => (uses_emitAll _).then fun _ => uses_afterValue hp hv
  exact hput g ⟨⟩ g' hf hcode

include ha in
/-- Reading into targets uses one after the other. -/
theorem uses_put (name : Name) : Gen.Uses vis legacy t
    (put t name (Expr.operands t args)) (Expr.inputs legacy vis args) := by
  have hall : Gen.Uses vis legacy t ((Expr.operands t args).forM (putOne t))
      (Expr.inputs legacy vis args) := by
    clear name
    induction args with
    | nil => exact uses_pure _
    | cons a as ih =>
      exact (uses_putOne (ha a (.head _))).bind fun _ => ih fun b hb => ha b (.tail _ hb)
  unfold put putEach
  dsimp only
  split
  · exact uses_fail_bind
  · exact hall.quiet fun _ => uses_pure _

include ha in
/-- A call uses its arguments, and for input it uses their places. -/
theorem uses_call (span : Span) (name : Name) : Gen.Uses vis legacy t
    (call t span name (Expr.operands t args)) ((Expr.call name args).accesses legacy vis) := by
  refine uses_get_bind fun s hs => ?_
  intro g type g' hf h
  obtain ⟨f, g₁, hfound, hcode⟩ := makes_bind.mp h
  obtain ⟨hknown, rfl⟩ := makes_lift.mp hfound
  have hinput := hs.input_iff (Functions.lookup_of_resolve hknown)
  have haccesses : (Expr.call name args).accesses legacy vis =
      if name.value = inputName then Expr.inputs legacy vis args
      else Expr.accessesOf legacy vis args := rfl
  rw [haccesses]
  cases hbody : f.body with
  | intrinsic i =>
    rw [hbody] at hinput hcode
    cases i with
    | print =>
      rw [if_neg fun h => nomatch hinput.mpr h]
      exact uses_print ha name g₁ type g' hf hcode
    | put =>
      rw [if_pos (hinput.mp rfl)]
      exact uses_put ha name g₁ type g' hf hcode
  | routine n =>
    rw [hbody] at hinput hcode
    dsimp only at hcode
    rw [if_neg fun h => nomatch hinput.mpr h]
    rw [makes_check] at hcode
    obtain ⟨hlength, hcode⟩ := hcode
    have hroutine : Gen.Uses vis legacy t (do
        arguments (Expr.operands t args) f.params
        emit t (.call n)
        return (f.returns.map ExprType.scalar).getD .void) (Expr.accessesOf legacy vis args) :=
      (uses_arguments ha f.params (by simpa [Expr.length_operands] using hlength)).quiet fun _ =>
        (uses_emit _).quiet fun _ => uses_pure _
    exact hroutine g₁ type g' hf hcode

end Calls

end Rules

/-! ## Expressions -/

/-- **Names in expressions.** Code for an expression uses the variables that its names stand for,
in whatever stream it is. -/
theorem Expr.uses {vis : Visible} {legacy : Bool} {t : Target} (e : Expr) :
    e.Uses vis legacy t := by
  induction e using Expr.induct with
  | literal v => exact .of_compile (Rules.uses_literal _) nofun
  | var n => exact .of_compile (Rules.uses_var n) nofun
  | elem n i ih =>
    refine ⟨Rules.uses_elem (Rules.uses_compileAs ih.compile _) _ n, ?_⟩
    rintro _ _ ⟨⟩
    exact ih.compile
  | paren e ih => exact .of_compile ih.compile nofun
  | call n args ih => exact .of_compile (Rules.uses_call ih _ n) nofun
  | lead op e ih => exact .of_compile (Rules.uses_lead ih.compile _) nofun
  | arith l op r hl hr => exact .of_compile (Rules.uses_arith hl.compile hr.compile _) nofun
  | compare l op r hl hr => exact .of_compile (Rules.uses_compare hl.compile hr.compile _) nofun
  | negate word e ih => exact .of_compile (Rules.uses_negate ih.compile) nofun
  | logic op l r hl hr => exact .of_compile (Rules.uses_logic hl.compile hr.compile _) nofun
  | step p op ih => exact .of_compile (Rules.uses_step ih op) nofun
  | assign p op v hp hv => exact .of_compile (Rules.uses_assign hp hv op) nofun

namespace Gen

variable {vis : Visible} {legacy : Bool} {t : Target}

/-- The code of an expression uses the variables that the scopes give its names. -/
theorem uses_compile (e : Expr) : Uses vis legacy t (e.compile t) (e.accesses legacy vis) :=
  e.uses.compile

/-- The same is true if a type is expected of it. -/
theorem uses_exprAs (e : Expr) (type : ExprType) :
    Uses vis legacy t (e.compileAs t type) (e.accesses legacy vis) :=
  Rules.uses_compileAs e.uses.compile type

end Gen

/-! ## Initialisers -/

open Gen in
/-- What makes a declared variable ready uses it as the text has it. -/
theorem uses_prepareCode {vis : Visible} {legacy : Bool} {t : Target} {d : Declarator} {v : Symbol}
    (hs : v.shape = d.declaredShape) :
    Uses vis legacy t (prepareCode t v d.init) (d.accesses legacy vis v.handle) := by
  -- an array is made first, and each of its elements gets its value
  have harray (n : UInt32) (hn : v.shape = .array (some n)) (e : Expr) :
      Uses vis legacy t (initialise t v e)
        (List.replicate n.toNat (some (.load v.handle) :: e.accesses legacy vis)).flatten := by
    have helement (i : UInt32) : Uses vis legacy t (do
        load t v
        emit t (.pushInt i.toInt32)
        e.compileAs t (.scalar v.type)
        emit t .storeElem) (some (.load v.handle) :: e.accesses legacy vis) :=
      (uses_load v).bind fun _ => (uses_emit _).then fun _ =>
        (uses_exprAs e _).quiet fun _ => uses_emit _
    unfold initialise fill
    rw [hn]
    exact uses_forBelow helement 0 _
  unfold prepareCode Declarator.accesses Declarator.declaredShape
  unfold Declarator.declaredShape at hs
  cases hl : d.length with
  | none =>
    rw [hl] at hs
    rw [hs]
    cases d.init with
    | none => exact uses_pure _
    | some e =>
      dsimp only
      unfold initialise fill
      rw [hs]
      exact (uses_exprAs e _).bind fun _ => uses_store v
  | some n =>
    rw [hl] at hs
    rw [hs]
    refine (uses_emit _).then fun _ => (uses_store v).bind fun _ => ?_
    cases d.init with
    | none => exact uses_pure _
    | some e => exact harray _ hs e

end OnePass
