import Mathlib.Logic.Basic
import OnePass.Proofs.NodeGeneration
import OnePass.Proofs.UnplacedParsing

/-!
# Compilation without places

A generator loses its places when the place of the error it may end with is lost. Losing them goes
through every way of putting generators together, so that generating code for a tree without places
is generating code for the tree, and losing places then (`Construct.compile_unplaced`).

Main statement: two lists of the same tokens at any places are compiled to the same image, from
trees that are the same without places, or are refused in the same words
(`compileTokensFrom_alike`).
-/

namespace OnePass

namespace Gen

variable {α β : Type}

/-- A generator of which an error has no place. -/
def unplaced (m : Gen α) : Gen α := fun g => (m.run g).mapError Located.unplaced

/-- The run that loses places is the run itself up to the place of its error. -/
theorem run_unplaced (m : Gen α) (g : Generator) :
    m.unplaced.run g = (m.run g).mapError Located.unplaced := rfl

/-! ## Composition -/

/-- What cannot fail has no place to lose. -/
@[simp] theorem unplaced_pure (a : α) : (pure a : Gen α).unplaced = pure a := rfl

/-- An error keeps its message and loses where it was found. -/
@[simp] theorem unplaced_fail (e : SemanticError) (span : Span) :
    (fail e span : Gen α).unplaced = fail e .anywhere := rfl

@[simp] theorem unplaced_get : (get : Gen Generator).unplaced = get := rfl

@[simp] theorem unplaced_set (g : Generator) : (set g : Gen PUnit).unplaced = set g := rfl

@[simp] theorem unplaced_modify (f : Generator → Generator) :
    (modify f : Gen PUnit).unplaced = modify f := rfl

/-- Losing places goes through composition: the state a generator leaves does not depend on them. -/
@[simp] theorem unplaced_bind (m : Gen α) (f : α → Gen β) :
    (m >>= f).unplaced = m.unplaced >>= fun a => (f a).unplaced := by
  refine StateT.ext fun g => ?_
  rw [run_unplaced, run_bind, run_bind, run_unplaced]
  rcases m.run g with e | ⟨a, g'⟩ <;> rfl

@[simp] theorem unplaced_map (f : α → β) (m : Gen α) :
    (f <$> m).unplaced = f <$> m.unplaced := by
  simp only [map_eq_pure_bind, unplaced_bind, unplaced_pure]

/-- In a loop over a list every round loses its places for itself. -/
@[simp] theorem unplaced_forM (f : α → Gen PUnit) (xs : List α) :
    (forM xs f).unplaced = forM xs fun x => (f x).unplaced := by
  induction xs with
  | nil => rfl
  | cons x xs ih => rw [List.forM_cons, List.forM_cons, unplaced_bind, ih]

/-- A choice that does not look at places is the same choice without them. -/
@[simp] theorem unplaced_ite {p : Prop} [Decidable p] (m m' : Gen α) :
    (if p then m else m').unplaced = if p then m.unplaced else m'.unplaced := apply_ite _ _ _ _

/-- In a loop over numbers every round loses its places for itself. -/
@[simp] theorem unplaced_forBelow (f : UInt32 → Gen Unit) (start n : Nat) :
    (forBelow f start n).unplaced = forBelow (fun i => (f i).unplaced) start n := by
  induction n generalizing start with
  | zero => rfl
  | succ n ih => rw [forBelow, forBelow, unplaced_bind, ih]

/-! ## Parts of generators -/

/-- Code is written without looking at places. -/
@[simp] theorem unplaced_onDraft (t : Target) (f : Draft → Draft) :
    (onDraft t f).unplaced = onDraft t f := by
  cases t <;> rfl

/-- A stream of code holds no places. -/
@[simp] theorem unplaced_draft (t : Target) : (draft t).unplaced = draft t := by
  cases t <;> rfl

/-- Writing an instruction cannot fail. -/
@[simp] theorem unplaced_emit (t : Target) (i : Instruction) : (emit t i).unplaced = emit t i :=
  unplaced_onDraft _ _

@[simp] theorem unplaced_emitAll (t : Target) (is : List Instruction) :
    (emitAll t is).unplaced = emitAll t is := by
  simp [emitAll]

/-- Making a label cannot fail. -/
@[simp] theorem unplaced_newLabel (t : Target) : (newLabel t).unplaced = newLabel t := by
  simp [newLabel]

/-- Marking a label cannot fail. -/
@[simp] theorem unplaced_mark (t : Target) (label : UInt32) :
    (mark t label).unplaced = mark t label := by
  simp [mark]

/-- Types are compared without looking at places, and only the mismatch names one. -/
@[simp] theorem unplaced_expectType (span : Span) (expected found : ExprType) :
    (expectType span expected found).unplaced = expectType .anywhere expected found := by
  simp [expectType]

/-- Loading a variable depends on its handle alone. -/
@[simp] theorem unplaced_load (t : Target) (v : Symbol) : (load t v).unplaced = load t v := by
  rw [load]
  split <;> exact unplaced_emit _ _

/-- Storing to a variable depends on its handle alone. -/
@[simp] theorem unplaced_store (t : Target) (v : Symbol) : (store t v).unplaced = store t v := by
  rw [store]
  split <;> exact unplaced_emit _ _

/-- A name is looked up without a look at where it stands. -/
@[simp] theorem unplaced_resolve (t : Target) (name : Name) :
    (resolve t name).unplaced = resolve t name.unplaced := by
  have hlift (s : Scopes) : (liftM (s.resolve name) : Gen Symbol).unplaced
      = liftM (s.resolve name.unplaced) := by
    rw [Scopes.resolve, Scopes.resolve, Located.value_unplaced]
    cases s.lookup name.value <;> rfl
  rw [resolve, resolve, unplaced_bind]
  refine congrArg (bind get) (funext fun g => ?_)
  rw [unplaced_bind]
  refine congrArg₂ bind (hlift g.scopes) (funext fun v => ?_)
  split <;> rfl

end Gen

/-! ## Operands -/

/-- A place to assign to, without its places in the text. -/
def Place.unplaced (p : Place) : Place := ⟨p.name.unplaced, p.index.map Gen.unplaced⟩

namespace Operand

/-- An operand without its places. -/
def unplaced (o : Operand) : Operand :=
  ⟨.anywhere, o.compile.unplaced, o.place?.map Place.unplaced⟩

variable (o : Operand)

/-- An operand without places stands at no place. -/
@[simp] theorem span_unplaced : o.unplaced.span = .anywhere := rfl

/-- The code of an operand without places is its code, with an error that has no place. -/
@[simp] theorem compile_unplaced : o.unplaced.compile = o.compile.unplaced := rfl

/-- An operand without places names the same variable, with the same index. -/
@[simp] theorem place?_unplaced : o.unplaced.place? = o.place?.map Place.unplaced := rfl

/-- A word of the wrong type is reported at the operand, and without places at none. -/
@[simp] theorem unplaced_compileAs (expected : ExprType) :
    (o.compileAs expected).unplaced = o.unplaced.compileAs expected := by
  simp [compileAs]

@[simp] theorem unplaced_compileInt : o.compileInt.unplaced = o.unplaced.compileInt :=
  unplaced_compileAs _ _

@[simp] theorem unplaced_compileBool : o.compileBool.unplaced = o.unplaced.compileBool :=
  unplaced_compileAs _ _

/-- What an operator expects of its operand does not depend on where the operand stands. -/
@[simp] theorem unplaced_compileUnder (op : Token) :
    (o.compileUnder op).unplaced = o.unplaced.compileUnder op := by
  simp [compileUnder]

end Operand

/-! ## Rules for expressions -/

namespace Rules

section

variable (t : Target)

@[simp] theorem unplaced_literal (v : Literal) : (literal t v).unplaced = literal t v := by
  cases v <;> simp [literal]

/-- Either side of a logical operator loses its places for itself. -/
@[simp] theorem unplaced_logic (op : LogicOp) (l r : Operand) :
    (logic t op l r).unplaced = logic t op l.unplaced r.unplaced := by
  simp [logic]

@[simp] theorem unplaced_negate (o : Operand) : (negate t o).unplaced = negate t o.unplaced := by
  simp [negate, invert]

@[simp] theorem unplaced_compare (l : Operand) (op : RelOp) (r : Operand) :
    (compare t l op r).unplaced = compare t l.unplaced op r.unplaced := by
  simp [compare]

/-- Either side of an arithmetic operator loses its places for itself. -/
@[simp] theorem unplaced_arith (l : Operand) (op : ArithOp) (r : Operand) :
    (arith t l op r).unplaced = arith t l.unplaced op r.unplaced := by
  simp [arith]

/-- A random number is drawn without naming a place. -/
theorem unplaced_random : (random t).unplaced = random t := by
  simp [random]

@[simp] theorem unplaced_lead (op : LeadOp) (o : Operand) :
    (lead t op o).unplaced = lead t op o.unplaced := by
  cases op with
  | length =>
    rw [lead, lead, Gen.unplaced_bind]
    refine congrArg (bind o.compile.unplaced) (funext fun found => ?_)
    cases found <;> simp
  | negative => simp [lead]
  | random => simp [lead, unplaced_random]

/-- A name that stands for nothing is refused with the same words wherever it stands. -/
@[simp] theorem unplaced_var (name : Name) : (var t name).unplaced = var t name.unplaced := by
  simp [var]

/-- An index of something that is no array is refused with the same words wherever it stands. -/
@[simp] theorem unplaced_elem (span : Span) (name : Name) (index : Gen Unit) :
    (elem t span name index).unplaced = elem t .anywhere name.unplaced index.unplaced := by
  simp [elem]

/-! ## Assignments -/

variable (v : Symbol) (index : Option (Gen Unit))

/-- The index in front of an assigned value loses its places for itself. -/
@[simp] theorem unplaced_beforeValue :
    (beforeValue t v index).unplaced = beforeValue t v (index.map Gen.unplaced) := by
  cases index <;> simp [beforeValue]

@[simp] theorem unplaced_presentValue :
    (presentValue t v index).unplaced = presentValue t v (index.map Gen.unplaced) := by
  cases index <;> simp [presentValue]

@[simp] theorem unplaced_afterValue :
    (afterValue t v index).unplaced = afterValue t v (index.map Gen.unplaced) := by
  cases index <;> simp [afterValue]

/-- Subtraction and division put their sides in order by an exchange or a second evaluation, and
neither looks at places. -/
theorem unplaced_ordered (value : Operand) (i : BinaryOp) :
    (compound.ordered t v index value i).unplaced
      = compound.ordered t v (index.map Gen.unplaced) value.unplaced i := by
  simp [compound.ordered]

@[simp] theorem unplaced_compound (op : AssignOp) (value : Operand) :
    (compound t v index op value).unplaced
      = compound t v (index.map Gen.unplaced) op value.unplaced := by
  cases op <;> simp [compound, unplaced_ordered]

/-- An operator other than `=` for something that is no integer is refused at the operator, and
without places at none. -/
@[simp] theorem unplaced_assignWord (op : Located AssignOp) (value : Operand) :
    (assignWord t v index op value).unplaced
      = assignWord t v (index.map Gen.unplaced) op.unplaced value.unplaced := by
  obtain ⟨op, span⟩ := op
  change (assignWord t v index ⟨op, span⟩ value).unplaced
    = assignWord t v _ ⟨op, .anywhere⟩ value.unplaced
  simp [assignWord]

/-- Lengths that are not known are refused in the same words wherever the names stand. -/
@[simp] theorem unplaced_copyLength (target : Symbol) (targetName : Name) (source : Symbol)
    (sourceName : Name) (span : Span) :
    (copyLength target targetName source sourceName span).unplaced
      = copyLength target targetName.unplaced source sourceName.unplaced .anywhere := by
  rw [copyLength, copyLength]
  split <;> rfl

/-- The array on the right of an assignment is found by the name that is written there. -/
@[simp] theorem unplaced_copyFrom (target : Symbol) (name : Name) (span : Span)
    (sourceName : Name) :
    (copyFrom t target name span sourceName).unplaced
      = copyFrom t target name.unplaced .anywhere sourceName.unplaced := by
  simp [copyFrom]

/-- Copying an array refuses what is no array in the same words wherever it stands. -/
theorem unplaced_copyArray (target : Symbol) (name : Name) (value : Operand) :
    (copyArray t target name value).unplaced
      = copyArray t target name.unplaced value.unplaced := by
  rw [copyArray, copyArray, Operand.place?_unplaced]
  rcases value.place? with _ | ⟨sourceName, _ | index⟩
  · rfl
  · simp [Place.unplaced]
  · rfl

/-- An assignment loses the places of its target, its operator and its value. -/
@[simp] theorem unplaced_assign (target : Operand) (op : Located AssignOp) (value : Operand) :
    (assign t target op value).unplaced = assign t target.unplaced op.unplaced value.unplaced := by
  rw [assign, assign, Operand.place?_unplaced]
  rcases target.place? with _ | ⟨name, index⟩
  · rfl
  · simp only [Option.map_some, Place.unplaced, Gen.unplaced_bind, Gen.unplaced_resolve]
    refine congrArg (bind _) (funext fun v => ?_)
    cases index <;> cases v.isArray <;> simp [unplaced_copyArray]

/-- An increment loses the place of its target. -/
@[simp] theorem unplaced_step (target : Operand) (op : StepOp) :
    (step t target op).unplaced = step t target.unplaced op := by
  unfold step
  rw [Operand.place?_unplaced]
  rcases target.place? with _ | ⟨name, index⟩
  · rfl
  · simp only [Option.map_some, Place.unplaced, Gen.unplaced_bind, Gen.unplaced_resolve]
    refine congrArg (bind _) (funext fun v => ?_)
    cases index <;> cases v.isArray <;> simp

/-! ## Calls -/

/-- Arguments are compared with parameters in order, and their places name the first mismatch only.
-/
theorem unplaced_arguments (os : List Operand) (ss : List Slot) :
    (arguments os ss).unplaced = arguments (os.map Operand.unplaced) ss := by
  induction os generalizing ss with
  | nil => rfl
  | cons o os ih =>
    cases ss with
    | nil => rfl
    | cons s ss => simp [arguments, ih]

/-- An argument that cannot be printed is refused in the same words wherever it stands. -/
theorem unplaced_formatArguments (os : List Operand) :
    (formatArguments t os).unplaced = formatArguments t (os.map Operand.unplaced) := by
  induction os with
  | nil => rfl
  | cons o os ih =>
    simp only [formatArguments, List.map_cons, Gen.unplaced_bind, Operand.compile_unplaced]
    refine congrArg (bind _) (funext fun found => ?_)
    cases found <;> simp [ih]

/-- A format that is no string is refused in the same words wherever it stands. -/
theorem unplaced_print (name : Name) (os : List Operand) :
    (print t name os).unplaced = print t name.unplaced (os.map Operand.unplaced) := by
  rcases os with _ | ⟨o, _ | ⟨o', os⟩⟩
  · rfl
  · simp only [print, List.map_cons, List.map_nil, Gen.unplaced_bind, Operand.compile_unplaced]
    refine congrArg (bind _) (funext fun found => ?_)
    cases found <;> simp
  · have hrest := unplaced_formatArguments t (o' :: os)
    simp only [List.map_cons] at hrest
    simp [print, hrest]

/-- What is read from the input is stored to the variable or element that is named, wherever it
stands. -/
theorem unplaced_putInto (span : Span) (name : Name) (index : Option (Gen Unit)) :
    (putInto t span name index).unplaced
      = putInto t .anywhere name.unplaced (index.map Gen.unplaced) := by
  rw [putInto, putInto, Gen.unplaced_bind, Gen.unplaced_resolve]
  refine congrArg (bind _) (funext fun v => ?_)
  cases index <;> cases v.isArray <;> simp

theorem unplaced_putOne (o : Operand) : (putOne t o).unplaced = putOne t o.unplaced := by
  rw [putOne, putOne, Operand.place?_unplaced]
  rcases o.place? with _ | ⟨name, index⟩
  · rfl
  · exact unplaced_putInto _ _ name index

/-- A call of `put` loses the places of its arguments. -/
theorem unplaced_put (name : Name) (os : List Operand) :
    (put t name os).unplaced = put t name.unplaced (os.map Operand.unplaced) := by
  simp [put, putEach, unplaced_putOne, List.forM_map]

/-- A call finds its function by name, and so is the same call without places. -/
@[simp] theorem unplaced_call (span : Span) (name : Name) (os : List Operand) :
    (call t span name os).unplaced
      = call t .anywhere name.unplaced (os.map Operand.unplaced) := by
  have hlift (fs : Functions) : (liftM (fs.resolve name) : Gen FunctionSymbol).unplaced
      = liftM (fs.resolve name.unplaced) := by
    rw [Functions.resolve, Functions.resolve, Located.value_unplaced]
    cases fs.lookup name.value <;> rfl
  rw [call, call, callOr, callOr, Gen.unplaced_bind]
  refine congrArg (bind get) (funext fun g => ?_)
  rw [Gen.unplaced_bind]
  refine congrArg₂ bind (hlift g.functions) (funext fun f => ?_)
  rcases f.body with (_ | _) | n
  · exact unplaced_print t name os
  · exact unplaced_put t name os
  · simp [unplaced_arguments]

end

end Rules

/-! ## Expressions -/

namespace Expr

variable (t : Target)

mutual

/-- How an expression without places is compiled. -/
theorem operand_unplaced : ∀ e : Expr, e.unplaced.operand t = (e.operand t).unplaced
  | .literal v => by simp [unplaced, operand, Operand.unplaced]
  | .var n => by simp [unplaced, operand, Operand.unplaced, Place.unplaced]
  | .elem n i => by
    simp [unplaced, operand, Operand.unplaced, Place.unplaced, span, first, last,
      operand_unplaced i]
  | .paren e => by simp [unplaced, operand, Operand.unplaced, operand_unplaced e]
  | .call n args => by
    simp [unplaced, operand, Operand.unplaced, span, first, last, operands_unplacedAll args]
  | .lead op e => by
    simp [unplaced, operand, Operand.unplaced, span, first, last, operand_unplaced e]
  | .arith l op r => by
    simp [unplaced, operand, Operand.unplaced, span, first, last, operand_unplaced l,
      operand_unplaced r]
  | .compare l op r => by
    simp [unplaced, operand, Operand.unplaced, span, first, last, operand_unplaced l,
      operand_unplaced r]
  | .negate _ e => by
    simp [unplaced, operand, Operand.unplaced, span, first, last, operand_unplaced e]
  | .logic op l r => by
    simp [unplaced, operand, Operand.unplaced, span, first, last, operand_unplaced l,
      operand_unplaced r]
  | .step p op => by
    simp [unplaced, operand, Operand.unplaced, span, first, last, operand_unplaced p]
  | .assign p op v => by
    simp [unplaced, operand, Operand.unplaced, span, first, last, operand_unplaced p,
      operand_unplaced v]

/-- Arguments without places are the arguments, each without its places. -/
theorem operands_unplacedAll :
    ∀ es : List Expr, operands t (unplacedAll es) = (operands t es).map Operand.unplaced
  | [] => rfl
  | e :: es => by
    rw [unplacedAll, operands, operands, operand_unplaced e, operands_unplacedAll es,
      List.map_cons]

end

/-- Generating code for an expression without places is generating its code, and losing places then.
-/
theorem unplaced_compile (e : Expr) : (e.compile t).unplaced = e.unplaced.compile t := by
  rw [compile, compile, operand_unplaced, Operand.compile_unplaced]

/-- The same is true when a type is expected of the expression. -/
@[simp] theorem unplaced_compileAs (e : Expr) (expected : ExprType) :
    (e.compileAs t expected).unplaced = e.unplaced.compileAs t expected := by
  rw [compileAs, compileAs, operand_unplaced, Operand.unplaced_compileAs]

end Expr

/-! ## Declarations -/

/-- A field is added by its name and type. -/
@[simp] theorem Gen.unplaced_addField (name : String) (slot : Slot) :
    (addField name slot).unplaced = addField name slot := by
  simp [addField]

/-- A local slot is handed out without looking at names. -/
@[simp] theorem Gen.unplaced_addLocal : addLocal.unplaced = addLocal := by
  rw [addLocal, unplaced_bind]
  refine congrArg (bind get) (funext fun g => ?_)
  cases g.current <;> simp

/-- A variable is declared without a look at where. -/
@[simp] theorem Gen.unplaced_define (name : Name) (type : WordType) (storage : Storage)
    (shape : Shape) (handle : Handle) :
    (define name type storage shape handle).unplaced
      = define name.unplaced type storage shape handle := by
  have hlift (s : Scopes) :
      (liftM (s.define name type storage shape handle) : Gen (Symbol × Scopes)).unplaced
        = liftM (s.define name.unplaced type storage shape handle) := by
    rw [Scopes.define, Scopes.define, Located.value_unplaced]
    cases s.current.find? name.value <;> rfl
  rw [define, define, unplaced_bind]
  refine congrArg (bind get) (funext fun g => ?_)
  rw [unplaced_bind]
  exact congrArg₂ bind (hlift g.scopes) rfl

namespace Declarator

variable (d : Declarator)

/-- The head of a declarator without places stands at no place. -/
@[simp] theorem headSpan_unplaced : d.unplaced.headSpan = .anywhere := by
  obtain ⟨name, length, init⟩ := d
  cases length <;> rfl

/-- An array length that is no positive number is refused in the same words wherever it stands. -/
@[simp] theorem unplaced_shape : d.shape.unplaced = d.unplaced.shape := by
  have hspan := d.headSpan_unplaced
  obtain ⟨name, length, init⟩ := d
  rw [shape, shape, hspan]
  cases length with
  | none => rfl
  | some n => exact Gen.unplaced_ite _ _

/-- The place in memory of a variable does not depend on its place in the text. -/
theorem unplaced_allocate (slot : Slot) (static : Bool) :
    (d.allocate slot static).unplaced = d.unplaced.allocate slot static := by
  rw [allocate, allocate, Gen.allocate, Gen.allocate, Gen.unplaced_bind]
  refine congrArg (bind get) (funext fun g => ?_)
  rcases g.scopes.isGlobal <;> cases static <;> rcases g.current with _ | owner <;>
    simp [unplaced]

end Declarator

/-- What gives a variable its first value has places, the rest of it has none. -/
theorem Gen.unplaced_fill (t : Target) (v : Symbol) (init : Gen Unit) :
    (fill t v init).unplaced = fill t v init.unplaced := by
  rw [fill, fill]
  split <;> simp

/-- An initialiser loses its places for itself. -/
theorem Gen.unplaced_initialise (t : Target) (v : Symbol) (init : Expr) :
    (initialise t v init).unplaced = initialise t v init.unplaced := by
  rw [initialise, initialise, unplaced_fill, Expr.unplaced_compileAs]

/-- A variable without places is declared as with them. -/
theorem Declarator.unplaced_compile (type : WordType) (static : Bool) (d : Declarator) :
    (d.compile type static).unplaced = d.unplaced.compile type static := by
  rw [compile, compile, Gen.unplaced_bind, unplaced_shape]
  refine congrArg (bind _) (funext fun shape => ?_)
  have hallocate := d.unplaced_allocate ⟨type, shape ≠ .scalar⟩ static
  simp only [allocate] at hallocate
  rw [Gen.declare, Gen.declare, Gen.unplaced_bind, hallocate]
  refine congrArg (bind _) (funext fun place => ?_)
  obtain ⟨storage, handle, t⟩ := place
  rw [Gen.unplaced_bind, Gen.unplaced_define]
  refine congrArg (bind _) (funext fun v => ?_)
  obtain ⟨name, length, init⟩ := d
  cases init <;> rcases shape with _ | _ | length <;> simp [unplaced, Gen.unplaced_initialise]

/-- Declaring variables one after the other loses places as declaring one does. -/
theorem Declaration.unplaced_compile (d : Declaration) :
    d.compile.unplaced = d.unplaced.compile := by
  rw [compile, compile]
  simp [unplaced, Declarator.unplaced_compile, List.forM_map]

/-- The slots of parameters have no places, their names have. -/
theorem ParameterGroup.slots_unplaced (g : ParameterGroup) :
    g.unplaced.slots = g.slots.map fun p => (p.1.unplaced, p.2) := by
  simp [slots, unplaced, Parameter.unplaced]

/-- Parameters without places are declared as with them. -/
theorem ParameterGroup.unplaced_compile (g : ParameterGroup) :
    g.compile.unplaced = g.unplaced.compile := by
  rw [compile, compile, Gen.defineParameters, Gen.defineParameters, slots_unplaced]
  simp [List.forM_map]

/-- The types of parameters have no places. -/
theorem Header.parameterTypes_unplaced (h : Header) :
    h.unplaced.parameterTypes = h.parameterTypes := by
  simp [parameterTypes, parameters, unplaced, ParameterGroup.slots_unplaced, List.flatMap_map,
    List.map_flatMap, Function.comp_def]

/-- The type of a function has no place. -/
theorem Header.returnType_unplaced (h : Header) : h.unplaced.returnType = h.returnType := by
  obtain ⟨returns, name, params⟩ := h
  cases returns <;> rfl

/-! ## Constructs -/

namespace Gen

/-- What is left open is put on a stack that holds no places. -/
@[simp] theorem unplaced_suspend (p : Pending) : (suspend p).unplaced = suspend p := rfl

/-- What was left open is taken up without looking at places. -/
@[simp] theorem unplaced_resume : resume.unplaced = resume := by
  simp [resume]

@[simp] theorem unplaced_openScope : openScope.unplaced = openScope := rfl

@[simp] theorem unplaced_closeScope : closeScope.unplaced = closeScope := rfl

@[simp] theorem unplaced_emitBody (i : Instruction) : (emitBody i).unplaced = emitBody i :=
  unplaced_emit _ _

@[simp] theorem unplaced_markBody (label : UInt32) : (markBody label).unplaced = markBody label :=
  unplaced_mark _ _

@[simp] theorem unplaced_newBodyLabel : newBodyLabel.unplaced = newBodyLabel :=
  unplaced_newLabel _

/-- A condition loses its places before the branch it decides. -/
theorem unplaced_ifTrue (c : Expr) : (ifTrue c).unplaced = ifTrue c.unplaced := by
  simp [ifTrue, beginIf]

theorem unplaced_ifFalse : ifFalse.unplaced = ifFalse := by
  rw [ifFalse, unplaced_bind, unplaced_resume]
  refine congrArg (bind resume) (funext fun p => ?_)
  split <;> simp

theorem unplaced_endIf : endIf.unplaced = endIf := by
  rw [endIf, unplaced_bind, unplaced_resume]
  refine congrArg (bind resume) (funext fun p => ?_)
  split <;> simp

@[simp] theorem unplaced_enterLoop : enterLoop.unplaced = enterLoop := by
  simp [enterLoop]

theorem unplaced_openLoop : openLoop.unplaced = openLoop := by
  simp [openLoop]

/-- The condition behind a loop loses its places as one in front of a branch does. -/
theorem unplaced_closeLoop (c : Expr) : (closeLoop c).unplaced = closeLoop c.unplaced := by
  rw [closeLoop, closeLoop, endWhile, endWhile, unplaced_bind]
  refine congrArg (bind get) (funext fun g => ?_)
  split <;> simp

/-- A counted loop declares its counter, and its first value loses its places for itself. -/
theorem unplaced_openCount (counter : Name) (range : Range) :
    (openCount counter range).unplaced = openCount counter.unplaced range.unplaced := by
  simp [openCount, beginFor, Range.unplaced]

/-- The step of a range loses its places, if it is written at all. -/
@[simp] theorem unplaced_stepOf (range : Range) :
    (stepOf range).unplaced = stepOf range.unplaced := by
  obtain ⟨start, _ | ⟨last, _ | step⟩⟩ := range <;> simp [stepOf, Range.unplaced]

/-- The bound of a range loses its places, if it is written at all. -/
@[simp] theorem unplaced_boundOf (range : Range) :
    (boundOf range).unplaced = boundOf range.unplaced := by
  obtain ⟨start, _ | ⟨last, step⟩⟩ := range <;> simp [boundOf, Range.unplaced]

/-- The end of a counted loop holds the bound and the step, and loses their places. -/
theorem unplaced_closeCount (range : Range) :
    (closeCount range).unplaced = closeCount range.unplaced := by
  rw [closeCount, closeCount, endFor, endFor, unplaced_bind]
  refine congrArg (bind get) (funext fun g => ?_)
  split <;> simp

theorem unplaced_effect (e : Expr) : (effect e).unplaced = effect e.unplaced := by
  simp [effect, expressionStatement, Expr.unplaced_compile]

/-- A return is refused for its value or for the want of one, and loses the place of either. -/
theorem unplaced_ret (word : Span) (value : Option Expr) :
    (ret word value).unplaced = ret .anywhere (value.map Expr.unplaced) := by
  rw [ret, ret, returnStatement, returnStatement, unplaced_bind]
  refine congrArg (bind get) (funext fun g => ?_)
  rcases g.current with _ | f
  · rfl
  · dsimp only
    cases value <;> rcases f.returns with _ | type <;> simp [Expr.operand_unplaced]

/-- A `break` outside loops is refused in the same words wherever it stands. -/
theorem unplaced_leave (word : Span) : (leave word).unplaced = leave .anywhere := by
  rw [leave, leave, unplaced_bind]
  refine congrArg (bind get) (funext fun g => ?_)
  split <;> simp

/-- The end of a function writes code that no place of the text decides on. -/
theorem unplaced_finishFunction : finishFunction.unplaced = finishFunction := rfl

/-- A function without places begins as with them. -/
theorem unplaced_beginFunction (h : Header) :
    (beginFunction h).unplaced = beginFunction h.unplaced := by
  have hlift (fs : Functions) (f : FunctionSymbol) :
      (liftM (fs.define h.name f) : Gen Functions).unplaced
        = liftM (fs.define h.name.unplaced f) := by
    rw [Functions.define, Functions.define, Located.value_unplaced]
    cases fs.lookup h.name.value <;> rfl
  rw [beginFunction, beginFunction, beginFunctionAs, beginFunctionAs, unplaced_bind,
    unplaced_finishFunction]
  refine congrArg (bind _) (funext fun _ => ?_)
  simp [Header.parameterTypes_unplaced, Header.returnType_unplaced, hlift]
  rfl

end Gen

/-- **A construct without places.** It does to generation what the construct does, but for the place
of an error. -/
theorem Construct.compile_unplaced (c : Construct) : c.unplaced.compile = c.compile.unplaced := by
  cases c with
  | globals d => exact d.unplaced_compile.symm
  | openFunction => rfl
  | parameters g => exact g.unplaced_compile.symm
  | header h => exact (Gen.unplaced_beginFunction h).symm
  | closeFunction => rfl
  | openBlock => rfl
  | locals d => exact d.unplaced_compile.symm
  | closeBlock => rfl
  | expr e => exact (Gen.unplaced_effect e).symm
  | ifTrue c => exact (Gen.unplaced_ifTrue c).symm
  | ifFalse => exact Gen.unplaced_ifFalse.symm
  | endIf => exact Gen.unplaced_endIf.symm
  | openLoop => exact Gen.unplaced_openLoop.symm
  | closeLoop c => exact (Gen.unplaced_closeLoop c).symm
  | openCount counter range => exact (Gen.unplaced_openCount counter range).symm
  | closeCount range => exact (Gen.unplaced_closeCount range).symm
  | ret word value => exact (Gen.unplaced_ret word value).symm
  | leave word => exact (Gen.unplaced_leave word).symm

/-! ## Compilation -/

/-- Losing places goes through the constructs of a program one by one. -/
theorem generate_unplaced (legacy : Bool) (cs : List Construct) :
    generate legacy (cs.map Construct.unplaced) =
      (generate legacy cs).mapError Located.unplaced := by
  have hcs : (cs.map Construct.unplaced).forM Construct.compile
      = (cs.forM Construct.compile).unplaced := by
    simp [List.forM_map, Construct.compile_unplaced]
  rw [generate, generate, Gen.state, Gen.state, hcs, Gen.run_unplaced]
  rcases (cs.forM Construct.compile).run (.new legacy) with e | ⟨_, g⟩ <;> rfl

/-- The error that ended a compilation, without its place. -/
def CompileError.unplaced : CompileError → CompileError
  | .syntactic e => .syntactic e.unplaced
  | .semantic e => .semantic e.unplaced

/-- What was compiled, without the places in its tree. -/
def Compilation.unplaced (c : Compilation) : Compilation := ⟨c.tree.unplaced, c.image⟩

/-- How a compilation ends, without places. -/
def compilationUnplaced : Except CompileError Compilation → Except CompileError Compilation
  | .ok c => .ok c.unplaced
  | .error e => .error e.unplaced

/-- What becomes of tokens whose places are gone. -/
theorem compileTokensFrom_unplaced (start : Span) (legacy : Bool)
    (tokens : List (Located Token)) :
    compileTokensFrom .anywhere legacy (tokens.map Located.unplaced) =
      compilationUnplaced (compileTokensFrom start legacy tokens) := by
  rw [compileTokensFrom_eq, compileTokensFrom_eq, parse_unplaced start tokens]
  rcases parse start tokens with ⟨constructs, result⟩
  dsimp only [Parsed.unplaced]
  rw [Array.toList_map, generate_unplaced]
  rcases generate legacy constructs.toList with e | g
  · rfl
  rcases result with e | tree
  · rfl
  · rfl

/-- Words do not tell a place. -/
theorem CompileError.diagnostic_unplaced (e : CompileError) :
    e.unplaced.diagnostic = { e.diagnostic with span := .anywhere } := by
  cases e <;> rfl

/-- Two compilations that end alike but for places. -/
inductive AlikeButPlaces :
    Except CompileError Compilation → Except CompileError Compilation → Prop where
  /-- both are accepted, with one image, and the trees are the same without places -/
  | accepted {c c' : Compilation} (image : c.image = c'.image)
    (tree : c.tree.unplaced = c'.tree.unplaced)
    (node : c.tree.node.unplaced = c'.tree.node.unplaced) : AlikeButPlaces (.ok c) (.ok c')
  /-- both are refused, by the same part of the compiler and in the same words -/
  | refused {e e' : CompileError} (phase : e.diagnostic.phase = e'.diagnostic.phase)
    (message : e.diagnostic.message = e'.diagnostic.message) :
    AlikeButPlaces (.error e) (.error e')

/-- **Formatting never changes the program.** The same tokens in the same order, wherever each of
them stands and wherever the text starts, make the same program, or are refused for the same
reason. -/
theorem compileTokensFrom_alike {tokens tokens' : List (Located Token)}
    (h : tokens.map Located.value = tokens'.map Located.value) (start start' : Span)
    (legacy : Bool) :
    AlikeButPlaces (compileTokensFrom start legacy tokens)
      (compileTokensFrom start' legacy tokens') := by
  have hends : compilationUnplaced (compileTokensFrom start legacy tokens)
      = compilationUnplaced (compileTokensFrom start' legacy tokens') := by
    rw [← compileTokensFrom_unplaced, ← compileTokensFrom_unplaced, Located.map_unplaced_eq h]
  revert hends
  rcases compileTokensFrom start legacy tokens with e | c <;>
    rcases compileTokensFrom start' legacy tokens' with e' | c' <;> intro hends
  · have he := congrArg CompileError.diagnostic (Except.error.inj hends)
    rw [CompileError.diagnostic_unplaced, CompileError.diagnostic_unplaced] at he
    injection he with hphase hmessage
    exact .refused hphase hmessage
  · cases hends
  · cases hends
  · have hc : c.unplaced = c'.unplaced := Except.ok.inj hends
    injection hc with htree himage
    refine .accepted himage htree ?_
    rw [← Program.node_unplaced, htree, Program.node_unplaced]

/-- An entry function that prints a number, on one line. -/
def printOnOneLine : List (Located Token) :=
  [.ident "main", .openParen, .closeParen, .openCurly, .ident "print", .openParen, .int 1,
    .closeParen, .semicolon, .closeCurly].mapIdx fun k t => ⟨t, .single ⟨1, .ofNat (k + 1)⟩⟩

/-- The same, each token on a line of its own. -/
def printOnManyLines : List (Located Token) :=
  printOnOneLine.mapIdx fun k t => ⟨t.value, .single ⟨.ofNat (k + 1), 1⟩⟩

/-- One program in two layouts: both are accepted, with one image. -/
theorem compileTokensFrom_alike_lines :
    printOnOneLine.map Located.value = printOnManyLines.map Located.value ∧
      printOnOneLine ≠ printOnManyLines ∧
      ∃ c c', compileTokensFrom Reader.start false printOnOneLine = .ok c ∧
        compileTokensFrom (.single ⟨7, 7⟩) false printOnManyLines = .ok c' ∧
        c.image.routines.size = 1 ∧ c.image = c'.image ∧ c.tree.unplaced = c'.tree.unplaced ∧
        c.tree.node.unplaced = c'.tree.node.unplaced := by
  have hvalues : printOnOneLine.map Located.value = printOnManyLines.map Located.value := by decide
  have hplaces : printOnOneLine ≠ printOnManyLines := fun h =>
    absurd (congrArg (fun ts => ts[1]?.map Located.span) h) (by decide)
  refine ⟨hvalues, hplaces, ?_⟩
  have halike := compileTokensFrom_alike hvalues Reader.start (.single ⟨7, 7⟩) false
  have hok : (compileTokensFrom Reader.start false printOnOneLine).toOption.any
      (fun c => decide (c.image.routines.size = 1)) = true := by decide +kernel
  generalize compileTokensFrom Reader.start false printOnOneLine = r at halike hok ⊢
  generalize compileTokensFrom (.single ⟨7, 7⟩) false printOnManyLines = r' at halike ⊢
  cases halike with
  | accepted image tree node =>
    exact ⟨_, _, rfl, rfl, of_decide_eq_true hok, image, tree, node⟩
  | refused _ _ => cases hok

end OnePass
