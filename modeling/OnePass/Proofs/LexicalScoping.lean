import OnePass.Proofs.DeclarationCode

/-!
# Lexical scoping

Which variable each occurrence of a name stands for, read off the tree of a program. What is
visible is handed down the tree and never taken back: a declaration is visible from its own
initialiser to the end of its block, a parameter in the body of its function, a counter in the
range and in the body of its loop, and behind a statement the same is visible as in front of it.
An inner declaration stands before those that it hides.

A variable has its place by its number among the fields of the program or among the local slots of
its function, in the order of the declarations in the text, or by its position among the
parameters.

The uses of variables are listed in the order in which code for them is generated: the condition
of a loop behind its body, the initialisers of static variables in the stream before the program.
But what a name stands for is always asked where it is written.
-/

namespace OnePass

/-! ## Uses of variables -/

/-- What is done with a variable as a whole. -/
inductive Access where
  /-- what it holds is pushed -/
  | load (handle : Handle)
  /-- what is on top becomes what it holds -/
  | store (handle : Handle)
  deriving DecidableEq, Repr

/-- The use of a variable that an instruction is. -/
def Instruction.access? : Instruction → Option Access
  | .loadField n => some (.load (.field n))
  | .loadLocal n => some (.load (.local n))
  | .loadArg n => some (.load (.argument n))
  | .storeField n => some (.store (.field n))
  | .storeLocal n => some (.store (.local n))
  | .storeArg n => some (.store (.argument n))
  | _ => none

/-- Uses of variables in order. A use of a name that stands for nothing is `none`. -/
abbrev Accesses := List (Option Access)

/-- The uses of variables in instructions. -/
def accessesIn (is : List Instruction) : Accesses := (is.filterMap Instruction.access?).map some

/-- The uses of variables in a stream. -/
def Code.accesses (c : Code) : Accesses := accessesIn c.instructions.toList

/-- A declared variable. -/
structure Variable where
  /-- one word or an array -/
  shape : Shape
  /-- where it is kept -/
  handle : Handle
  deriving DecidableEq, Repr

/-- The variables that are visible at a point of the text. -/
structure Visible where
  /-- names and variables, the last declared first -/
  entries : List (String × Variable)
  deriving DecidableEq, Repr

namespace Visible

/-- Nothing is visible. -/
def empty : Visible := ⟨[]⟩

/-- The variable that a name stands for. -/
def find? (vis : Visible) (n : Name) : Option Variable := vis.entries.lookup n.value

/-- One more variable is visible. -/
def declare (vis : Visible) (n : Name) (v : Variable) : Visible := ⟨(n.value, v) :: vis.entries⟩

/-- A name where what its variable holds is needed. -/
def load (vis : Visible) (n : Name) : Option Access := (vis.find? n).map fun v => .load v.handle

/-- A name where its variable gets a value. -/
def store (vis : Visible) (n : Name) : Option Access := (vis.find? n).map fun v => .store v.handle

/-- Whether an expression is a whole array. -/
def isArray (vis : Visible) : Expr → Bool
  | .var n => (vis.find? n).any fun v => v.shape ≠ .scalar
  | _ => false

/-- An assignment of a whole array: the arrays are used once for each element that is copied. -/
def copy (vis : Visible) : Expr → Expr → Accesses
  | .var x, .var y =>
    match vis.find? x, vis.find? y with
    | some ⟨.array (some a), h⟩, some ⟨.array (some b), k⟩ =>
      (List.replicate (Rules.copies a b) [some (.load h), some (.load k)]).flatten
    | _, _ => [none]
  | _, _ => [none]

/-- The parameters of a function, the first of them having the number `k`. -/
def parameters (vis : Visible) (k : Nat) : List (Name × Slot) → Visible
  | [] => vis
  | (n, slot) :: ps =>
    (vis.declare n ⟨if slot.array then .array none else .scalar, .argument (.ofNat k)⟩).parameters
      (k + 1) ps

end Visible

/-! ## Expressions -/

/-- The name of the function that reads into places. -/
def inputName : String := "put"

/-- The uses in an assignment between those of its place: the value, and what the place held,
which `present` is for. -/
def AssignOp.accesses (legacy : Bool) (present value : Accesses) : AssignOp → Accesses
  | .set => value
  | .add | .mul => value ++ present
  | .sub | .div => if legacy then value ++ present ++ value else value ++ present

namespace Expr

/-- The uses in front of a value for a place: those of an element, which `present` is for. -/
def before (present : Accesses) : Expr → Accesses
  | .elem _ _ => present
  | _ => []

/-- The uses behind a value for a place: that of a variable. -/
def behind (vis : Visible) : Expr → Accesses
  | .var n => [vis.store n]
  | _ => []

mutual

/-- The uses of variables in an expression. -/
def accesses (legacy : Bool) (vis : Visible) : Expr → Accesses
  | .literal _ => []
  | .var n => [vis.load n]
  | .elem n i => vis.load n :: i.accesses legacy vis
  | .paren e => e.accesses legacy vis
  | .call n args =>
    if n.value = inputName then inputs legacy vis args else accessesOf legacy vis args
  | .lead _ e => e.accesses legacy vis
  | .arith l _ r => l.accesses legacy vis ++ r.accesses legacy vis
  | .compare l _ r => l.accesses legacy vis ++ r.accesses legacy vis
  | .negate _ e => e.accesses legacy vis
  | .logic _ l r => l.accesses legacy vis ++ r.accesses legacy vis
  | .step p _ => p.before (p.accesses legacy vis) ++ p.accesses legacy vis ++ p.behind vis
  | .assign p op v =>
    if vis.isArray p then vis.copy p v
    else p.before (p.accesses legacy vis) ++
      op.value.accesses legacy (p.accesses legacy vis) (v.accesses legacy vis) ++ p.behind vis

/-- The uses of variables in the arguments of a call. -/
def accessesOf (legacy : Bool) (vis : Visible) : List Expr → Accesses
  | [] => []
  | e :: es => e.accesses legacy vis ++ accessesOf legacy vis es

/-- The uses of variables in places that are read into. -/
def inputs (legacy : Bool) (vis : Visible) : List Expr → Accesses
  | [] => []
  | e :: es => e.before (e.accesses legacy vis) ++ e.behind vis ++ inputs legacy vis es

end

end Expr

/-! ## Declarations -/

/-- The uses in the initialisation of a variable: a word gets its value once, an array is stored
when it is made and then used for each element. -/
def Declarator.accesses (legacy : Bool) (vis : Visible) (handle : Handle) (d : Declarator) :
    Accesses :=
  match d.declaredShape with
  | .array (some n) =>
    some (.store handle) :: d.init.elim [] fun e =>
      (List.replicate n.toNat (some (.load handle) :: e.accesses legacy vis)).flatten
  | _ => d.init.elim [] fun e => e.accesses legacy vis ++ [some (.store handle)]

/-- The variables of a declaration outside all functions; they are all fields. -/
def Declaration.globalItems (d : Declaration) : List (Bool × Declarator) := d.items.map (true, ·)

/-- The variables of a declaration in a block, and whether they are fields. -/
def Declaration.blockItems (d : Declaration) : List (Bool × Declarator) :=
  d.items.map (d.static.isSome, ·)

/-- The stream in which a variable gets its first value: fields get theirs before the program. -/
def home (kept : Bool) : Target := if kept then .initializer else .function

/-- What belongs to the stream of `home`, as far as it belongs to that of `t`. -/
def Target.only (home t : Target) (xs : Accesses) : Accesses := if home = t then xs else []

/-- A point of the text. -/
structure Point where
  /-- what is visible there -/
  visible : Visible
  /-- how many fields are declared before it -/
  fields : Nat
  /-- how many local slots of its function are declared before it -/
  locals : Nat
  deriving DecidableEq, Repr

namespace Point

/-- Where the next variable is kept: as a field, or in the function. -/
def next (pt : Point) (kept : Bool) : Handle :=
  if kept then .field (.ofNat pt.fields) else .local (.ofNat pt.locals)

/-- The point behind the name of a declared variable. Its initialiser is behind its name. -/
def declare (pt : Point) (kept : Bool) (d : Declarator) : Point where
  visible := pt.visible.declare d.name ⟨d.declaredShape, pt.next kept⟩
  fields := pt.fields + kept.toNat
  locals := pt.locals + (!kept).toNat

/-- The point behind declarations. -/
def declareAll (pt : Point) (ds : List (Bool × Declarator)) : Point :=
  ds.foldl (fun pt d => pt.declare d.1 d.2) pt

/-- The uses in the initialisers of declarations, as far as they belong to the stream of `t`. -/
def declared (legacy : Bool) (t : Target) (pt : Point) : List (Bool × Declarator) → Accesses
  | [] => []
  | (kept, d) :: ds =>
    let inner := pt.declare kept d
    (home kept).only t (d.accesses legacy inner.visible (pt.next kept)) ++
      declared legacy t inner ds

/-- The point behind a piece of the text with `m` static variables and `n` local slots, where the
same is visible as in front of it. -/
def advance (pt : Point) (m n : Nat) : Point :=
  { pt with fields := pt.fields + m, locals := pt.locals + n }

/-- The point behind a statement. -/
def skip (pt : Point) (s : Stmt) : Point := pt.advance s.kept.length s.locals.length

/-- The point behind the counter of a loop. -/
def count (pt : Point) (counter : Name) : Point where
  visible := pt.visible.declare counter ⟨.scalar, pt.next false⟩
  fields := pt.fields
  locals := pt.locals + 1

end Point

/-! ## Statements -/

/-- The uses in the end and in the step of a counting loop. -/
def Range.last (legacy : Bool) (vis : Visible) (r : Range) : Accesses :=
  r.bound.elim [] fun b => b.1.accesses legacy vis

@[inherit_doc Range.last]
def Range.step (legacy : Bool) (vis : Visible) (r : Range) : Accesses :=
  (r.bound.bind Prod.snd).elim [] fun e => e.accesses legacy vis

namespace Stmt

mutual

/-- The uses of variables in a statement that belong to a stream. -/
def accesses (legacy : Bool) (t : Target) (pt : Point) : Stmt → Accesses
  | .block ds body =>
    let items := ds.flatMap Declaration.blockItems
    pt.declared legacy t items ++ accessesOf legacy t (pt.declareAll items) body
  | .expr e => Target.function.only t (e.accesses legacy pt.visible)
  | .empty _ => []
  | .choice c body none =>
    Target.function.only t (c.accesses legacy pt.visible) ++ body.accesses legacy t pt
  | .choice c body (some otherwise) =>
    Target.function.only t (c.accesses legacy pt.visible) ++ body.accesses legacy t pt ++
      otherwise.accesses legacy t (pt.skip body)
  | .loop c body =>
    body.accesses legacy t pt ++ Target.function.only t (c.accesses legacy pt.visible)
  | .count counter range body =>
    let inner := pt.count counter
    let i := pt.next false
    Target.function.only t (range.start.accesses legacy inner.visible ++ [some (.store i)]) ++
      body.accesses legacy t inner ++
      Target.function.only t (some (.load i) :: range.step legacy inner.visible ++
        some (.store i) :: some (.load i) :: range.last legacy inner.visible)
  | .ret _ value => Target.function.only t (value.elim [] fun e => e.accesses legacy pt.visible)
  | .leave _ => []

/-- The uses of variables in statements one behind the other. -/
def accessesOf (legacy : Bool) (t : Target) (pt : Point) : List Stmt → Accesses
  | [] => []
  | s :: ss => s.accesses legacy t pt ++ accessesOf legacy t (pt.skip s) ss

end

end Stmt

/-! ## Programs -/

namespace Point

/-- The start of the program. -/
def origin : Point := ⟨.empty, 0, 0⟩

/-- The point in front of the body of a function. -/
def enter (pt : Point) (h : Header) : Point := ⟨pt.visible.parameters 0 h.parameters, pt.fields, 0⟩

/-- The point behind a declaration outside all functions. -/
def pass (pt : Point) : TopLevel → Point
  | .variables d => pt.declareAll d.globalItems
  | .function _ body => { pt with fields := pt.fields + body.kept.length }

end Point

namespace Program

/-- The uses of variables before the program, those of declarations from a point on. -/
def startFrom (legacy : Bool) (pt : Point) : List TopLevel → Accesses
  | [] => []
  | .variables d :: items =>
    pt.declared legacy .initializer d.globalItems ++ startFrom legacy (pt.pass (.variables d)) items
  | .function h body :: items =>
    body.accesses legacy .initializer (pt.enter h) ++
      startFrom legacy (pt.pass (.function h body)) items

/-- The uses of variables in functions, those of declarations from a point on. -/
def bodiesFrom (legacy : Bool) (pt : Point) : List TopLevel → List Accesses
  | [] => []
  | .variables d :: items => bodiesFrom legacy (pt.pass (.variables d)) items
  | .function h body :: items =>
    body.accesses legacy .function (pt.enter h) ::
      bodiesFrom legacy (pt.pass (.function h body)) items

/-- The uses of variables before a program runs. -/
def startAccesses (p : Program) (legacy : Bool) : Accesses := startFrom legacy .origin p.items

/-- The uses of variables in each function of a program. -/
def bodyAccesses (p : Program) (legacy : Bool) : List Accesses := bodiesFrom legacy .origin p.items

end Program

end OnePass
