import OnePass.Proofs.LexicalScoping

/-!
# Calls in the text

Which functions a program calls, read off its tree. A call is listed with its arguments and with
what is visible where it is written, for that is what the names in the arguments are about.

The calls are listed in the order in which code for them is generated: the arguments before the
call, the condition of a loop behind its body, and what initialises static variables in the stream
before the program. What is generated several times is listed as often: the initialiser of an array
once for each element, the index of an element wherever it is computed.
-/

namespace OnePass

/-! ## Calls in code -/

/-- The routine that an instruction calls. -/
def Instruction.callee? : Instruction → Option UInt32
  | .call n => some n
  | _ => none

namespace Code

/-- The calls in a stream from one position up to another, by their positions, with the routines
that are called. -/
def callsIn (c : Code) (p q : Nat) : List (Nat × UInt32) :=
  (List.range' p (q - p)).filterMap fun i =>
    (c.instructions[i]?.bind Instruction.callee?).map fun n => (i, n)

/-- The calls in a stream. -/
def calls (c : Code) : List (Nat × UInt32) := c.callsIn 0 c.instructions.size

end Code

/-! ## Calls in expressions -/

/-- A call of a function of the program, where it is written. -/
structure Invocation where
  /-- what is visible there -/
  visible : Visible
  /-- the name of the function -/
  name : Name
  /-- the arguments -/
  args : List Expr
  deriving Repr

/-- Whether a name is that of a function that is always there. No routine is called for it. -/
def isBuiltIn (name : String) : Bool := (Functions.new.lookup name).isSome

/-- What there is in an assignment between the parts of its place: the value, and what the place
held, which `present` is for. -/
def AssignOp.inOrder {α : Type} (legacy : Bool) (present value : List α) : AssignOp → List α
  | .set => value
  | .add | .mul => value ++ present
  | .sub | .div => if legacy then value ++ present ++ value else value ++ present

namespace Expr

mutual

/-- The calls in an expression. The index of a place is computed for the place, and once more where
it is needed what the place holds. -/
def invocations (legacy : Bool) (vis : Visible) : Expr → List Invocation
  | .literal _ => []
  | .var _ => []
  | .elem _ i => i.invocations legacy vis
  | .paren e => e.invocations legacy vis
  | .call n args =>
    invocationsOf legacy vis args ++ if isBuiltIn n.value then [] else [⟨vis, n, args⟩]
  | .lead _ e => e.invocations legacy vis
  | .arith l _ r => l.invocations legacy vis ++ r.invocations legacy vis
  | .compare l _ r => l.invocations legacy vis ++ r.invocations legacy vis
  | .negate _ e => e.invocations legacy vis
  | .logic _ l r => l.invocations legacy vis ++ r.invocations legacy vis
  | .step p _ => p.invocations legacy vis ++ p.invocations legacy vis
  | .assign p op v =>
    p.invocations legacy vis ++
      op.value.inOrder legacy (p.invocations legacy vis) (v.invocations legacy vis)

/-- The calls in expressions one behind the other. -/
def invocationsOf (legacy : Bool) (vis : Visible) : List Expr → List Invocation
  | [] => []
  | e :: es => e.invocations legacy vis ++ invocationsOf legacy vis es

end

end Expr

/-! ## Calls in declarations -/

/-- The calls in the initialisation of a variable; an array is initialised element by element. -/
def Declarator.invocations (legacy : Bool) (vis : Visible) (d : Declarator) : List Invocation :=
  match d.declaredShape with
  | .array (some n) =>
    d.init.elim [] fun e => (List.replicate n.toNat (e.invocations legacy vis)).flatten
  | _ => d.init.elim [] fun e => e.invocations legacy vis

/-- The calls that belong to the stream of `home`, as far as they belong to that of `t`. -/
def Target.share (home t : Target) (xs : List Invocation) : List Invocation :=
  if home = t then xs else []

/-- The calls in the initialisers of declarations that belong to the stream of `t`. -/
def Point.invocations (legacy : Bool) (t : Target) (pt : Point) :
    List (Bool × Declarator) → List Invocation
  | [] => []
  | (kept, d) :: ds =>
    let inner := pt.declare kept d
    (home kept).share t (d.invocations legacy inner.visible) ++ invocations legacy t inner ds

/-! ## Calls in statements -/

/-- The calls in the end of a counting loop. -/
def Range.lastInvocations (legacy : Bool) (vis : Visible) (r : Range) : List Invocation :=
  r.bound.elim [] fun b => b.1.invocations legacy vis

/-- The calls in the step of a counting loop. -/
def Range.stepInvocations (legacy : Bool) (vis : Visible) (r : Range) : List Invocation :=
  (r.bound.bind Prod.snd).elim [] fun e => e.invocations legacy vis

namespace Stmt

mutual

/-- The calls in a statement that belong to the stream of `t`. -/
def invocations (legacy : Bool) (t : Target) (pt : Point) : Stmt → List Invocation
  | .block ds body =>
    let items := ds.flatMap Declaration.blockItems
    pt.invocations legacy t items ++ invocationsOf legacy t (pt.declareAll items) body
  | .expr e => Target.function.share t (e.invocations legacy pt.visible)
  | .empty _ => []
  | .choice c body none =>
    Target.function.share t (c.invocations legacy pt.visible) ++ body.invocations legacy t pt
  | .choice c body (some otherwise) =>
    Target.function.share t (c.invocations legacy pt.visible) ++ body.invocations legacy t pt ++
      otherwise.invocations legacy t (pt.skip body)
  | .loop c body =>
    body.invocations legacy t pt ++ Target.function.share t (c.invocations legacy pt.visible)
  | .count counter range body =>
    let inner := pt.count counter
    Target.function.share t (range.start.invocations legacy inner.visible) ++
      body.invocations legacy t inner ++
      Target.function.share t (range.stepInvocations legacy inner.visible ++
        range.lastInvocations legacy inner.visible)
  | .ret _ value =>
    Target.function.share t (value.elim [] fun e => e.invocations legacy pt.visible)
  | .leave _ => []

/-- The calls in statements one behind the other. -/
def invocationsOf (legacy : Bool) (t : Target) (pt : Point) : List Stmt → List Invocation
  | [] => []
  | s :: ss => s.invocations legacy t pt ++ invocationsOf legacy t (pt.skip s) ss

end

end Stmt

/-! ## Calls in programs -/

namespace Program

/-- The calls before the program, those of declarations from a point on. -/
def startInvocationsFrom (legacy : Bool) (pt : Point) : List TopLevel → List Invocation
  | [] => []
  | .variables d :: items =>
    pt.invocations legacy .initializer d.globalItems ++
      startInvocationsFrom legacy (pt.pass (.variables d)) items
  | .function h body :: items =>
    body.invocations legacy .initializer (pt.enter h) ++
      startInvocationsFrom legacy (pt.pass (.function h body)) items

/-- The calls before a program runs: those in the initialisers of its fields. -/
def startInvocations (p : Program) (legacy : Bool) : List Invocation :=
  startInvocationsFrom legacy .origin p.items

/-- The number of a function: its place in the order of declaration. -/
def number? (p : Program) (name : String) : Option Nat :=
  p.headers.findIdx? fun h => h.name.value = name

end Program

end OnePass
