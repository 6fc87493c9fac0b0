import OnePass.Proofs.DeclarationCode
import OnePass.Proofs.Effects

/-!
# What statements do

The structured meaning of statements, said without jumps. A statement is left at its end, by an exit
from the loop around it, or by a return (`Completion`); or it fails, which is a failure of its
evaluation. It comes to `nothing` where a loop goes through more rounds than a given number, or a
call takes more instructions.

Which slot a variable gets is no question of what is executed. It depends on where the variable is
declared, and is kept in the `Surroundings` of a statement together with the visible variables.
-/

namespace OnePass

/-- How a statement is left. -/
inductive Completion where
  /-- at its end -/
  | onward
  /-- by an exit from the innermost loop around it -/
  | left
  /-- by a return from the function -/
  | returned (value : Option Value)

/-- The memory with one more array, of zeros. -/
def Memory.newArray (m : Memory) (length : UInt32) : Memory :=
  { m with store := { m.store with
    arrays := m.store.arrays.push (Array.replicate length.toNat 0) } }

namespace Eval

/-- A new array of zeros. -/
def newArray (length : UInt32) : Eval Value := do
  let m ← get
  set (m.newArray length)
  return .array m.store.arrays.size

/-- Gives `n` elements of an array their first values, those behind `start`. Each value is computed
anew. -/
def fill (h : Handle) (value : Eval Int32) (start : Nat) : Nat → Eval Unit
  | 0 => return
  | n + 1 => do
    let a ← read h
    store (.element a (UInt32.ofNat start).toInt32) (← value)
    fill h value (start + 1) n

/-- What comes behind something is done if that is left at its end. -/
def andThen (ev next : Eval Completion) : Eval Completion := do
  match ← ev with
  | .onward => next
  | c => return c

/-- A loop: `test` is asked before every round. It takes fewer than `n` rounds, or it comes to
nothing. -/
def loop (test : Eval Bool) (body : Eval Completion) : Nat → Eval Completion
  | 0 => nothing
  | n + 1 => do
    if ← test then
      match ← body with
      | .onward => loop test body n
      | .left => return .onward
      | .returned v => return .returned v
    else return .onward

end Eval

namespace Situation

/-- The truth value of a condition. -/
def holds (s : Situation) (condition : Expr) : Eval Bool := do
  return (← Eval.word (← condition.evaluate s)) ≠ 0

/-- Makes the slot of a declared variable ready. An array is a new one each time. -/
def prepare (s : Situation) (v : Symbol) (init : Option Expr) : Eval Unit :=
  match v.shape, init with
  | .array (some n), none => do
    let a ← Eval.newArray n
    modify fun m => m.set v.handle a
  | .array (some n), some e => do
    let a ← Eval.newArray n
    modify fun m => m.set v.handle a
    Eval.fill v.handle (e.evaluate s >>= Eval.word) 0 n.toNat
  | _, none => return
  | _, some e => do Eval.store (.slot v.handle) (← Eval.word (← e.evaluate s))

/-- The word that a counter is compared with, asked for before every round. -/
def bound (s : Situation) (range : Range) : Eval Int32 :=
  match range.bound with
  | some (last, _) => do Eval.word (← last.evaluate s)
  | none => Eval.nothing

/-- The step of a counting loop, asked for behind every round; 1 if it is not given. -/
def stride (s : Situation) (range : Range) : Eval Int32 :=
  match range.bound with
  | some (_, some step) => do Eval.word (← step.evaluate s)
  | _ => return 1

/-- Whether a counter is within its range still. -/
def within (s : Situation) (counter : Handle) (range : Range) : Eval Bool := do
  let x ← Eval.word (← Eval.read counter)
  let last ← s.bound range
  return x.toInt ≤ last.toInt

/-- Behind a round the counter goes one step, modulo 2³². -/
def advance (s : Situation) (counter : Handle) (range : Range) : Eval Unit := do
  let x ← Eval.word (← Eval.read counter)
  let step ← s.stride range
  Eval.store (.slot counter) (.ofInt (x.toInt + step.toInt))

end Situation

/-- What a statement is to be understood in: what its expressions are, and which slots the variables
that are declared in it get. -/
structure Surroundings extends Situation where
  /-- how many fields there are so far -/
  fields : Nat
  /-- how many local slots of the function are taken so far -/
  locals : Nat

namespace Surroundings

/-- A scope of its own. -/
def inner (r : Surroundings) : Surroundings := { r with scopes := r.scopes.push }

/-- Behind a statement its slots are taken. -/
def after (r : Surroundings) (s : Stmt) : Surroundings :=
  { r with fields := r.fields + s.kept.length, locals := r.locals + s.locals.length }

/-- One more variable in the innermost scope. -/
def insert (r : Surroundings) (name : String) (v : Symbol) : Surroundings :=
  { r with scopes := r.scopes.withCurrent (r.scopes.current.insert name v) }

/-- A declared variable. A static one is a field, any other one a local slot. -/
def symbol (r : Surroundings) (type : WordType) (static : Bool) (d : Declarator) : Symbol :=
  if static then
    ⟨type, .static, r.scopes.count .static, d.declaredShape, .field (.ofNat r.fields)⟩
  else ⟨type, .local, r.scopes.count .local, d.declaredShape, .local (.ofNat r.locals)⟩

/-- Behind the name of a declared variable, which is visible already where it is initialised. -/
def declare (r : Surroundings) (type : WordType) (static : Bool) (d : Declarator) : Surroundings :=
  let v := r.symbol type static d
  if static then { r.insert d.name.value v with fields := r.fields + 1 }
  else { r.insert d.name.value v with locals := r.locals + 1 }

/-- Behind declared variables of one type. -/
def declareAll (r : Surroundings) (type : WordType) (static : Bool) :
    List Declarator → Surroundings
  | [] => r
  | d :: ds => (r.declare type static d).declareAll type static ds

/-- Makes the slots of declared variables ready, one after another. Static ones are since before the
program. -/
def prepareAll (r : Surroundings) (type : WordType) (static : Bool) : List Declarator → Eval Unit
  | [] => return
  | d :: ds => do
    let r' := r.declare type static d
    unless static do r'.prepare (r.symbol type static d) d.init
    r'.prepareAll type static ds

/-- Behind declarations. -/
def behind (r : Surroundings) : List Declaration → Surroundings
  | [] => r
  | d :: ds => (r.declareAll d.type.value d.static.isSome d.items).behind ds

/-- Carries out declarations. -/
def enter (r : Surroundings) : List Declaration → Eval Unit
  | [] => return
  | d :: ds => do
    r.prepareAll d.type.value d.static.isSome d.items
    (r.declareAll d.type.value d.static.isSome d.items).enter ds

/-- The counter of a counting loop. -/
def counter (r : Surroundings) : Handle := .local (.ofNat r.locals)

/-- Where the counter of a counting loop is visible. It has a scope of its own. -/
def counting (r : Surroundings) (name : Name) : Surroundings :=
  { r.inner.insert name.value ⟨.int, .local, 0, .scalar, r.counter⟩ with locals := r.locals + 1 }

end Surroundings

namespace Stmt

mutual

/-- What a statement does. -/
def execute (r : Surroundings) : Stmt → Eval Completion
  | .block ds body => do
    r.inner.enter ds
    executeAll (r.inner.behind ds) body
  | .expr e => do
    e.perform r.toSituation
    return .onward
  | .empty _ => return .onward
  | .choice c body none => do
    if ← r.holds c then body.execute r else return .onward
  | .choice c body (some otherwise) => do
    if ← r.holds c then body.execute r else otherwise.execute (r.after body)
  | .loop c body => Eval.loop (r.holds c) (body.execute r) r.fuel
  | .count name range body => do
    let r' := r.counting name
    Eval.store (.slot r.counter) (← Eval.word (← range.start.evaluate r'.toSituation))
    Eval.loop (r'.within r.counter range) ((body.execute r').andThen do
      r'.advance r.counter range
      return .onward) r.fuel
  | .ret _ none => return .returned none
  | .ret _ (some e) => do return .returned (some (.word (← Eval.word (← e.evaluate r.toSituation))))
  | .leave _ => return .left

/-- What statements do one after another. -/
def executeAll (r : Surroundings) : List Stmt → Eval Completion
  | [] => return .onward
  | s :: ss => (s.execute r).andThen (executeAll (r.after s) ss)

end

end Stmt

end OnePass
