import OnePass.Proofs.ExpressionCode
import OnePass.Tree.Construct

/-!
# What a program keeps

Read off its tree, without generating code: the slots of each function, the fields of the
program, and the plan of its image.

The initialiser of a static variable runs before the program, and so before the static
variables behind it exist. If it calls the function it stands in, that function may meet
those variables too early; an array among them is `exposed` by it.
-/

namespace OnePass

/-- `ys` stands in `xs` from the position `n` on. -/
def StandsAt {α : Type} (ys xs : List α) (n : Nat) : Prop := ys <+: xs.drop n

namespace StandsAt

variable {α : Type} {xs ys zs : List α} {y : α} {n : Nat}

theorem cons_iff : StandsAt (y :: ys) xs n ↔ xs[n]? = some y ∧ StandsAt ys xs (n + 1) := by
  unfold StandsAt
  rw [← List.drop_drop, ← List.head?_drop]
  cases xs.drop n with
  | nil => simp
  | cons x rest => simp [List.cons_prefix_cons, eq_comm]

theorem append_iff :
    StandsAt (ys ++ zs) xs n ↔ StandsAt ys xs n ∧ StandsAt zs xs (n + ys.length) := by
  induction ys generalizing n with
  | nil => simp [StandsAt]
  | cons y ys ih =>
    rw [List.cons_append, cons_iff, cons_iff, ih, and_assoc, List.length_cons,
      Nat.add_right_comm n 1, ← Nat.add_assoc]

theorem of_append {a b : List α} (h : xs = a ++ (ys ++ b)) : StandsAt ys xs a.length := by
  rw [h, StandsAt, List.drop_left]
  exact List.prefix_append ..

theorem getElem? (h : StandsAt ys xs n) {j : Nat} (hj : ys[j]? = some y) : xs[n + j]? = some y := by
  rw [← List.getElem?_drop]
  exact getElem?_mono h hj

end StandsAt

/-- A variable that is kept as long as the program runs. -/
structure Kept where
  /-- what it holds -/
  slot : Slot
  /-- the expression that initialises it, or each of its elements -/
  init : Option Expr

/-- What the slot of a declared variable of a type holds. -/
def Declarator.slot (type : WordType) (d : Declarator) : Slot := ⟨type, d.length.isSome⟩

namespace Declaration

/-- The variables of a declaration, as fields. -/
def fields (d : Declaration) : List Kept := d.items.map fun i => ⟨i.slot d.type.value, i.init⟩

/-- The variables of a declaration in a block that are fields. -/
def kept (d : Declaration) : List Kept := if d.static.isSome then d.fields else []

/-- What the local slots of a declaration in a block hold. -/
def locals (d : Declaration) : List Slot :=
  if d.static.isSome then [] else d.items.map (Declarator.slot d.type.value)

end Declaration

namespace Stmt

mutual

/-- The static variables of a statement, in order. -/
def kept : Stmt → List Kept
  | .block ds body => ds.flatMap Declaration.kept ++ keptOf body
  | .expr _ => []
  | .empty _ => []
  | .choice _ body none => body.kept
  | .choice _ body (some otherwise) => body.kept ++ otherwise.kept
  | .loop _ body => body.kept
  | .count _ _ body => body.kept
  | .ret _ _ => []
  | .leave _ => []

/-- The static variables of statements, in order. -/
def keptOf : List Stmt → List Kept
  | [] => []
  | s :: ss => s.kept ++ keptOf ss

end

mutual

/-- What the local slots of a statement hold, in order. -/
def locals : Stmt → List Slot
  | .block ds body => ds.flatMap Declaration.locals ++ localsOf body
  | .expr _ => []
  | .empty _ => []
  | .choice _ body none => body.locals
  | .choice _ body (some otherwise) => body.locals ++ otherwise.locals
  | .loop _ body => body.locals
  | .count _ _ body => .scalar .int :: body.locals
  | .ret _ _ => []
  | .leave _ => []

/-- What the local slots of statements hold, in order. -/
def localsOf : List Stmt → List Slot
  | [] => []
  | s :: ss => s.locals ++ localsOf ss

end

end Stmt

/-- The fields of a declaration outside all functions. -/
def TopLevel.kept : TopLevel → List Kept
  | .variables d => d.fields
  | .function _ body => body.kept

/-- The arrays among `ks` that stand behind a variable whose initialiser calls the function
`name`, numbered from `n`. -/
def exposedBy (name : String) (n : Nat) (ks : List Kept) : Set Nat :=
  {i | ∃ j m k e, j < m ∧ i = n + m ∧ (∃ a, ks[m]? = some a ∧ a.slot.array) ∧
    ks[j]? = some k ∧ k.init = some e ∧ name ∈ e.calls}

namespace Program

/-- The fields of a program, in order. -/
def kept (p : Program) : List Kept := p.items.flatMap TopLevel.kept

/-- What the fields of a program hold. -/
def fields (p : Program) : List Slot := p.kept.map Kept.slot

/-- The fields of arrays below `n`. -/
def arraysBelow (fields : List Slot) (n : Nat) : Set Nat :=
  {i | i < n ∧ ∃ t, fields[i]? = some (.ofArray t)}

/-- The outline of a function in front of which there are `n` fields. A function takes its own
static variables and all fields before it to be ready. -/
def outlineAt (fields : List Slot) (n : Nat) (h : Header) (body : Stmt) : Outline :=
  ⟨h.parameterTypes, body.locals, h.returnType, arraysBelow fields (n + body.kept.length), ∅⟩

/-- The outlines of functions in front of which there are `n` fields. -/
def outlinesFrom (fields : List Slot) (n : Nat) : List TopLevel → List Outline
  | [] => []
  | .variables d :: items => outlinesFrom fields (n + d.fields.length) items
  | .function h body :: items =>
    outlineAt fields n h body :: outlinesFrom fields (n + body.kept.length) items

/-- The exposed fields of functions in front of which there are `n` fields. -/
def exposedFrom (n : Nat) : List TopLevel → Set Nat
  | [] => ∅
  | .variables d :: items => exposedFrom (n + d.fields.length) items
  | .function h body :: items =>
    exposedBy h.name.value n body.kept ∪ exposedFrom (n + body.kept.length) items

/-- The fields of arrays that a function may meet before they are ready: static arrays behind
a static variable of the same function whose initialiser calls that function. -/
def exposed (p : Program) : Set Nat := exposedFrom 0 p.items

/-- The outline of the routine that stands in for an entry function. -/
def emptyOutline : Outline := ⟨[], [], none, ∅, ∅⟩

/-- The outlines of the routines of a program. -/
def outlines (p : Program) : List Outline :=
  outlinesFrom p.fields 0 p.items ++
    if p.headers.any fun h => h.name.value = entryName then [] else [emptyOutline]

/-- The plan of a program, if the fields in `exposed` have to be expected not to be ready. -/
def planWith (p : Program) (exposed : Set Nat) : Plan := ⟨p.fields, p.outlines, exposed⟩

/-- The plan of a program. -/
def plan (p : Program) : Plan := p.planWith p.exposed

/-- 32 bits are enough to number the fields and the functions of a program, and the arguments and
local variables of each function. -/
structure Addressable (p : Program) : Prop where
  fields : p.kept.length ≤ UInt32.size
  functions : p.headers.length < UInt32.size
  params : ∀ header body, .function header body ∈ p.items →
    header.parameterTypes.length ≤ UInt32.size
  locals : ∀ header body, .function header body ∈ p.items → body.locals.length < UInt32.size

end Program

end OnePass
