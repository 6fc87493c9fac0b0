import OnePass.Proofs.PairedGeneration

/-!
# Constructs in two forms

Declarations and statements are compiled alike in the default form and in the legacy form, as far as
their expressions are. Main statement: a construct does the same in both forms as far as its
compound subtractions and divisions do (`Construct.agrees`).
-/

namespace OnePass

/-! ## The expressions of a program -/

/-- The expressions of a construct. -/
def Construct.exprs : Construct → List Expr
  | .globals d | .locals d => d.items.filterMap Declarator.init
  | .expr e => [e]
  | .ifTrue c | .closeLoop c => [c]
  | .openCount _ r => [r.start]
  | .closeCount r => r.bound.toList.flatMap fun (last, step) => last :: step.toList
  | .ret _ value => value.toList
  | _ => []

/-- The compound subtractions and divisions in a construct. -/
def Construct.compounds (c : Construct) : List (Option Expr × Expr) :=
  c.exprs.flatMap Expr.compounds

/-- The compound subtractions and divisions in a program: the index of the element that is assigned
to, if it is one, and the right side. -/
def Program.compounds (p : Program) : List (Option Expr × Expr) :=
  p.constructs.flatMap Construct.compounds

/-- What is allowed in a construct is allowed in each of its expressions. -/
theorem Construct.allows_expr {P : Pairing} {c : Construct}
    (h : ∀ x ∈ c.compounds, P.Allows x.1 x.2) {e : Expr} (he : e ∈ c.exprs) :
    ∀ x ∈ e.compounds, P.Allows x.1 x.2 := fun x hx => h x (List.mem_flatMap.mpr ⟨e, he, hx⟩)

open Pairing

variable {P : Pairing}

/-! ## Declarations -/

namespace Gen

/-- Both runs have as many fields. -/
theorem agrees_addField (name : String) (slot : Slot) : P.Agrees (addField name slot) := by
  refine pairs_get_bind fun s s' hs => ?_
  rw [hs.fields]
  refine (pairs_set ?_).bind fun _ _ _ => pairs_pure rfl
  exact { hs with fields := rfl }

/-- Both runs have as many local variables. -/
theorem agrees_addLocal : P.Agrees addLocal := by
  refine pairs_get_bind fun s s' hs => ?_
  rw [hs.current]
  split
  · refine (pairs_set ?_).bind fun _ _ _ => pairs_pure rfl
    exact { hs with current := rfl }
  · exact pairs_pure rfl

/-- Both runs have the same scopes. -/
theorem agrees_define (name : Name) (type : WordType) (storage : Storage) (shape : Shape)
    (handle : Handle) : P.Agrees (define name type storage shape handle) := by
  refine pairs_get_bind fun s s' hs => ?_
  rw [hs.scopes]
  refine (agrees_lift _).pairs.bind fun defined _ hdefined => ?_
  subst hdefined
  refine (pairs_set ?_).bind fun _ _ _ => pairs_pure rfl
  exact { hs with scopes := rfl }

/-- An initialiser agrees as its expression does. -/
theorem agrees_initialise (t : Target) (v : Symbol) {init : Expr}
    (h : ∀ x ∈ init.compounds, P.Allows x.1 x.2) : P.Agrees (initialise t v init) := by
  unfold initialise fill
  split
  · refine agrees_forBelow (fun i => ?_) 0 _
    exact (agrees_load v).bind fun _ => (agrees_emit _).bind fun _ =>
      (Expr.agrees_compileAs t h _).bind fun _ => agrees_emit _
  · exact (Expr.agrees_compileAs t h _).bind fun _ => agrees_store v

end Gen

theorem Declarator.agrees_shape (d : Declarator) : P.Agrees d.shape := by
  unfold Declarator.shape
  split
  · exact agrees_pure _
  · exact agrees_ite (agrees_fail _ _) (agrees_pure _)

theorem Declarator.agrees_allocate (d : Declarator) (slot : Slot) (static : Bool) :
    P.Agrees (d.allocate slot static) := by
  refine pairs_get_bind fun s s' hs => ?_
  rw [hs.scopes, hs.current]
  split
  · exact (Gen.agrees_addField _ _).bind fun _ => agrees_pure _
  · exact (Gen.agrees_addField _ _).bind fun _ => agrees_pure _
  · exact Gen.agrees_addLocal.bind fun _ => agrees_pure _

theorem Declarator.agrees_initialise {d : Declarator} (t : Target) (v : Symbol)
    (h : ∀ e ∈ d.init, ∀ x ∈ e.compounds, P.Allows x.1 x.2) :
    P.Agrees (match d.init with
      | none => pure ⟨⟩
      | some init => Gen.initialise t v init) := by
  cases hd : d.init with
  | none => exact agrees_pure _
  | some init => exact Gen.agrees_initialise t v (h init hd)

/-- A declarator agrees as its initialiser does. -/
theorem Declarator.agrees_compile (type : WordType) (static : Bool) {d : Declarator}
    (h : ∀ e ∈ d.init, ∀ x ∈ e.compounds, P.Allows x.1 x.2) :
    P.Agrees (d.compile type static) := by
  refine d.agrees_shape.bind fun shape => (d.agrees_allocate _ static).bind ?_
  rintro ⟨storage, handle, t⟩
  refine (Gen.agrees_define _ _ _ _ _).bind fun v => ?_
  dsimp only
  split
  · exact (agrees_emit _).bind fun _ => (agrees_store v).bind fun _ => d.agrees_initialise t v h
  · exact d.agrees_initialise t v h

/-- A declaration agrees if all its initialisers do. -/
theorem Declaration.agrees_compile {d : Declaration}
    (h : ∀ e ∈ d.items.filterMap Declarator.init, ∀ x ∈ e.compounds, P.Allows x.1 x.2) :
    P.Agrees d.compile :=
  agrees_forM fun item hitem => item.agrees_compile _ _ fun e he =>
    h e (List.mem_filterMap.mpr ⟨item, hitem, he⟩)

/-- Parameters have no code. -/
theorem ParameterGroup.agrees_compile (g : ParameterGroup) : P.Agrees g.compile := by
  refine agrees_forM fun (name, slot) _ => pairs_get_bind fun s s' hs => ?_
  rw [hs.scopes]
  exact (Gen.agrees_define _ _ _ _ _).bind fun _ => agrees_pure _

/-! ## Statements -/

section

variable {α β : Type} {R : α → β → Prop} {xs : List α} {ys : List β}

/-- The first elements of corresponding lists correspond. -/
theorem rel_head? (h : List.Forall₂ R xs ys) : Option.Rel R xs.head? ys.head? := by
  cases h with
  | nil => exact .none
  | cons h _ => exact .some h

/-- Without their first members lists correspond as with them. -/
theorem forall₂_tail (h : List.Forall₂ R xs ys) : List.Forall₂ R xs.tail ys.tail := by
  cases h with
  | nil => exact .nil
  | cons _ h => exact h

end

namespace Gen

theorem agrees_openScope : P.Agrees openScope :=
  agrees_modify fun _ _ h => { h with scopes := congrArg Scopes.push h.scopes }

theorem agrees_closeScope : P.Agrees closeScope :=
  agrees_modify fun _ _ h => { h with scopes := congrArg Scopes.pop h.scopes }

/-- What is left open corresponds by its labels. -/
theorem pairs_suspend {p p' : Pending} (h : p.Pairs P.label p') :
    P.Pairs (· = ·) (suspend p) (suspend p') :=
  fun _ _ hg => ⟨rfl, { hg with pending := .cons h hg.pending }⟩

/-- What is taken up corresponds by its labels. -/
theorem pairs_resume :
    P.Pairs (Option.Rel (Pending.Pairs P.label)) resume resume :=
  fun _ _ hg => ⟨rel_head? hg.pending, { hg with pending := forall₂_tail hg.pending }⟩

/-- The jump over a branch leads to corresponding labels. -/
theorem agrees_ifTrue {c : Expr} (h : ∀ x ∈ c.compounds, P.Allows x.1 x.2) :
    P.Agrees (ifTrue c) :=
  (Expr.agrees_compileAs _ h _).pairs.bind fun _ _ _ => pairs_newLabel.bind fun _ _ hl =>
    (pairs_emit (.jumpIfFalse hl)).bind fun _ _ _ => pairs_suspend (.choice hl)

/-- The label that is taken up is the one that was left open. -/
theorem agrees_ifFalse : P.Agrees ifFalse := by
  refine pairs_resume.bind fun p p' hp => ?_
  cases hp with
  | none => exact pairs_pure rfl
  | some hp =>
    cases hp with
    | choice hl =>
      exact pairs_newLabel.bind fun _ _ hdone => (pairs_emit (.jump hdone)).bind fun _ _ _ =>
        (pairs_mark hl).bind fun _ _ _ => pairs_suspend (.choice hdone)
    | loop _ => exact pairs_pure rfl
    | count _ _ => exact pairs_pure rfl

theorem agrees_endIf : P.Agrees endIf := by
  refine pairs_resume.bind fun p p' hp => ?_
  cases hp with
  | none => exact pairs_pure rfl
  | some hp =>
    cases hp with
    | choice hl => exact pairs_mark hl
    | loop _ => exact pairs_pure rfl
    | count _ _ => exact pairs_pure rfl

/-- The labels of loops correspond. -/
theorem pairs_enterLoop : P.Pairs (LoopLabels.Pairs P.label) enterLoop enterLoop :=
  pairs_newLabel.bind fun _ _ htop => pairs_newLabel.bind fun _ _ htest =>
    pairs_newLabel.bind fun _ _ hexit => (pairs_emit (.jump htest)).bind fun _ _ _ =>
      (pairs_mark htop).bind fun _ _ _ => pairs_pure ⟨htop, htest, hexit⟩

theorem agrees_openLoop : P.Agrees openLoop :=
  pairs_enterLoop.bind fun _ _ hk => pairs_suspend (.loop hk)

/-- A loop agrees as its condition does, since its labels correspond. -/
theorem agrees_closeLoop {c : Expr} (h : ∀ x ∈ c.compounds, P.Allows x.1 x.2) :
    P.Agrees (closeLoop c) := by
  refine pairs_get_bind fun s s' hs => ?_
  have hhead := rel_head? hs.pending
  generalize s.pending.head? = p, s'.pending.head? = p' at hhead
  cases hhead with
  | none => exact pairs_pure rfl
  | some hp =>
    cases hp with
    | choice _ => exact pairs_pure rfl
    | loop hk =>
      exact (pairs_mark hk.test).bind fun _ _ _ => (Expr.agrees_compileAs _ h _).pairs.bind
        fun _ _ _ => (pairs_emit (.jumpIfTrue hk.top)).bind fun _ _ _ =>
          (pairs_mark hk.exit).bind fun _ _ _ => pairs_resume.bind fun _ _ _ => pairs_pure rfl
    | count _ _ => exact pairs_pure rfl

/-- A counted loop agrees as its first value does. -/
theorem agrees_openCount (counter : Name) {r : Range}
    (h : ∀ x ∈ r.start.compounds, P.Allows x.1 x.2) : P.Agrees (openCount counter r) := by
  refine agrees_check <| agrees_openScope.bind fun _ => agrees_addLocal.bind fun slot =>
    (agrees_define _ _ _ _ _).bind fun _ => (Expr.agrees_compileAs _ h _).bind fun _ =>
      (agrees_emit _).bind fun _ => ?_
  exact pairs_enterLoop.bind fun _ _ hk => pairs_suspend (.count slot hk)

section

variable {r : Range} (h : ∀ e ∈ (Construct.closeCount r).exprs, ∀ x ∈ e.compounds, P.Allows x.1 x.2)
include h

theorem agrees_stepOf : P.Agrees (stepOf r) := by
  have hone : P.Agrees (emit .function (.pushInt 1)) := agrees_emit _
  obtain ⟨start, _ | ⟨last, _ | step⟩⟩ := r
  · exact hone
  · exact hone
  · exact Expr.agrees_compileAs _ (h step (by simp [Construct.exprs])) _

theorem agrees_boundOf : P.Agrees (boundOf r) := by
  obtain ⟨start, _ | ⟨last, step⟩⟩ := r
  · exact agrees_pure _
  · exact Expr.agrees_compileAs _ (h last (by simp [Construct.exprs])) _

/-- The end of a counted loop agrees as its bound and its step do. -/
theorem agrees_closeCount : P.Agrees (closeCount r) := by
  refine pairs_get_bind fun s s' hs => ?_
  have hhead := rel_head? hs.pending
  generalize s.pending.head? = p, s'.pending.head? = p' at hhead
  cases hhead with
  | none => exact pairs_pure rfl
  | some hp =>
    cases hp with
    | choice _ => exact pairs_pure rfl
    | loop _ => exact pairs_pure rfl
    | count slot hk =>
      have hjump : P.Pairs (· = ·) (emitAll .function [.binary .gt, .pushInt 0, .binary .eq,
          .jumpIfTrue _]) (emitAll .function [.binary .gt, .pushInt 0, .binary .eq,
          .jumpIfTrue _]) :=
        (agrees_emit _).pairs.bind fun _ _ _ => (agrees_emit _).pairs.bind fun _ _ _ =>
          (agrees_emit _).pairs.bind fun _ _ _ => (pairs_emit (.jumpIfTrue hk.top)).bind
            fun _ _ _ => pairs_pure rfl
      exact (agrees_emit _).pairs.bind fun _ _ _ => (agrees_stepOf h).pairs.bind fun _ _ _ =>
        (agrees_emit _).pairs.bind fun _ _ _ => (agrees_emit _).pairs.bind fun _ _ _ =>
          (pairs_mark hk.test).bind fun _ _ _ => (agrees_emit _).pairs.bind fun _ _ _ =>
            (agrees_boundOf h).pairs.bind fun _ _ _ => hjump.bind fun _ _ _ =>
              (pairs_mark hk.exit).bind fun _ _ _ => pairs_resume.bind fun _ _ _ =>
                agrees_closeScope.pairs

end

/-- A statement agrees as its expression does, and both runs drop its value or none. -/
theorem agrees_effect {e : Expr} (h : ∀ x ∈ e.compounds, P.Allows x.1 x.2) : P.Agrees (effect e) :=
  (e.operand_agrees _ h).compile.bind fun _ => agrees_ite (agrees_emit _) (agrees_pure _)

/-- A return agrees as its value does. -/
theorem agrees_ret (word : Span) {value : Option Expr}
    (h : ∀ e ∈ value, ∀ x ∈ e.compounds, P.Allows x.1 x.2) : P.Agrees (ret word value) := by
  refine pairs_get_bind fun s s' hs => ?_
  rw [hs.current]
  split
  · exact agrees_fail _ _
  · rename_i f _
    rcases value with _ | e <;> rcases f.returns with _ | type
    · exact agrees_emit _
    · exact agrees_fail_bind _ _ _
    · exact agrees_fail_bind _ _ _
    · exact (Expr.agrees_compileAs _ (h e rfl) _).bind fun _ => agrees_emit _

/-- A `break` jumps to corresponding labels. -/
theorem agrees_leave (word : Span) : P.Agrees (leave word) := by
  refine pairs_get_bind fun s s' hs => ?_
  have hexit := Pending.findSome?_exit hs.pending
  generalize s.pending.findSome? Pending.exit? = exit, s'.pending.findSome? Pending.exit? = exit'
    at hexit
  cases hexit with
  | none => exact agrees_fail _ _
  | some hl => exact pairs_emit (.jump hl)

/-! ## Functions -/

/-- The return at the end of a function. -/
theorem draft_foldl {d d' : Draft} (h : P.draft d d') (is : List Instruction) :
    P.draft (is.foldl Draft.emit d) (is.foldl Draft.emit d') := by
  induction is generalizing d d' with
  | nil => exact h
  | cons i is ih => exact ih (P.emit h (.same i))

/-- States with the current function finished. -/
theorem paired_finishFunction {g g' : Generator} (h : P.Paired g g') :
    P.Paired g.finishFunction g'.finishFunction := by
  unfold Generator.finishFunction
  rw [h.current]
  split
  · exact h
  · have hroutine (f : Current) : P.Routines
        ⟨f.name, f.params, f.returns, f.locals,
          ((implicitReturn f.returns).foldl Draft.emit g.body).toCode⟩
        ⟨f.name, f.params, f.returns, f.locals,
          ((implicitReturn f.returns).foldl Draft.emit g'.body).toCode⟩ :=
      ⟨rfl, rfl, rfl, rfl, _, _, draft_foldl h.body _, rfl, rfl⟩
    refine { h with routines := ?_, body := P.empty, current := rfl }
    rw [Array.toList_push, Array.toList_push]
    exact List.rel_append h.routines (.cons (hroutine _) .nil)

/-- The routines that are stored correspond. -/
theorem agrees_finishFunction : P.Agrees finishFunction :=
  agrees_modify fun _ _ => paired_finishFunction

theorem agrees_beginFunction (h : Header) : P.Agrees (beginFunction h) := by
  refine agrees_finishFunction.bind fun _ => pairs_get_bind fun s s' hs => ?_
  rw [hs.size_routines, hs.functions]
  refine (agrees_lift _).pairs.bind fun functions _ hfunctions => ?_
  subst hfunctions
  refine fun _ _ _ => ⟨rfl, { hs with functions := rfl, current := rfl, pending := .nil }⟩

end Gen

/-- **A construct does the same in both forms** as far as its compounds do. -/
theorem Construct.agrees {c : Construct} (h : ∀ x ∈ c.compounds, P.Allows x.1 x.2) :
    P.Agrees c.compile := by
  have hexpr {e : Expr} (he : e ∈ c.exprs) := allows_expr h he
  cases c with
  | globals d => exact d.agrees_compile fun e he => hexpr he
  | locals d => exact d.agrees_compile fun e he => hexpr he
  | parameters g => exact g.agrees_compile
  | openFunction => exact Gen.agrees_openScope
  | openBlock => exact Gen.agrees_openScope
  | closeFunction => exact Gen.agrees_closeScope
  | closeBlock => exact Gen.agrees_closeScope
  | header k => exact Gen.agrees_beginFunction k
  | expr e => exact Gen.agrees_effect (hexpr (.head _))
  | ifTrue c => exact Gen.agrees_ifTrue (hexpr (.head _))
  | ifFalse => exact Gen.agrees_ifFalse
  | endIf => exact Gen.agrees_endIf
  | openLoop => exact Gen.agrees_openLoop
  | closeLoop c => exact Gen.agrees_closeLoop (hexpr (.head _))
  | openCount counter r => exact Gen.agrees_openCount counter (hexpr (.head _))
  | closeCount r => exact Gen.agrees_closeCount fun e he => hexpr he
  | ret word value => exact Gen.agrees_ret word fun e he => hexpr (Option.mem_toList.mpr he)
  | leave word => exact Gen.agrees_leave word

/-- Constructs agree one after the other. -/
theorem Construct.agrees_forM {cs : List Construct}
    (h : ∀ x ∈ cs.flatMap Construct.compounds, P.Allows x.1 x.2) :
    P.Agrees (cs.forM Construct.compile) :=
  Pairing.agrees_forM fun c hc => c.agrees fun x hx => h x (List.mem_flatMap.mpr ⟨c, hc, hx⟩)

/-- The states that generation starts in correspond. -/
theorem paired_new : P.Paired (.new false) (.new true) where
  scopes := rfl
  functions := rfl
  fields := rfl
  current := rfl
  routines := .nil
  plain := rfl
  legacy := rfl
  initializer := P.empty
  body := P.empty
  pending := .nil

end OnePass
