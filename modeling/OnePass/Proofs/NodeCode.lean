import Mathlib.Data.List.Induction
import Mathlib.Data.Option.Basic
import OnePass.Generator.Handed
import OnePass.Proofs.NodePlaces
import OnePass.Proofs.TypeRules

/-!
# Code for the nodes of expressions

The nodes of an expression have what their rules need. Main statement: at whatever level of the
grammar an expression stands, the code for its node is that of the expression, an error in it has
the same place, and the node can be assigned to where the expression can (`Expr.shows_at`).

`Branch.Shows` says so of one node. It goes up from the leaves, with one lemma for each form of
expression; a chain of operators is the node of its left operand with two children more.
-/

namespace OnePass

/-! ## Where expressions stand -/

/-- The first and the last of these tokens stand at `first` and `last`. -/
def Spans (ts : List (Located Token)) (first last : Span) : Prop :=
  ∃ a b, ts.head? = some a ∧ ts.getLast? = some b ∧ a.span = first ∧ b.span = last

namespace Spans

variable {ts us : List (Located Token)} {first last first' last' : Span}

/-- One token stands where it stands. -/
theorem single {α : Type} (x : Located α) (token : α → Token) :
    Spans [x.map token] x.span x.span :=
  ⟨x.map token, x.map token, rfl, rfl, rfl, rfl⟩

/-- Tokens one behind the other stand from the first to the last. -/
theorem append (h : Spans ts first last) (h' : Spans us first' last') :
    Spans (ts ++ us) first last' := by
  obtain ⟨a, -, ha, -, rfl, -⟩ := h
  obtain ⟨-, b, -, hb, -, rfl⟩ := h'
  exact ⟨a, b, by rw [List.head?_append, ha]; rfl, by rw [List.getLast?_append, hb]; rfl, rfl, rfl⟩

/-- A node stands where its tokens do. -/
theorem span? {n : Node} (h : Spans n.leaves first last) : n.span? = some (first.upTo last) := by
  obtain ⟨a, b, ha, hb, rfl, rfl⟩ := h
  rw [Node.span?, ha, hb]

end Spans

namespace Expr

/-- The leaves of arguments end where the last argument ends. -/
theorem spans_lastOf {ts : List (Located Token)} {first last : Span} {es : List Expr}
    (hts : Spans ts first last) (h : ∀ e ∈ es, Spans e.core.leaves e.first e.last) :
    Spans (ts ++ (coreOf es).flatMap Node.leaves) first (lastOf last es) := by
  induction es generalizing ts last with
  | nil => simpa [coreOf, lastOf] using hts
  | cons e es ih =>
    obtain ⟨he, hes⟩ := List.forall_mem_cons.mp h
    have hrest := ih (hts.append he) hes
    rwa [List.append_assoc, ← leaves_node, ← List.flatMap_cons] at hrest

/-- An expression goes from the first to the last of its leaves. -/
theorem spans_core (e : Expr) : Spans e.core.leaves e.first e.last := by
  induction e using Expr.induct with
  | literal v => exact .single v Literal.token
  | var n => exact .single n .ident
  | elem n i hi => simpa [core, first, last] using (Spans.single n .ident).append hi
  | paren e he => simpa [core, first, last] using he
  | call n args hargs =>
    simpa [core, first, last] using spans_lastOf (.single n .ident) hargs
  | lead op e he => simpa [core, first, last] using (Spans.single op LeadOp.token).append he
  | arith l op r hl hr =>
    simpa [core, first, last] using hl.append ((Spans.single op ArithOp.token).append hr)
  | compare l op r hl hr =>
    simpa [core, first, last] using hl.append ((Spans.single op .relation).append hr)
  | negate word e he =>
    simpa [core, first, last, Located.map] using
      (Spans.single ⟨Keyword.not, word⟩ .keyword).append he
  | logic op l r hl hr => simpa [core, first, last] using hl.append hr
  | step p op hp => simpa [core, first, last] using hp.append (Spans.single op .step)
  | assign p op v hp hv =>
    simpa [core, first, last] using hp.append ((Spans.single op .assign).append hv)

/-- A node with the tokens of an expression stands where the expression does. -/
theorem place_of_leaves {n : Node} {e : Expr} (origin : Span) (h : n.leaves = e.core.leaves) :
    n.place origin = e.span := by
  have hspans := e.spans_core
  rw [← h] at hspans
  rw [Node.place, hspans.span?]
  rfl

end Expr

/-! ## Generation that fails -/

namespace Gen

variable {α β : Type}

/-- Behind a failure nothing is generated. -/
@[simp] theorem fail_bind (e : SemanticError) (span : Span) (f : α → Gen β) :
    (fail e span >>= f) = fail e span := rfl

/-- Of a failure nothing can be made. -/
@[simp] theorem map_fail (e : SemanticError) (span : Span) (f : α → β) :
    f <$> (fail e span : Gen α) = fail e span := rfl

@[simp] theorem expectType_self (span : Span) (type : ExprType) :
    expectType span type type = pure ⟨⟩ := if_pos rfl

end Gen

/-- What is needed of an operand where nothing is assigned to it. -/
def Operand.bare (o : Operand) : Operand := { o with place? := none }

namespace Rules

variable (t : Target)

/-- What a call makes of its arguments does not depend on whether they are places. -/
theorem arguments_bare (os : List Operand) (ss : List Slot) :
    arguments (os.map Operand.bare) ss = arguments os ss := by
  induction os generalizing ss with
  | nil => rfl
  | cons o os ih =>
    cases ss with
    | nil => rfl
    | cons s ss => exact congrArg (bind _) (funext fun _ => ih ss)

/-- What a format makes of its arguments does not depend on whether they are places. -/
theorem formatArguments_bare (os : List Operand) :
    formatArguments t (os.map Operand.bare) = formatArguments t os := by
  induction os with
  | nil => rfl
  | cons o os ih =>
    rw [List.map_cons, formatArguments, formatArguments, ih]
    rfl

/-- What is printed may be a place or none. -/
theorem print_bare (name : Name) (os : List Operand) :
    print t name (os.map Operand.bare) = print t name os := by
  rcases os with _ | ⟨o, _ | ⟨o', os⟩⟩
  · rfl
  · rfl
  · have hrest := formatArguments_bare t (o' :: os)
    simp only [List.map_cons] at hrest ⊢
    simp only [print, hrest, List.length_cons, List.length_map]
    rfl

/-- A call does not assign to its arguments, if it is not one for input. -/
theorem callOr_bare (span : Span) (name : Name) (os : List Operand) (input : Gen ExprType) :
    callOr t span name (os.map Operand.bare) input = callOr t span name os input := by
  simp only [callOr, print_bare, arguments_bare, List.length_map]

/-- What is done with each argument makes the code for input. -/
theorem putEach_map {α β : Type} {name : Name} {xs : List α} {f : α → β} {one : β → Gen Unit}
    {one' : α → Gen Unit} (h : ∀ x ∈ xs, one (f x) = one' x) :
    putEach name (xs.map f) one = putEach name xs one' := by
  have hforM : (xs.map f).forM one = xs.forM one' := by
    induction xs with
    | nil => rfl
    | cons x xs ih =>
      rw [List.map_cons, List.forM, List.forM, h x (.head _),
        ih fun y hy => h y (.tail _ hy)]
  simp only [putEach, List.isEmpty_map, hforM]

end Rules

/-! ## Nodes that show what an expression is -/

/-- A node with the code of an operand, which is assigned to in the same way. -/
structure Branch.Shows (origin : Span) (b : Branch) (o : Operand) : Prop where
  span : b.node.place origin = o.span
  compile : b.compile = o.compile
  place : Option.Rel (fun (m : Mutable) (p : Place) =>
    m.node.place origin = o.span ∧ m.node.name origin = pure p.name ∧ m.index = p.index)
    b.mutable? o.place?

variable {origin : Span} {t : Target}

namespace Node

/-- The branches of nodes are those of each node. -/
@[simp] theorem branches_eq (ns : List Node) : branches origin t ns = ns.map (branch origin t) := by
  induction ns with
  | nil => rfl
  | cons n ns ih => rw [branches, ih, List.map_cons]

/-- The branch of a node is put together from the branches of its children. -/
@[simp] theorem branch_inner (r : Rule) (cs : List Node) :
    branch origin t (.inner r cs) = .of origin t (.inner r cs) (cs.map (branch origin t)) := by
  rw [branch, branches_eq]

/-- A branch knows its node. -/
@[simp] theorem node_branch (n : Node) : (n.branch origin t).node = n := by
  cases n <;> rfl

/-- The children of a branch are the branches of the children. -/
@[simp] theorem children_branch (n : Node) :
    (n.branch origin t).children = n.children.map (branch origin t) := by
  cases n with
  | leaf r token => rfl
  | inner r cs => rw [branch_inner]; rfl

/-- A node that begins with a name has it. -/
theorem name_cons (r : Rule) (name : Name) (cs : List Node) :
    Node.name origin (.inner r (name.node :: cs)) = pure name := rfl

/-- Nodes around a node have its place. -/
theorem place_only (r : Rule) (n : Node) : (inner r [n]).place origin = n.place origin := by
  rw [place, place, span?, span?, leaves_inner, List.flatMap_singleton]

end Node

namespace Branch

variable {o l r : Operand} {n : Node} {b : Branch}

/-- What a branch shows has the type that is expected, or is refused in the same words at the same
place. -/
theorem Shows.compileAs (h : b.Shows origin o) (type : ExprType) :
    (b.operand origin).compileAs type = o.compileAs type := by
  rw [Operand.compileAs, Operand.compileAs, operand, h.span, h.compile]

theorem Shows.compileInt (h : b.Shows origin o) : (b.operand origin).compileInt = o.compileInt :=
  h.compileAs _

theorem Shows.compileBool (h : b.Shows origin o) : (b.operand origin).compileBool = o.compileBool :=
  h.compileAs _

/-- What a branch shows is an operand, of which the place is looked up elsewhere. -/
theorem Shows.operand (h : b.Shows origin o) : b.operand origin = o.bare := by
  rw [Branch.operand, Operand.bare, h.span, h.compile]

/-- A node around another one is that one. -/
theorem shows_only (level : Level) (h : (n.branch origin t).Shows origin o) :
    ((Node.inner level.rule [n]).branch origin t).Shows origin o := by
  rw [Node.branch_inner, List.map_singleton]
  refine ⟨?_, ?_, ?_⟩
  · have hspan := h.span
    rw [Node.node_branch] at hspan
    exact (Node.place_only _ n).trans hspan
  · rw [← h.compile]
    cases level <;> rfl
  · have hplace := h.place
    cases level <;> exact hplace

/-- The levels between two expressions are nodes with one child, which show what the child does. -/
theorem shows_wrap (outer inner : Level) (h : (n.branch origin t).Shows origin o) :
    ((outer.wrap inner n).branch origin t).Shows origin o := by
  unfold Level.wrap
  induction (Level.all.drop outer.rank).take (inner.rank - outer.rank) with
  | nil => exact h
  | cons level levels ih => exact shows_only level ih

/-- A node with several children is no place. -/
theorem mutableAt_of_length {n : Node} {cs : List Branch} (hrule : n.rule ≠ .mutable)
    (hcs : cs.length ≠ 1) : mutableAt origin n cs = none := by
  unfold mutableAt
  rw [if_neg hrule]
  match cs with
  | [] | _ :: _ :: _ => exact ite_self none
  | [_] => exact absurd rfl hcs

/-! ## Chains -/

/-- A chain of `or` or of `and` with one operand more. -/
theorem logical_concat (op : LogicOp) {m n : Node} {left : List Branch} (hleft : left ≠ [])
    (hspan : ∀ c, left = [c] → c.node.place origin = l.span)
    (hl : logical origin t op m left = l.compile) (hr : b.Shows origin r) :
    logical origin t op n (left ++ [b]) = Rules.logic t op l r := by
  have hnext : logicalNext origin t op b =
      r.compileBool >>= fun _ => Gen.emit t (.binary (Rules.logicInstruction op)) := by
    rw [logicalNext, hr.compileBool]
  match left with
  | [] => exact absurd rfl hleft
  | [c] =>
    have hc : c.compile = l.compile := hl
    have hbool : (c.operand origin).compileBool = l.compileBool := by
      rw [Operand.compileBool, Operand.compileBool, Operand.compileAs, Operand.compileAs,
        Branch.operand, hspan c rfl, hc]
    simp [logical, Rules.logic, hbool, hnext]
  | c :: d :: cs =>
    have hbool : l.compileBool =
        (c.operand origin).compileBool >>= fun _ => (d :: cs).forM (logicalNext origin t op) := by
      rw [Operand.compileBool, Operand.compileAs, ← hl]
      simp [logical]
    simp [logical, Rules.logic, hbool, hnext]

/-- An operator between two terms is an instruction. -/
theorem compile_operator (op : Located ArithOp) :
    ((Node.operator (op.map ArithOp.token)).branch origin t).compile = do
      Gen.emit t (.binary (Rules.arithInstruction op.value))
      return .operator := by
  obtain ⟨op, span⟩ := op
  cases op <;> rfl

/-- The operands behind the first one are compiled one after the other. -/
theorem arithmeticFrom_concat {first op b : Branch} {found : ExprType} {rest : List Branch}
    (m n : Node) (heven : rest.length % 2 = 0) :
    arithmeticFrom origin n first found (rest ++ [op, b]) =
      arithmeticFrom origin m first found rest >>= fun _ =>
        arithmeticFrom origin n first found [op, b] := by
  induction rest using List.twoStepInduction with
  | nil => rfl
  | singleton => simp at heven
  | cons_cons o c rest ih =>
    have hrest := ih (by simp only [List.length_cons] at heven; omega)
    by_cases hfound : found = .scalar .int
    · simp only [List.cons_append, arithmeticFrom, hfound, ne_eq, not_true, if_false, bind_assoc]
        at hrest ⊢
      rw [hrest]
      congr 1
      funext type
      split <;> simp
    · simp [List.cons_append, arithmeticFrom, hfound]

/-- Behind an operator the type of the first operand is known. -/
theorem arithmeticFrom_bind {first : Branch} {found : ExprType} {rest : List Branch} {m : Node}
    {f : ExprType → Gen ExprType} (heven : rest.length % 2 = 0) (hrest : rest ≠ []) :
    (arithmeticFrom origin m first found rest >>= fun _ => f found) =
      arithmeticFrom origin m first found rest >>= fun _ => f (.scalar .int) := by
  by_cases hfound : found = .scalar .int
  · rw [hfound]
  · match rest with
    | [] => exact absurd rfl hrest
    | [_] => simp at heven
    | op :: b :: rest => simp [arithmeticFrom, hfound]

/-- An operator and an operand behind integers. -/
theorem arithmeticFrom_pair {first : Branch} {n : Node} (op : Located ArithOp)
    (hr : b.Shows origin r) :
    arithmeticFrom origin n first (.scalar .int)
      [(Node.operator (op.map ArithOp.token)).branch origin t, b] =
        r.compileUnder op.value.token >>= fun _ =>
          Gen.emit t (.binary (Rules.arithInstruction op.value)) := by
  have htoken : (Node.operator (op.map ArithOp.token)).operatorToken origin =
      pure op.value.token := rfl
  simp only [arithmeticFrom, Operand.compileUnder, compile_operator, htoken, hr.compile, hr.span,
    Node.node_branch, ne_eq, not_true, if_false, pure_bind, bind_assoc, bind_pure_unit]
  refine congrArg (bind _) (funext fun type => ?_)
  by_cases htype : type = .scalar .int <;> simp [htype]

/-- A chain of operators on two integers with one operand more. -/
theorem arithmetic_concat (op : Located ArithOp) {m n : Node} {left : List Branch}
    (hodd : left.length % 2 = 1) (hspan : ∀ c, left = [c] → c.node.place origin = l.span)
    (hl : arithmetic origin m left = l.compile) (hr : b.Shows origin r) :
    arithmetic origin n (left ++ [(Node.operator (op.map ArithOp.token)).branch origin t, b]) =
      Rules.arith t l op.value r := by
  match left with
  | [] => simp at hodd
  | [c] =>
    have hc : c.compile = l.compile := hl
    simp only [List.cons_append, List.nil_append, arithmetic, Rules.arith, hc,
      Operand.compileUnder, bind_assoc]
    refine congrArg (bind _) (funext fun found => ?_)
    by_cases hfound : found = .scalar .int
    · subst hfound
      simp [arithmeticFrom_pair op hr, Operand.compileUnder]
    · have htoken : (Node.operator (op.map ArithOp.token)).operatorToken origin =
          pure op.value.token := rfl
      simp [arithmeticFrom, hfound, htoken, hspan c rfl]
  | c :: d :: cs =>
    have heven : (d :: cs).length % 2 = 0 := by
      simp only [List.length_cons] at hodd ⊢
      omega
    have hunder : l.compileUnder op.value.token =
        c.compile >>= fun found => arithmeticFrom origin m c found (d :: cs) := by
      rw [Operand.compileUnder, ← hl]
      simp [arithmetic]
    simp only [List.cons_append, arithmetic, Rules.arith, hunder, bind_assoc]
    refine congrArg (bind _) (funext fun found => ?_)
    rw [← List.cons_append, arithmeticFrom_concat m n heven, bind_assoc,
      arithmeticFrom_bind (f := fun found => arithmeticFrom origin n c found _ >>= fun _ => _)
        heven (List.cons_ne_nil d cs),
      arithmeticFrom_pair op hr, bind_assoc]

/-! ## Operators with a fixed number of operands -/

section

variable {c : Branch} (hl : b.Shows origin l) (hr : c.Shows origin r)
include hl

/-- A node of `not` and an expression is a negation. -/
theorem unaryRelational_pair (op : Branch) :
    unaryRelational origin t n [op, b] = Rules.negate t l := by
  rw [unaryRelational, Rules.negate, Rules.negate, hl.compileBool]

/-- A node of a sign and an expression is the sign in front of it. -/
theorem unary_pair (op : Located LeadOp) :
    unary origin t n [(Node.operator (op.map LeadOp.token)).branch origin t, b] =
      Rules.lead t op.value l := by
  obtain ⟨op, span⟩ := op
  have htoken : (Node.operator (Located.map LeadOp.token ⟨op, span⟩)).operatorToken origin =
      pure op.token := rfl
  simp only [unary, Node.node_branch, htoken, pure_bind, hl.compile, hl.span]
  cases op with
  | length =>
    refine congrArg (bind _) (funext fun found => ?_)
    cases found <;> rfl
  | negative | random =>
    simp only [LeadOp.token, Rules.lead, Operand.compileUnder, bind_assoc]
    refine congrArg (bind _) (funext fun found => ?_)
    by_cases hfound : found = .scalar .int <;> simp [hfound]

include hr

/-- A node of two expressions and an operator between is a comparison. -/
theorem relational_pair (op : Located RelOp) :
    relational origin t n [b, (Node.operator (op.map .relation)).branch origin t, c] =
      Rules.compare t l op.value r := by
  have hcomparable (type : ExprType) :
      comparable (.relation op.value) type = Rules.comparable op.value type := by
    cases type with
    | scalar type => cases type <;> simp [comparable, Rules.comparable]
    | _ => rfl
  have htoken : (Node.operator (op.map Token.relation)).operatorToken origin =
      pure (.relation op.value) := rfl
  simp only [relational, Rules.compare, hl.compile, hr.compile, hl.span, hr.span,
    Node.node_branch, htoken, pure_bind, hcomparable]
  refine congrArg (bind _) (funext fun left => congrArg (bind _) (funext fun right => ?_))
  cases Rules.comparable op.value left <;> simp

end

/-! ## Variables, elements and calls -/

/-- A constant is its literal. -/
theorem constant_literal (v : Located Literal) :
    constant origin t (.leaf .constant (v.map Literal.token)) = Rules.literal t v.value := by
  obtain ⟨v, span⟩ := v
  cases v <;> rfl

/-- A node of a name with an expression behind is an element. -/
theorem loadMutable_elem {name : Name} {cs : List Node} {span : Span} (c : Branch)
    (hn : (Node.inner .mutable (name.node :: cs)).place origin = span) (hb : b.Shows origin o) :
    loadMutable origin t (.inner .mutable (name.node :: cs)) [c, b] =
      Rules.elem t span name o.compileInt := by
  have hname : (Node.inner .mutable (name.node :: cs)).name origin = pure name := rfl
  simp [loadMutable, hname, hn, hb.compileInt]

/-- A node of a name and arguments is a call. -/
theorem call_pair {c : Branch} (hb : b.node.rule ≠ .args) (hc : c.node.rule = .args) :
    call origin t n [b, c] = n.name origin >>= fun name =>
      Rules.callOr t (n.place origin) name (c.children.map (argument origin))
        (Rules.putEach name c.children (putOne origin t)) := by
  simp [call, hb, hc]

/-- What is read into is what the branch shows. -/
theorem Shows.putOne (h : b.Shows origin o) : Branch.putOne origin t b = Rules.putOne t o := by
  have hplace := h.place
  rw [Branch.putOne, Rules.putOne, h.span]
  revert hplace
  generalize b.mutable? = m?
  generalize o.place? = p?
  rintro (⟨-, hname, hindex⟩ | -)
  · simp [hname, hindex]
  · rfl

/-! ## Assignments -/

/-- The array that is copied is the one that the branch shows. -/
theorem Shows.copyArray {v : Symbol} {name : Name} (h : b.Shows origin o) :
    Branch.copyArray origin t v name b = Rules.copyArray t v name o := by
  have hplace := h.place
  rw [Branch.copyArray, Rules.copyArray, h.span]
  revert hplace
  generalize b.mutable? = m?
  generalize o.place? = p?
  rintro (@⟨⟨m, index⟩, ⟨name', index'⟩, -, hname, rfl⟩ | -)
  · cases index with
    | none => simp [hname]
    | some _ => rfl
  · rfl

/-- An argument of an operator is what its branch shows, if there is nothing more to the branch. -/
theorem Shows.argument (h : b.Shows origin o) (hwhole : b.whole = b.compile) :
    b.argument origin = o.bare := by
  rw [Branch.argument, hwhole]
  exact h.operand

/-- The operator of an assignment is read off its token. -/
theorem assignWord_operator {v : Symbol} {index : Option (Gen Unit)} (op : Located AssignOp)
    (hvalue : b.argument origin = o.bare) :
    assignWord origin t v index (.operator (op.map .assign)) (.assign op.value) b =
      Rules.assignWord t v index op o := by
  have hspan : (Node.operator (op.map Token.assign)).place origin = op.span := rfl
  have hcompound : Rules.compound t v index op.value o.bare =
      Rules.compound t v index op.value o := by
    cases op.value <;> rfl
  simp only [assignWord, Rules.assignWord, hspan, hvalue, hcompound, ne_eq, Token.assign.injEq]

/-- A node of a target, an operator and a value is an assignment. -/
theorem assignment_pair {c : Branch} (op : Located AssignOp) (hl : b.Shows origin l)
    (hr : c.Shows origin r) (hwhole : c.whole = c.compile) :
    assignment origin t b (.operator (op.map .assign)) c = Rules.assign t l op r := by
  have hplace := hl.place
  have hcopy (v : Symbol) (name : Name) :
      copyArray origin t v name c = Rules.copyArray t v name r := hr.copyArray
  have hword (v : Symbol) (index : Option (Gen Unit)) :
      assignWord origin t v index (.operator (op.map .assign)) (.assign op.value) c =
        Rules.assignWord t v index op r := assignWord_operator op (hr.argument hwhole)
  have htoken : (Node.operator (op.map Token.assign)).operatorToken origin =
      pure (.assign op.value) := rfl
  have hspan : (Node.operator (op.map Token.assign)).place origin = op.span := rfl
  rw [assignment, Rules.assign, hl.span]
  revert hplace
  generalize b.mutable? = m?
  generalize l.place? = p?
  rintro (@⟨⟨m, index⟩, ⟨name, index'⟩, hspan', hname, rfl⟩ | -)
  · have hname : m.name origin = pure name := hname
    dsimp only at hspan' ⊢
    rw [hname, pure_bind]
    refine congrArg (bind _) (funext fun v => ?_)
    cases index <;> cases v.isArray <;> simp [htoken, hspan, hspan', hcopy, hword]
  · rfl

/-- A node of a target and a step is an increment. -/
theorem step_operator (op : Located StepOp) (h : b.Shows origin o) :
    step origin t b (.operator (op.map .step)) = Rules.step t o op.value := by
  have hplace := h.place
  obtain ⟨op, span⟩ := op
  have htoken : (Node.operator (Located.map Token.step ⟨op, span⟩)).operatorToken origin =
      pure (.step op) := rfl
  unfold step Rules.step
  rw [h.span]
  revert hplace
  generalize b.mutable? = m?
  generalize o.place? = p?
  rintro (@⟨⟨m, index⟩, ⟨name, index'⟩, hspan', hname, rfl⟩ | -)
  · simp only [hname, htoken, hspan', pure_bind]
    refine congrArg (bind _) (funext fun v => ?_)
    cases op <;> cases index <;> cases v.isArray <;> rfl
  · rfl

end Branch

/-! ## The nodes of expressions -/

namespace Expr

/-- An operand stands where its expression does. -/
theorem span_operand (e : Expr) : (e.operand t).span = e.span := by
  cases e <;> rfl

/-- Operands of expressions are those of each expression. -/
theorem operands_eq (es : List Expr) : operands t es = es.map (operand t) := by
  induction es with
  | nil => rfl
  | cons e es ih => rw [operands, ih, List.map_cons]

/-- A node at the loosest level is that of an expression that may be an assignment. -/
theorem node_eq_inner (e : Expr) : ∃ cs, e.node = .inner .expression cs := by
  rw [node]
  cases h : e.level with
  | assignment =>
    rw [core_eq, h]
    exact ⟨_, rfl⟩
  | _ => exact ⟨_, rfl⟩

/-- What an argument or a value is compiled to does not depend on how it is looked at. -/
theorem whole_branch_node (e : Expr) :
    (e.node.branch origin t).whole = (e.node.branch origin t).compile := by
  obtain ⟨cs, hcs⟩ := e.node_eq_inner
  rw [hcs, Node.branch_inner]
  rfl

/-- An operator makes one operand of the two before and behind it, so the number of them is odd. -/
theorem odd_length_chain (op : ArithOp) (e : Expr) :
    (e.chain (.ofArith op) e.core).length % 2 = 1 := by
  induction e using Expr.induct generalizing op with
  | arith l op' r hl hr =>
    unfold chain
    split
    · simp only [core, Node.children, List.length_append, List.length_cons, List.length_nil]
      have := hl op'.value
      omega
    · rfl
  | logic op' l r =>
    rw [chain, if_neg (by cases op' <;> cases op <;> exact Level.noConfusion)]
    rfl
  | _ =>
    rw [chain, if_neg (by cases op <;> exact Level.noConfusion)]
    rfl

variable {e : Expr}

/-- An expression is shown at every level at which it may stand. -/
theorem shows_at (level : Level) (h : (e.core.branch origin t).Shows origin (e.operand t)) :
    ((e.nodeAt level).branch origin t).Shows origin (e.operand t) :=
  Branch.shows_wrap level e.level h

/-- A chain of a level is the expression that it is. -/
theorem shows_chain (level : Level) (h : (e.core.branch origin t).Shows origin (e.operand t)) :
    ((Node.inner level.rule (e.chain level e.core)).branch origin t).Shows origin
    (e.operand t) := by
  unfold chain
  split
  · rename_i hlevel
    rwa [← hlevel, ← core_eq]
  · exact Branch.shows_only level (shows_at level.tighter h)

/-- The node of an expression stands where its operand does. -/
theorem place_core (e : Expr) :
    (e.core.branch origin t).node.place origin = (e.operand t).span := by
  rw [Node.node_branch, place_of_leaves origin rfl, span_operand]

/-- A node with several children shows what an expression is if its code is that of the expression:
it is no place, and neither is the expression. -/
theorem shows_of_length {rule : Rule} {cs : List Node} (hcore : e.core = .inner rule cs)
    (hcompile : Branch.compileAt origin t (.inner rule cs) (cs.map (Node.branch origin t)) =
      (e.operand t).compile)
    (hplace : (e.operand t).place? = none) (hrule : rule ≠ .mutable) (hcs : cs.length ≠ 1) :
    (e.core.branch origin t).Shows origin (e.operand t) := by
  have hmutable : (e.core.branch origin t).mutable? = none := by
    rw [hcore, Node.branch_inner]
    exact Branch.mutableAt_of_length hrule (by rwa [List.length_map])
  refine ⟨e.place_core, ?_, ?_⟩
  · rw [hcore, Node.branch_inner]
    exact hcompile
  · rw [hmutable, hplace]
    exact .none

/-- A chain of one operand stands where that operand does. -/
theorem place_chain (level : Level) {c : Branch}
    (hc : (e.chain level e.core).map (Node.branch origin t) = [c]) :
    c.node.place origin = (e.operand t).span := by
  obtain ⟨n, hn, rfl⟩ := List.map_eq_singleton_iff.mp hc
  have hleaves : (Node.inner level.rule [n]).leaves = e.core.leaves := by
    rw [← hn, Node.leaves_inner, leaves_chain]
  rw [Node.node_branch, ← Node.place_only level.rule, place_of_leaves origin hleaves, span_operand]

/-- The code for a call is made of its arguments, and of the places among them if it is for
input. -/
theorem call_node {n : Name} {es : List Expr} {span : Span}
    (hplace : (Node.ofCall n (es.map node)).place origin = span)
    (h : ∀ e ∈ es, (e.core.branch origin t).Shows origin (e.operand t)) :
    ((Node.ofCall n (es.map node)).branch origin t).compile =
      Rules.call t span n (es.map (operand t)) := by
  have hshows (e) (he : e ∈ es) : (e.node.branch origin t).Shows origin (e.operand t) :=
    shows_at .assignment (h e he)
  have hname : (Node.ofCall n (es.map node)).name origin = pure n := rfl
  have hargs : (es.map fun e => (e.node.branch origin t).argument origin) =
      (es.map (operand t)).map Operand.bare := by
    rw [List.map_map]
    exact List.map_congr_left fun e he => (hshows e he).argument e.whole_branch_node
  have hput : Rules.putEach n (es.map fun e => e.node.branch origin t) (Branch.putOne origin t) =
      Rules.putEach n (es.map (operand t)) (Rules.putOne t) := by
    rw [Rules.putEach_map fun e he => (hshows e he).putOne, Rules.putEach_map fun e _ => rfl]
  have hcall : ((Node.ofCall n (es.map node)).branch origin t).compile =
      Branch.call origin t (.ofCall n (es.map node))
        [n.node.branch origin t, (Node.inner .args (es.map node)).branch origin t] := rfl
  have hchildren : ((Node.inner .args (es.map node)).branch origin t).children =
      es.map fun e => e.node.branch origin t := by
    rw [Node.children_branch, Node.children, List.map_map]
    rfl
  rw [hcall, Branch.call_pair Rule.noConfusion rfl, hname, pure_bind, hplace, hchildren,
    List.map_map, hput]
  exact hargs ▸ Rules.callOr_bare t span n _ _

/-- The node of an expression shows what the expression is. -/
theorem shows_core (e : Expr) : (e.core.branch origin t).Shows origin (e.operand t) := by
  induction e using Expr.induct with
  | literal v => exact ⟨place_core _, Branch.constant_literal v, .none⟩
  -- Of the nodes of expressions only two are places.
  | var n =>
    have hplace : (Node.ofVar n).place origin = (Expr.var n).span := place_of_leaves origin rfl
    exact ⟨place_core _, rfl, .some ⟨hplace, rfl, rfl⟩⟩
  | elem n i ih =>
    have hi := shows_at .assignment ih
    have hplace : (Node.inner .mutable [n.node, i.node]).place origin = (Expr.elem n i).span :=
      place_of_leaves origin (by simp [core, node])
    exact ⟨place_core _, Branch.loadMutable_elem (n.node.branch origin t) hplace hi,
      .some ⟨hplace, rfl, congrArg some hi.compileInt⟩⟩
  | paren e ih => exact ⟨place_core _, (shows_at .assignment ih).compile, .none⟩
  -- A call looks at its children without caring for how many there are.
  | call n args ih =>
    have hplace : (Node.ofCall n (args.map node)).place origin = (Expr.call n args).span := by
      rw [← coreOf_eq]
      exact place_of_leaves origin (by simp [core, Node.ofCall])
    refine ⟨place_core _, ?_, ?_⟩
    · rw [core, coreOf_eq, operand, operands_eq]
      exact call_node hplace ih
    · rw [core, coreOf_eq]
      exact .none
  -- The others are told by the number of their children.
  | lead op e ih =>
    refine shows_of_length rfl ?_ rfl Rule.noConfusion (by simp)
    exact Branch.unary_pair (n := (Expr.lead op e).core) (shows_at .leading ih) op
  | arith l op r hl hr =>
    have hl := shows_chain (.ofArith op.value) hl
    have hr := shows_at (Level.ofArith op.value).tighter hr
    have hrule : (Level.ofArith op.value).rule ≠ .mutable := by
      cases op.value <;> exact Rule.noConfusion
    -- The rules of all arithmetic levels do the same.
    have harith (cs : List Node) :
        Branch.compileAt origin t (.inner (Level.ofArith op.value).rule cs) =
          Branch.arithmetic origin (.inner (Level.ofArith op.value).rule cs) := by
      cases op.value <;> rfl
    -- In a chain every second node is an operator, so its length is odd.
    have hodd := odd_length_chain op.value l
    have hleft := hl.compile
    refine shows_of_length rfl ?_ rfl hrule (by simp)
    rw [Node.branch_inner] at hleft
    simp only [Branch.of, harith] at hleft
    rw [List.map_append, harith]
    exact Branch.arithmetic_concat op (by rwa [List.length_map]) (fun c hc => place_chain _ hc)
      hleft hr
  | compare l op r hl hr =>
    refine shows_of_length rfl ?_ rfl Rule.noConfusion (by simp)
    exact Branch.relational_pair (n := (Expr.compare l op r).core) (shows_at .choosing hl)
      (shows_at .choosing hr) op
  | negate word e ih =>
    refine shows_of_length rfl ?_ rfl Rule.noConfusion (by simp)
    exact Branch.unaryRelational_pair (n := (Expr.negate word e).core) (shows_at .negation ih)
      ((Node.operator ⟨.keyword .not, word⟩).branch origin t)
  | logic op l r hl hr =>
    have hl := shows_chain (.ofLogic op) hl
    have hr := shows_at (Level.ofLogic op).tighter hr
    have hrule : (Level.ofLogic op).rule ≠ .mutable := by
      cases op <;> exact Rule.noConfusion
    have hlogic (cs : List Node) : Branch.compileAt origin t (.inner (Level.ofLogic op).rule cs) =
        Branch.logical origin t op (.inner (Level.ofLogic op).rule cs) := by
      cases op <;> rfl
    have hnil := l.chain_ne_nil (.ofLogic op)
    have hleft := hl.compile
    refine shows_of_length rfl ?_ rfl hrule (by simp [hnil])
    rw [Node.branch_inner] at hleft
    simp only [Branch.of, hlogic] at hleft
    rw [List.map_append, hlogic]
    exact Branch.logical_concat op (by simp [hnil]) (fun c hc => place_chain _ hc) hleft hr
  | step p op ih =>
    refine shows_of_length rfl ?_ rfl Rule.noConfusion (by simp)
    exact Branch.step_operator op (shows_at .disjunction ih)
  | assign p op v hp hv =>
    refine shows_of_length rfl ?_ rfl Rule.noConfusion (by simp)
    exact Branch.assignment_pair op (shows_at .disjunction hp) (shows_at .assignment hv)
      v.whole_branch_node

end Expr

end OnePass
