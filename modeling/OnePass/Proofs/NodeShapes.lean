import OnePass.Proofs.NodeCode

/-!
# The shapes of nodes

What the code for a construct is generated from has the shape that is needed. Main statement: if
what initialises a variable is no assignment, and a counting loop that ends has a bound, the code
generated from the nodes of a construct is that for the construct (`Construct.handle_eq`).

In a declaration, a parameter and a function children are found by their rules, and in the range of
a counting loop by their place; so there is one lemma for each kind of node and what is looked for
in it. -/

namespace OnePass

variable {origin : Span}

namespace Expr

/-- The node of an expression that is no assignment is labelled as such. -/
theorem simpleNode_rule {e : Expr} (h : e.level ≠ .assignment) :
    e.simpleNode.rule = .simpleExpression := by
  rw [simpleNode]
  cases hlevel : e.level with
  | assignment => exact absurd hlevel h
  | disjunction => rw [core_eq, hlevel]; rfl
  | _ => rfl

theorem shows_simpleNode {t : Target} (e : Expr) :
    (e.simpleNode.branch origin t).Shows origin (e.operand t) :=
  shows_at .disjunction e.shows_core

theorem shows_node {t : Target} (e : Expr) :
    (e.node.branch origin t).Shows origin (e.operand t) :=
  shows_at .assignment e.shows_core

/-- A node where no assignment may stand is compiled as the expression is. -/
theorem compileAs_simpleNode {t : Target} (e : Expr) (type : ExprType) :
    (e.simpleNode.operand origin t).compileAs type = e.compileAs t type :=
  e.shows_simpleNode.compileAs type

/-- A node where an assignment may stand is compiled as the expression is. -/
theorem argument_node {t : Target} (e : Expr) :
    e.node.argument origin t = (e.operand t).bare :=
  e.shows_node.argument e.whole_branch_node

end Expr

/-- What initialises a variable is no assignment. -/
def Declarator.Plain (d : Declarator) : Prop := ∀ e ∈ d.init, e.level ≠ .assignment

/-- What initialises the variables of a declaration is no assignment. -/
def Declaration.Plain (d : Declaration) : Prop := ∀ item ∈ d.items, item.Plain

namespace Node

/-! ## Children by their rules -/

section

variable (r rule : Rule) (c : Node) (cs : List Node)

theorem find?_nil : (inner r []).find? rule = none := rfl

theorem find?_cons :
    (inner r (c :: cs)).find? rule = if c.rule = rule then some c else (inner r cs).find? rule := by
  simp only [find?, children, List.find?_cons]
  split <;> simp_all

theorem rule_typeSpec (t : Located WordType) : (WordType.node t).rule = .typeSpec := rfl

theorem rule_id (n : Name) : n.node.rule = .id := rfl

theorem rule_inner : (inner r cs).rule = r := rfl

end

/-! ## Declarations -/

theorem declaredType_node (type : Located WordType) :
    (WordType.node type).declaredType = type.value := by
  obtain ⟨type, span⟩ := type
  cases type <;> rfl

/-- The node of a name and a length. -/
theorem shape_node (d : Declarator) :
    (inner .varDeclId
      (d.name.node :: d.length.toList.map fun n => .leaf .constant (n.map .int))).shape origin =
        d.shape := by
  obtain ⟨name, length, init⟩ := d
  cases length with
  | none => rfl
  | some n => rfl

/-- A variable is declared from its node as it is from what its node comes of. -/
theorem declare_node {d : Declarator} (h : d.Plain) (type : WordType) (static : Bool) :
    d.node.declare origin type static = d.compile type static := by
  have hhead : d.node.find origin .varDeclId = pure (inner .varDeclId
      (d.name.node :: d.length.toList.map fun n => .leaf .constant (n.map .int))) := rfl
  have hinit : d.node.find? .simpleExpression = d.init.map Expr.simpleNode := by
    cases hd : d.init with
    | none => simp [Declarator.node, hd, find?_cons, find?_nil, rule_inner]
    | some e => simp [Declarator.node, hd, find?_cons, rule_inner, Expr.simpleNode_rule (h e hd)]
  simp only [declare, Declarator.compile, hhead, pure_bind, name_cons, shape_node, hinit]
  cases d.init with
  | none => rfl
  | some e => simp only [Option.map_some, Expr.compileAs_simpleNode, Gen.initialise]

/-- The variables of a declaration are declared in order. -/
theorem declareItems_node {items : List Declarator} (h : ∀ item ∈ items, item.Plain)
    (type : WordType) (static : Bool) :
    (items.map Declarator.node).forM (declare origin type static) =
      items.forM (Declarator.compile type static) := by
  induction items with
  | nil => rfl
  | cons d items ih =>
    rw [List.map_cons, List.forM, List.forM, declare_node (h d (.head _)),
      ih fun item hitem => h item (.tail _ hitem)]

/-- The word `static` stands before all else in a declaration in a block. -/
theorem find?_localNode (d : Declaration) {rule : Rule} (h : rule ≠ .static) :
    d.localNode.find? rule = (inner .scopedVarDecl d.parts).find? rule := by
  rw [Declaration.localNode]
  cases d.static with
  | none => rfl
  | some s => exact (find?_cons _ _ _ _).trans (if_neg h.symm)

section

variable {d : Declaration} (h : d.Plain)
include h

theorem declareAll_globalNode (hstatic : d.static = none) :
    d.globalNode.declareAll origin false = d.compile := by
  have htype : d.globalNode.find origin .typeSpec = pure (WordType.node d.type) := rfl
  have hlist : d.globalNode.find origin .varDeclList =
      pure (inner .varDeclList (d.items.map Declarator.node)) := rfl
  simp only [declareAll, htype, hlist, pure_bind, declaredType_node, children]
  rw [declareItems_node h, Declaration.compile, hstatic]
  rfl

theorem declareAll_localNode :
    d.localNode.declareAll origin (d.localNode.find? .static).isSome = d.compile := by
  have hstatic : (d.localNode.find? .static).isSome = d.static.isSome := by
    rw [Declaration.localNode]
    cases d.static <;> rfl
  have htype : d.localNode.find origin .typeSpec = pure (WordType.node d.type) := by
    rw [find, find?_localNode d Rule.noConfusion]
    rfl
  have hlist : d.localNode.find origin .varDeclList =
      pure (inner .varDeclList (d.items.map Declarator.node)) := by
    rw [find, find?_localNode d Rule.noConfusion]
    rfl
  simp only [declareAll, htype, hlist, hstatic, pure_bind, declaredType_node, children]
  rw [declareItems_node h, Declaration.compile]

end

/-! ## Parameters and functions -/

theorem parameterGroup_node (g : ParameterGroup) : g.node.parameterGroup = g.slots := by
  have htype : g.node.find? .typeSpec = some (WordType.node g.type) := rfl
  have hlist : g.node.find? .parmIdList =
      some (inner .parmIdList (g.items.map Parameter.node)) := rfl
  simp only [parameterGroup, htype, hlist, Option.map_some, Option.getD_some, declaredType_node,
    children, ParameterGroup.slots, List.filterMap_map]
  rw [← List.filterMap_eq_map]
  refine List.filterMap_congr fun p _ => ?_
  obtain ⟨name, brackets⟩ := p
  cases brackets <;> rfl

theorem parameters_header (rule : Rule) (h : Header) :
    (inner rule h.parts).parameters = h.parameters := by
  have hparms : (inner rule h.parts).find? .parms =
      some (inner .parms (h.params.map ParameterGroup.node)) := by
    cases hh : h.returns <;> simp [Header.parts, hh, find?_cons, rule_typeSpec, rule_id, rule_inner]
  simp only [parameters, hparms, Option.map_some, Option.getD_some, children, List.flatMap_map,
    parameterGroup_node, Header.parameters]

theorem functionType_header (rule : Rule) (h : Header) :
    (inner rule h.parts).functionType = h.returnType := by
  have htype : (inner rule h.parts).find? .typeSpec = h.returns.map WordType.node := by
    cases hh : h.returns <;>
      simp [Header.parts, hh, find?_cons, find?_nil, rule_typeSpec, rule_id, rule_inner]
  rw [functionType, htype, Option.map_map, Header.returnType]
  exact congrArg (Option.map · h.returns) (funext declaredType_node)

/-! ## Counting loops -/

theorem beginFor_range (counter : Name) (r : Range) :
    r.node.beginFor origin counter = Gen.openCount counter r := by
  have hstart (e : Expr) : (e.simpleNode.operand origin .function).compileInt =
      e.compileAs .function (.scalar .int) := e.compileAs_simpleNode _
  obtain ⟨start, bound⟩ := r
  cases bound with
  | none =>
    have hplace : (Range.node ⟨start, none⟩).place origin = start.span := by
      rw [Range.node, place_only]
      exact Expr.place_of_leaves origin start.leaves_simpleNode
    have hpart : (Range.node ⟨start, none⟩).part origin 0 = pure start.simpleNode := rfl
    have hbound : (Range.node ⟨start, none⟩).children[1]? = none := rfl
    simp [beginFor, Gen.openCount, hpart, hbound, hplace]
  | some bound =>
    have hpart : (Range.node ⟨start, some bound⟩).part origin 0 = pure start.simpleNode := rfl
    have hbound : (Range.node ⟨start, some bound⟩).children[1]? = some bound.1.simpleNode := rfl
    simp [beginFor, Gen.openCount, hpart, hbound, hstart]

theorem step_range (r : Range) : r.node.step origin = Gen.stepOf r := by
  obtain ⟨start, _ | ⟨last, _ | step⟩⟩ := r
  · rfl
  · rfl
  · exact step.compileAs_simpleNode _

theorem bound_range {r : Range} (h : r.bound.isSome) : r.node.bound origin = Gen.boundOf r := by
  obtain ⟨start, bound⟩ := r
  obtain ⟨⟨last, step⟩, rfl⟩ := Option.isSome_iff_exists.mp h
  have hpart : (Range.node ⟨start, some (last, step)⟩).part origin 1 = pure last.simpleNode := rfl
  rw [Node.bound, hpart, pure_bind]
  exact last.compileAs_simpleNode _

end Node

/-- A return assigns nothing to its value. -/
theorem Gen.returnStatement_bare (word : Span) (o : Operand) :
    returnStatement word (some o.bare) = returnStatement word (some o) := by
  refine congrArg (bind _) (funext fun g => ?_)
  cases g.current with
  | none => rfl
  | some f => cases hreturns : f.returns <;> simp only [hreturns] <;> rfl

/-- What a construct has to be for its nodes to be as they are needed. -/
def Construct.Formed : Construct → Prop
  | .globals d => d.static = none ∧ d.Plain
  | .locals d => d.Plain
  | .closeCount r => r.bound.isSome
  | _ => True

/-- The code for a construct that is as it has to be is generated from its nodes. -/
theorem Construct.handle_eq {c : Construct} (h : c.Formed) : c.handle origin = c.compile := by
  cases c with
  | globals d => exact Node.declareAll_globalNode h.2 h.1
  | locals d => exact Node.declareAll_localNode h
  | parameters g => rw [handle, compile, Node.parameterGroup_node, ParameterGroup.compile]
  | header h =>
    rw [handle, compile, Node.parameters_header, Node.functionType_header, Gen.beginFunction,
      Header.parameterTypes]
  | expr e =>
    rw [handle, compile, Expr.argument_node]
    rfl
  | ifTrue c => exact congrArg Gen.beginIf (c.compileAs_simpleNode _)
  | closeLoop c => exact congrArg Gen.endWhile (c.compileAs_simpleNode _)
  | openCount counter r => exact Node.beginFor_range counter r
  | closeCount r =>
    rw [handle, compile, Node.step_range, Node.bound_range h, Gen.closeCount]
  | ret word value =>
    cases value with
    | none => rfl
    | some e =>
      rw [handle, compile, Option.map_some, Expr.argument_node, Gen.returnStatement_bare, Gen.ret,
        Option.map_some]
  | _ => rfl

end OnePass
