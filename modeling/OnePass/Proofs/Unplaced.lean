import OnePass.Tree.Construct
import OnePass.Tree.View

/-!
# Trees without places

Where something is written has no say in what it means. To say so, every place is replaced by the
same one, on everything that carries places: tokens, expressions, declarations, statements, whole
programs, their constructs and their labelled trees. Two trees differ in places alone if they are
the same tree without places.

Main statement: the labelled tree of a program without places is that of the program, without its
places (`Program.node_unplaced`).
-/

namespace OnePass

/-- The place that stands in for every place. -/
def Span.anywhere : Span := .single .origin

/-- A region between two such places is such a place again. -/
@[simp] theorem Span.anywhere_upTo : anywhere.upTo anywhere = anywhere := rfl

/-- A value somewhere. -/
def Located.unplaced {α : Type} (x : Located α) : Located α := ⟨x.value, .anywhere⟩

namespace Located

variable {α β : Type}

@[simp] theorem value_unplaced (x : Located α) : x.unplaced.value = x.value := rfl

@[simp] theorem span_unplaced (x : Located α) : x.unplaced.span = .anywhere := rfl

/-- What is done to a value does not bring its place back. -/
theorem map_unplaced (f : α → β) (x : Located α) : x.unplaced.map f = (x.map f).unplaced := rfl

/-- The same values in the same order are the same list without places. -/
theorem map_unplaced_eq {xs ys : List (Located α)} (h : xs.map value = ys.map value) :
    xs.map unplaced = ys.map unplaced := by
  have hmap (zs : List (Located α)) :
      zs.map unplaced = (zs.map value).map fun a => ⟨a, .anywhere⟩ := by
    rw [List.map_map]
    rfl
  rw [hmap, hmap, h]

end Located

/-! ## Expressions -/

namespace Expr

mutual

/-- An expression without its places. -/
def unplaced : Expr → Expr
  | .literal v => .literal v.unplaced
  | .var n => .var n.unplaced
  | .elem n i => .elem n.unplaced i.unplaced
  | .paren e => .paren e.unplaced
  | .call n args => .call n.unplaced (unplacedAll args)
  | .lead op e => .lead op.unplaced e.unplaced
  | .arith l op r => .arith l.unplaced op.unplaced r.unplaced
  | .compare l op r => .compare l.unplaced op.unplaced r.unplaced
  | .negate _ e => .negate .anywhere e.unplaced
  | .logic op l r => .logic op l.unplaced r.unplaced
  | .step p op => .step p.unplaced op.unplaced
  | .assign p op v => .assign p.unplaced op.unplaced v.unplaced

/-- Expressions without their places. -/
def unplacedAll : List Expr → List Expr
  | [] => []
  | e :: es => e.unplaced :: unplacedAll es

end

theorem unplacedAll_eq_map (es : List Expr) : unplacedAll es = es.map unplaced := by
  induction es with
  | nil => rfl
  | cons e es ih => rw [unplacedAll, ih, List.map_cons]

@[simp] theorem level_unplaced (e : Expr) : e.unplaced.level = e.level := by
  cases e <;> rfl

/-! An expression without places begins and ends where everything is. -/

/-- An expression without places begins at no place. -/
@[simp] theorem first_unplaced : ∀ e : Expr, e.unplaced.first = .anywhere
  | .literal _ | .var _ | .elem _ _ | .call _ _ | .lead _ _ | .negate _ _ => rfl
  | .paren e => first_unplaced e
  | .arith l _ _ | .compare l _ _ | .logic _ l _ => first_unplaced l
  | .step p _ | .assign p _ _ => first_unplaced p

mutual

/-- An expression without places ends at no place. -/
@[simp] theorem last_unplaced : ∀ e : Expr, e.unplaced.last = .anywhere
  | .literal _ | .var _ | .step _ _ => rfl
  | .elem _ i => last_unplaced i
  | .call _ args => lastOf_unplacedAll args
  | .paren e | .lead _ e | .negate _ e => last_unplaced e
  | .arith _ _ r | .compare _ _ r | .logic _ _ r => last_unplaced r
  | .assign _ _ v => last_unplaced v

@[simp] theorem lastOf_unplacedAll :
    ∀ es : List Expr, lastOf .anywhere (unplacedAll es) = .anywhere
  | [] => rfl
  | e :: es => by
    rw [unplacedAll, lastOf, last_unplaced e]
    exact lastOf_unplacedAll es

end

@[simp] theorem span_unplaced (e : Expr) : e.unplaced.span = .anywhere := by
  rw [span, first_unplaced, last_unplaced, Span.anywhere_upTo]

end Expr

/-! ## Declarations -/

/-- A declared variable without its places. -/
def Declarator.unplaced (d : Declarator) : Declarator :=
  ⟨d.name.unplaced, d.length.map Located.unplaced, d.init.map Expr.unplaced⟩

/-- A declaration without its places. -/
def Declaration.unplaced (d : Declaration) : Declaration :=
  ⟨d.static.map fun _ => .anywhere, d.type.unplaced, d.items.map Declarator.unplaced⟩

/-- A parameter without its places. -/
def Parameter.unplaced (p : Parameter) : Parameter :=
  ⟨p.name.unplaced, p.brackets.map fun _ => .anywhere⟩

/-- Parameters of one type without their places. -/
def ParameterGroup.unplaced (g : ParameterGroup) : ParameterGroup :=
  ⟨g.type.unplaced, g.items.map Parameter.unplaced⟩

/-- The head of a function without its places. -/
def Header.unplaced (h : Header) : Header :=
  ⟨h.returns.map Located.unplaced, h.name.unplaced, h.params.map ParameterGroup.unplaced⟩

/-! ## Statements and programs -/

/-- A range without its places. -/
def Range.unplaced (r : Range) : Range :=
  ⟨r.start.unplaced, r.bound.map fun b => (b.1.unplaced, b.2.map Expr.unplaced)⟩

namespace Stmt

mutual

/-- A statement without its places. -/
def unplaced : Stmt → Stmt
  | .block locals body => .block (locals.map Declaration.unplaced) (unplacedAll body)
  | .expr e => .expr e.unplaced
  | .empty _ => .empty .anywhere
  | .choice c body none => .choice c.unplaced body.unplaced none
  | .choice c body (some otherwise) =>
    .choice c.unplaced body.unplaced (some otherwise.unplaced)
  | .loop c body => .loop c.unplaced body.unplaced
  | .count counter range body => .count counter.unplaced range.unplaced body.unplaced
  | .ret _ value => .ret .anywhere (value.map Expr.unplaced)
  | .leave _ => .leave .anywhere

/-- Statements without their places. -/
def unplacedAll : List Stmt → List Stmt
  | [] => []
  | s :: ss => s.unplaced :: unplacedAll ss

end

theorem unplacedAll_eq_map (ss : List Stmt) : unplacedAll ss = ss.map unplaced := by
  induction ss with
  | nil => rfl
  | cons s ss ih => rw [unplacedAll, ih, List.map_cons]

end Stmt

/-- A declaration outside all functions without its places. -/
def TopLevel.unplaced : TopLevel → TopLevel
  | .variables d => .variables d.unplaced
  | .function h body => .function h.unplaced body.unplaced

/-- A program without its places. -/
def Program.unplaced (p : Program) : Program := ⟨p.items.map TopLevel.unplaced⟩

/-- A construct without its places. -/
def Construct.unplaced : Construct → Construct
  | .globals d => .globals d.unplaced
  | .openFunction => .openFunction
  | .parameters g => .parameters g.unplaced
  | .header h => .header h.unplaced
  | .closeFunction => .closeFunction
  | .openBlock => .openBlock
  | .locals d => .locals d.unplaced
  | .closeBlock => .closeBlock
  | .expr e => .expr e.unplaced
  | .ifTrue c => .ifTrue c.unplaced
  | .ifFalse => .ifFalse
  | .endIf => .endIf
  | .openLoop => .openLoop
  | .closeLoop c => .closeLoop c.unplaced
  | .openCount counter range => .openCount counter.unplaced range.unplaced
  | .closeCount range => .closeCount range.unplaced
  | .ret _ value => .ret .anywhere (value.map Expr.unplaced)
  | .leave _ => .leave .anywhere

/-! ## Labelled trees -/

namespace Node

mutual

/-- A labelled tree without its places. -/
def unplaced : Node → Node
  | .leaf r t => .leaf r t.unplaced
  | .inner r cs => .inner r (unplacedAll cs)

/-- Labelled trees without their places. -/
def unplacedAll : List Node → List Node
  | [] => []
  | n :: ns => n.unplaced :: unplacedAll ns

end

@[simp] theorem unplacedAll_eq_map (ns : List Node) : unplacedAll ns = ns.map unplaced := by
  induction ns with
  | nil => rfl
  | cons n ns ih => rw [unplacedAll, ih, List.map_cons]

@[simp] theorem unplaced_inner (r : Rule) (cs : List Node) :
    (Node.inner r cs).unplaced = .inner r (cs.map unplaced) := by
  rw [unplaced, unplacedAll_eq_map]

@[simp] theorem unplaced_leaf (r : Rule) (t : Located Token) :
    (Node.leaf r t).unplaced = .leaf r t.unplaced := rfl

theorem children_unplaced (n : Node) : n.unplaced.children = n.children.map unplaced := by
  cases n with
  | leaf r t => rfl
  | inner r cs => rw [unplaced_inner, children, children]

theorem unplaced_operator (t : Located Token) :
    (operator t).unplaced = operator t.unplaced := rfl

end Node

/-- Levels are wrapped around a node without a look at places. -/
theorem Level.unplaced_wrap (outer inner : Level) (n : Node) :
    (outer.wrap inner n).unplaced = outer.wrap inner n.unplaced := by
  unfold wrap
  induction (all.drop outer.rank).take (inner.rank - outer.rank) with
  | nil => rfl
  | cons l ls ih =>
    rw [List.foldr_cons, List.foldr_cons, Node.unplaced_inner, List.map_singleton, ih]

theorem Name.node_unplaced (n : Name) : Name.node n.unplaced = (Name.node n).unplaced := rfl

namespace Expr

/-- A chain goes on without a look at places. -/
theorem unplaced_chain (l : Level) (e : Expr) (n : Node) :
    (e.chain l n).map Node.unplaced = e.unplaced.chain l n.unplaced := by
  rw [chain, chain, level_unplaced]
  split
  · exact (Node.children_unplaced n).symm
  · rw [List.map_singleton, Level.unplaced_wrap]

mutual

/-- The node of an expression without places is the node without places, at its own level. -/
theorem core_unplaced : ∀ e : Expr, e.unplaced.core = e.core.unplaced
  | .literal v => by simp [unplaced, core, Located.map_unplaced]
  | .var n => by simp [unplaced, core, Name.node_unplaced]
  | .elem n i => by
    simp [unplaced, core, Name.node_unplaced, Level.unplaced_wrap, core_unplaced i]
  | .paren e => by simp [unplaced, core, Level.unplaced_wrap, core_unplaced e]
  | .call n args => by simp [unplaced, core, Name.node_unplaced, coreOf_unplacedAll args]
  | .lead op e => by
    simp [unplaced, core, Level.unplaced_wrap, core_unplaced e, Node.unplaced_operator,
      Located.map_unplaced]
  | .arith l op r => by
    simp [unplaced, core, Level.unplaced_wrap, unplaced_chain, core_unplaced l, core_unplaced r,
      Node.unplaced_operator, Located.map_unplaced]
  | .compare l op r => by
    simp [unplaced, core, Level.unplaced_wrap, core_unplaced l, core_unplaced r,
      Node.unplaced_operator, Located.map_unplaced]
  | .negate word e => by
    simp [unplaced, core, Level.unplaced_wrap, core_unplaced e, Node.unplaced_operator,
      Located.unplaced]
  | .logic op l r => by
    simp [unplaced, core, Level.unplaced_wrap, unplaced_chain, core_unplaced l, core_unplaced r]
  | .step p op => by
    simp [unplaced, core, Level.unplaced_wrap, core_unplaced p, Node.unplaced_operator,
      Located.map_unplaced]
  | .assign p op v => by
    simp [unplaced, core, Level.unplaced_wrap, core_unplaced p, core_unplaced v,
      Node.unplaced_operator, Located.map_unplaced]

/-- The same is true of the nodes of arguments. -/
theorem coreOf_unplacedAll : ∀ es : List Expr, coreOf (unplacedAll es) = (coreOf es).map .unplaced
  | [] => rfl
  | e :: es => by
    rw [unplacedAll, coreOf, coreOf, core_unplaced e, coreOf_unplacedAll es, level_unplaced,
      List.map_cons, Level.unplaced_wrap]

end

/-- The same is true at the level of whole expressions. -/
theorem node_unplaced (e : Expr) : e.unplaced.node = e.node.unplaced := by
  rw [node, node, level_unplaced, core_unplaced, Level.unplaced_wrap]

theorem simpleNode_unplaced (e : Expr) : e.unplaced.simpleNode = e.simpleNode.unplaced := by
  rw [simpleNode, simpleNode, level_unplaced, core_unplaced, Level.unplaced_wrap]

end Expr

theorem WordType.node_unplaced (t : Located WordType) :
    WordType.node t.unplaced = (WordType.node t).unplaced := rfl

theorem Declarator.node_unplaced (d : Declarator) : d.unplaced.node = d.node.unplaced := by
  obtain ⟨name, length, init⟩ := d
  cases length <;> cases init <;>
    simp [unplaced, node, Name.node_unplaced, Expr.simpleNode_unplaced, Located.map_unplaced]

/-- The nodes of a declaration lose their places as its declarators do. -/
theorem Declaration.parts_unplaced (d : Declaration) :
    d.unplaced.parts = d.parts.map Node.unplaced := by
  simp [unplaced, parts, WordType.node_unplaced, Declarator.node_unplaced]

theorem Declaration.globalNode_unplaced (d : Declaration) :
    d.unplaced.globalNode = d.globalNode.unplaced := by
  rw [globalNode, globalNode, parts_unplaced, Node.unplaced_inner]

theorem Declaration.localNode_unplaced (d : Declaration) :
    d.unplaced.localNode = d.localNode.unplaced := by
  rw [localNode, localNode, parts_unplaced, Node.unplaced_inner, List.map_append]
  obtain ⟨static, type, items⟩ := d
  cases static <;> rfl

theorem Range.node_unplaced (r : Range) : r.unplaced.node = r.node.unplaced := by
  obtain ⟨start, _ | ⟨last, _ | step⟩⟩ := r <;>
    simp [unplaced, node, Expr.simpleNode_unplaced]

namespace Stmt

mutual

theorem node_unplaced : ∀ s : Stmt, s.unplaced.node = s.node.unplaced
  | .block locals body => by
    simp [unplaced, node, Declaration.localNode_unplaced, nodeOf_unplacedAll body]
  | .expr e => by simp [unplaced, node, Expr.node_unplaced]
  | .empty _ => rfl
  | .choice c body none => by
    simp [unplaced, node, Expr.simpleNode_unplaced, node_unplaced body]
  | .choice c body (some otherwise) => by
    simp [unplaced, node, Expr.simpleNode_unplaced, node_unplaced body, node_unplaced otherwise]
  | .loop c body => by simp [unplaced, node, Expr.simpleNode_unplaced, node_unplaced body]
  | .count counter range body => by
    simp [unplaced, node, Name.node_unplaced, Range.node_unplaced, node_unplaced body]
  | .ret _ value => by
    cases value <;> simp [unplaced, node, Expr.node_unplaced]
  | .leave _ => rfl

theorem nodeOf_unplacedAll : ∀ ss : List Stmt, nodeOf (unplacedAll ss) = (nodeOf ss).map .unplaced
  | [] => rfl
  | s :: ss => by
    rw [unplacedAll, nodeOf, nodeOf, node_unplaced s, nodeOf_unplacedAll ss, List.map_cons]

end

end Stmt

theorem Parameter.node_unplaced (p : Parameter) : p.unplaced.node = p.node.unplaced := by
  obtain ⟨name, brackets⟩ := p
  cases brackets <;> rfl

theorem ParameterGroup.node_unplaced (g : ParameterGroup) :
    g.unplaced.node = g.node.unplaced := by
  simp [unplaced, node, WordType.node_unplaced, Parameter.node_unplaced]

/-- The nodes of a header lose their places as its parameters do. -/
theorem Header.parts_unplaced (h : Header) : h.unplaced.parts = h.parts.map Node.unplaced := by
  obtain ⟨returns, name, params⟩ := h
  cases returns <;>
    simp [unplaced, parts, WordType.node_unplaced, Name.node_unplaced,
      ParameterGroup.node_unplaced]

theorem TopLevel.node_unplaced (item : TopLevel) : item.unplaced.node = item.node.unplaced := by
  cases item with
  | «variables» d => exact d.globalNode_unplaced
  | function h body =>
    rw [unplaced, node, node, Header.parts_unplaced, Stmt.node_unplaced, Node.unplaced_inner,
      List.map_append, List.map_singleton]

/-- **The labelled tree of a program without places.** It is the labelled tree of the program,
without its places. -/
theorem Program.node_unplaced (p : Program) : p.unplaced.node = p.node.unplaced := by
  simp [unplaced, node, TopLevel.node_unplaced]

end OnePass
