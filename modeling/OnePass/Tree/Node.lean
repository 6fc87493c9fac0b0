import OnePass.Token
import OnePass.Text.Position
import OnePass.Tree.Rule

/-!
# Labelled trees

A tree of nodes, each labelled with the rule of the grammar it stands for; leaves carry a
token. `Node.span?` is the region a node covers, `Node.mutable?` the variable or element
that a node is nothing but, `Node.preorder` the nodes from the root down, and
`Node.render` shows one node a line.
-/

namespace OnePass

/-- A labelled tree. -/
inductive Node where
  /-- a leaf and its token -/
  | leaf (rule : Rule) (token : Located Token)
  /-- an inner node and its children -/
  | inner (rule : Rule) (children : List Node)
  deriving Repr

namespace Node

/-- The label of a node. -/
def rule : Node → Rule
  | .leaf r _ => r
  | .inner r _ => r

/-- The children of a node. -/
def children : Node → List Node
  | .leaf _ _ => []
  | .inner _ cs => cs

mutual

/-- The tokens of the leaves of a node, from left to right. -/
def leaves : Node → List (Located Token)
  | .leaf _ t => [t]
  | .inner _ cs => leavesOf cs

/-- The tokens of the leaves of a list of nodes. -/
def leavesOf : List Node → List (Located Token)
  | [] => []
  | n :: ns => leaves n ++ leavesOf ns

end

/-- The region from the first to the last leaf of a node, if it has leaves. -/
def span? (n : Node) : Option Span :=
  match n.leaves.head?, n.leaves.getLast? with
  | some a, some b => some (a.span.upTo b.span)
  | _, _ => none

/-- The name of the leaf that is labelled as a name among the children of a node. -/
def name? (n : Node) : Option String :=
  match n.children.find? fun c => c.rule = .id with
  | some (.leaf _ ⟨.ident name, _⟩) => some name
  | _ => none

/-- The node of the variable or element that a node is nothing but: the way down leads
through only children, and ends in vain at what is not a place. -/
def mutable? : Node → Option Node
  | .leaf r t => if r = .mutable then some (.leaf r t) else none
  | .inner r cs =>
    if r = .mutable then some (.inner r cs)
    else if r = .immutable then none
    else match cs with
      | [only] => only.mutable?
      | _ => none

mutual

/-- All nodes of a tree with their depth, every node before its children. -/
def preorder (depth : Nat) : Node → List (Nat × Node)
  | .leaf r t => [(depth, .leaf r t)]
  | .inner r cs => (depth, .inner r cs) :: preorderOf (depth + 1) cs

/-- All nodes of a list of trees with their depth. -/
def preorderOf (depth : Nat) : List Node → List (Nat × Node)
  | [] => []
  | n :: ns => preorder depth n ++ preorderOf depth ns

end

/-- The line of a node: its label, and the token of a leaf with its place. -/
def line (name : String) (depth : Nat) (n : Node) : String :=
  let indent := String.ofList (List.replicate (2 * depth) ' ')
  match n with
  | .leaf r t => indent ++ r.text ++ " " ++ t.value.text ++ " @ " ++ t.span.render name ++ "\n"
  | .inner r _ => indent ++ r.text ++ "\n"

/-- A tree as it is shown, one node a line, children indented below their parent. The
name is that of the source. -/
def render (name : String) (n : Node) : String :=
  String.join ((n.preorder 0).map fun (depth, m) => m.line name depth)

end Node

end OnePass
