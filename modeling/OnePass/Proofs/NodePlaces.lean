import Mathlib.Data.List.Flatten
import Mathlib.Data.List.Pairwise
import OnePass.Proofs.SourceText
import OnePass.Tree.View

/-!
# Where nodes stand

The region of a node goes from the first to the last of its leaves. Main statement: where leaves
come in order, so do nodes: each lies within the one it is a child of, and children of one node lie
one behind the other (`Node.nested_of_inOrder`).

The leaves of a node below another one are among the leaves of that other, so all that is needed of
a tree is the list of its leaves. Nodes that only tell the levels of the expression grammar apart
add nothing to it (`Level.leaves_wrap`, `Expr.leaves_chain`). -/

namespace OnePass

/-- Tokens that stand one behind the other, each of which covers something. -/
structure InOrder (ts : List (Located Token)) : Prop where
  ordered : ts.Pairwise fun a b => a.span.stop ≤ b.span.start
  nonempty : ∀ t ∈ ts, t.span.start < t.span.stop

namespace InOrder

variable {ts us : List (Located Token)} {t a b : Located Token}

theorem sublist (h : InOrder ts) (hus : us.Sublist ts) : InOrder us :=
  ⟨h.ordered.sublist hus, fun t ht => h.nonempty t (hus.subset ht)⟩

/-- No token comes twice. -/
theorem nodup (h : InOrder ts) : ts.Nodup := by
  refine List.Pairwise.imp_of_mem (fun {a b} ha _ hab => ?_) h.ordered
  rintro rfl
  exact absurd (h.nonempty a ha) hab.not_gt

theorem head_le (h : InOrder ts) (ha : ts.head? = some a) (ht : t ∈ ts) :
    a.span.start ≤ t.span.start := by
  cases ts with
  | nil => cases ha
  | cons u ts =>
    obtain rfl := Option.some.inj ha
    rcases List.mem_cons.mp ht with rfl | ht
    · exact le_rfl
    · exact (h.nonempty _ List.mem_cons_self).le.trans (List.rel_of_pairwise_cons h.ordered ht)

theorem le_last (h : InOrder ts) (hb : ts.getLast? = some b) (ht : t ∈ ts) :
    t.span.stop ≤ b.span.stop := by
  obtain ⟨us, rfl⟩ := List.getLast?_eq_some_iff.mp hb
  rcases List.mem_append.mp ht with ht | ht
  · have hle := (List.pairwise_append.mp h.ordered).2.2 t ht b (List.mem_singleton.mpr rfl)
    exact hle.trans (h.nonempty b (by simp)).le
  · rw [List.mem_singleton.mp ht]

end InOrder

/-! ## The leaves of nodes -/

namespace Node

theorem leavesOf_eq (ns : List Node) : leavesOf ns = ns.flatMap leaves := by
  induction ns with
  | nil => rfl
  | cons n ns ih => rw [leavesOf, ih, List.flatMap_cons]

@[simp]
theorem leaves_leaf (r : Rule) (t : Located Token) : (leaf r t).leaves = [t] := rfl

/-- The leaves of a node are those of its children. -/
@[simp]
theorem leaves_inner (r : Rule) (cs : List Node) : (inner r cs).leaves = cs.flatMap leaves := by
  rw [leaves, leavesOf_eq]

mutual

/-- The leaves of a node below another one are among the leaves of that one. -/
theorem leaves_sublist {d k : Nat} {m : Node} :
    ∀ {n : Node}, (k, m) ∈ n.preorder d → m.leaves.Sublist n.leaves
  | .leaf r t, h => by
    rw [preorder, List.mem_singleton] at h
    obtain ⟨-, rfl⟩ := Prod.mk.inj h
    exact List.Sublist.refl _
  | .inner r cs, h => by
    rw [preorder, List.mem_cons] at h
    rcases h with h | h
    · obtain ⟨-, rfl⟩ := Prod.mk.inj h
      exact List.Sublist.refl _
    · exact leavesOf_sublist h

theorem leavesOf_sublist {d k : Nat} {m : Node} :
    ∀ {ns : List Node}, (k, m) ∈ preorderOf d ns → m.leaves.Sublist (leavesOf ns)
  | [], h => absurd h List.not_mem_nil
  | n :: ns, h => by
    rw [preorderOf, List.mem_append] at h
    rcases h with h | h
    · exact (leaves_sublist h).trans (List.sublist_append_left _ _)
    · exact (leavesOf_sublist h).trans (List.sublist_append_right _ _)

end

/-! ## The regions of nodes -/

theorem span?_eq_some_iff {n : Node} {s : Span} : n.span? = some s ↔
    ∃ a b, n.leaves.head? = some a ∧ n.leaves.getLast? = some b ∧
      s = ⟨a.span.start, b.span.stop⟩ := by
  rw [span?]
  constructor
  · intro h
    split at h
    · rename_i a b ha hb
      exact ⟨a, b, ha, hb, (Option.some.inj h).symm⟩
    · cases h
  · rintro ⟨a, b, ha, hb, rfl⟩
    rw [ha, hb]
    rfl

/-- Where nodes stand, from a node downwards. -/
structure Nested (n : Node) : Prop where
  /-- a child lies within its parent -/
  within : ∀ k m, (k, m) ∈ n.preorder 0 → ∀ c ∈ m.children, ∀ s ∈ c.span?,
    ∃ t ∈ m.span?, t.start ≤ s.start ∧ s.stop ≤ t.stop
  /-- the children of a node lie one behind the other -/
  apart : ∀ k m, (k, m) ∈ n.preorder 0 → m.children.Pairwise fun a b =>
    ∀ s ∈ a.span?, ∀ t ∈ b.span?, s.stop ≤ t.start
  /-- a region is not empty -/
  nonempty : ∀ k m, (k, m) ∈ n.preorder 0 → ∀ s ∈ m.span?, s.start < s.stop

variable {n m c : Node}

theorem span?_within (h : InOrder m.leaves) (hc : c.leaves.Sublist m.leaves) {s : Span}
    (hs : c.span? = some s) : ∃ t, m.span? = some t ∧ t.start ≤ s.start ∧ s.stop ≤ t.stop := by
  obtain ⟨a, b, ha, hb, rfl⟩ := span?_eq_some_iff.mp hs
  have hmem : a ∈ m.leaves := hc.subset (List.mem_of_head? ha)
  have hmem' : b ∈ m.leaves := hc.subset (List.mem_of_getLast? hb)
  cases hfirst : m.leaves.head? with
  | none => simp [List.head?_eq_none_iff.mp hfirst] at hmem
  | some first =>
    cases hlast : m.leaves.getLast? with
    | none => simp [List.getLast?_eq_none_iff.mp hlast] at hmem
    | some last =>
      exact ⟨_, span?_eq_some_iff.mpr ⟨first, last, hfirst, hlast, rfl⟩, h.head_le hfirst hmem,
        h.le_last hlast hmem'⟩

/-- Nodes are nested if their leaves come in order. -/
theorem nested_of_inOrder (h : InOrder n.leaves) : n.Nested where
  within k m hm c hc s hs := by
    cases m with
    | leaf r t => exact absurd hc List.not_mem_nil
    | inner r cs =>
      refine span?_within (h.sublist (leaves_sublist hm)) ?_ hs
      rw [leaves_inner, List.flatMap_def]
      exact List.sublist_flatten_of_mem (List.mem_map_of_mem hc)
  apart k m hm := by
    cases m with
    | leaf r t => exact .nil
    | inner r cs =>
      have hleaves := h.ordered.sublist (leaves_sublist hm)
      rw [leaves_inner, List.pairwise_flatMap] at hleaves
      refine hleaves.2.imp fun {a b} hab s hs t ht => ?_
      obtain ⟨-, x, -, hx, rfl⟩ := span?_eq_some_iff.mp hs
      obtain ⟨y, -, hy, -, rfl⟩ := span?_eq_some_iff.mp ht
      exact hab x (List.mem_of_getLast? hx) y (List.mem_of_head? hy)
  nonempty k m hm s hs := by
    have hleaves := h.sublist (leaves_sublist hm)
    obtain ⟨a, b, ha, hb, rfl⟩ := span?_eq_some_iff.mp hs
    have hmem : b ∈ m.leaves := List.mem_of_getLast? hb
    exact (hleaves.head_le ha hmem).trans_lt (hleaves.nonempty b hmem)

end Node

/-! ## The nodes of a program -/

@[simp]
theorem Name.leaves_node (n : Name) : (Name.node n).leaves = [n.map .ident] := rfl

@[simp]
theorem Node.leaves_operator (t : Located Token) : (Node.operator t).leaves = [t] := rfl

/-- Nodes around a node add no leaves. -/
@[simp]
theorem Level.leaves_wrap (outer inner : Level) (n : Node) :
    (outer.wrap inner n).leaves = n.leaves := by
  unfold wrap
  induction (all.drop outer.rank).take (inner.rank - outer.rank) with
  | nil => rfl
  | cons l ls ih => rw [List.foldr_cons, Node.leaves_inner, List.flatMap_singleton, ih]

namespace Expr

/-- A chain has the leaves of its left operand. -/
@[simp]
theorem leaves_chain (l : Level) (e : Expr) :
    (e.chain l e.core).flatMap Node.leaves = e.core.leaves := by
  rw [chain]
  split
  · cases hcore : e.core with
    | leaf r t => cases e <;> cases hcore
    | inner r cs => exact (Node.leaves_inner r cs).symm
  · rw [List.flatMap_singleton, Level.leaves_wrap]

@[simp]
theorem leaves_node (e : Expr) : e.node.leaves = e.core.leaves := Level.leaves_wrap ..

@[simp]
theorem leaves_simpleNode (e : Expr) : e.simpleNode.leaves = e.core.leaves := Level.leaves_wrap ..

end Expr

end OnePass
