import OnePass.Proofs.RecognitionOrder
import OnePass.Proofs.TreePlaces

/-!
# The nodes of expressions

Which nodes of a tree stand for whole expressions, and from which tokens they were read. Main
statements: every node in a tree that is labelled as an expression, or as one that is no assignment,
was made by a call of the parser for such expressions, in front of the token where the node begins.
This holds of the tree of a program (`Program.readWithin_of_parse`), and below every node that such
a call makes, also where parsing fails later on (`Node.ReadFrom.within`).

A parser is called where no operator can go on with what it has read, so the grammar says where the
calls are (`Node.readFrom_whole`, `Node.readFrom_simple`). A chain of operators has one node for all
of its operands. So it is said of the children of a node that they were read along the tokens of a
phrase (`Node.ReadAlong`), and phrases that follow one another are put together by
`Node.ReadAlong.append`. -/

namespace OnePass

/-- Nodes of these rules stand for what a parser of expressions makes of tokens. -/
def Rule.isExpression : Rule → Bool
  | .expression | .simpleExpression => true
  | _ => false

namespace Node

/-- `n.ReadFrom ts r`: called in front of the tokens `ts`, a parser of expressions makes an
expression whose node is `n`, and leaves the tokens `r`. -/
inductive ReadFrom : Node → Tokens → Tokens → Prop
  /-- the parser of all expressions -/
  | whole {depth s e s'} : Parser.Succeeds (Parser.expression depth) s e s' →
      ReadFrom e.node s.cursor.rest s'.cursor.rest
  /-- the parser of expressions that are no assignments -/
  | simple {depth s e s'} : Parser.Succeeds (Parser.simple (Parser.expression depth)) s e s' →
      ReadFrom e.simpleNode s.cursor.rest s'.cursor.rest

/-- Every expression in a node, the node itself included, was read from some place in the tokens. -/
def ReadWithin (n : Node) (tokens : Tokens) : Prop :=
  ∀ d k m, (k, m) ∈ n.preorder d → m.rule.isExpression →
    ∃ ts r, ts <:+ tokens ∧ m.ReadFrom ts r

/-- The expressions in nodes were read from the tokens `ts`, and the tokens `r` come later. -/
structure ReadAlong (ns : List Node) (ts r : Tokens) : Prop where
  within : ∀ n ∈ ns, n.ReadWithin ts
  suffix : r <:+ ts

/-- A node below several others is below one of them. -/
theorem mem_preorderOf {d k : Nat} {m : Node} {ns : List Node} :
    (k, m) ∈ preorderOf d ns ↔ ∃ n ∈ ns, (k, m) ∈ n.preorder d := by
  induction ns with
  | nil => simp [preorderOf]
  | cons n ns ih => simp [preorderOf, ih]

variable {n : Node} {ns ns' cs : List Node} {rule : Rule} {t : Located Token} {ts ts' r r' : Tokens}

/-- A call reads the node itself, if it is one of an expression; its children are told of
already. -/
theorem readWithin_inner (hcs : ∀ c ∈ cs, c.ReadWithin ts)
    (hself : rule.isExpression → ∃ us q, us <:+ ts ∧ ReadFrom (.inner rule cs) us q) :
    (inner rule cs).ReadWithin ts := by
  intro d k m hm hrule
  rw [preorder, List.mem_cons, mem_preorderOf] at hm
  rcases hm with hm | ⟨c, hc, hm⟩
  · obtain ⟨-, rfl⟩ := Prod.mk.inj hm
    exact hself hrule
  · exact hcs c hc _ _ _ hm hrule

/-- Leaves that are no expressions need not be read. -/
theorem readWithin_leaf (hrule : rule.isExpression = false) : (leaf rule t).ReadWithin ts := by
  intro d k m hm hm'
  rw [preorder, List.mem_singleton] at hm
  obtain ⟨-, rfl⟩ := Prod.mk.inj hm
  exact absurd (hm'.symm.trans hrule) (by decide)

/-- What is read in the rest of a text is read in the text. -/
theorem ReadWithin.mono (h : n.ReadWithin ts) (hts : ts <:+ ts') : n.ReadWithin ts' := by
  intro d k m hm hrule
  obtain ⟨us, q, hus, hread⟩ := h d k m hm hrule
  exact ⟨us, q, hus.trans hts, hread⟩

namespace ReadAlong

/-- No node is read along no token. -/
theorem nil (ts : Tokens) : ReadAlong [] ts ts := ⟨by simp, List.suffix_rfl⟩

/-- Nodes are read along one after the other. -/
theorem append (h : ReadAlong ns ts r) (h' : ReadAlong ns' r r') : ReadAlong (ns ++ ns') ts r' :=
  ⟨List.forall_mem_append.mpr ⟨h.within, fun n hn => (h'.within n hn).mono h.suffix⟩,
    h'.suffix.trans h.suffix⟩

/-- The first node is read along in front of the others. -/
theorem cons (h : ReadAlong [n] ts r) (h' : ReadAlong ns r r') : ReadAlong (n :: ns) ts r' :=
  h.append h'

/-- A token in front. -/
theorem behind (h : ReadAlong ns ts r) : ReadAlong ns (t :: ts) r :=
  ⟨fun n hn => (h.within n hn).mono (List.suffix_cons t ts), h.suffix.trans (List.suffix_cons t ts)⟩

/-- A token behind. -/
theorem upTo (h : ReadAlong ns ts (t :: r)) : ReadAlong ns ts r :=
  ⟨h.within, (List.suffix_cons t r).trans h.suffix⟩

/-- A leaf for a token in front. -/
theorem leaf {u : Located Token} (hrule : rule.isExpression = false) (h : ReadAlong ns ts r) :
    ReadAlong (.leaf rule u :: ns) (t :: ts) r :=
  ⟨List.forall_mem_cons.mpr ⟨readWithin_leaf hrule, h.behind.within⟩, h.behind.suffix⟩

/-- A node around nodes, which is no expression itself. -/
theorem node (hrule : rule.isExpression = false) (h : ReadAlong ns ts r) :
    ReadAlong [.inner rule ns] ts r :=
  ⟨by simpa using readWithin_inner h.within fun hself =>
    absurd (hself.symm.trans hrule) (by decide),
    h.suffix⟩

/-- A node that a call makes of the tokens of its children. -/
theorem call (h : ReadAlong ns ts r) (hread : ReadFrom (.inner rule ns) ts r) :
    ReadAlong [.inner rule ns] ts r :=
  ⟨by simpa using readWithin_inner h.within fun _ => ⟨ts, r, List.suffix_rfl, hread⟩, h.suffix⟩

end ReadAlong

end Node

/-! ## Levels -/

/-- A level is told by its rank. -/
theorem Level.rank_injective : Function.Injective Level.rank := by
  intro level level'
  cases level <;> cases level' <;> decide

/-- The tighter level is the next one. -/
theorem Level.rank_tighter {level : Level} (h : level ≠ .atom) :
    level.tighter.rank = level.rank + 1 := by
  cases level <;> first | rfl | exact absurd rfl h

/-- The levels from one on are that level and the tighter ones. -/
theorem Level.drop_all (level : Level) (h : level ≠ .atom) :
    all.drop level.rank = level :: all.drop level.tighter.rank := by
  cases level <;> first | rfl | exact absurd rfl h

/-- A node of a looser level is around one of the next tighter one. -/
theorem Level.wrap_eq_inner {outer inner : Level} (h : outer.rank < inner.rank) (n : Node) :
    outer.wrap inner n = .inner outer.rule [outer.tighter.wrap inner n] := by
  have hatom : outer ≠ .atom := by
    rintro rfl
    cases inner <;> exact absurd h (by decide)
  have hcount : inner.rank - outer.rank = inner.rank - outer.tighter.rank + 1 := by
    rw [rank_tighter hatom]
    omega
  rw [wrap, drop_all outer hatom, hcount, List.take_succ_cons, List.foldr_cons]
  rfl

namespace Expr

/-- A chain of a level is continued. -/
theorem chain_of_level {level : Level} {e : Expr} (h : e.level = level) :
    e.chain level e.core = e.core.children := if_pos h

/-- What is no chain of a level is its only operand. -/
theorem chain_of_tighter {level : Level} {e : Expr} (h : e.level ≠ level) :
    e.chain level e.core = [e.nodeAt level.tighter] := if_neg h

/-- The node of an expression at a level has the operands of a chain of that level as its
children. -/
theorem nodeAt_eq_inner {level : Level} {e : Expr} (h : level.rank ≤ e.level.rank) :
    e.nodeAt level = .inner level.rule (e.chain level e.core) := by
  rw [nodeAt, chain]
  split
  · rename_i hlevel
    rw [← hlevel, ← core_eq, Level.wrap, Nat.sub_self]
    rfl
  · rename_i hlevel
    have hrank : level.rank ≠ e.level.rank := fun heq => hlevel (Level.rank_injective heq.symm)
    exact Level.wrap_eq_inner (Nat.lt_of_le_of_ne h hrank) e.core

end Expr

/-! ## Phrases -/

namespace Node

variable {e : Expr} {ts r : Tokens}

/-- Where no operator goes on with an expression, a call reads it. -/
theorem readFrom_whole (h : e.Whole ts r) (hr : Follows .assignment r) : e.node.ReadFrom ts r := by
  obtain ⟨s', hs, rfl⟩ :=
    Parser.accepts_expression ts.length h le_rfl hr ⟨.ofList ts, Reader.start, #[]⟩ rfl
  exact .whole hs

/-- The node of an expression without an assignment is read as one. -/
theorem readFrom_simple (h : e.Simple ts r) (hr : Follows .disjunction r) :
    e.simpleNode.ReadFrom ts r := by
  obtain ⟨s', hs, rfl⟩ := Parser.accepts_simpleExpr h hr ⟨.ofList ts, Reader.start, #[]⟩ rfl
  obtain ⟨n, s₁, h₁, hs⟩ := Parser.succeeds_bind.mp hs
  obtain ⟨rfl, rfl⟩ := Parser.succeeds_left.mp h₁
  exact .simple hs

end Node

namespace Expr

open Node

variable {level : Level} {e : Expr} {ts r : Tokens}

/-- The node of an expression, from the operands of its chain. At two levels it is one that a call
of its own makes. -/
theorem Derives.readAlong (h : e.Derives level ts r)
    (hparts : ReadAlong (e.chain level e.core) ts r)
    (hr : level.rule.isExpression → Follows level r) : ReadAlong [e.nodeAt level] ts r := by
  have hnode := nodeAt_eq_inner (Phrase.Derives.rank_le h rfl)
  rw [hnode]
  cases level
  case assignment => exact hparts.call (hnode ▸ readFrom_whole h (hr rfl))
  case disjunction => exact hparts.call (hnode ▸ readFrom_simple h (hr rfl))
  all_goals exact hparts.node rfl

end Expr

namespace Phrase

open Node

variable {p : Phrase} {ts r : Tokens}

/-- What a phrase says of the nodes that it is put together from. An assignment reads its value to
the end, so an operator behind it must not go on with that. -/
def PartsRead : Phrase → Tokens → Tokens → Prop
  | .expr level e, ts, r =>
    (level = .assignment → Follows .assignment r) → ReadAlong (e.chain level e.core) ts r
  | .args es, ts, r => Follows .assignment r → ReadAlong (es.map Expr.node) ts r

/-- An expression and the punctuation behind it. -/
theorem PartsRead.upTo {e : Expr} {t : Token} {span : Span} (he : e.Whole ts (⟨t, span⟩ :: r))
    (h : (Phrase.expr .assignment e).PartsRead ts (⟨t, span⟩ :: r)) (ht : t.level? = none) :
    ReadAlong [e.node] ts r := by
  have hr := follows_of_none ht .assignment span r
  exact (Expr.Derives.readAlong he (h fun _ => hr) fun _ => hr).upTo

/-- The parts of a phrase are read along its tokens: by induction on the derivation. -/
theorem Derives.partsRead (h : p.Derives ts r) : p.PartsRead ts r := by
  induction h with
  | @assign p op v _ r₁ r hp hv ihp ihv =>
    intro hr
    have hop : Follows .disjunction (op.map .assign :: r₁) :=
      follows_operator .assignment rfl (by decide)
    have hp' := Expr.Derives.readAlong hp (ihp nofun) fun _ => hop
    have hv' := Expr.Derives.readAlong hv (ihv hr) fun _ => hr rfl
    exact hp'.cons (.leaf rfl hv')
  | @step p op _ r hp ihp =>
    intro hr
    have hop : Follows .disjunction (op.map .step :: r) :=
      follows_operator .assignment rfl (by decide)
    exact (Expr.Derives.readAlong hp (ihp nofun) fun _ => hop).cons (.leaf rfl (.nil r))
  | @logic _ op _ _ _ _ _ _ hop hl he ihl ihe =>
    intro _
    -- The left operand is one of the chain or the chain so far: no node of its own is around that.
    rw [Expr.chain_of_level (e := .logic op _ _) hop]
    subst hop
    have hlevel : (Level.ofLogic op).tighter.rule.isExpression = false := by cases op <;> rfl
    have he' := Expr.Derives.readAlong he (ihe (by cases op <;> nofun)) (by simp [hlevel])
    exact (ihl (by cases op <;> nofun)).upTo.append he'
  | negate he ih =>
    intro _
    exact .leaf rfl (Expr.Derives.readAlong he (ih nofun) nofun)
  | compare hl he ihl ihe =>
    intro _
    have hl' := Expr.Derives.readAlong hl (ihl nofun) nofun
    have he' := Expr.Derives.readAlong he (ihe nofun) nofun
    exact hl'.cons (.leaf rfl he')
  | @arith _ _ op _ _ _ _ hop hl he ihl ihe =>
    intro _
    rw [Expr.chain_of_level (e := .arith _ op _) hop]
    subst hop
    have hlevel : (Level.ofArith op.value).tighter.rule.isExpression = false := by
      cases op.value <;> rfl
    have he' := Expr.Derives.readAlong he (ihe (by cases op.value <;> nofun)) (by simp [hlevel])
    exact (ihl (by cases op.value <;> nofun)).append (.leaf rfl he')
  | lead he ih =>
    intro _
    exact .leaf rfl (Expr.Derives.readAlong he (ih nofun) nofun)
  | paren he ih =>
    intro _
    exact (PartsRead.upTo he ih rfl).behind.node rfl
  | literal =>
    intro _
    exact (ReadAlong.leaf rfl (.nil _)).node rfl
  | var =>
    intro _
    exact (ReadAlong.leaf rfl (.nil _)).node rfl
  | elem he ih =>
    intro _
    exact (ReadAlong.leaf rfl (PartsRead.upTo he ih rfl).behind).node rfl
  | callNone =>
    intro _
    refine ((ReadAlong.leaf rfl ?_).node rfl).node rfl
    exact (ReadAlong.nil _).behind.behind.node rfl
  | call _ ih =>
    intro _
    refine ((ReadAlong.leaf rfl ?_).node rfl).node rfl
    rw [Expr.coreOf_eq]
    exact (ih (follows_of_none rfl _ _ _)).upTo.behind.node rfl
  | @tighter level e ts r hlevel he ih =>
    intro hr
    have hrank := Phrase.Derives.rank_le he rfl
    have hne : e.level ≠ level := by
      rintro rfl
      rw [Level.rank_tighter hlevel] at hrank
      omega
    rw [Expr.chain_of_tighter hne]
    -- A call reads the only operand just where that is no assignment, but might have been one.
    refine Expr.Derives.readAlong he (ih ?_) ?_
    · intro h
      cases level <;> cases h
    · intro h
      cases level
      case assignment => exact (hr rfl).tighter
      all_goals cases h
  | arg he ih =>
    intro hr
    exact Expr.Derives.readAlong he (ih fun _ => hr) fun _ => hr
  | moreArgs he _ ih ih' =>
    intro hr
    exact (PartsRead.upTo he ih rfl).cons (ih' hr)

end Phrase

/-! ## Calls -/

namespace Expr

open Node

variable {e : Expr} {ts r : Tokens} {t : Token} {span : Span}

/-- An expression that is no assignment, behind which comes what goes on with no such expression. -/
theorem Simple.readAlong (h : e.Simple ts r) (hr : Follows .disjunction r) :
    ReadAlong [e.simpleNode] ts r :=
  Derives.readAlong h (Phrase.Derives.partsRead h nofun) fun _ => hr

/-- The nodes of an expression are read along its tokens. -/
theorem Whole.readAlong (h : e.Whole ts r) (hr : Follows .assignment r) : ReadAlong [e.node] ts r :=
  Derives.readAlong h (Phrase.Derives.partsRead h fun _ => hr) fun _ => hr

/-- An expression up to the punctuation behind it, with that. -/
theorem Simple.readAlong_upTo (h : e.Simple ts (⟨t, span⟩ :: r)) (ht : t.level? = none) :
    ReadAlong [e.simpleNode] ts r :=
  (h.readAlong (follows_of_none ht _ span r)).upTo

/-- Punctuation behind an expression does not go on with it. -/
theorem Whole.readAlong_upTo (h : e.Whole ts (⟨t, span⟩ :: r)) (ht : t.level? = none) :
    ReadAlong [e.node] ts r :=
  (h.readAlong (follows_of_none ht _ span r)).upTo

end Expr

namespace Parser

open Node

variable {n : Nat} {s s' : State} {e : Expr}

/-- What is read of an expression that is no assignment, by whichever call. -/
theorem Succeeds.readAlong_simple (h : Succeeds (simple (expression n)) s e s') :
    ReadAlong [e.simpleNode] s.cursor.rest s'.cursor.rest := by
  have he := takes_simple (takes_expression n) _ _ _ h
  have hnode := Expr.nodeAt_eq_inner (Phrase.Derives.rank_le he rfl)
  have hparts : ReadAlong (e.chain .disjunction e.core) _ _ := Phrase.Derives.partsRead he nofun
  rw [show e.simpleNode = .inner _ _ from hnode]
  exact hparts.call (hnode ▸ .simple h)

/-- An assignment calls for its value what comes to be its last part. -/
theorem Succeeds.readAlong_whole (h : Succeeds (expression n) s e s') :
    ReadAlong [e.node] s.cursor.rest s'.cursor.rest := by
  -- Not from the grammar: a call need not stop where no operator goes on, so what is used is how it
  -- ran.
  induction n generalizing s e s' with
  | zero => exact absurd h not_succeeds_fail
  | succ n ih =>
    obtain ⟨p, s₁, h₁, hs⟩ := succeeds_bind.mp h
    obtain ⟨t, s₂, h₂, hs⟩ := succeeds_bind.mp hs
    obtain ⟨rfl, rfl⟩ := succeeds_peek?.mp h₂
    have hp := h₁.readAlong_simple
    split at hs
    · rename_i op hop
      obtain ⟨t, s₃, h₃, hs⟩ := succeeds_bind.mp hs
      obtain ⟨v, s₄, h₄, hs⟩ := succeeds_bind.mp hs
      obtain ⟨rfl, rfl⟩ := succeeds_pure.mp hs
      rw [takes_next _ _ _ h₃] at hp
      exact (hp.cons (.leaf rfl (ih h₄))).call (.whole h)
    · rename_i op hop
      obtain ⟨t, s₃, h₃, hs⟩ := succeeds_bind.mp hs
      obtain ⟨rfl, rfl⟩ := succeeds_pure.mp hs
      rw [takes_next _ _ _ h₃] at hp
      exact (hp.cons (.leaf rfl (.nil _))).call (.whole h)
    · -- No operator: the node is one more around that of the part.
      obtain ⟨rfl, rfl⟩ := succeeds_pure.mp hs
      have he := takes_simple (takes_expression n) _ _ _ h₁
      have hlevel : Level.assignment.rank < e.level.rank :=
        Nat.lt_of_lt_of_le (by decide) (Phrase.Derives.rank_le he rfl)
      have hnode := Level.wrap_eq_inner hlevel e.core
      rw [show e.node = .inner _ _ from hnode]
      exact hp.call (hnode ▸ .whole h)

end Parser

/-- Whatever a call of a parser makes, calls have made the expressions in it. -/
theorem Node.ReadFrom.within {n : Node} {ts r : Tokens} (h : n.ReadFrom ts r) :
    n.ReadWithin ts := by
  cases h with
  | whole h => exact h.readAlong_whole.within _ List.mem_cons_self
  | simple h => exact h.readAlong_simple.within _ List.mem_cons_self

/-! ## Declarations -/

section

open Node

variable {α : Type} {t : Token} {D : α → Tokens → Tokens → Prop} {node : α → Node} {as : List α}
  {ts r : Tokens}

/-- Repeated parts are read along one after the other. -/
theorem Repeated.readAlong (h : Repeated D as ts r)
    (hd : ∀ a ∈ as, ∀ {ts r}, D a ts r → ReadAlong [node a] ts r) :
    ReadAlong (as.map node) ts r := by
  induction h with
  | none => exact .nil _
  | more ha _ ih =>
    exact (hd _ List.mem_cons_self ha).cons (ih fun a ha => hd a (List.mem_cons_of_mem _ ha))

/-- Phrases that know what comes behind them: another separator, or what comes behind all of
them. -/
theorem Separated.readAlong {F : Tokens → Prop} (h : Separated t D as ts r) (hr : F r)
    (ht : ∀ span r, F (⟨t, span⟩ :: r))
    (hd : ∀ {a ts r}, D a ts r → F r → ReadAlong [node a] ts r) :
    ReadAlong (as.map node) ts r := by
  induction h with
  | one ha => exact hd ha hr
  | more ha _ ih => exact (hd ha (ht _ _)).upTo.cons (ih hr)

end

open Node

variable {ts r : Tokens}

theorem LengthDerives.readAlong {n : Option (Located Int32)} (h : LengthDerives n ts r) :
    ReadAlong (n.toList.map fun n => .leaf .constant (n.map .int)) ts r := by
  cases h with
  | none => exact .nil _
  | some => exact .leaf rfl (ReadAlong.nil _).behind.behind

/-- The nodes of an initialiser are read along its tokens. -/
theorem InitDerives.readAlong {e : Option Expr} (h : InitDerives e ts r)
    (hr : Follows .disjunction r) :
    ReadAlong (e.toList.map Expr.simpleNode) ts r := by
  cases h with
  | none => exact .nil _
  | colon he | equals he => exact (he.readAlong hr).behind

/-- The nodes of a declarator are read along its tokens. -/
theorem Declarator.Derives.readAlong {d : Declarator} (h : d.Derives ts r)
    (hr : Follows .disjunction r) : ReadAlong [d.node] ts r := by
  cases h with
  | mk hlength hinit =>
    refine (ReadAlong.cons ?_ (hinit.readAlong hr)).node rfl
    exact (ReadAlong.leaf rfl hlength.readAlong).node rfl

/-- The nodes of declarators with commas between are read along their tokens. -/
theorem Declaration.readAlong_items {items : List Declarator} {span : Span}
    (h : Separated .comma Declarator.Derives items ts (⟨.semicolon, span⟩ :: r)) :
    ReadAlong [.inner .varDeclList (items.map Declarator.node)] ts r := by
  refine (h.readAlong (F := Follows .disjunction) ?_ ?_ ?_).upTo.node rfl
  · exact follows_of_none rfl _ _ _
  · exact fun _ _ => follows_of_none rfl _ _ _
  · exact Declarator.Derives.readAlong

theorem Declaration.Derives.readAlong_local {d : Declaration} (h : d.Derives ts r) :
    ReadAlong [d.localNode] ts r := by
  cases h with
  | plain h => exact (ReadAlong.leaf rfl (readAlong_items h)).node rfl
  | static h => exact (ReadAlong.leaf rfl (.leaf rfl (readAlong_items h))).node rfl

theorem Declaration.Derives.readAlong_global {d : Declaration} (h : d.Derives ts r)
    (hstatic : d.static = none) : ReadAlong [d.globalNode] ts r := by
  cases h with
  | plain h => exact (ReadAlong.leaf rfl (readAlong_items h)).node rfl
  | static => cases hstatic

theorem Parameter.Derives.readAlong {p : Parameter} (h : p.Derives ts r) :
    ReadAlong [p.node] ts r := by
  cases h with
  | scalar => exact (ReadAlong.leaf rfl (.nil _)).node rfl
  | array => exact (ReadAlong.leaf rfl (.leaf rfl (ReadAlong.nil _).behind)).node rfl

theorem ParameterGroup.Derives.readAlong {g : ParameterGroup} (h : g.Derives ts r) :
    ReadAlong [g.node] ts r := by
  cases h with
  | mk h =>
    have hitems := h.readAlong (F := fun _ => True) trivial (fun _ _ => trivial)
      fun hp _ => Parameter.Derives.readAlong hp
    have hlist : ReadAlong [.inner .parmIdList _] _ _ := hitems.node rfl
    exact (ReadAlong.leaf rfl hlist).node rfl

/-- The nodes of parameters are read along their tokens. -/
theorem ParametersDerive.readAlong {groups : List ParameterGroup}
    (h : ParametersDerive groups ts r) :
    ReadAlong [.inner .parms (groups.map ParameterGroup.node)] ts r := by
  refine ReadAlong.node rfl ?_
  cases h with
  | none => exact .nil _
  | some h =>
    exact h.readAlong (F := fun _ => True) trivial (fun _ _ => trivial)
      fun hg _ => ParameterGroup.Derives.readAlong hg

/-! ## Statements and programs -/

/-- The nodes of a range are read along its tokens. -/
theorem Range.Derives.readAlong {g : Range} (h : g.Derives ts r) (hr : Follows .disjunction r) :
    ReadAlong [g.node] ts r := by
  refine ReadAlong.node rfl ?_
  cases h with
  | start he => exact he.readAlong hr
  | bound he hlast => exact (he.readAlong_upTo rfl).cons (hlast.readAlong hr)
  | step he hlast hstep =>
    exact (he.readAlong_upTo rfl).cons ((hlast.readAlong_upTo rfl).cons (hstep.readAlong hr))

namespace Stmt

/-- The nodes of a statement are read along its tokens: by induction on the derivation. -/
theorem Derives.readAlong {s : Stmt} (h : s.Derives ts r) : ReadAlong [s.node] ts r := by
  induction s using Stmt.induct generalizing ts r with
  -- Locals and statements stand in two nodes of their own between the braces.
  | block locals body ih =>
    cases h with
    | block hlocals hbody =>
      have hlocals' := hlocals.readAlong fun _ _ => Declaration.Derives.readAlong_local
      refine ReadAlong.node rfl (ReadAlong.cons (hlocals'.behind.node rfl) ?_)
      rw [nodeOf_eq]
      exact (hbody.readAlong ih).upTo.node rfl
  | expr e =>
    cases h with
    | expr he => exact (he.readAlong_upTo rfl).node rfl
  | empty semicolon =>
    cases h with
    | empty => exact .leaf rfl (.nil _)
  | choice c body ih =>
    cases h with
    | choice hc hbody => exact ((hc.readAlong_upTo rfl).cons (ih hbody)).behind.node rfl
  | choiceOr c body otherwise ih ih' =>
    cases h with
    | choiceOr hc hbody h =>
      exact ((hc.readAlong_upTo rfl).cons ((ih hbody).upTo.cons (ih' h))).behind.node rfl
  | loop c body ih =>
    cases h with
    | loop hc hbody => exact ((hc.readAlong_upTo rfl).cons (ih hbody)).behind.node rfl
  | count counter range body ih =>
    cases h with
    | count hrange hbody =>
      have hrange' := (hrange.readAlong (follows_of_none rfl _ _ _)).upTo
      exact (ReadAlong.leaf rfl (hrange'.cons (ih hbody)).behind).behind.node rfl
  -- A return without a value has two tokens that are read as nothing.
  | ret word value =>
    cases h with
    | retNone => exact (ReadAlong.nil _).behind.behind.node rfl
    | ret he => exact (he.readAlong_upTo rfl).behind.node rfl
  | leave word =>
    cases h with
    | leave => exact .leaf rfl (ReadAlong.nil _).behind

end Stmt

/-- The nodes of a function or a declaration are read along its tokens. -/
theorem TopLevel.Derives.readAlong {d : TopLevel} (h : d.Derives ts r) :
    ReadAlong [d.node] ts r := by
  cases h with
  | globals hstatic h => exact h.readAlong_global hstatic
  | function hparams hbody =>
    have hrest := hparams.readAlong.upTo.cons hbody.readAlong
    exact (ReadAlong.leaf rfl hrest.behind).node rfl
  | typed hparams hbody =>
    have hrest := hparams.readAlong.upTo.cons hbody.readAlong
    exact (ReadAlong.leaf rfl (.leaf rfl hrest.behind)).node rfl

/-- Calls have made the expressions in the tree of a program, each from where it begins. -/
theorem Program.readWithin_of_parse {start : Span} {tokens : Tokens} {p : Program}
    (h : (parse start tokens).result = .ok p) : p.node.ReadWithin tokens := by
  have hitems := Repeated.readAlong (parse_eq_ok_iff.mp h).1 fun _ _ => TopLevel.Derives.readAlong
  have htree : ReadAlong [p.node] _ _ := hitems.node rfl
  exact htree.within _ List.mem_cons_self

end OnePass
