import Mathlib.Data.List.Forall2
import OnePass.Proofs.ExpressionCode
import OnePass.Tree.View

/-!
# The rules of types

Which type an expression has, as rules about the labelled tree that the grammar builds of it, and
without any code: `Node.HasType`. Every level of the grammar has nodes of its own, and a node with
one child has the type of that child; a chain of operators is typed from the left, one operand
after another.

What a tree says of an expression is the same at all levels (`Expr.hasType_at`), and for each form
of expression there is a lemma that says which types it has in terms of its parts. An expression
has at most one type (`Node.HasType.unique`).
-/

namespace OnePass

/-- The names that are known where an expression stands, and the stream that its code is for. -/
structure Names where
  /-- the visible variables -/
  scopes : Scopes
  /-- the functions that exist -/
  functions : Functions
  /-- the stream -/
  target : Target

/-- A name stands for a variable. Before the program runs it may not be a local or an argument. -/
def Names.Sees (Γ : Names) (n : Name) (v : Symbol) : Prop :=
  Γ.scopes.lookup n.value = some v ∧ (Γ.target = .initializer → ∃ i, v.handle = .field i)

/-- A name stands for a function that does what `body` says. -/
def Names.Knows (Γ : Names) (n : Name) (f : FunctionSymbol) : Prop :=
  Γ.functions.lookup n.value = some f

/-- The type of a literal. -/
def Literal.type : Literal → ExprType
  | .int _ => .scalar .int
  | .bool _ => .scalar .bool
  | .char _ => .scalar .char
  | .str _ => .str

/-- Values of these types have a text. -/
def ExprType.HasText : ExprType → Prop
  | .scalar _ | .str => True
  | _ => False

/-- What is no word and no text cannot be printed. -/
theorem ExprType.not_hasText {type : ExprType} (hscalar : ∀ t, type ≠ .scalar t)
    (hstr : type ≠ .str) : ¬ type.HasText := by
  cases type with
  | scalar t => exact absurd rfl (hscalar t)
  | str => exact absurd rfl hstr
  | _ => exact id

/-- An array whose length is known. -/
def Symbol.Sized (v : Symbol) : Prop := ∃ n, v.shape = .array (some n)

/-- Whether words of a type can be compared: all for equality, integers and characters for
order. -/
def RelOp.Compares (op : RelOp) (t : WordType) : Prop := (op = .eq ∨ op = .ne) ∨ t ≠ .bool

/-- The rules whose nodes may have one child only, and stand for it then. -/
def Rule.passes : Rule → Bool
  | .expression | .simpleExpression | .andExpression | .unaryRelExpression | .relExpression
  | .minMaxExpression | .sumExpression | .mulExpression | .unaryExpression | .factor
  | .immutable => true
  | _ => false

/-- The node of a variable. -/
def Node.ofVar (n : Name) : Node := .inner .mutable [n.node]

/-- The node of a call. -/
def Node.ofCall (n : Name) (args : List Node) : Node := .inner .call [n.node, .inner .args args]

/-- A node is nothing but a variable or an element. -/
def Node.IsPlace (n : Node) : Prop := n.mutable?.isSome

/-- The type of the expression that a node is. An expression that has no value has the type
`effect`, or `void` if it calls a function that returns nothing. -/
inductive Node.HasType (Γ : Names) : Node → ExprType → Prop
  | only {rule n type} : rule.passes → HasType Γ n type → HasType Γ (.inner rule [n]) type
  | literal {v : Located Literal} : HasType Γ (.leaf .constant (v.map Literal.token)) v.value.type
  | var {n : Name} {v} : Γ.Sees n v → HasType Γ (.ofVar n) (.ofSlot v.slot)
  | elem {n : Name} {v i} : Γ.Sees n v → v.isArray → HasType Γ i (.scalar .int) →
      HasType Γ (.inner .mutable [n.node, i]) (.scalar v.type)
  | call {n} {f : FunctionSymbol} {k args} : Γ.Knows n f → f.body = .routine k →
      List.Forall₂ (fun a s => HasType Γ a (.ofSlot s)) args f.params →
      HasType Γ (.ofCall n args) ((f.returns.map ExprType.scalar).getD .void)
  | print {n f a} {type : ExprType} : Γ.Knows n f → f.body = .intrinsic .print → HasType Γ a type →
      type.HasText → HasType Γ (.ofCall n [a]) .effect
  | printFormat {n f a args} {types : List ExprType} : Γ.Knows n f →
      f.body = .intrinsic .print → args ≠ [] →
      HasType Γ a .str → List.Forall₂ (HasType Γ) args types → (∀ type ∈ types, type.HasText) →
      HasType Γ (.ofCall n (a :: args)) .effect
  | put {n f} {args : List Node} {types} : Γ.Knows n f → f.body = .intrinsic .put → args ≠ [] →
      (∀ a ∈ args, a.IsPlace) → List.Forall₂ (fun a t => HasType Γ a (.scalar t)) args types →
      HasType Γ (.ofCall n args) .effect
  | lead {op : Located LeadOp} {n} : op.value ≠ .length → HasType Γ n (.scalar .int) →
      HasType Γ (.inner .unaryExpression [.operator (op.map LeadOp.token), n]) (.scalar .int)
  | length {op : Located LeadOp} {n t} : op.value = .length → HasType Γ n (.array t) →
      HasType Γ (.inner .unaryExpression [.operator (op.map LeadOp.token), n]) (.scalar .int)
  | arith {op : Located ArithOp} {left n} :
      HasType Γ (.inner (Level.ofArith op.value).rule left) (.scalar .int) →
      HasType Γ n (.scalar .int) →
      HasType Γ (.inner (Level.ofArith op.value).rule
        (left ++ [.operator (op.map ArithOp.token), n])) (.scalar .int)
  | compare {op : Located RelOp} {l r t} : op.value.Compares t → HasType Γ l (.scalar t) →
      HasType Γ r (.scalar t) →
      HasType Γ (.inner .relExpression [l, .operator (op.map .relation), r]) (.scalar .bool)
  | negate {word n} : HasType Γ n (.scalar .bool) →
      HasType Γ (.inner .unaryRelExpression [.operator ⟨.keyword .not, word⟩, n]) (.scalar .bool)
  | logic {op left n} : HasType Γ (.inner (Level.ofLogic op).rule left) (.scalar .bool) →
      HasType Γ n (.scalar .bool) →
      HasType Γ (.inner (Level.ofLogic op).rule (left ++ [n])) (.scalar .bool)
  | step {p : Node} {op : Located StepOp} : p.IsPlace → HasType Γ p (.scalar .int) →
      HasType Γ (.inner .expression [p, .operator (op.map .step)]) .effect
  | assign {p : Node} {op : Located AssignOp} {v t} : op.value = .set → p.IsPlace →
      HasType Γ p (.scalar t) →
      HasType Γ v (.scalar t) →
      HasType Γ (.inner .expression [p, .operator (op.map .assign), v]) .effect
  | compound {p : Node} {op : Located AssignOp} {v} : op.value ≠ .set → p.IsPlace →
      HasType Γ p (.scalar .int) →
      HasType Γ v (.scalar .int) →
      HasType Γ (.inner .expression [p, .operator (op.map .assign), v]) .effect
  | copy {p v : Node} {op : Located AssignOp} {x y a b} : op.value = .set →
      p.mutable? = some (.ofVar x) →
      v.mutable? = some (.ofVar y) → Γ.Sees x a → Γ.Sees y b → a.type = b.type → a.Sized →
      b.Sized → HasType Γ (.inner .expression [p, .operator (op.map .assign), v]) .effect

/-- The node of an expression at a level: at its own, or with nodes around it. -/
def Expr.nodeAt (level : Level) (e : Expr) : Node := level.wrap e.level e.core

/-- The type of an expression by its own node. -/
abbrev Expr.HasType (Γ : Names) (e : Expr) (type : ExprType) : Prop := e.core.HasType Γ type

namespace Node

variable {Γ : Names} {type : ExprType}

/-- Names are told by their nodes. -/
theorem name_node_inj {n m : Name} : n.node = m.node ↔ n = m := by
  constructor
  · intro h
    obtain ⟨n, s⟩ := n
    obtain ⟨m, s'⟩ := m
    simpa [Name.node, Located.map] using h
  · rintro rfl
    rfl

/-- The levels of arithmetic have rules of their own. -/
theorem Level.ne_rule_ofArith (r : Rule)
    (hr : r ∉ [Rule.minMaxExpression, .sumExpression, .mulExpression]) (op : ArithOp) :
    r ≠ (Level.ofArith op).rule := by
  rintro rfl
  cases op <;> exact hr (by decide)

/-- The levels of `or` and `and` have rules of their own. -/
theorem Level.ne_rule_ofLogic (r : Rule) (hr : r ∉ [Rule.simpleExpression, .andExpression])
    (op : LogicOp) : r ≠ (Level.ofLogic op).rule := by
  rintro rfl
  cases op <;> exact hr (by decide)

/-- A node without children has no type. -/
theorem not_hasType_nil {rule : Rule} : ¬ HasType Γ (.inner rule []) type := by
  intro h
  generalize hm : Node.inner rule [] = m at h
  cases h <;> simp_all [ofVar, ofCall]

/-- A node with one child is that child. -/
theorem hasType_only {rule : Rule} (hrule : rule.passes) {n : Node} :
    HasType Γ (.inner rule [n]) type ↔ HasType Γ n type := by
  constructor
  · intro h
    generalize hm : Node.inner rule [n] = m at h
    cases h with
    | only _ h =>
      obtain ⟨-, rfl⟩ : _ ∧ n = _ := by simpa using hm
      exact h
    -- a node with one child cannot be a longer chain, as no chain is empty on the left
    | @logic op left k hleft =>
      cases left with
      | nil => exact absurd hleft not_hasType_nil
      | cons => simp at hm
    | arith =>
      have hlength := congrArg (fun m => m.children.length) hm
      simp [children] at hlength
    | _ => simp_all [ofVar, ofCall, Rule.passes, operator]
  · exact .only hrule

/-- The node of every level hands on what its only child has. -/
theorem Level.passes_rule (level : Level) : level.rule.passes := by cases level <;> rfl

/-- A node around which there are nodes of looser levels is that node. -/
theorem hasType_wrap (outer inner : Level) {n : Node} :
    HasType Γ (outer.wrap inner n) type ↔ HasType Γ n type := by
  unfold Level.wrap
  generalize (Level.all.drop outer.rank).take (inner.rank - outer.rank) = levels
  induction levels with
  | nil => rfl
  | cons level levels ih => rw [List.foldr_cons, hasType_only (Level.passes_rule level), ih]

/-! ## Nodes and their types -/

/-- A constant has its type and no other. -/
theorem hasType_literal {v : Located Literal} :
    HasType Γ (.leaf .constant (v.map Literal.token)) type ↔ type = v.value.type := by
  constructor
  · intro h
    generalize hm : Node.leaf .constant (v.map Literal.token) = m at h
    cases h with
    | @literal u =>
      obtain ⟨v, _⟩ := v
      obtain ⟨u, _⟩ := u
      cases v <;> cases u <;> simp_all [Located.map, Literal.token, Literal.type]
    | _ => simp_all [ofVar, ofCall]
  · rintro rfl
    exact .literal

theorem hasType_var {n : Name} :
    HasType Γ (.ofVar n) type ↔ ∃ v, Γ.Sees n v ∧ type = .ofSlot v.slot := by
  constructor
  · intro h
    generalize hm : Node.ofVar n = m at h
    cases h with
    | @var k v hv =>
      obtain rfl : n = k := by simpa [ofVar, name_node_inj] using hm
      exact ⟨v, hv, rfl⟩
    | only hrule =>
      obtain ⟨rfl, -⟩ : _ ∧ _ := by simpa [ofVar] using hm
      cases hrule
    | @arith op =>
      exact (Level.ne_rule_ofArith .mutable (by decide) op.value (congrArg Node.rule hm)).elim
    | @logic op =>
      exact (Level.ne_rule_ofLogic .mutable (by decide) op (congrArg Node.rule hm)).elim
    | _ => simp_all [ofVar, ofCall]
  · rintro ⟨v, hv, rfl⟩
    exact .var hv

/-- The node of an element has the type of its array, and its index is an integer. -/
theorem hasType_elem {n : Name} {i : Node} :
    HasType Γ (.inner .mutable [n.node, i]) type ↔
      ∃ v, Γ.Sees n v ∧ v.isArray ∧ type = .scalar v.type ∧ HasType Γ i (.scalar .int) := by
  constructor
  · intro h
    generalize hm : Node.inner .mutable [n.node, i] = m at h
    cases h with
    | @elem k v j hv ha hi =>
      obtain ⟨rfl, rfl⟩ : n = k ∧ i = j := by simpa [name_node_inj] using hm
      exact ⟨v, hv, ha, rfl, hi⟩
    | @arith op =>
      exact (Level.ne_rule_ofArith .mutable (by decide) op.value (congrArg Node.rule hm)).elim
    | @logic op =>
      exact (Level.ne_rule_ofLogic .mutable (by decide) op (congrArg Node.rule hm)).elim
    | _ => simp_all [ofVar, ofCall]
  · rintro ⟨v, hv, ha, rfl, hi⟩
    exact .elem hv ha hi

/-- A sign and `?` stand before integers, and the length before an array. -/
theorem hasType_lead {op : Located LeadOp} {n : Node} :
    HasType Γ (.inner .unaryExpression [.operator (op.map LeadOp.token), n]) type ↔
      type = .scalar .int ∧
        (op.value ≠ .length ∧ HasType Γ n (.scalar .int) ∨
          op.value = .length ∧ ∃ t, HasType Γ n (.array t)) := by
  constructor
  · intro h
    generalize hm : Node.inner .unaryExpression [.operator (op.map LeadOp.token), n] = m at h
    have hvalue : ∀ {o : Located LeadOp}, op.map LeadOp.token = o.map LeadOp.token →
        op.value = o.value := by
      intro o ho
      have htoken : op.value.token = o.value.token := congrArg Located.value ho
      cases hop : op.value <;> cases ho : o.value <;> simp_all [LeadOp.token]
    cases h with
    | lead hop hn =>
      obtain ⟨htoken, rfl⟩ : _ ∧ n = _ := by simpa [operator] using hm
      exact ⟨rfl, .inl ⟨hvalue htoken ▸ hop, hn⟩⟩
    | length hop hn =>
      obtain ⟨htoken, rfl⟩ : _ ∧ n = _ := by simpa [operator] using hm
      exact ⟨rfl, .inr ⟨hvalue htoken ▸ hop, _, hn⟩⟩
    | @arith op =>
      exact (Level.ne_rule_ofArith .unaryExpression (by decide) op.value
        (congrArg Node.rule hm)).elim
    | @logic op =>
      exact (Level.ne_rule_ofLogic .unaryExpression (by decide) op (congrArg Node.rule hm)).elim
    | _ => simp_all [ofVar, ofCall]
  · rintro ⟨rfl, ⟨hop, hn⟩ | ⟨hop, t, hn⟩⟩
    · exact .lead hop hn
    · exact .length hop hn

/-- A chain of arithmetic has integers to the left and to the right of its last operator. -/
theorem hasType_arith {op : Located ArithOp} {left : List Node} {n : Node} :
    HasType Γ (.inner (Level.ofArith op.value).rule
        (left ++ [.operator (op.map ArithOp.token), n])) type ↔
      type = .scalar .int ∧
        HasType Γ (.inner (Level.ofArith op.value).rule left) (.scalar .int) ∧
        HasType Γ n (.scalar .int) := by
  constructor
  · intro h
    generalize hm : Node.inner (Level.ofArith op.value).rule
      (left ++ [.operator (op.map ArithOp.token), n]) = m at h
    have hrule := congrArg Node.rule hm
    have hchildren := congrArg Node.children hm
    cases h with
    | @arith op' left' n' hleft hn =>
      obtain ⟨rfl, hlast⟩ := List.append_inj' hchildren rfl
      obtain ⟨-, rfl⟩ : _ ∧ n = n' := by simpa using hlast
      exact ⟨rfl, by rwa [show (Level.ofArith op.value).rule = _ from hrule], hn⟩
    | only =>
      have hlength := congrArg List.length hchildren
      simp [children] at hlength
    | @logic op' =>
      exact (Level.ne_rule_ofLogic (Level.ofArith op.value).rule (by cases op.value <;> decide) op'
        hrule).elim
    | literal => cases hm
    | _ =>
      exact (Level.ne_rule_ofArith _ (by simp [rule, ofVar, ofCall]) op.value hrule.symm).elim
  · rintro ⟨rfl, hleft, hn⟩
    exact .arith hleft hn

/-- A chain of logical operators has truth values to the left and to the right of its last operator.
-/
theorem hasType_logic {op : LogicOp} {left : List Node} (hleft : left ≠ []) {n : Node} :
    HasType Γ (.inner (Level.ofLogic op).rule (left ++ [n])) type ↔
      type = .scalar .bool ∧ HasType Γ (.inner (Level.ofLogic op).rule left) (.scalar .bool) ∧
        HasType Γ n (.scalar .bool) := by
  constructor
  · intro h
    generalize hm : Node.inner (Level.ofLogic op).rule (left ++ [n]) = m at h
    have hrule := congrArg Node.rule hm
    have hchildren := congrArg Node.children hm
    cases h with
    | @logic op' left' n' h hn =>
      obtain ⟨rfl, hlast⟩ := List.append_inj' hchildren rfl
      obtain rfl : n = n' := by simpa using hlast
      exact ⟨rfl, by rwa [show (Level.ofLogic op).rule = _ from hrule], hn⟩
    | only =>
      have hlength := congrArg List.length hchildren
      simp [children, hleft] at hlength
    | @arith op' =>
      exact (Level.ne_rule_ofArith (Level.ofLogic op).rule (by cases op <;> decide) op'.value
        hrule).elim
    | literal => cases hm
    | _ =>
      exact (Level.ne_rule_ofLogic _ (by simp [rule, ofVar, ofCall]) op hrule.symm).elim
  · rintro ⟨rfl, h, hn⟩
    exact .logic h hn

/-- A comparison has two words of one type, which its operator compares. -/
theorem hasType_compare {op : Located RelOp} {l r : Node} :
    HasType Γ (.inner .relExpression [l, .operator (op.map .relation), r]) type ↔
      type = .scalar .bool ∧ ∃ t, op.value.Compares t ∧ HasType Γ l (.scalar t) ∧
        HasType Γ r (.scalar t) := by
  constructor
  · intro h
    generalize hm : Node.inner .relExpression [l, .operator (op.map .relation), r] = m at h
    cases h with
    | @compare op' l' r' t hop hl hr =>
      obtain ⟨rfl, htoken, rfl⟩ : l = l' ∧ _ ∧ r = r' := by simpa [operator] using hm
      have hvalue : op.value = op'.value :=
        Token.relation.inj (congrArg Located.value htoken)
      exact ⟨rfl, t, hvalue ▸ hop, hl, hr⟩
    | @arith op =>
      exact (Level.ne_rule_ofArith .relExpression (by decide) op.value (congrArg Node.rule hm)).elim
    | @logic op =>
      exact (Level.ne_rule_ofLogic .relExpression (by decide) op (congrArg Node.rule hm)).elim
    | _ => simp_all [ofVar, ofCall]
  · rintro ⟨rfl, t, hop, hl, hr⟩
    exact .compare hop hl hr

theorem hasType_negate {word : Span} {n : Node} :
    HasType Γ (.inner .unaryRelExpression [.operator ⟨.keyword .not, word⟩, n]) type ↔
      type = .scalar .bool ∧ HasType Γ n (.scalar .bool) := by
  constructor
  · intro h
    generalize hm : Node.inner .unaryRelExpression [.operator ⟨.keyword .not, word⟩, n] = m at h
    cases h with
    | @negate word' n' hn =>
      obtain ⟨-, rfl⟩ : _ ∧ n = n' := by simpa [operator] using hm
      exact ⟨rfl, hn⟩
    | @arith op =>
      exact (Level.ne_rule_ofArith .unaryRelExpression (by decide) op.value
        (congrArg Node.rule hm)).elim
    | @logic op =>
      exact (Level.ne_rule_ofLogic .unaryRelExpression (by decide) op (congrArg Node.rule hm)).elim
    | _ => simp_all [ofVar, ofCall]
  · rintro ⟨rfl, hn⟩
    exact .negate hn

theorem hasType_step {p : Node} {op : Located StepOp} :
    HasType Γ (.inner .expression [p, .operator (op.map .step)]) type ↔
      type = .effect ∧ p.IsPlace ∧ HasType Γ p (.scalar .int) := by
  constructor
  · intro h
    generalize hm : Node.inner .expression [p, .operator (op.map .step)] = m at h
    cases h with
    | @step p' op' hplace hp =>
      obtain ⟨rfl, -⟩ : p = p' ∧ _ := by simpa [operator] using hm
      exact ⟨rfl, hplace, hp⟩
    | @arith op =>
      exact (Level.ne_rule_ofArith .expression (by decide) op.value (congrArg Node.rule hm)).elim
    | @logic op =>
      exact (Level.ne_rule_ofLogic .expression (by decide) op (congrArg Node.rule hm)).elim
    | _ => simp_all [ofVar, ofCall]
  · rintro ⟨rfl, hplace, hp⟩
    exact .step hplace hp

/-- An assignment of a whole array. -/
def Copies (Γ : Names) (p v : Node) : Prop :=
  ∃ x y a b, p.mutable? = some (.ofVar x) ∧ v.mutable? = some (.ofVar y) ∧ Γ.Sees x a ∧
    Γ.Sees y b ∧ a.type = b.type ∧ a.Sized ∧ b.Sized

/-- An assignment is one of words of one type or one of whole arrays. -/
theorem hasType_assign {p v : Node} {op : Located AssignOp} :
    HasType Γ (.inner .expression [p, .operator (op.map .assign), v]) type ↔
      type = .effect ∧
        (p.IsPlace ∧ (∃ t, (op.value = .set ∨ t = .int) ∧ HasType Γ p (.scalar t) ∧
          HasType Γ v (.scalar t)) ∨ op.value = .set ∧ Copies Γ p v) := by
  constructor
  · intro h
    generalize hm : Node.inner .expression [p, .operator (op.map .assign), v] = m at h
    have hvalue : ∀ {o : Located AssignOp}, op.map Token.assign = o.map Token.assign →
        op.value = o.value := fun h => Token.assign.inj (congrArg Located.value h)
    cases h with
    | @assign p' op' v' t hop hplace hp hv =>
      obtain ⟨rfl, htoken, rfl⟩ : p = p' ∧ _ ∧ v = v' := by simpa [operator] using hm
      exact ⟨rfl, .inl ⟨hplace, t, .inl ((hvalue htoken).trans hop), hp, hv⟩⟩
    | @compound p' op' v' hop hplace hp hv =>
      obtain ⟨rfl, -, rfl⟩ : p = p' ∧ _ ∧ v = v' := by simpa [operator] using hm
      exact ⟨rfl, .inl ⟨hplace, .int, .inr rfl, hp, hv⟩⟩
    | @copy p' v' op' x y a b hop hx hy hp hv htype ha hb =>
      obtain ⟨rfl, htoken, rfl⟩ : p = p' ∧ _ ∧ v = v' := by simpa [operator] using hm
      exact ⟨rfl, .inr ⟨(hvalue htoken).trans hop, x, y, a, b, hx, hy, hp, hv, htype, ha, hb⟩⟩
    | @arith op =>
      exact (Level.ne_rule_ofArith .expression (by decide) op.value (congrArg Node.rule hm)).elim
    | @logic op =>
      exact (Level.ne_rule_ofLogic .expression (by decide) op (congrArg Node.rule hm)).elim
    | _ => simp_all [ofVar, ofCall]
  · rintro ⟨rfl, ⟨hplace, t, ht, hp, hv⟩ | ⟨hop, x, y, a, b, hx, hy, hp, hv, htype, ha, hb⟩⟩
    · by_cases hop : op.value = .set
      · exact .assign hop hplace hp hv
      · obtain rfl := ht.resolve_left hop
        exact .compound hop hplace hp hv
    · exact .copy hop hx hy hp hv htype ha hb

/-- What the arguments of a call have to be. -/
def Accepts (Γ : Names) (f : FunctionSymbol) (args : List Node) : Prop :=
  match f.body with
  | .routine _ => List.Forall₂ (fun a s => HasType Γ a (.ofSlot s)) args f.params
  | .intrinsic .print =>
    (∃ a type, args = [a] ∧ HasType Γ a type ∧ type.HasText) ∨
      ∃ a rest types, args = a :: rest ∧ rest ≠ [] ∧ HasType Γ a .str ∧
        List.Forall₂ (HasType Γ) rest types ∧ ∀ type ∈ types, type.HasText
  | .intrinsic .put => args ≠ [] ∧ (∀ a ∈ args, a.IsPlace) ∧
      ∃ types, List.Forall₂ (fun a t => HasType Γ a (.scalar t)) args types

/-- A call has the type of a function that takes its arguments. -/
theorem hasType_call {n : Name} {args : List Node} :
    HasType Γ (.ofCall n args) type ↔
      ∃ f, Γ.Knows n f ∧ type = Rules.callType f ∧ Accepts Γ f args := by
  constructor
  · intro h
    generalize hm : Node.ofCall n args = m at h
    have hcall : ∀ {k : Name} {as : List Node}, Node.ofCall n args = .ofCall k as →
        n = k ∧ args = as := by
      intro k as h
      simpa [ofCall, name_node_inj] using h
    -- Of the rules of types only these are about the node of a call.
    cases h with
    | @call _ f k _ hf hbody hargs =>
      obtain ⟨rfl, rfl⟩ := hcall hm
      exact ⟨f, hf, by rw [Rules.callType, hbody], by rwa [Accepts, hbody]⟩
    | @print _ f a t hf hbody ha ht =>
      obtain ⟨rfl, rfl⟩ := hcall hm
      refine ⟨f, hf, by rw [Rules.callType, hbody], ?_⟩
      rw [Accepts, hbody]
      exact .inl ⟨a, t, rfl, ha, ht⟩
    | @printFormat _ f a rest types hf hbody hne ha hrest ht =>
      obtain ⟨rfl, rfl⟩ := hcall hm
      refine ⟨f, hf, by rw [Rules.callType, hbody], ?_⟩
      rw [Accepts, hbody]
      exact .inr ⟨a, rest, types, rfl, hne, ha, hrest, ht⟩
    | @put _ f _ types hf hbody hne hplaces hargs =>
      obtain ⟨rfl, rfl⟩ := hcall hm
      refine ⟨f, hf, by rw [Rules.callType, hbody], ?_⟩
      rw [Accepts, hbody]
      exact ⟨hne, hplaces, types, hargs⟩
    | @arith op =>
      exact (Level.ne_rule_ofArith .call (by decide) op.value (congrArg Node.rule hm)).elim
    | @logic op =>
      exact (Level.ne_rule_ofLogic .call (by decide) op (congrArg Node.rule hm)).elim
    | _ => simp_all [ofVar, ofCall]
  · rintro ⟨f, hf, rfl, hargs⟩
    unfold Accepts at hargs
    unfold Rules.callType
    split at hargs <;> rename_i hbody <;> simp only [hbody]
    · exact .call hf hbody hargs
    · rcases hargs with ⟨a, t, rfl, ha, ht⟩ | ⟨a, rest, types, rfl, hne, ha, hrest, ht⟩
      · exact .print hf hbody ha ht
      · exact .printFormat hf hbody hne ha hrest ht
    · obtain ⟨hne, hplaces, types, htypes⟩ := hargs
      exact .put hf hbody hne hplaces htypes

/-- A node around which there are nodes of looser levels is a place if it is one itself. -/
theorem mutable?_wrap (outer inner : Level) (n : Node) :
    (outer.wrap inner n).mutable? = n.mutable? := by
  unfold Level.wrap
  generalize (Level.all.drop outer.rank).take (inner.rank - outer.rank) = levels
  induction levels with
  | nil => rfl
  | cons level levels ih =>
    rw [List.foldr_cons, ← ih]
    cases level <;> rfl

end Node

/-! ## Expressions and their types -/

namespace Expr

variable {Γ : Names} {type : ExprType}

/-- The levels at which an expression stands do not change its type. -/
theorem hasType_at (level : Level) (e : Expr) :
    (e.nodeAt level).HasType Γ type ↔ e.HasType Γ type := Node.hasType_wrap _ _

/-- The node of an expression has the rule of its level. -/
theorem core_eq (e : Expr) : e.core = .inner e.level.rule e.core.children := by
  cases e <;> rfl

/-- A chain of a level has the type of the expression that it is. -/
theorem hasType_chain (level : Level) (e : Expr) :
    (Node.inner level.rule (e.chain level e.core)).HasType Γ type ↔ e.HasType Γ type := by
  unfold chain
  split
  · rename_i hlevel
    rw [← hlevel, ← core_eq]
  · rw [Node.hasType_only (Node.Level.passes_rule level), Node.hasType_wrap]

/-- A chain has one node at least. -/
theorem chain_ne_nil (level : Level) (e : Expr) : e.chain level e.core ≠ [] := by
  unfold chain
  split
  · cases e <;> simp [core, Node.children]
  · simp

theorem coreOf_eq (es : List Expr) : coreOf es = es.map node := by
  induction es with
  | nil => rfl
  | cons e es ih => rw [coreOf, ih]; rfl

/-- The variable or element that an expression is. -/
theorem mutable?_core (e : Expr) : e.core.mutable? =
    match e with
    | .var n => some (.ofVar n)
    | .elem n i => some (.inner .mutable [n.node, i.node])
    | _ => none := by
  cases e with
  | arith l op r =>
    rw [core]
    cases hop : op.value <;> cases l.chain _ l.core with
    | nil => rfl
    | cons _ cs => cases cs <;> rfl
  | logic op l r =>
    have hne := chain_ne_nil (Level.ofLogic op) l
    rw [core]
    cases hc : l.chain (Level.ofLogic op) l.core with
    | nil => exact absurd hc hne
    | cons _ cs => cases op <;> cases cs <;> rfl
  | _ => rfl

/-- The levels at which a place stands do not hide it. -/
theorem mutable?_at (level : Level) (e : Expr) : (e.nodeAt level).mutable? = e.core.mutable? :=
  Node.mutable?_wrap _ _ _

/-! The types of an expression, form by form. -/

theorem hasType_literal {v : Located Literal} :
    (literal v).HasType Γ type ↔ type = v.value.type := by
  refine (Node.hasType_only rfl).trans ((Node.hasType_only rfl).trans ?_)
  exact Node.hasType_literal

theorem hasType_var {n : Name} :
    (var n).HasType Γ type ↔ ∃ v, Γ.Sees n v ∧ type = .ofSlot v.slot := by
  refine (Node.hasType_only rfl).trans ?_
  exact Node.hasType_var

theorem hasType_elem {n : Name} {i : Expr} :
    (elem n i).HasType Γ type ↔
      ∃ v, Γ.Sees n v ∧ v.isArray ∧ type = .scalar v.type ∧ i.HasType Γ (.scalar .int) := by
  refine (Node.hasType_only rfl).trans (Node.hasType_elem.trans ?_)
  simp only [Node.hasType_wrap]

/-- Parentheses do not change a type. -/
theorem hasType_paren {e : Expr} : (paren e).HasType Γ type ↔ e.HasType Γ type := by
  refine (Node.hasType_only rfl).trans ((Node.hasType_only rfl).trans ?_)
  exact Node.hasType_wrap _ _

theorem hasType_lead {op : Located LeadOp} {e : Expr} :
    (lead op e).HasType Γ type ↔ type = .scalar .int ∧
      (op.value ≠ .length ∧ e.HasType Γ (.scalar .int) ∨
        op.value = .length ∧ ∃ t, e.HasType Γ (.array t)) := by
  refine Node.hasType_lead.trans ?_
  simp only [Node.hasType_wrap]

/-- Read off the expression, the rule for arithmetic does not mention chains. -/
theorem hasType_arith {l r : Expr} {op : Located ArithOp} :
    (arith l op r).HasType Γ type ↔ type = .scalar .int ∧ l.HasType Γ (.scalar .int) ∧
      r.HasType Γ (.scalar .int) := by
  refine Node.hasType_arith.trans ?_
  rw [hasType_chain, Node.hasType_wrap]

theorem hasType_compare {l r : Expr} {op : Located RelOp} :
    (compare l op r).HasType Γ type ↔ type = .scalar .bool ∧ ∃ t, op.value.Compares t ∧
      l.HasType Γ (.scalar t) ∧ r.HasType Γ (.scalar t) := by
  refine Node.hasType_compare.trans ?_
  simp only [Node.hasType_wrap]

theorem hasType_negate {word : Span} {e : Expr} :
    (negate word e).HasType Γ type ↔ type = .scalar .bool ∧ e.HasType Γ (.scalar .bool) := by
  refine Node.hasType_negate.trans ?_
  rw [Node.hasType_wrap]

/-- Read off the expression, the rule for logical operators does not mention chains. -/
theorem hasType_logic {op : LogicOp} {l r : Expr} :
    (logic op l r).HasType Γ type ↔ type = .scalar .bool ∧ l.HasType Γ (.scalar .bool) ∧
      r.HasType Γ (.scalar .bool) := by
  refine (Node.hasType_logic (chain_ne_nil _ _)).trans ?_
  rw [hasType_chain, Node.hasType_wrap]

/-- An expression is nothing but a variable or an element. -/
def IsPlace : Expr → Prop
  | .var _ | .elem _ _ => True
  | _ => False

/-- A place is one at all levels. -/
theorem isPlace_at (level : Level) (e : Expr) : (e.nodeAt level).IsPlace ↔ e.IsPlace := by
  rw [Node.IsPlace, mutable?_at, mutable?_core]
  cases e <;> simp [IsPlace]

theorem hasType_step {p : Expr} {op : Located StepOp} :
    (step p op).HasType Γ type ↔ type = .effect ∧ p.IsPlace ∧ p.HasType Γ (.scalar .int) := by
  refine Node.hasType_step.trans ?_
  exact and_congr_right fun _ => and_congr (isPlace_at .disjunction p) (Node.hasType_wrap _ _)

/-- Both expressions are arrays of known lengths and of words of one type. -/
def Copies (Γ : Names) (p v : Expr) : Prop :=
  ∃ x y a b, p = .var x ∧ v = .var y ∧ Γ.Sees x a ∧ Γ.Sees y b ∧ a.type = b.type ∧ a.Sized ∧ b.Sized

/-- What names a whole variable is the variable itself. -/
theorem mutable?_at_eq_ofVar {level : Level} {e : Expr} {n : Name} :
    (e.nodeAt level).mutable? = some (.ofVar n) ↔ e = .var n := by
  rw [mutable?_at, mutable?_core]
  cases e <;> simp [Node.ofVar, Node.name_node_inj]

/-- For expressions, too, an assignment is one of words or one of whole arrays. -/
theorem hasType_assign {p v : Expr} {op : Located AssignOp} :
    (assign p op v).HasType Γ type ↔ type = .effect ∧
      (p.IsPlace ∧ (∃ t, (op.value = .set ∨ t = .int) ∧ p.HasType Γ (.scalar t) ∧
        v.HasType Γ (.scalar t)) ∨ op.value = .set ∧ Copies Γ p v) := by
  refine Node.hasType_assign.trans ?_
  refine and_congr_right fun _ => or_congr (and_congr (isPlace_at .disjunction p) ?_)
    (and_congr_right fun _ => ?_)
  · simp only [Node.hasType_wrap]
  · unfold Node.Copies Copies
    simp only [show Level.disjunction.wrap p.level p.core = p.nodeAt .disjunction from rfl,
      show Level.assignment.wrap v.level v.core = v.nodeAt .assignment from rfl,
      mutable?_at_eq_ofVar]

/-- What the arguments of a call have to be. -/
def Accepted (Γ : Names) (f : FunctionSymbol) (args : List Expr) : Prop :=
  match f.body with
  | .routine _ => List.Forall₂ (fun a s => HasType Γ a (.ofSlot s)) args f.params
  | .intrinsic .print =>
    (∃ a type, args = [a] ∧ a.HasType Γ type ∧ type.HasText) ∨
      ∃ a rest, args = a :: rest ∧ rest ≠ [] ∧ a.HasType Γ .str ∧
        ∀ b ∈ rest, ∃ type, b.HasType Γ type ∧ type.HasText
  | .intrinsic .put =>
    args ≠ [] ∧ ∀ a ∈ args, a.IsPlace ∧ ∃ t, a.HasType Γ (.scalar t)

/-- Each has something that fits it. -/
theorem exists_forall₂ {α β : Type} {R : α → β → Prop} {p : β → Prop} (xs : List α) :
    (∃ ys, List.Forall₂ R xs ys ∧ ∀ y ∈ ys, p y) ↔ ∀ x ∈ xs, ∃ y, R x y ∧ p y := by
  induction xs with
  | nil => simp
  | cons x xs ih =>
    simp only [List.forall_mem_cons, ← ih, List.forall₂_cons_left_iff]
    constructor
    · rintro ⟨_, ⟨y, ys, hy, hys, rfl⟩, hp⟩
      obtain ⟨hpy, hp⟩ := List.forall_mem_cons.mp hp
      exact ⟨⟨y, hy, hpy⟩, ys, hys, hp⟩
    · rintro ⟨⟨y, hy, hpy⟩, ys, hys, hp⟩
      exact ⟨_, ⟨y, ys, hy, hys, rfl⟩, List.forall_mem_cons.mpr ⟨hpy, hp⟩⟩

/-- Arguments are taken as nodes or as expressions. -/
theorem accepts_coreOf {f : FunctionSymbol} {args : List Expr} :
    Node.Accepts Γ f (coreOf args) ↔ Accepted Γ f args := by
  have hnode (e : Expr) (type : ExprType) : e.node.HasType Γ type ↔ e.HasType Γ type :=
    hasType_at .assignment e
  rw [coreOf_eq]
  unfold Node.Accepts Accepted
  split
  · rw [List.forall₂_map_left_iff]
    simp only [hnode]
  · refine or_congr ?_ ?_
    · constructor
      · rintro ⟨_, type, hargs, ha, ht⟩
        obtain ⟨a, rfl, rfl⟩ := List.map_eq_singleton_iff.mp hargs
        exact ⟨a, type, rfl, (hnode _ _).mp ha, ht⟩
      · rintro ⟨a, type, rfl, ha, ht⟩
        exact ⟨_, type, rfl, (hnode _ _).mpr ha, ht⟩
    · have hrest (rest : List Expr) :
        (∃ types, List.Forall₂ (Node.HasType Γ) (rest.map node) types ∧
          ∀ type ∈ types, type.HasText) ↔ ∀ b ∈ rest, ∃ type, b.HasType Γ type ∧ type.HasText := by
        simp only [exists_forall₂, List.forall_mem_map, hnode]
      constructor
      · rintro ⟨_, _, types, hargs, hne, ha, htypes⟩
        obtain ⟨a, rest, rfl, rfl, rfl⟩ := List.map_eq_cons_iff.mp hargs
        exact ⟨a, rest, rfl, by simpa using hne, (hnode _ _).mp ha, (hrest rest).mp ⟨types, htypes⟩⟩
      · rintro ⟨a, rest, rfl, hne, ha, hall⟩
        obtain ⟨types, htypes⟩ := (hrest rest).mpr hall
        exact ⟨_, _, types, rfl, by simpa using hne, (hnode _ _).mpr ha, htypes⟩
  · have hplace (e : Expr) : e.node.IsPlace ↔ e.IsPlace := isPlace_at .assignment e
    have htypes := exists_forall₂ (args.map node) (R := fun a t => Node.HasType Γ a (.scalar t))
      (p := fun _ => True)
    simp only [implies_true, and_true] at htypes
    simp only [htypes, List.forall_mem_map, hnode, hplace, ne_eq, List.map_eq_nil_iff, forall_and]

/-- For expressions, too, a call has the type of a function that takes its arguments. -/
theorem hasType_call {n : Name} {args : List Expr} :
    (call n args).HasType Γ type ↔
      ∃ f, Γ.Knows n f ∧ type = Rules.callType f ∧ Accepted Γ f args := by
  simp only [← accepts_coreOf]
  refine (Node.hasType_only rfl).trans ((Node.hasType_only rfl).trans ?_)
  exact Node.hasType_call

/-- An expression has at most one type. -/
theorem HasType.unique {e : Expr} {type' : ExprType} (h : e.HasType Γ type)
    (h' : e.HasType Γ type') : type = type' := by
  have hsees {n : Name} {v w : Symbol} (hv : Γ.Sees n v) (hw : Γ.Sees n w) : v = w :=
    Option.some.inj (hv.1.symm.trans hw.1)
  induction e using Expr.induct generalizing type type' with
  | literal v => rw [hasType_literal.mp h, hasType_literal.mp h']
  | var n =>
    obtain ⟨v, hv, rfl⟩ := hasType_var.mp h
    obtain ⟨w, hw, rfl⟩ := hasType_var.mp h'
    rw [hsees hv hw]
  | elem n i =>
    obtain ⟨v, hv, -, rfl, -⟩ := hasType_elem.mp h
    obtain ⟨w, hw, -, rfl, -⟩ := hasType_elem.mp h'
    rw [hsees hv hw]
  | paren e ih => exact ih (hasType_paren.mp h) (hasType_paren.mp h')
  | call n args =>
    obtain ⟨f, hf, rfl, -⟩ := hasType_call.mp h
    obtain ⟨f', hf', rfl, -⟩ := hasType_call.mp h'
    rw [Option.some.inj (hf.symm.trans hf')]
  | lead op e => rw [(hasType_lead.mp h).1, (hasType_lead.mp h').1]
  | arith l op r => rw [(hasType_arith.mp h).1, (hasType_arith.mp h').1]
  | compare l op r => rw [(hasType_compare.mp h).1, (hasType_compare.mp h').1]
  | negate word e => rw [(hasType_negate.mp h).1, (hasType_negate.mp h').1]
  | logic op l r => rw [(hasType_logic.mp h).1, (hasType_logic.mp h').1]
  | step p op => rw [(hasType_step.mp h).1, (hasType_step.mp h').1]
  | assign p op v => rw [(hasType_assign.mp h).1, (hasType_assign.mp h').1]

end Expr

end OnePass
