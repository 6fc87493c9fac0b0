import OnePass.Proofs.ExpressionNodes

/-!
# Bare variables

What can be assigned to. A node is asked for the variable or element that it is nothing but, and the
way down to that leads through only children (`Node.mutable?`). Main statement: whatever expression
a call of the parser makes, at any place in any tokens, its node names a variable or element exactly
if the tokens that were taken are a name alone, or a name and one expression in brackets behind it;
the node that is named is that of the variable or element. Operators outside all brackets,
parentheses, calls, constants and assignments name nothing (`Parser.tells_places`).

The tokens of an expression are that expression whatever comes behind them
(`Phrase.Derives.exists_tokens`), and they are no other one (`Expr.Whole.unique`): the parser, which
takes all of them, makes only one thing of them. So the expression is known from tokens that are
bare. -/

namespace OnePass

/-! ## Phrases by themselves -/

section

variable {p : Phrase} {e e' : Expr} {ts r : Tokens}

/-- Tokens that are a phrase are the same phrase in front of any others. -/
theorem Phrase.Derives.exists_tokens (h : p.Derives ts r) :
    ∃ us, ts = us ++ r ∧ ∀ q, p.Derives (us ++ q) q := by
  -- Each case gives the tokens of the phrase; the rest of the text is passed through.
  induction h with
  | @assign _ op _ _ _ _ _ _ ih ih' =>
    obtain ⟨vs, rfl, h'⟩ := ih'
    obtain ⟨us, rfl, h⟩ := ih
    exact ⟨us ++ op.map .assign :: vs, by simp, fun q => by simpa using .assign (h _) (h' q)⟩
  | @step _ op _ _ _ ih =>
    obtain ⟨us, rfl, h⟩ := ih
    exact ⟨us ++ [op.map .step], by simp, fun q => by simpa using .step (h _)⟩
  | @logic _ op _ _ span _ _ _ hlevel _ _ ih ih' =>
    obtain ⟨vs, rfl, h'⟩ := ih'
    obtain ⟨us, rfl, h⟩ := ih
    exact ⟨us ++ ⟨.keyword op.keyword, span⟩ :: vs, by simp,
      fun q => by simpa using .logic hlevel (h _) (h' q)⟩
  | @compare _ op _ _ _ _ _ _ ih ih' =>
    obtain ⟨vs, rfl, h'⟩ := ih'
    obtain ⟨us, rfl, h⟩ := ih
    exact ⟨us ++ op.map .relation :: vs, by simp, fun q => by simpa using .compare (h _) (h' q)⟩
  | @arith _ _ op _ _ _ _ hlevel _ _ ih ih' =>
    obtain ⟨vs, rfl, h'⟩ := ih'
    obtain ⟨us, rfl, h⟩ := ih
    exact ⟨us ++ op.map ArithOp.token :: vs, by simp,
      fun q => by simpa using .arith hlevel (h _) (h' q)⟩
  | negate _ ih =>
    obtain ⟨us, rfl, h⟩ := ih
    exact ⟨_ :: us, rfl, fun q => .negate (h q)⟩
  | lead _ ih =>
    obtain ⟨us, rfl, h⟩ := ih
    exact ⟨_ :: us, rfl, fun q => .lead (h q)⟩
  | @paren _ span span' _ _ _ ih =>
    obtain ⟨us, rfl, h⟩ := ih
    exact ⟨⟨.openParen, span⟩ :: (us ++ [⟨.closeParen, span'⟩]), by simp,
      fun q => by simpa using .paren (h _)⟩
  | literal => exact ⟨[_], rfl, fun _ => .literal⟩
  | var => exact ⟨[_], rfl, fun _ => .var⟩
  | @elem n _ span span' _ _ _ ih =>
    obtain ⟨us, rfl, h⟩ := ih
    exact ⟨n.map .ident :: ⟨.openSquare, span⟩ :: (us ++ [⟨.closeSquare, span'⟩]), by simp,
      fun q => by simpa using .elem (h _)⟩
  | callNone => exact ⟨[_, _, _], rfl, fun _ => .callNone⟩
  | @call n _ span span' _ _ _ ih =>
    obtain ⟨us, rfl, h⟩ := ih
    exact ⟨n.map .ident :: ⟨.openParen, span⟩ :: (us ++ [⟨.closeParen, span'⟩]), by simp,
      fun q => by simpa using .call (h _)⟩
  | tighter hlevel _ ih =>
    obtain ⟨us, rfl, h⟩ := ih
    exact ⟨us, rfl, fun q => .tighter hlevel (h q)⟩
  | arg _ ih =>
    obtain ⟨us, rfl, h⟩ := ih
    exact ⟨us, rfl, fun q => .arg (h q)⟩
  | @moreArgs _ _ span _ _ _ _ _ ih ih' =>
    obtain ⟨vs, rfl, h'⟩ := ih'
    obtain ⟨us, rfl, h⟩ := ih
    exact ⟨us ++ ⟨.comma, span⟩ :: vs, by simp, fun q => by simpa using .moreArgs (h _) (h' q)⟩

/-- The tokens of an expression are that expression also alone. -/
theorem Expr.Whole.exists_alone (h : e.Whole ts r) : ∃ us, ts = us ++ r ∧ e.Whole us [] := by
  obtain ⟨us, hts, hus⟩ := Phrase.Derives.exists_tokens h
  have halone := hus []
  rw [List.append_nil] at halone
  exact ⟨us, hts, halone⟩

/-- Tokens are one expression at most. -/
theorem Expr.Whole.unique (h : e.Whole ts []) (h' : e'.Whole ts []) : e = e' := by
  have hnil : Follows .assignment [] := nofun
  obtain ⟨s, hs, -⟩ := Parser.accepts_expr h hnil ⟨.ofList ts, Reader.start, #[]⟩ rfl
  obtain ⟨s', hs', -⟩ := Parser.accepts_expr h' hnil ⟨.ofList ts, Reader.start, #[]⟩ rfl
  exact Except.ok.inj (congrArg Prod.fst (hs.symm.trans hs'))

namespace Expr

variable {level : Level} {n : Name} {i : Expr}

/-- What has no operators outside may stand at any level. -/
theorem Derives.of_atom (h : e.Derives .atom ts r) (level : Level) : e.Derives level ts r := by
  -- on the number of levels between
  induction hcount : Level.atom.rank - level.rank generalizing level with
  | zero =>
    obtain rfl : level = .atom := by
      cases level <;> first | rfl | cases hcount
    exact h
  | succ k ih =>
    have hlevel : level ≠ .atom := by
      rintro rfl
      cases hcount
    refine .tighter hlevel (ih _ ?_)
    rw [Level.rank_tighter hlevel]
    omega

theorem Derives.var_tokens (h : (var n).Derives level ts r) : ts = n.map .ident :: r := by
  unfold Derives at h
  generalize hp : Phrase.expr level (var n) = p at h
  induction h generalizing level with
  | var => cases hp; rfl
  | tighter _ _ ih => cases hp; exact ih rfl
  | _ => cases hp

theorem Derives.elem_tokens (h : (elem n i).Derives level ts r) : ∃ span span' us,
    ts = n.map .ident :: ⟨.openSquare, span⟩ :: us ∧ i.Whole us (⟨.closeSquare, span'⟩ :: r) := by
  unfold Derives at h
  generalize hp : Phrase.expr level (elem n i) = p at h
  induction h generalizing level with
  | elem hi => cases hp; exact ⟨_, _, _, rfl, hi⟩
  | tighter _ _ ih => cases hp; exact ih rfl
  | _ => cases hp

end Expr

end

/-! ## Brackets -/

/-- Whether a token opens or closes what is in parentheses or brackets. -/
def Token.bracket? : Token → Option Bool
  | .openParen | .openSquare => some true
  | .closeParen | .closeSquare => some false
  | _ => none

/-- The tokens outside all parentheses and brackets, beginning inside `depth` of them. -/
def outside : Nat → Tokens → Tokens
  | _, [] => []
  | depth, t :: ts =>
    match t.value.bracket? with
    | some true => outside (depth + 1) ts
    | some false => outside (depth - 1) ts
    | none => if depth = 0 then t :: outside depth ts else outside depth ts

/-- Operators of expressions. -/
def Token.isOperator : Token → Bool
  | .assign _ | .step _ | .relation _ | .bound _ => true
  | .plus | .minus | .times | .divide | .percent | .question => true
  | .keyword .and | .keyword .or | .keyword .not => true
  | _ => false

section

variable {t : Located Token} {ts r : Tokens}

theorem outside_inner (ht : t.value.bracket? = none) (depth : Nat) :
    outside (depth + 1) (t :: ts) = outside (depth + 1) ts := by simp [outside, ht]

/-- Parentheses and brackets are closed in a phrase as often as they are opened. -/
theorem Phrase.Derives.outside_eq {p : Phrase} (h : p.Derives ts r) (depth : Nat) :
    outside (depth + 1) ts = outside (depth + 1) r := by
  -- Inside brackets all tokens but brackets are passed over; brackets need the depth to be general.
  induction h generalizing depth with
  | assign _ _ ih ih' => exact (ih depth).trans (ih' depth)
  | step _ ih => exact ih depth
  | logic _ _ _ ih ih' => exact (ih depth).trans (ih' depth)
  | negate _ ih => exact ih depth
  | compare _ _ ih ih' => exact (ih depth).trans (ih' depth)
  | @arith _ _ op _ _ _ _ _ _ _ ih ih' =>
    have hop : op.value.token.bracket? = none := by cases op.value <;> rfl
    exact (ih depth).trans ((outside_inner hop depth).trans (ih' depth))
  | @lead op _ _ _ _ ih =>
    have hop : op.value.token.bracket? = none := by cases op.value <;> rfl
    exact (outside_inner hop depth).trans (ih depth)
  | paren _ ih => exact ih (depth + 1)
  | @literal v r =>
    have hv : v.value.token.bracket? = none := by cases v.value <;> rfl
    exact outside_inner hv depth
  | var => rfl
  | elem _ ih => exact ih (depth + 1)
  | callNone => rfl
  | call _ ih => exact ih (depth + 1)
  | tighter _ _ ih => exact ih depth
  | arg _ ih => exact ih depth
  | moreArgs _ _ ih ih' => exact (ih depth).trans (ih' depth)

end

/-! ## Variables and elements -/

/-- The tokens are a variable alone, or a variable and one expression in brackets behind it, and `v`
is the node of that. -/
inductive BarePlace : Tokens → Node → Prop
  | var (n : Name) : BarePlace [n.map .ident] (.inner .mutable [n.node])
  | elem (n : Name) {i : Expr} {span span' : Span} {us : Tokens} : i.Whole us [] →
      BarePlace (n.map .ident :: ⟨.openSquare, span⟩ :: (us ++ [⟨.closeSquare, span'⟩]))
        (.inner .mutable [n.node, i.node])

namespace BarePlace

variable {us : Tokens} {v : Node} {t u : Located Token}

theorem first_isSome (h : BarePlace (t :: us) v) : t.value.name?.isSome := by
  cases h <;> rfl

theorem second_eq (h : BarePlace (t :: u :: us) v) : u.value = .openSquare := by
  cases h
  rfl

/-- The tokens are an expression. -/
theorem exists_whole (h : BarePlace us v) : ∃ e : Expr, e.Whole us [] ∧ e.core.mutable? =
    some v := by
  cases h with
  | var n => exact ⟨.var n, .of_atom .var _, Expr.mutable?_core _⟩
  | elem n hi => exact ⟨.elem n _, .of_atom (.elem (hi.append _)) _, Expr.mutable?_core _⟩

/-- Nothing but the name stands outside all brackets. -/
theorem exists_outside (h : BarePlace us v) : ∃ n : Name, outside 0 us = [n.map .ident] := by
  cases h with
  | var n => exact ⟨n, rfl⟩
  | elem n hi => exact ⟨n, congrArg _ ((hi.append _).outside_eq 0)⟩

/-- There is no operator in a variable or element, but for the index. -/
theorem not_isOperator (h : BarePlace us v) (ht : t ∈ outside 0 us) :
    ¬ t.value.isOperator := by
  obtain ⟨n, hn⟩ := h.exists_outside
  rw [hn, List.mem_singleton] at ht
  rw [ht]
  exact Bool.false_ne_true

end BarePlace

/-- The variable or element that an expression is, told by its tokens. -/
theorem Expr.Whole.mutable?_core_iff {e : Expr} {us : Tokens} {v : Node} (h : e.Whole us []) :
    e.core.mutable? = some v ↔ BarePlace us v := by
  constructor
  · intro hv
    rw [mutable?_core] at hv
    cases e with
    | var n =>
      cases hv
      rw [Derives.var_tokens h]
      exact .var n
    | elem n i =>
      cases hv
      obtain ⟨span, span', ts, rfl, hi⟩ := Derives.elem_tokens h
      obtain ⟨us, rfl, hus⟩ := hi.exists_alone
      exact .elem n hus
    | _ => cases hv
  · -- The tokens are an expression that names `v`, and so they are that one.
    intro hbare
    obtain ⟨e', he', hv⟩ := hbare.exists_whole
    rw [h.unique he']
    exact hv

namespace Node

/-- What a node names is found on the way down from it. -/
theorem mem_preorder_of_mutable? {n v : Node} (h : n.mutable? = some v) (d : Nat) :
    ∃ k, (k, v) ∈ n.preorder d := by
  fun_induction mutable? n generalizing d with
  | case1 t =>
    obtain rfl := Option.some.inj h
    exact ⟨d, List.mem_singleton_self _⟩
  | case3 cs =>
    obtain rfl := Option.some.inj h
    exact ⟨d, List.mem_cons_self⟩
  | case5 r _ _ only ih =>
    obtain ⟨k, hk⟩ := ih h (d + 1)
    exact ⟨k, List.mem_cons_of_mem _ (mem_preorderOf.mpr ⟨only, List.mem_cons_self, hk⟩)⟩
  | case2 | case4 | case6 => cases h

/-- What a node tells of the tokens that it was read from. -/
structure Tells (n : Node) (us : Tokens) : Prop where
  /-- it names the variable or element that they are, if they are nothing else -/
  bare : ∀ v, n.mutable? = some v ↔ BarePlace us v
  /-- what it names is one of the nodes in it -/
  below : ∀ v, n.mutable? = some v → ∃ k, (k, v) ∈ n.preorder 0
  /-- it names nothing if there is an operator -/
  operator : ∀ t ∈ outside 0 us, t.value.isOperator → n.mutable? = none
  /-- it names nothing if they begin with a parenthesis -/
  paren : ∀ span vs, us = ⟨.openParen, span⟩ :: vs → n.mutable? = none
  /-- it names nothing if they begin with a call -/
  call : ∀ (f : Name) span vs, us = f.map .ident :: ⟨.openParen, span⟩ :: vs → n.mutable? = none
  /-- it names nothing if they begin with a constant -/
  constant : ∀ (c : Located Literal) vs, us = c.map Literal.token :: vs → n.mutable? = none

variable {n : Node} {us ts r : Tokens}

theorem tells_of_bare (h : ∀ v, n.mutable? = some v ↔ BarePlace us v) : n.Tells us := by
  have hnone (hno : ∀ v, ¬ BarePlace us v) : n.mutable? = none :=
    Option.eq_none_iff_forall_ne_some.mpr fun v hv => hno v ((h v).mp hv)
  refine ⟨h, fun v hv => mem_preorder_of_mutable? hv 0, ?_, ?_, ?_, ?_⟩
  · exact fun t ht hop => hnone fun v hv => hv.not_isOperator ht hop
  · rintro span vs rfl
    exact hnone fun v hv => Bool.false_ne_true hv.first_isSome
  · rintro f span vs rfl
    exact hnone fun v hv => nomatch hv.second_eq
  · rintro c vs rfl
    have hc : c.value.token.name?.isSome = false := by cases c.value <;> rfl
    exact hnone fun v hv => Bool.false_ne_true (hc.symm.trans hv.first_isSome)

/-- A call takes the tokens of one expression, and the node is that of the expression. -/
theorem ReadFrom.exists_whole (h : n.ReadFrom ts r) :
    ∃ e level us, n = Expr.nodeAt level e ∧ ts = us ++ r ∧ e.Whole us [] := by
  obtain ⟨e, level, hn, he⟩ : ∃ e level, n = Expr.nodeAt level e ∧ e.Whole ts r := by
    cases h with
    | whole h => exact ⟨_, .assignment, rfl, Parser.takes_expression _ _ _ _ h⟩
    | simple h =>
      have he := Parser.takes_simple (Parser.takes_expression _) _ _ _ h
      exact ⟨_, .disjunction, rfl, .tighter (by decide) he⟩
  obtain ⟨us, hts, hus⟩ := he.exists_alone
  exact ⟨e, level, us, hn, hts, hus⟩

theorem ReadFrom.tells (h : n.ReadFrom ts r) : ∃ us, ts = us ++ r ∧ n.Tells us := by
  obtain ⟨e, level, us, rfl, hts, he⟩ := h.exists_whole
  refine ⟨us, hts, tells_of_bare fun v => ?_⟩
  rw [Expr.mutable?_at]
  exact he.mutable?_core_iff

/-- What a call makes is labelled as an expression. -/
theorem ReadFrom.isExpression (h : n.ReadFrom ts r) : n.rule.isExpression := by
  cases h with
  | @whole _ _ e =>
    obtain ⟨cs, hcs⟩ := e.node_eq_inner
    rw [hcs]
    rfl
  | simple h =>
    have he := Parser.takes_simple (Parser.takes_expression _) _ _ _ h
    have hrank := Phrase.Derives.rank_le he rfl
    rw [Expr.simpleNode_rule fun hlevel => absurd (hlevel ▸ hrank) (by decide)]
    rfl

end Node

/-- The generator takes an expression for the place that its node names, with an index if that has
one. -/
theorem Expr.place?_operand_at (level : Level) (t : Target) (e : Expr) :
    ((e.operand t).place?.map fun p => (p.name.value, p.index.isSome)) =
      (e.nodeAt level).mutable?.bind fun v => v.name?.map fun n => (n, v.children[1]?.isSome) := by
  rw [mutable?_at, mutable?_core]
  cases e <;> rfl

/-- **Bare variables are told from all else.** Whatever expression a call of the parser makes of
tokens, at any place and whatever becomes of the rest, its node is labelled as an expression, tells
whether the tokens are a variable or element and nothing else, and has only such nodes of
expressions in it. They make up the expressions of every program; and the generator assigns to what
their nodes name. -/
theorem Parser.tells_places :
    (∀ {n : Node} {ts r : Tokens}, n.ReadFrom ts r →
      n.rule.isExpression ∧ (∃ us, ts = us ++ r ∧ n.Tells us) ∧ n.ReadWithin ts) ∧
    (∀ {start : Span} {tokens : Tokens} {p : Program}, (parse start tokens).result = .ok p →
      p.node.ReadWithin tokens) ∧
    ∀ (e : Expr) (level : Level) (t : Target),
      ((e.operand t).place?.map fun p => (p.name.value, p.index.isSome)) =
        (e.nodeAt level).mutable?.bind fun v => v.name?.map fun n => (n, v.children[1]?.isSome) :=
  ⟨fun h => ⟨h.isExpression, h.tells, h.within⟩, Program.readWithin_of_parse,
    fun e level t => e.place?_operand_at level t⟩

/-- An element whose index is one, and one in parentheses. -/
def nestedSource : List UInt8 :=
  "int a[2]; int main() \x7b a[a[1]] = (a[0]); return 0; \x7d".toUTF8.toList

/-- Its tokens. -/
def nestedTokens : Tokens := (tokenize (readings nestedSource)).toOption.getD []

/-- What the expressions in a node name, from the root down. -/
def Node.names (n : Node) : List (Option String) :=
  (n.preorder 0).filterMap fun (_, m) =>
    if m.rule.isExpression then some (m.mutable?.bind name?) else none

/-- The assigned element with its index, the value, and the result; two nodes for each
expression. -/
def nestedNames : List (Option String) :=
  [none, some "a", some "a", some "a", none, none, none, none, some "a", some "a", none, none,
    none, none]

theorem Parser.tells_places_nested : ∃ p, (parse Reader.start nestedTokens).result = .ok p ∧
    p.node.names = nestedNames ∧ ∀ d k m, (k, m) ∈ p.node.preorder d → m.rule.isExpression →
      ∃ us r, us ++ r <:+ nestedTokens ∧ m.Tells us := by
  have h : (parse Reader.start nestedTokens).result.toOption.map (fun p => p.node.names) =
    some nestedNames := by decide +kernel
  obtain ⟨p, hp, hnames⟩ := Option.map_eq_some_iff.mp h
  have hp' : (parse Reader.start nestedTokens).result = .ok p := by
    revert hp
    cases (parse Reader.start nestedTokens).result <;> simp [Except.toOption]
  refine ⟨p, hp', hnames, fun d k m hm hrule => ?_⟩
  obtain ⟨ts, r, hts, hread⟩ := tells_places.2.1 hp' d k m hm hrule
  obtain ⟨-, ⟨us, rfl, htells⟩, -⟩ := tells_places.1 hread
  exact ⟨us, r, hts, htells⟩

end OnePass
