import OnePass.Proofs.NodeGeneration

/-!
# Phrases are parsed

Main statement: tokens are parsed as a program exactly if they are that program and each `else`
belongs to the nearest `if` (`parse_eq_ok_iff`). So compiling tokens ends in a fault of syntax only
if they are no program (`compileTokens_recognizes`).

A parser `Accepts` tokens as a phrase if it succeeds on them and leaves what comes behind it. A
phrase of the grammar may be continued by what comes behind it; a parser goes on as long as it can.
So the tokens behind a phrase have to be such that they do not go on with it (`Follows`), and in the
middle of a chain of operators it is said how parsing goes on there (`Chains`).
-/

namespace OnePass

/-! ## What may come behind an expression -/

/-- The level of the expressions that go on with a token. -/
def Token.level? : Token → Option Level
  | .assign _ | .step _ => some .assignment
  | .keyword .or => some .disjunction
  | .keyword .and => some .conjunction
  | .relation _ => some .relation
  | .bound _ => some .choosing
  | .plus | .minus => some .sum
  | .times | .divide | .percent => some .product
  | .openParen | .openSquare => some .atom
  | _ => none

/-- Tokens that do not go on with an expression of a level. -/
def Follows (level : Level) (r : Tokens) : Prop :=
  ∀ t ∈ r.head?, ∀ l ∈ t.value.level?, l.rank < level.rank

/-- Only the next token decides what may follow a level. -/
theorem follows_cons {level : Level} {t : Located Token} {r : Tokens} :
    Follows level (t :: r) ↔ ∀ l ∈ t.value.level?, l.rank < level.rank := by simp [Follows]

/-- Punctuation goes on with no expression. -/
theorem follows_of_none {t : Token} (h : t.level? = none) (level : Level) (span : Span)
    (r : Tokens) :
    Follows level (⟨t, span⟩ :: r) := by simp [Follows, h]

/-- Tighter levels come further behind in the order of levels. -/
theorem Level.rank_le_tighter (level : Level) : level.rank ≤ level.tighter.rank := by
  cases level <;> decide

/-- What may follow an expression of one level may follow one of a tighter level. -/
theorem Follows.tighter {level : Level} {r : Tokens} (h : Follows level r) :
    Follows level.tighter r :=
  fun t ht l hl => Nat.lt_of_lt_of_le (h t ht l hl) level.rank_le_tighter

/-- What begins with an operator of a level goes on with no tighter one. -/
theorem follows_operator (level : Level) {t : Located Token} {r : Tokens}
    (ht : t.value.level? = some level) (hlevel : level ≠ .atom) :
    Follows level.tighter (t :: r) := by
  rw [follows_cons, ht]
  rintro _ ⟨⟩
  cases level <;> first | decide | exact absurd rfl hlevel

namespace Parser

variable {α β : Type}

/-- `p` succeeds on the tokens `ts`, makes `a` of them and leaves the tokens `r`. -/
def Accepts (p : Parse α) (ts : Tokens) (a : α) (r : Tokens) : Prop :=
  ∀ s, s.cursor.rest = ts → ∃ s', Succeeds p s a s' ∧ s'.cursor.rest = r

/-! ## Composed parsers -/

/-- A value takes no token. -/
theorem accepts_pure (a : α) (ts : Tokens) : Accepts (pure a) ts a ts :=
  fun s hs => ⟨s, succeeds_pure.mpr ⟨rfl, rfl⟩, hs⟩

/-- One parser goes on where the other has stopped. -/
theorem Accepts.bind {p : Parse α} {f : α → Parse β} {ts r r' : Tokens} {a : α} {b : β}
    (hp : Accepts p ts a r) (hf : Accepts (f a) r b r') : Accepts (p >>= f) ts b r' := by
  intro s hs
  obtain ⟨s₁, h₁, hrest⟩ := hp s hs
  obtain ⟨s₂, h₂, hrest⟩ := hf s₁ hrest
  exact ⟨s₂, succeeds_bind.mpr ⟨a, s₁, h₁, h₂⟩, hrest⟩

/-- What is made of a result takes no token. -/
theorem Accepts.map {p : Parse α} {f : α → β} {ts r : Tokens} {a : α} (hp : Accepts p ts a r) :
    Accepts (f <$> p) ts (f a) r := by
  rw [map_eq_pure_bind]
  exact hp.bind (accepts_pure _ _)

/-! ## Tokens -/

/-- A cursor with tokens left is that of the list of these tokens, one further on. -/
theorem next?_of_rest {c : Cursor} {t : Located Token} {ts : Tokens} (h : c.rest = t :: ts) :
    c.next? = some (t, .ofList ts) := by
  rw [c.eq_ofList, h, Cursor.next?_ofList_cons]

/-- The next token is whatever stands there. -/
theorem accepts_next (t : Located Token) (ts : Tokens) : Accepts next (t :: ts) t ts := by
  intro s hs
  refine ⟨{ s with cursor := .ofList ts, last := t.span }, ?_, rfl⟩
  refine succeeds_bind.mpr ⟨s, s, succeeds_get.mpr ⟨rfl, rfl⟩, ?_⟩
  rw [next?_of_rest hs]
  exact succeeds_bind.mpr ⟨(), _, succeeds_set.mpr rfl, succeeds_pure.mpr ⟨rfl, rfl⟩⟩

/-- The token that is expected is taken. -/
theorem accepts_expect (t : Token) (span : Span) (ts : Tokens) :
    Accepts (expect t) (⟨t, span⟩ :: ts) span ts := by
  intro s hs
  refine ⟨{ s with cursor := .ofList ts, last := span }, ?_, rfl⟩
  refine succeeds_bind.mpr ⟨s, s, succeeds_get.mpr ⟨rfl, rfl⟩, ?_⟩
  rw [next?_of_rest hs]
  refine succeeds_bind.mpr ⟨(), _, succeeds_set.mpr rfl, ?_⟩
  rw [if_pos rfl]
  exact succeeds_pure.mpr ⟨rfl, rfl⟩

/-- To look ahead takes no token, however far. -/
theorem accepts_peek? (k : Nat) (ts : Tokens) :
    Accepts (peek? (k + 1)) ts (ts[k]?.map Located.value) ts :=
  fun s hs => ⟨s, succeeds_peek?.mpr ⟨by rw [hs], rfl⟩, hs⟩

/-- What comes next, if anything does. -/
theorem accepts_peek_one (ts : Tokens) :
    Accepts (peek? 1) ts (ts.head?.map Located.value) ts := by
  rw [List.head?_eq_getElem?]
  exact accepts_peek? 0 ts

/-- As many tokens are left as stand in the list. -/
theorem accepts_left (ts : Tokens) : Accepts left ts ts.length ts :=
  fun s hs => ⟨s, succeeds_left.mpr ⟨by rw [hs], rfl⟩, hs⟩

/-- To record a construct takes no token. -/
theorem accepts_record (c : Construct) (ts : Tokens) : Accepts (record c) ts () ts :=
  fun _ hs => ⟨_, succeeds_record.mpr rfl, hs⟩

/-- A token that may be there is taken if it is. -/
theorem accepts_accept (t : Token) (span : Span) (ts : Tokens) :
    Accepts (accept t) (⟨t, span⟩ :: ts) true ts := by
  refine (accepts_peek_one _).bind ?_
  rw [List.head?_cons, Option.map_some, if_pos rfl]
  exact (accepts_next _ _).bind (accepts_pure _ _)

/-- A token that does not come next is not taken. -/
theorem accepts_not {t : Token} {ts : Tokens} (h : ts.head?.map Located.value ≠ some t) :
    Accepts (accept t) ts false ts := by
  refine (accepts_peek_one _).bind ?_
  rw [if_neg h]
  exact accepts_pure _ _

/-- A name is an identifier. -/
theorem accepts_name (n : Name) (ts : Tokens) : Accepts name (n.map .ident :: ts) n ts :=
  (accepts_next _ _).bind (accepts_pure _ _)

/-- The keyword of a type stands for it. -/
theorem accepts_type (t : Located WordType) (ts : Tokens) :
    Accepts type (t.map WordType.token :: ts) t ts := by
  refine (accepts_next _ _).bind ?_
  obtain ⟨t, span⟩ := t
  cases t <;> exact accepts_pure _ _

/-! ## Repetition -/

section

variable {D : α → Tokens → Tokens → Prop} {p : Parse α} {m : Nat}

/-- Phrases with a token between them. What is behind a phrase has to let it end there, and that
token does. -/
theorem accepts_separatedBy {t : Token} {F : Tokens → Prop}
    (hp : ∀ {a ts r}, D a ts r → ts.length ≤ m → F r → Accepts p ts a r)
    (hlength : ∀ {a ts r}, D a ts r → r.length < ts.length) (hF : ∀ span r, F (⟨t, span⟩ :: r))
    {as : List α} {ts r : Tokens} (h : Separated t D as ts r) (hr : F r)
    (hend : r.head?.map Located.value ≠ some t) {n : Nat} (hn : ts.length ≤ n)
    (hm : ts.length ≤ m) :
    Accepts (separatedBy t p n) ts as r := by
  induction h generalizing n with
  | one ha =>
    cases n with
    | zero => exact (hp ha hm hr).bind (accepts_pure _ _)
    | succ n =>
      refine (hp ha hm hr).bind ((accepts_not hend).bind ?_)
      exact accepts_pure _ _
  | @more a as span ts r r' ha hs ih =>
    have hlt := hlength ha
    rw [List.length_cons] at hlt
    cases n with
    | zero => omega
    | succ n =>
      refine (hp ha hm (hF span r)).bind ((accepts_accept t span r).bind ?_)
      exact (ih hr hend (by omega) (by omega)).bind (accepts_pure _ _)

/-- Phrases one after another, as long as the next token says that there is one more. -/
theorem accepts_repeatWhile (goOn : Option Token → Bool) {F : Tokens → Prop}
    (hp : ∀ {a ts r}, D a ts r → ts.length ≤ m → F r → Accepts p ts a r)
    (hlength : ∀ {a ts r}, D a ts r → r.length < ts.length)
    (hstart : ∀ {a ts r}, D a ts r → goOn (ts.head?.map Located.value) = true ∧ F ts)
    {as : List α} {ts r : Tokens} (h : Repeated D as ts r) (hr : F r)
    (hend : goOn (r.head?.map Located.value) = false) {n : Nat} (hn : ts.length ≤ n)
    (hm : ts.length ≤ m) : Accepts (repeatWhile goOn p n) ts as r := by
  induction h generalizing n with
  | none =>
    cases n with
    | zero => exact accepts_pure _ _
    | succ n =>
      refine (accepts_peek_one _).bind ?_
      rw [if_neg (by simp [hend])]
      exact accepts_pure _ _
  | @more a as ts r r' ha hs ih =>
    have hlt := hlength ha
    cases n with
    | zero => omega
    | succ n =>
      refine (accepts_peek_one _).bind ?_
      rw [if_pos (hstart ha).1]
      have hrest : F r := by
        cases hs with
        | none => exact hr
        | more hb _ => exact (hstart hb).2
      exact (hp ha hm hrest).bind ((ih hr hend (by omega) (by omega)).bind (accepts_pure _ _))

end

/-! ## Chains of operators -/

/-- Behind a success the rest runs from where it has left the state. -/
theorem run_bind_of_succeeds {p : Parse α} {f : α → Parse β} {s s' : State} {a : α}
    (h : Succeeds p s a s') : (p >>= f).run.run s = (f a).run.run s' := by
  simp only [ExceptT.run_bind, StateT.run_bind]
  rw [show p.run.run s = (.ok a, s') from h]
  rfl

section

variable {op? : Token → Option α} {operand : Parse Expr}

/-- Parsing a chain on the tokens `ts` has come to the operand `e`, with the tokens `r` behind. -/
def Chains (op? : Token → Option α) (join : Expr → Located α → Expr → Expr) (operand : Parse Expr)
    (ts : Tokens) (e : Expr) (r : Tokens) : Prop :=
  ∀ s, s.cursor.rest = ts → ∃ s' n, s'.cursor.rest = r ∧ r.length ≤ n ∧
    (chain op? join operand).run.run s = (chainFrom op? join operand n e).run.run s'

variable {join : Expr → Located α → Expr → Expr}

/-- An operand is a chain of one. -/
theorem chains_operand {ts r : Tokens} {e : Expr} (h : Accepts operand ts e r) :
    Chains op? join operand ts e r := by
  intro s hs
  obtain ⟨s₁, h₁, hrest⟩ := h s hs
  refine ⟨s₁, r.length, hrest, Nat.le_refl _, ?_⟩
  have hleft : Succeeds left s₁ r.length s₁ := succeeds_left.mpr ⟨by rw [hrest], rfl⟩
  exact (run_bind_of_succeeds h₁).trans (run_bind_of_succeeds hleft)

/-- A chain is continued by an operator and an operand, which take tokens. -/
theorem Chains.operator {ts r r' : Tokens} {t : Located Token} {op : α} {e e' : Expr}
    (h : Chains op? join operand ts e (t :: r)) (hop : op? t.value = some op)
    (he : Accepts operand r e' r') (hlength : r'.length ≤ r.length) :
    Chains op? join operand ts (join e ⟨op, t.span⟩ e') r' := by
  intro s hs
  obtain ⟨s₁, n, hrest, hn, hrun⟩ := h s hs
  rw [List.length_cons] at hn
  cases n with
  | zero => omega
  | succ n =>
    obtain ⟨s₂, h₂, hrest₂⟩ := accepts_peek_one (t :: r) s₁ hrest
    obtain ⟨s₃, h₃, hrest₃⟩ := accepts_next t r s₂ hrest₂
    obtain ⟨s₄, h₄, hrest₄⟩ := he s₃ hrest₃
    refine ⟨s₄, n, hrest₄, by omega, hrun.trans ?_⟩
    refine (run_bind_of_succeeds h₂).trans ?_
    simp only [List.head?_cons, Option.map_some, Option.bind_some, hop]
    exact (run_bind_of_succeeds h₃).trans (run_bind_of_succeeds h₄)

/-- A chain ends where no operator of its level comes next. -/
theorem Chains.accepts {ts r : Tokens} {e : Expr} (h : Chains op? join operand ts e r)
    (hr : ∀ t ∈ r.head?, op? t.value = none) : Accepts (chain op? join operand) ts e r := by
  intro s hs
  obtain ⟨s₁, n, hrest, -, hrun⟩ := h s hs
  have hend : Accepts (chainFrom op? join operand n e) r e r := by
    cases n with
    | zero => exact accepts_pure _ _
    | succ n =>
      refine (accepts_peek_one r).bind ?_
      have hnone : (r.head?.map Located.value).bind op? = none := by
        cases hhead : r.head? with
        | none => rfl
        | some t => exact hr t hhead
      rw [hnone]
      exact accepts_pure _ _
  obtain ⟨s₂, h₂, hrest₂⟩ := hend s₁ hrest
  exact ⟨s₂, hrun.trans h₂, hrest₂⟩

end

section

variable {op? : Token → Option α} {join : Located α → Expr → Expr} {operand : Parse Expr}

/-- The number of the tokens bounds how many operators stand before an operand. -/
theorem accepts_leading_iff {ts r : Tokens} {e : Expr} :
    Accepts (do leading op? join operand (← left)) ts e r ↔
      Accepts (leading op? join operand ts.length) ts e r := by
  constructor
  · intro h s hs
    obtain ⟨s', h', hrest⟩ := h s hs
    obtain ⟨n, s₁, h₁, h₂⟩ := succeeds_bind.mp h'
    obtain ⟨rfl, rfl⟩ := succeeds_left.mp h₁
    rw [hs] at h₂
    exact ⟨s', h₂, hrest⟩
  · exact fun h => (accepts_left ts).bind h

/-- An operator in front of an expression is taken first, and joined last. -/
theorem accepts_leading_operator {ts r : Tokens} {t : Located Token} {op : α} {e : Expr}
    (hop : op? t.value = some op) (h : Accepts (do leading op? join operand (← left)) ts e r) :
    Accepts (do leading op? join operand (← left)) (t :: ts) (join ⟨op, t.span⟩ e) r := by
  refine accepts_leading_iff.mpr ((accepts_peek_one _).bind ?_)
  simp only [List.head?_cons, Option.map_some, Option.bind_some, hop]
  exact (accepts_next _ _).bind ((accepts_leading_iff.mp h).bind (accepts_pure _ _))

/-- Without an operator in front there is the operand alone. -/
theorem accepts_leading_operand {ts r : Tokens} {e : Expr}
    (hop : (ts.head?.map Located.value).bind op? = none) (h : Accepts operand ts e r) :
    Accepts (do leading op? join operand (← left)) ts e r := by
  refine accepts_leading_iff.mpr ?_
  cases ts.length with
  | zero => exact h
  | succ n =>
    refine (accepts_peek_one _).bind ?_
    rw [hop]
    exact h

end

/-! ## Expressions -/

end Parser

/-- The word of a logical operator stands at the level of the operator. -/
theorem LogicOp.level?_keyword (op : LogicOp) :
    (Token.keyword op.keyword).level? = some (.ofLogic op) := by cases op <;> rfl

/-- The sign of an arithmetic operator stands at the level of the operator. -/
theorem ArithOp.level?_token (op : ArithOp) : op.token.level? = some (.ofArith op) := by
  cases op <;> rfl

/-- A phrase has at least one token. -/
theorem Phrase.Derives.length_lt {p : Phrase} {ts r : Tokens} (h : p.Derives ts r) :
    r.length < ts.length := by
  induction h <;> grind

/-- An expression takes at least one token. -/
theorem Expr.Derives.length_lt {level : Level} {e : Expr} {ts r : Tokens}
    (h : e.Derives level ts r) :
    r.length < ts.length := Phrase.Derives.length_lt h

/-- Tokens that an expression of a level may begin with. -/
def Level.begins (level : Level) (t : Token) : Bool :=
  t.name?.isSome || t.literal?.isSome || t == .openParen
    || (level != .atom && (Parser.lead? t).isSome)
    || (level.rank ≤ Level.negation.rank && t == .keyword .not)

/-- What begins an expression of a tighter level begins one of the looser level. -/
theorem Level.begins_of_tighter {level : Level} {t : Token} (h : level.tighter.begins t) :
    level.begins t := by
  cases level <;> simp_all [begins, tighter, rank]

/-- The first token of an expression tells its level, as far as the parser looks at it. -/
theorem Expr.Derives.begins {level : Level} {e : Expr} {ts r : Tokens} (h : e.Derives level ts r) :
    ∃ t ts', ts = t :: ts' ∧ level.begins t.value := by
  unfold Expr.Derives at h
  generalize hp : Phrase.expr level e = p at h
  induction h generalizing level e with
  | assign _ _ ih | step _ ih =>
    cases hp
    obtain ⟨t, ts', rfl, ht⟩ := ih rfl
    exact ⟨t, ts', rfl, Level.begins_of_tighter ht⟩
  | logic _ _ _ ih | arith _ _ _ ih => cases hp; exact ih rfl
  | compare _ _ ih =>
    cases hp
    obtain ⟨t, ts', rfl, ht⟩ := ih rfl
    exact ⟨t, ts', rfl, Level.begins_of_tighter ht⟩
  | negate => cases hp; exact ⟨_, _, rfl, by simp [Level.begins]⟩
  | @lead op => cases hp; exact ⟨_, _, rfl, by obtain ⟨op, _⟩ := op; cases op <;> rfl⟩
  | paren | var | elem | callNone | call => cases hp; exact ⟨_, _, rfl, rfl⟩
  | @literal v => cases hp; exact ⟨_, _, rfl, by obtain ⟨v, _⟩ := v; cases v <;> rfl⟩
  | tighter _ _ ih =>
    cases hp
    obtain ⟨t, ts', rfl, ht⟩ := ih rfl
    exact ⟨t, ts', rfl, Level.begins_of_tighter ht⟩
  | arg | moreArgs => cases hp

namespace Parser

section

variable (expr : Parse Expr)

/-- The parser of a level, made from one of all expressions. -/
def ofLevel : Level → Parse Expr
  | .assignment => expr
  | .disjunction => simple expr
  | .conjunction => chain (word? .and) (fun l _ r => .logic .and l r) (negation expr)
  | .negation => negation expr
  | .relation => comparison expr
  | .choosing => arithmetic expr
  | .sum => chain additive? .arith (chain multiplicative? .arith (unary expr))
  | .product => chain multiplicative? .arith (unary expr)
  | .leading => unary expr
  | .atom => atom expr

/-- How far the parser of a level comes with an expression of the level: in a chain it may go on. -/
def Reaches : Level → Tokens → Expr → Tokens → Prop
  | .disjunction => Chains (word? .or) (fun l _ r => .logic .or l r) (ofLevel expr .conjunction)
  | .conjunction => Chains (word? .and) (fun l _ r => .logic .and l r) (ofLevel expr .negation)
  | .relation => fun ts e r => Follows .relation r → Accepts (comparison expr) ts e r
  | .choosing => Chains choosing? .arith (ofLevel expr .sum)
  | .sum => Chains additive? .arith (ofLevel expr .product)
  | .product => Chains multiplicative? .arith (ofLevel expr .leading)
  | level => Accepts (ofLevel expr level)

end

/-- What does not go on with a level has no operator of it in front. -/
theorem not_operator (op? : Token → Option α) {level : Level} {r : Tokens} (hr : Follows level r)
    (hop : ∀ t op, op? t = some op → t.level? = some level) :
    ∀ t ∈ r.head?, op? t.value = none := by
  intro t ht
  cases h : op? t.value with
  | none => rfl
  | some op => exact absurd (hr t ht level (hop _ _ h)) (Nat.lt_irrefl _)

section

variable {expr : Parse Expr}

/-- What is reached at a level is accepted there, if nothing of that level follows. -/
theorem Reaches.accepts {level : Level} {ts r : Tokens} {e : Expr} (h : Reaches expr level ts e r)
    (hr : Follows level r) : Accepts (ofLevel expr level) ts e r := by
  cases level
  case disjunction | conjunction =>
    refine Chains.accepts h (not_operator _ hr fun t op hop => ?_)
    rw [word?_eq_some.mp hop]
    rfl
  case relation => exact h hr
  case choosing =>
    refine Chains.accepts h (not_operator _ hr fun t op hop => ?_)
    obtain ⟨rfl, hlevel⟩ := choosing?_eq_some.mp hop
    rw [op.level?_token, hlevel]
  case sum =>
    refine Chains.accepts h (not_operator _ hr fun t op hop => ?_)
    obtain ⟨rfl, hlevel⟩ := additive?_eq_some.mp hop
    rw [op.level?_token, hlevel]
  case product =>
    refine Chains.accepts h (not_operator _ hr fun t op hop => ?_)
    obtain ⟨rfl, hlevel⟩ := multiplicative?_eq_some.mp hop
    rw [op.level?_token, hlevel]
  all_goals exact h

/-- An operator of a level and its right operand continue a chain. -/
theorem Reaches.logic {op : LogicOp} {l e : Expr} {span : Span} {ts r r' : Tokens}
    (hl : Reaches expr (.ofLogic op) ts l (⟨.keyword op.keyword, span⟩ :: r))
    (he : Accepts (ofLevel expr (Level.ofLogic op).tighter) r e r')
    (hlength : r'.length ≤ r.length) :
    Reaches expr (.ofLogic op) ts (.logic op l e) r' := by
  cases op <;> exact Chains.operator hl rfl he hlength

/-- An arithmetic operator joins what was reached at its own level with what stands at the tighter
one. -/
theorem Reaches.arith {op : Located ArithOp} {l e : Expr} {ts r r' : Tokens}
    (hl : Reaches expr (.ofArith op.value) ts l (op.map ArithOp.token :: r))
    (he : Accepts (ofLevel expr (Level.ofArith op.value).tighter) r e r')
    (hlength : r'.length ≤ r.length) :
    Reaches expr (.ofArith op.value) ts (.arith l op e) r' := by
  obtain ⟨op, span⟩ := op
  cases op <;> exact Chains.operator hl rfl he hlength

/-- An expression of a tighter level is one operand of a chain, or stands behind no operator. -/
theorem Reaches.tighter {level : Level} {ts r : Tokens} {e : Expr} (hlevel : level ≠ .assignment)
    (hatom : level ≠ .atom) (hbegins : ∃ t ts', ts = t :: ts' ∧ level.tighter.begins t.value)
    (h : Accepts (ofLevel expr level.tighter) ts e r) : Reaches expr level ts e r := by
  obtain ⟨t, ts, rfl, ht⟩ := hbegins
  cases level
  case assignment => exact absurd rfl hlevel
  case atom => exact absurd rfl hatom
  case negation =>
    refine accepts_leading_operand ?_ h
    have hnot : t.value ≠ .keyword .not := fun heq => by rw [heq] at ht; cases ht
    simp [word?, hnot]
  case leading =>
    refine accepts_leading_operand ?_ h
    simp only [List.head?_cons, Option.map_some, Option.bind_some]
    cases hop : lead? t.value with
    | none => rfl
    | some op =>
      rw [lead?_eq_some.mp hop] at ht
      cases op <;> cases ht
  case relation =>
    intro hr
    refine h.bind ((accepts_peek_one r).bind ?_)
    have hnone : (r.head?.map Located.value).bind relation? = none := by
      cases hhead : r.head? with
      | none => rfl
      | some t =>
        refine not_operator relation? hr (fun t op hop => ?_) t hhead
        rw [relation?_eq_some.mp hop]
        rfl
    rw [hnone]
    exact accepts_pure _ _
  all_goals exact chains_operand h

end

/-! The parser of all expressions is asked for what stands inside parentheses and brackets; there
are fewer tokens there. -/

section

variable {expr : Parse Expr} {n : Nat}
  (hexpr : ∀ {e ts r}, e.Whole ts r → ts.length ≤ n → Follows .assignment r → Accepts expr ts e r)
include hexpr

/-- Arguments end at the closing parenthesis. -/
theorem accepts_arguments {es : List Expr} {span : Span} {ts r : Tokens}
    (h : (Phrase.args es).Derives ts (⟨.closeParen, span⟩ :: r)) (hn : ts.length ≤ n) :
    Accepts (arguments expr) ts es r := by
  have hs := args_derives.mp h
  have hfirst : ts.head?.map Located.value ≠ some .closeParen := by
    have hbegins : ∃ t ts', ts = t :: ts' ∧ Level.assignment.begins t.value := by
      rcases hs with h | ⟨h, -⟩ <;> exact h.begins
    obtain ⟨t, ts, rfl, ht⟩ := hbegins
    intro heq
    rw [Option.some.inj heq] at ht
    cases ht
  refine (accepts_not hfirst).bind ((accepts_left ts).bind ?_)
  have hargs := accepts_separatedBy (F := Follows .assignment) hexpr Expr.Derives.length_lt
    (follows_of_none rfl _) hs (follows_of_none rfl _ _ _) (by simp) (Nat.le_refl _) hn
  exact hargs.bind ((accepts_expect _ _ _).bind (accepts_pure _ _))

/-- An expression is parsed by the parser of its level. -/
theorem reaches {level : Level} {e : Expr} {ts r : Tokens} (h : e.Derives level ts r)
    (hlevel : level ≠ .assignment) (hn : ts.length ≤ n + 1) (hr : Follows level.tighter r) :
    Reaches expr level ts e r := by
  unfold Expr.Derives at h
  -- The induction is on phrases, of which arguments are some too.
  generalize hp : Phrase.expr level e = p at h
  induction h generalizing level e with
  | assign | step => cases hp; exact absurd rfl hlevel
  | @logic _ op _ _ _ ts r r' hop hl he ihl ihe =>
    cases hp
    subst hop
    have hlt := hl.length_lt
    rw [List.length_cons] at hlt
    -- What is to the right of an operator stands at the tighter level.
    have htighter : (Level.ofLogic op).tighter ≠ .assignment := by cases op <;> decide
    have hl' := ihl hlevel hn (follows_operator _ op.level?_keyword (by cases op <;> decide)) rfl
    have he' := (ihe htighter (by omega) hr.tighter rfl).accepts hr
    exact hl'.logic he' (Nat.le_of_lt he.length_lt)
  | @arith _ _ op _ ts r r' hop hl he ihl ihe =>
    cases hp
    subst hop
    have hlt := hl.length_lt
    rw [List.length_cons] at hlt
    have htighter : (Level.ofArith op.value).tighter ≠ .assignment := by
      cases op.value <;> decide
    have hl' := ihl hlevel hn
      (follows_operator _ op.value.level?_token (by cases op.value <;> decide)) rfl
    have he' := (ihe htighter (by omega) hr.tighter rfl).accepts hr
    exact hl'.arith he' (Nat.le_of_lt he.length_lt)
  | @compare _ op _ ts r r' hl he ihl ihe =>
    cases hp
    have hlt := hl.length_lt
    rw [List.length_cons] at hlt
    -- A comparison has one operator at most, so it is no chain.
    intro _
    have hop : Follows .choosing (op.map Token.relation :: r) :=
      follows_operator .relation rfl (by decide)
    have hl' := (ihl (by decide) hn hop.tighter rfl).accepts hop
    have he' := (ihe (by decide) (by omega) hr.tighter rfl).accepts hr
    refine hl'.bind ((accepts_peek_one _).bind ?_)
    exact (accepts_next _ _).bind (he'.bind (accepts_pure _ _))
  | @negate word _ ts r h ih =>
    cases hp
    rw [List.length_cons] at hn
    have h' := ih hlevel (by omega) hr rfl
    exact accepts_leading_operator (t := ⟨.keyword .not, word⟩) rfl h'
  | @lead op _ ts r h ih =>
    cases hp
    rw [List.length_cons] at hn
    have h' := ih hlevel (by omega) hr rfl
    exact accepts_leading_operator (t := op.map LeadOp.token) (lead?_eq_some.mpr rfl) h'
  | @paren _ span span' ts r h =>
    cases hp
    rw [List.length_cons] at hn
    refine (accepts_peek_one _).bind ((accepts_peek? 1 _).bind ((accepts_next _ _).bind ?_))
    -- In parentheses there is a whole expression, for which the fuel is one less.
    have h' := hexpr h (by omega) (follows_of_none rfl _ _ _)
    exact h'.bind ((accepts_expect _ _ _).bind (accepts_pure _ _))
  | @literal v r =>
    cases hp
    refine (accepts_peek_one _).bind ((accepts_peek? 1 _).bind ?_)
    obtain ⟨v, span⟩ := v
    cases v <;> exact (accepts_next _ _).bind (accepts_pure _ _)
  | @var name r =>
    cases hp
    refine (accepts_peek_one _).bind ((accepts_peek? 1 _).bind ?_)
    -- Behind a variable no token follows that made a call or an element of it.
    have hnext : ∀ {t : Token}, t.level? = some .atom → r.head?.map Located.value ≠ some t := by
      intro t ht heq
      obtain ⟨u, hu, rfl⟩ := Option.map_eq_some_iff.mp heq
      exact absurd (hr u hu _ ht) (by decide)
    split
    · rename_i hopen
      rw [List.getElem?_cons_succ, ← List.head?_eq_getElem?] at hopen
      exact absurd hopen (hnext rfl)
    · refine (accepts_name _ _).bind ((accepts_not (hnext rfl)).bind ?_)
      exact accepts_pure _ _
    · rename_i hname
      cases hname
  | @elem name i span span' ts r h =>
    cases hp
    rw [List.length_cons, List.length_cons] at hn
    refine (accepts_peek_one _).bind ((accepts_peek? 1 _).bind ?_)
    have h' := hexpr h (by omega) (follows_of_none rfl _ _ _)
    refine (accepts_name _ _).bind ((accepts_accept _ _ _).bind ?_)
    exact h'.bind ((accepts_expect _ _ _).bind (accepts_pure _ _))
  | @callNone name span span' r =>
    cases hp
    refine (accepts_peek_one _).bind ((accepts_peek? 1 _).bind ?_)
    refine (accepts_name _ _).bind ((accepts_expect _ _ _).bind ?_)
    have hnone : Accepts (arguments expr) (⟨.closeParen, span'⟩ :: r) [] r :=
      (accepts_accept _ _ _).bind (accepts_pure _ _)
    exact hnone.bind (accepts_pure _ _)
  | @call name es span span' ts r h =>
    cases hp
    rw [List.length_cons, List.length_cons] at hn
    refine (accepts_peek_one _).bind ((accepts_peek? 1 _).bind ?_)
    refine (accepts_name _ _).bind ((accepts_expect _ _ _).bind ?_)
    exact (accepts_arguments hexpr h (by omega)).bind (accepts_pure _ _)
  | @tighter level e ts r hatom h ih =>
    cases hp
    -- An expression of a tighter level is followed by nothing that belongs there.
    have htighter : level.tighter ≠ .assignment := by cases level <;> decide
    have h' := (ih htighter hn hr.tighter rfl).accepts hr
    exact .tighter hlevel hatom (Expr.Derives.begins h) h'
  | arg | moreArgs => cases hp

end

/-- The parser accepts every expression of the grammar with as much fuel as there are tokens. The
induction is on the fuel, since an expression in brackets is shorter. -/
theorem accepts_expression (n : Nat) {e : Expr} {ts r : Tokens} (h : e.Whole ts r)
    (hn : ts.length ≤ n) (hr : Follows .assignment r) : Accepts (expression n) ts e r := by
  induction n generalizing e ts r with
  | zero =>
    have hlt := h.length_lt
    omega
  | succ n ih =>
    -- What stands before an assignment operator, or is all there is.
    have hsimple : ∀ {p : Expr} {r : Tokens}, p.Simple ts r → Follows .disjunction r →
        Accepts (simple (expression n)) ts p r :=
      fun hp hr => (reaches ih hp (by decide) hn hr.tighter).accepts hr
    unfold Expr.Whole Expr.Derives at h
    generalize hp : Phrase.expr .assignment e = p at h
    cases h with
    | @assign p op v _ r₁ _ h hv =>
      cases hp
      have hlt := Expr.Derives.length_lt h
      rw [List.length_cons] at hlt
      have hop : Follows .disjunction (op.map Token.assign :: r₁) :=
        follows_operator .assignment rfl (by decide)
      refine (hsimple h hop).bind ((accepts_peek_one _).bind ?_)
      exact (accepts_next _ _).bind ((ih hv (by omega) hr).bind (accepts_pure _ _))
    | @step p op _ _ h =>
      cases hp
      have hop : Follows .disjunction (op.map Token.step :: r) :=
        follows_operator .assignment rfl (by decide)
      refine (hsimple h hop).bind ((accepts_peek_one _).bind ?_)
      exact (accepts_next _ _).bind (accepts_pure _ _)
    | @logic _ op =>
      cases hp
      exact absurd ‹Level.ofLogic op = _› (by cases op <;> decide)
    | @arith _ _ op =>
      cases hp
      exact absurd ‹Level.ofArith op.value = _› (by cases op.value <;> decide)
    | tighter _ h =>
      cases hp
      refine (hsimple h hr.tighter).bind ((accepts_peek_one r).bind ?_)
      have hnext : ∀ {t : Token}, t.level? = some .assignment →
          r.head?.map Located.value ≠ some t := by
        intro t ht heq
        obtain ⟨u, hu, rfl⟩ := Option.map_eq_some_iff.mp heq
        exact absurd (hr u hu _ ht) (by decide)
      split
      · rename_i hop
        exact absurd hop (hnext rfl)
      · rename_i hop
        exact absurd hop (hnext rfl)
      · exact accepts_pure _ _
    | _ => cases hp

/-- With the fuel that it is given, the parser accepts every expression. -/
theorem accepts_expr {e : Expr} {ts r : Tokens} (h : e.Whole ts r) (hr : Follows .assignment r) :
    Accepts expr ts e r :=
  (accepts_left ts).bind (accepts_expression _ h (Nat.le_succ _) hr)

/-- The same is true of expressions without an assignment. -/
theorem accepts_simpleExpr {e : Expr} {ts r : Tokens} (h : e.Simple ts r)
    (hr : Follows .disjunction r) : Accepts simpleExpr ts e r := by
  have hexpr : ∀ {e ts' r}, Expr.Whole e ts' r → ts'.length ≤ ts.length → Follows .assignment r →
      Accepts (expression ts.length) ts' e r := fun h hn hr => accepts_expression _ h hn hr
  exact (accepts_left ts).bind ((reaches hexpr h (by decide) (Nat.le_succ _) hr.tighter).accepts hr)

/-! ## Declarations -/

/-- A length stands in brackets, and without an opening bracket there is none. -/
theorem accepts_arrayLength {n : Option (Located Int32)} {ts r : Tokens} (h : LengthDerives n ts r)
    (hr : r.head?.map Located.value ≠ some .openSquare) : Accepts arrayLength ts n r := by
  rcases h with _ | _
  · exact (accepts_not hr).bind (accepts_pure _ _)
  · refine (accepts_accept _ _ _).bind ((accepts_next _ _).bind ?_)
    exact (accepts_expect _ _ _).bind (accepts_pure _ _)

/-- What comes behind a variable of a declaration. -/
def EndsDeclarator (r : Tokens) : Prop :=
  ∃ t span r', r = ⟨t, span⟩ :: r' ∧ (t = .comma ∨ t = .semicolon)

/-- A declarator is accepted in front of a comma or a semicolon. -/
theorem accepts_declarator {d : Declarator} {ts r : Tokens} (h : d.Derives ts r)
    (hr : EndsDeclarator r) : Accepts declarator ts d r := by
  obtain ⟨t, span, r, rfl, ht⟩ := hr
  have hnot : ∀ {u : Token}, u ≠ .comma → u ≠ .semicolon →
      ((⟨t, span⟩ :: r : Tokens).head?).map Located.value ≠ some u := by
    rcases ht with rfl | rfl <;> intro u hcomma hsemicolon heq <;> cases heq <;> contradiction
  have hfollows : Follows .disjunction (⟨t, span⟩ :: r) := by
    rcases ht with rfl | rfl <;> exact follows_of_none rfl _ _ _
  rcases h with ⟨hlength, hinit⟩
  refine (accepts_name _ _).bind ?_
  rcases hinit with _ | he | he
  · refine (accepts_arrayLength hlength (hnot (by decide) (by decide))).bind ?_
    refine (accepts_not (hnot (by decide) (by decide))).bind ?_
    exact (accepts_not (hnot (by decide) (by decide))).bind (accepts_pure _ _)
  · refine (accepts_arrayLength hlength (by simp)).bind ((accepts_accept _ _ _).bind ?_)
    exact (accepts_simpleExpr he hfollows).bind (accepts_pure _ _)
  · refine (accepts_arrayLength hlength (by simp)).bind ((accepts_not (by simp)).bind ?_)
    refine (accepts_accept _ _ _).bind ?_
    exact (accepts_simpleExpr he hfollows).bind (accepts_pure _ _)

end Parser

/-! Every phrase has at least one token. -/

/-- A list with separators takes a token if each of its parts does. -/
theorem Separated.length_lt {α : Type} {t : Token} {D : α → Tokens → Tokens → Prop} {as : List α}
    {ts r : Tokens} (h : Separated t D as ts r)
    (hd : ∀ {a ts r}, D a ts r → r.length < ts.length) : r.length < ts.length := by
  induction h with
  | one ha => exact hd ha
  | more ha _ ih =>
    have hlt := hd ha
    rw [List.length_cons] at hlt
    omega

/-- A repetition gives no tokens back. -/
theorem Repeated.length_le {α : Type} {D : α → Tokens → Tokens → Prop} {as : List α}
    {ts r : Tokens} (h : Repeated D as ts r)
    (hd : ∀ a ∈ as, ∀ {ts r}, D a ts r → r.length < ts.length) : r.length ≤ ts.length := by
  induction h with
  | none => exact Nat.le_refl _
  | more ha _ ih =>
    have hlt := hd _ List.mem_cons_self ha
    have hle := ih fun a ha => hd a (List.mem_cons_of_mem _ ha)
    omega

/-- A declarator takes its name at least. -/
theorem Declarator.Derives.length_lt {d : Declarator} {ts r : Tokens} (h : d.Derives ts r) :
    r.length < ts.length := by
  rcases h with ⟨hlength, hinit⟩
  rw [List.length_cons]
  have hle : ∀ {n ts r}, LengthDerives n ts r → r.length ≤ ts.length := by
    rintro n ts r (_ | _)
    · exact Nat.le_refl _
    · simp only [List.length_cons]
      omega
  have hle := hle hlength
  rcases hinit with _ | he | he
  · omega
  all_goals
    have hlt := Expr.Derives.length_lt he
    rw [List.length_cons] at hle
    omega

/-- A declaration takes its type at least. -/
theorem Declaration.Derives.length_lt {d : Declaration} {ts r : Tokens} (h : d.Derives ts r) :
    r.length < ts.length := by
  rcases h with hitems | hitems <;>
  · have hlt := hitems.length_lt Declarator.Derives.length_lt
    simp only [List.length_cons] at hlt ⊢
    omega

/-- A parameter takes its name at least. -/
theorem Parameter.Derives.length_lt {q : Parameter} {ts r : Tokens} (h : q.Derives ts r) :
    r.length < ts.length := by
  rcases h with _ | _ <;> simp only [List.length_cons] <;> omega

/-- A group of parameters takes its type at least. -/
theorem ParameterGroup.Derives.length_lt {g : ParameterGroup} {ts r : Tokens} (h : g.Derives ts r) :
    r.length < ts.length := by
  rcases h with ⟨hitems⟩
  have hlt := hitems.length_lt Parameter.Derives.length_lt
  rw [List.length_cons]
  omega

namespace Parser

/-- A declaration is accepted behind whatever says that it is static. -/
theorem accepts_declaration {type : Located WordType} {items : List Declarator} {ts r : Tokens}
    (static : Option Span) (h : (Declaration.mk none type items).Derives ts r) :
    Accepts (declaration static) ts ⟨static, type, items⟩ r := by
  rcases h with ⟨hitems⟩
  refine (accepts_type _ _).bind ((accepts_left _).bind ?_)
  have hall := accepts_separatedBy (F := EndsDeclarator) (m := _)
    (fun hd _ hr => accepts_declarator hd hr)
    Declarator.Derives.length_lt (fun span r => ⟨_, span, r, rfl, .inl rfl⟩) hitems
    ⟨_, _, _, rfl, .inr rfl⟩ (by simp) (Nat.le_refl _) (Nat.le_refl _)
  exact hall.bind ((accepts_expect _ _ _).bind (accepts_pure _ _))

/-- A declaration in a block begins with `static` or with its type. -/
theorem accepts_localDeclaration {d : Declaration} {ts r : Tokens} (h : d.Derives ts r) :
    Accepts localDeclaration ts d r := by
  rcases h with @⟨type, items, span, ts, _, hitems⟩ | @⟨word, type, items, span, ts, _, hitems⟩ <;>
    have hplain : (Declaration.mk none type items).Derives (type.map WordType.token :: ts) r :=
      .plain hitems
  · refine (accepts_peek_one _).bind ?_
    have hd := accepts_declaration none hplain
    obtain ⟨type, span'⟩ := type
    cases type <;> exact (accepts_pure none _).bind
      (hd.bind ((accepts_record _ _).bind (accepts_pure _ _)))
  · refine (accepts_peek_one _).bind ?_
    have hd := accepts_declaration (some word) hplain
    exact (accepts_next _ _).map.bind (hd.bind ((accepts_record _ _).bind (accepts_pure _ _)))

/-- A parameter is an array if a bracket follows its name. -/
theorem accepts_parameter {q : Parameter} {ts r : Tokens} (h : q.Derives ts r)
    (hr : r.head?.map Located.value ≠ some .openSquare) : Accepts parameter ts q r := by
  rcases h with _ | _
  · refine (accepts_name _ _).bind ((accepts_peek_one _).bind ?_)
    split
    · rename_i hopen
      exact absurd hopen hr
    · exact accepts_pure _ _
  · refine (accepts_name _ _).bind ((accepts_peek_one _).bind ?_)
    exact (accepts_next _ _).bind ((accepts_expect _ _ _).bind (accepts_pure _ _))

/-- What comes behind parameters of one type. -/
def EndsGroup (r : Tokens) : Prop :=
  ∃ t span r', r = ⟨t, span⟩ :: r' ∧ (t = .semicolon ∨ t = .closeParen)

/-- A group of parameters ends at a semicolon or at the closing parenthesis. -/
theorem accepts_parameterGroup {g : ParameterGroup} {ts r : Tokens} (h : g.Derives ts r)
    (hr : EndsGroup r) : Accepts parameterGroup ts g r := by
  rcases h with ⟨hitems⟩
  obtain ⟨t, span, r, rfl, ht⟩ := hr
  refine (accepts_type _ _).bind ((accepts_left _).bind ?_)
  have hall := accepts_separatedBy (m := _)
    (F := fun r => r.head?.map Located.value ≠ some .openSquare)
    (fun hq _ hr => accepts_parameter hq hr) Parameter.Derives.length_lt (by simp) hitems
    (by rcases ht with rfl | rfl <;> simp) (by rcases ht with rfl | rfl <;> simp)
    (Nat.le_refl _) (Nat.le_refl _)
  exact hall.bind ((accepts_record _ _).bind (accepts_pure _ _))

/-- Parameters end at the closing parenthesis, of which the parser takes nothing. -/
theorem accepts_parameters {gs : List ParameterGroup} {span : Span} {ts r : Tokens}
    (h : ParametersDerive gs ts (⟨.closeParen, span⟩ :: r)) :
    Accepts parameters ts gs (⟨.closeParen, span⟩ :: r) := by
  refine (accepts_peek_one _).bind ?_
  rcases h with _ | hgroups
  · exact accepts_pure _ _
  · have hfirst : ∃ type ts', ts = Located.map WordType.token type :: ts' := by
      rcases hgroups with ⟨⟨_⟩⟩ | ⟨⟨_⟩, _⟩ <;> exact ⟨_, _, rfl⟩
    have hall := accepts_separatedBy (F := EndsGroup) (m := _)
      (fun hg _ hr => accepts_parameterGroup hg hr) ParameterGroup.Derives.length_lt
      (fun span r => ⟨_, span, r, rfl, .inl rfl⟩) hgroups ⟨_, _, _, rfl, .inr rfl⟩ (by simp)
      (Nat.le_refl _) (Nat.le_refl _)
    obtain ⟨⟨type, _⟩, ts, rfl⟩ := hfirst
    cases type <;> exact (accepts_left _).bind hall

end Parser

/-! ## Statements -/

/-- A range takes tokens. -/
theorem Range.Derives.length_lt {g : Range} {ts r : Tokens} (h : g.Derives ts r) :
    r.length < ts.length := by
  rcases h with he | ⟨he, hlast⟩ | ⟨he, hlast, hstep⟩
  · exact he.length_lt
  · have hlt := Expr.Derives.length_lt he
    have hlt' := hlast.length_lt
    rw [List.length_cons] at hlt
    omega
  · have hlt := Expr.Derives.length_lt he
    have hlt' := Expr.Derives.length_lt hlast
    have hlt'' := hstep.length_lt
    rw [List.length_cons] at hlt hlt'
    omega

namespace Stmt

/-- A statement takes at least one token. -/
theorem Derives.length_lt {s : Stmt} {ts r : Tokens} (h : s.Derives ts r) :
    r.length < ts.length := by
  induction s using Stmt.induct generalizing ts r with
  | block locals body ih =>
    -- A block has its braces, whatever is between them.
    rcases h with ⟨hlocals, hbody⟩
    have hle := hlocals.length_le fun _ _ => Declaration.Derives.length_lt
    have hle' := hbody.length_le ih
    simp only [List.length_cons] at hle' ⊢
    omega
  | expr =>
    rcases h with _ | he
    have hlt := Expr.Derives.length_lt he
    rw [List.length_cons] at hlt
    omega
  | choice c body ih =>
    rcases h with _ | _ | _ | ⟨hc, hbody⟩
    have hlt := Expr.Derives.length_lt hc
    have hlt' := ih hbody
    simp only [List.length_cons] at hlt ⊢
    omega
  | choiceOr c body s ih ih' =>
    rcases h with _ | _ | _ | _ | ⟨hc, hbody, ho⟩
    have hlt := Expr.Derives.length_lt hc
    have hlt' := ih hbody
    have hlt'' := ih' ho
    simp only [List.length_cons] at hlt hlt' ⊢
    omega
  | loop c body ih =>
    rcases h with _ | _ | _ | _ | _ | ⟨hc, hbody⟩
    have hlt := Expr.Derives.length_lt hc
    have hlt' := ih hbody
    simp only [List.length_cons] at hlt ⊢
    omega
  | count counter range body ih =>
    rcases h with _ | _ | _ | _ | _ | _ | ⟨hrange, hbody⟩
    have hlt := hrange.length_lt
    have hlt' := ih hbody
    simp only [List.length_cons] at hlt ⊢
    omega
  | ret =>
    rcases h with _ | _ | _ | _ | _ | _ | _ | _ | he
    · simp only [List.length_cons]
      omega
    · have hlt := Expr.Derives.length_lt he
      simp only [List.length_cons] at hlt ⊢
      omega
  -- The others are at least their semicolon.
  | empty | leave =>
    cases h
    simp only [List.length_cons]
    omega

/-- A statement begins neither like a declaration nor with what ends one. -/
theorem Derives.begins {s : Stmt} {ts r : Tokens} (h : s.Derives ts r) :
    ∃ t ts', ts = t :: ts' ∧ Parser.startsLocal (some t.value) = false ∧
      t.value ≠ .closeCurly ∧ t.value ≠ .keyword .else := by
  have hexpr : ∀ {t : Token}, Level.assignment.begins t = true →
      Parser.startsLocal (some t) = false ∧ t ≠ .closeCurly ∧ t ≠ .keyword .else := by
    intro t ht
    cases t with
    | keyword k => cases k <;> first | exact absurd ht (by decide) | exact ⟨rfl, nofun, nofun⟩
    | closeCurly => exact absurd ht (by decide)
    | _ => exact ⟨rfl, nofun, nofun⟩
  rcases h with _ | he | _
  case expr =>
    obtain ⟨t, ts', rfl, ht⟩ := Expr.Derives.begins he
    exact ⟨t, ts', rfl, hexpr ht⟩
  all_goals exact ⟨_, _, rfl, rfl, nofun, nofun⟩

end Stmt

/-- The first token tells a declaration from a statement. -/
theorem Declaration.Derives.begins {d : Declaration} {ts r : Tokens} (h : d.Derives ts r) :
    ∃ t ts', ts = t :: ts' ∧ Parser.startsLocal (some t.value) = true := by
  rcases h with @⟨⟨type, _⟩, _⟩ | _
  · exact ⟨_, _, rfl, by cases type <;> rfl⟩
  · exact ⟨_, _, rfl, rfl⟩

namespace Parser

/-- A token that the text does not begin with is not the next one. -/
theorem head?_ne {t : Token} {ts : Tokens} (h : ∀ span r, ts ≠ ⟨t, span⟩ :: r) :
    ts.head?.map Located.value ≠ some t := by
  cases ts with
  | nil => simp
  | cons u ts =>
    rintro heq
    obtain rfl : u.value = t := Option.some.inj heq
    exact h u.span ts rfl

section

variable {stmt : Parse Stmt} {n : Nat}
  (hstmt : ∀ {b ts r}, Stmt.Whole b ts r → ts.length ≤ n → Accepts stmt ts b r)
include hstmt

/-- A block is declarations first and statements then, and its closing brace ends both. -/
theorem accepts_block {locals : List Declaration} {body : List Stmt} {ts r : Tokens}
    (h : (Stmt.block locals body).Derives ts r) (hnear : Stmt.NearestAll body)
    (hn : ts.length ≤ n + 1) : Accepts (block stmt) ts (.block locals body) r := by
  rcases h with @⟨_, _, span, span', ts, r₁, _, hlocals, hbody⟩
  rw [List.length_cons] at hn
  have hle := hlocals.length_le fun _ _ => Declaration.Derives.length_lt
  refine (accepts_expect _ _ _).bind ((accepts_record _ _).bind ((accepts_left _).bind ?_))
  have hfirst : startsLocal (r₁.head?.map Located.value) = false := by
    rcases hbody with _ | ⟨hs, -⟩
    · rfl
    · obtain ⟨t, ts', rfl, ht, -⟩ := hs.begins
      exact ht
  have hall := accepts_repeatWhile _ (D := Declaration.Derives) (F := fun _ => True) (m := _)
    (fun hd _ _ => accepts_localDeclaration hd) Declaration.Derives.length_lt
    (fun hd => by obtain ⟨t, ts', rfl, ht⟩ := hd.begins; exact ⟨ht, trivial⟩)
    hlocals trivial hfirst (Nat.le_refl _) (Nat.le_refl _)
  refine hall.bind ((accepts_left _).bind ?_)
  -- No statement of a block stands before an `else`.
  have hall := accepts_repeatWhile (fun t => t.isSome && t != some .closeCurly)
    (D := fun s ts r => s.Derives ts r ∧ s.Nearest) (m := n)
    (F := fun r => ∀ span r', r ≠ ⟨.keyword .else, span⟩ :: r')
    (fun hs hn hr => hstmt ⟨hs.1, hs.2, fun _ => hr⟩ hn) (fun hs => hs.1.length_lt)
    (fun hs => by
      obtain ⟨t, ts', rfl, -, hcurly, helse⟩ := hs.1.begins
      refine ⟨by simpa using hcurly, ?_⟩
      rintro span r' heq
      obtain ⟨rfl, -⟩ := List.cons.inj heq
      exact helse rfl)
    (repeated_and.mpr ⟨hbody, Stmt.nearestAll_iff.mp hnear⟩) (by simp) rfl (Nat.le_refl _)
    (by omega)
  refine hall.bind ((accepts_expect _ _ _).bind ((accepts_record _ _).bind ?_))
  exact accepts_pure _ _

/-- A choice takes the `else` that comes next, so the branch in front of it must not end in a choice
without one. -/
theorem accepts_choice {c : Expr} {body : Stmt} {otherwise : Option Stmt} {ts r : Tokens}
    (h : (Stmt.choice c body otherwise).Whole ts r) (hn : ts.length ≤ n + 1) :
    Accepts (choice stmt) ts (.choice c body otherwise) r := by
  obtain ⟨h, hnear, hends⟩ := h
  rcases h with _ | _ | _ | ⟨hc, hbody⟩ | ⟨hc, hbody, ho⟩
  all_goals
    have hlt := Expr.Derives.length_lt hc
    simp only [List.length_cons] at hlt hn
    refine (accepts_expect _ _ _).bind ?_
    refine (accepts_simpleExpr hc (follows_of_none rfl _ _ _)).bind ?_
    refine (accepts_record _ _).bind ((accepts_expect _ _ _).bind ?_)
  · have hr := hends rfl
    refine (hstmt ⟨hbody, hnear, fun _ => hr⟩ (by omega)).bind ?_
    refine (accepts_not (head?_ne hr)).bind ((accepts_record _ _).bind ?_)
    exact accepts_pure _ _
  · obtain ⟨hd, hnear, hnear'⟩ := hnear
    have hlt' := hbody.length_lt
    rw [List.length_cons] at hlt'
    refine (hstmt ⟨hbody, hnear, Stmt.ends_of_not_dangling hd _⟩ (by omega)).bind ?_
    refine (accepts_accept _ _ _).bind ((accepts_record _ _).bind ?_)
    refine (hstmt ⟨ho, hnear', hends⟩ (by omega)).bind ((accepts_record _ _).bind ?_)
    exact accepts_pure _ _

/-- The condition of a loop ends at `do`. -/
theorem accepts_loop {c : Expr} {body : Stmt} {ts r : Tokens} (h : (Stmt.loop c body).Whole ts r)
    (hn : ts.length ≤ n + 1) : Accepts (loop stmt) ts (.loop c body) r := by
  obtain ⟨h, hnear, hends⟩ := h
  rcases h with _ | _ | _ | _ | _ | ⟨hc, hbody⟩
  have hlt := Expr.Derives.length_lt hc
  simp only [List.length_cons] at hlt hn
  refine (accepts_expect _ _ _).bind ?_
  refine (accepts_simpleExpr hc (follows_of_none rfl _ _ _)).bind ?_
  refine (accepts_expect _ _ _).bind ((accepts_record _ _).bind ?_)
  refine (hstmt ⟨hbody, hnear, hends⟩ (by omega)).bind ((accepts_record _ _).bind ?_)
  exact accepts_pure _ _

omit hstmt in
/-- A range ends at `do`. -/
theorem accepts_range {g : Range} {span : Span} {ts r : Tokens}
    (h : g.Derives ts (⟨.keyword .do, span⟩ :: r)) :
    Accepts range ts g (⟨.keyword .do, span⟩ :: r) := by
  rcases h with he | ⟨he, hlast⟩ | ⟨he, hlast, hstep⟩ <;>
    refine (accepts_simpleExpr he (follows_of_none rfl _ _ _)).bind ?_
  · exact (accepts_not (by simp)).bind (accepts_pure _ _)
  all_goals
    refine (accepts_accept _ _ _).bind ?_
    refine (accepts_simpleExpr hlast (follows_of_none rfl _ _ _)).bind ?_
  · exact (accepts_not (by simp)).bind (accepts_pure _ _)
  · refine (accepts_accept _ _ _).bind ?_
    exact (accepts_simpleExpr hstep (follows_of_none rfl _ _ _)).bind (accepts_pure _ _)

/-- The counter of a counted loop is a name and a `=`. -/
theorem accepts_count {counter : Name} {range : Range} {body : Stmt} {ts r : Tokens}
    (h : (Stmt.count counter range body).Whole ts r) (hn : ts.length ≤ n + 1) :
    Accepts (count stmt) ts (.count counter range body) r := by
  obtain ⟨h, hnear, hends⟩ := h
  rcases h with _ | _ | _ | _ | _ | _ | ⟨hrange, hbody⟩
  have hlt := hrange.length_lt
  simp only [List.length_cons] at hlt hn
  refine (accepts_expect _ _ _).bind ((accepts_name _ _).bind ((accepts_expect _ _ _).bind ?_))
  refine (accepts_range hrange).bind ((accepts_expect _ _ _).bind ((accepts_record _ _).bind ?_))
  refine (hstmt ⟨hbody, hnear, hends⟩ (by omega)).bind ((accepts_record _ _).bind ?_)
  exact accepts_pure _ _

end

/-- A return has a value unless the semicolon follows at once. -/
theorem accepts_ret {word : Span} {value : Option Expr} {ts r : Tokens}
    (h : (Stmt.ret word value).Derives ts r) : Accepts ret ts (.ret word value) r := by
  rcases h with _ | _ | _ | _ | _ | _ | _ | _ | he <;>
    refine (accepts_expect _ _ _).bind ((accepts_peek_one _).bind ?_)
  · refine (accepts_pure none _).bind ((accepts_expect _ _ _).bind ((accepts_record _ _).bind ?_))
    exact accepts_pure _ _
  · have hvalue := (accepts_expr he (follows_of_none rfl _ _ _)).map (f := some)
    obtain ⟨t, ts, rfl, ht⟩ := Expr.Derives.begins he
    dsimp only
    split
    · rename_i hsemicolon
      rw [Option.some.inj hsemicolon] at ht
      cases ht
    · refine hvalue.bind ((accepts_expect _ _ _).bind ((accepts_record _ _).bind ?_))
      exact accepts_pure _ _

/-- A `break` and its semicolon. -/
theorem accepts_leave {word : Span} {ts r : Tokens} (h : (Stmt.leave word).Derives ts r) :
    Accepts leave ts (.leave word) r := by
  cases h
  refine (accepts_next _ _).bind ((accepts_expect _ _ _).bind ((accepts_record _ _).bind ?_))
  exact accepts_pure _ _

/-- An expression for its effect ends at its semicolon. -/
theorem accepts_effect {e : Expr} {ts r : Tokens} (h : (Stmt.expr e).Derives ts r) :
    Accepts effect ts (.expr e) r := by
  rcases h with _ | he
  refine (accepts_expr he (follows_of_none rfl _ _ _)).bind ((accepts_expect _ _ _).bind ?_)
  exact (accepts_record _ _).bind (accepts_pure _ _)

/-- The parser accepts every statement of the grammar that takes the nearest `else`. The induction
is on the fuel, for which the number of tokens is enough. -/
theorem accepts_statement (n : Nat) {b : Stmt} {ts r : Tokens} (h : b.Whole ts r)
    (hn : ts.length ≤ n) : Accepts (statement n) ts b r := by
  induction n generalizing b ts r with
  | zero =>
    have hlt := h.derives.length_lt
    omega
  | succ n ih =>
    refine (accepts_peek_one _).bind ?_
    cases b with
    | block =>
      have hb := accepts_block ih h.derives h.nearest hn
      rcases h.derives with ⟨_, _⟩
      exact hb
    | choice =>
      have hb := accepts_choice ih h hn
      rcases h.derives with _ | _ | _ | _ | _ <;> exact hb
    | loop =>
      have hb := accepts_loop ih h hn
      rcases h.derives with _ | _ | _ | _ | _ | _
      exact hb
    | count =>
      have hb := accepts_count ih h hn
      rcases h.derives with _ | _ | _ | _ | _ | _ | _
      exact hb
    | ret =>
      have hb := accepts_ret h.derives
      rcases h.derives with _ | _ | _ | _ | _ | _ | _ | _ | _ <;> exact hb
    | leave =>
      have hb := accepts_leave h.derives
      cases h.derives
      exact hb
    | empty =>
      cases h.derives
      exact (accepts_next _ _).map
    | expr =>
      have hb := accepts_effect h.derives
      rcases h.derives with _ | he
      obtain ⟨t, ts, rfl, ht⟩ := Expr.Derives.begins he
      dsimp only [List.head?_cons, Option.map_some]
      split
      case h_8 => exact hb
      -- No other statement begins like an expression.
      all_goals
        rename_i hword
        rw [Option.some.inj hword] at ht
        cases ht

end Parser

/-! ## Programs -/

/-- Behind the name of a variable that is declared there is no parenthesis. -/
theorem Declarator.Derives.second {d : Declarator} {ts : Tokens} {t : Located Token} {r : Tokens}
    (h : d.Derives ts (t :: r)) (ht : t.value ≠ .openParen) :
    ∃ n u ts', ts = Located.map Token.ident n :: u :: ts' ∧ u.value ≠ .openParen := by
  rcases h with ⟨hlength, hinit⟩
  rcases hlength with _ | _
  · rcases hinit with _ | _ | _
    · exact ⟨_, t, r, rfl, ht⟩
    · exact ⟨_, _, _, rfl, nofun⟩
    · exact ⟨_, _, _, rfl, nofun⟩
  · exact ⟨_, _, _, rfl, nofun⟩

/-- Global variables do not begin like a function. -/
theorem Declaration.Derives.third {d : Declaration} {ts r : Tokens} (h : d.Derives ts r)
    (hd : d.static = none) : ∃ type n u ts', ts =
      Located.map WordType.token type :: Located.map Token.ident n :: u :: ts' ∧
        u.value ≠ .openParen := by
  rcases h with hitems | _
  · rcases hitems with hone | ⟨hone, -⟩ <;>
    · obtain ⟨n, u, ts', rfl, hu⟩ := hone.second nofun
      exact ⟨_, n, u, ts', rfl, hu⟩
  · cases hd

/-- What stands outside functions takes tokens. -/
theorem TopLevel.Derives.length_lt {d : TopLevel} {ts r : Tokens} (h : d.Derives ts r) :
    r.length < ts.length := by
  rcases h with ⟨-, hd⟩ | ⟨hparams, hbody⟩ | ⟨hparams, hbody⟩
  · exact hd.length_lt
  all_goals
    have hlt := hbody.length_lt
    rcases hparams with _ | hgroups
    · simp only [List.length_cons]
      omega
    · have hlt' := hgroups.length_lt ParameterGroup.Derives.length_lt
      simp only [List.length_cons] at hlt' ⊢
      omega

/-- A declaration outside all functions does not begin with `else`. -/
theorem TopLevel.Derives.begins {d : TopLevel} {ts r : Tokens} (h : d.Derives ts r) :
    ∃ t ts', ts = t :: ts' ∧ t.value ≠ .keyword .else := by
  have htype : ∀ t : WordType, t.token ≠ .keyword .else := by
    rintro (_ | _ | _) <;> decide
  rcases h with ⟨hstatic, hd⟩ | _ | @⟨type⟩
  · obtain ⟨type, n, u, ts', rfl, -⟩ := hd.third hstatic
    exact ⟨_, _, rfl, htype type.value⟩
  · exact ⟨_, _, rfl, nofun⟩
  · exact ⟨_, _, rfl, htype type.value⟩

namespace Parser

/-- Behind its type a function has a name, parameters and a block. -/
theorem accepts_functionBehind (returns : Option (Located WordType)) (name : Name) (span : Span)
    {params : List ParameterGroup} {body : Stmt} {span' : Span} {ts r r' : Tokens}
    (hparams : ParametersDerive params ts (⟨.closeParen, span'⟩ :: r)) (hbody : body.Whole r r') :
    Accepts (functionBehind returns) (name.map .ident :: ⟨.openParen, span⟩ :: ts)
      (.function ⟨returns, name, params⟩ body) r' := by
  refine (accepts_name _ _).bind ((accepts_record _ _).bind ((accepts_expect _ _ _).bind ?_))
  refine (accepts_parameters hparams).bind ((accepts_expect _ _ _).bind ?_)
  refine (accepts_record _ _).bind ((accepts_left _).bind ?_)
  refine (accepts_statement _ hbody (Nat.le_succ _)).bind ((accepts_record _ _).bind ?_)
  exact accepts_pure _ _

/-- Variables outside functions are not declared as static. -/
theorem accepts_globals {d : Declaration} {ts r : Tokens} (hd : d.static = none)
    (h : d.Derives ts r) : Accepts globals ts (.variables d) r := by
  obtain ⟨static, type, items⟩ := d
  obtain rfl : static = none := hd
  exact (accepts_declaration none h).bind ((accepts_record _ _).bind (accepts_pure _ _))

/-- A name with a parenthesis behind it makes a function of what begins like a declaration. -/
theorem accepts_topLevel {d : TopLevel} {ts r : Tokens} (h : d.Derives ts r) (hnear : d.Nearest)
    (hr : ∀ span r', r ≠ ⟨.keyword .else, span⟩ :: r') : Accepts topLevel ts d r := by
  refine (accepts_peek? 0 _).bind ((accepts_peek? 0 _).bind ((accepts_peek? 1 _).bind ?_))
  refine (accepts_peek? 2 _).bind ?_
  rcases h with ⟨hstatic, hd⟩ | ⟨hparams, hbody⟩ |
    @⟨type, name, _, _, span, _, ts, _, _, hparams, hbody⟩
  · have hglobals := accepts_globals hstatic hd
    obtain ⟨⟨type, _⟩, n, u, ts', rfl, hu⟩ := hd.third hstatic
    rw [if_neg (by simpa using fun _ _ => hu)]
    refine (accepts_peek? 1 _).bind ?_
    cases type <;> exact hglobals
  · rename_i name _ _ span _ _ _
    refine (accepts_peek? 1 _).bind ?_
    have hbehind := accepts_functionBehind none name span hparams ⟨hbody, hnear, fun _ => hr⟩
    change Accepts function _ _ _
    rw [function_eq]
    exact (accepts_peek_one _).bind hbehind
  · have hbehind := accepts_functionBehind (some type) name span hparams ⟨hbody, hnear, fun _ => hr⟩
    obtain ⟨type, word⟩ := type
    have htype := accepts_type ⟨type, word⟩ (name.map .ident :: ⟨.openParen, span⟩ :: ts)
    cases type <;>
    · change Accepts function _ _ _
      rw [function_eq]
      exact (accepts_peek_one _).bind (htype.bind hbehind)

/-- **A program is parsed.** Of tokens that are a program, with each `else` at the nearest `if`,
parsing makes that program. -/
theorem accepts_program {p : Program} {ts : Tokens} (h : p.Derives ts) (hnear : p.Nearest) :
    Accepts program ts p [] := by
  have hall := accepts_repeatWhile Option.isSome (m := _)
    (D := fun d ts r => TopLevel.Derives d ts r ∧ d.Nearest)
    (F := fun r => ∀ span r', r ≠ ⟨.keyword .else, span⟩ :: r')
    (fun hd _ hr => accepts_topLevel hd.1 hd.2 hr) (fun hd => hd.1.length_lt)
    (fun hd => by
      obtain ⟨t, ts', rfl, helse⟩ := hd.1.begins
      refine ⟨rfl, ?_⟩
      rintro span r' heq
      obtain ⟨rfl, -⟩ := List.cons.inj heq
      exact helse rfl)
    (repeated_and.mpr ⟨h, hnear⟩) nofun rfl (Nat.le_refl _) (Nat.le_refl _)
  exact (accepts_left _).bind (hall.bind (accepts_pure _ _))

/-- Parsing goes on while there are tokens. -/
theorem rest_of_repeatWhile {D : α → Tokens → Tokens → Prop} {p : Parse α} (hp : Takes p D)
    (hlength : ∀ {a ts r}, D a ts r → r.length < ts.length) {n : Nat} {s s' : State} {as : List α}
    (hn : s.cursor.rest.length ≤ n) (hs : Succeeds (repeatWhile Option.isSome p n) s as s') :
    s'.cursor.rest = [] := by
  induction n generalizing s as with
  | zero =>
    obtain ⟨rfl, rfl⟩ := succeeds_pure.mp hs
    exact List.length_eq_zero_iff.mp (Nat.le_zero.mp hn)
  | succ n ih =>
    obtain ⟨t, s₁, h₁, hs⟩ := succeeds_bind.mp hs
    obtain ⟨rfl, rfl⟩ := succeeds_peek?.mp h₁
    split at hs
    · obtain ⟨a, s₂, h₂, hs⟩ := succeeds_bind.mp hs
      obtain ⟨as, s₃, h₃, hs⟩ := succeeds_bind.mp hs
      obtain ⟨rfl, rfl⟩ := succeeds_pure.mp hs
      have hlt := hlength (hp _ _ _ h₂)
      exact ih (by omega) h₃
    · rename_i hnone
      obtain ⟨rfl, rfl⟩ := succeeds_pure.mp hs
      simpa using hnone

end Parser

/-- **Parsing decides the grammar.** Parsing makes a program of tokens exactly if they are that
program and each `else` belongs to the nearest `if`. -/
theorem parse_eq_ok_iff {start : Span} {ts : Tokens} {p : Program} :
    (parse start ts).result = .ok p ↔ p.Derives ts ∧ p.Nearest := by
  constructor
  · intro h
    have hs : Parser.Succeeds Parser.program ⟨.ofList ts, start, #[]⟩ p
        (Parser.program.run.run ⟨.ofList ts, start, #[]⟩).2 := Prod.ext h rfl
    obtain ⟨hitems, hnear⟩ := Parser.takes_program _ _ _ hs
    obtain ⟨_, s₁, h₁, hs⟩ := Parser.succeeds_bind.mp hs
    obtain ⟨items, s₂, h₂, hs⟩ := Parser.succeeds_bind.mp hs
    obtain ⟨rfl, hlast⟩ := Parser.succeeds_pure.mp hs
    obtain ⟨rfl, rfl⟩ := Parser.succeeds_left.mp h₁
    have hrest := Parser.rest_of_repeatWhile Parser.takes_topLevel (fun hd => hd.1.length_lt)
      (Nat.le_refl _) h₂
    rw [hlast, hrest] at hitems
    exact ⟨hitems, hnear⟩
  · rintro ⟨h, hnear⟩
    obtain ⟨s', hs, -⟩ := Parser.accepts_program h hnear ⟨.ofList ts, start, #[]⟩ rfl
    exact congrArg Prod.fst hs

/-- Tokens are recognised exactly if they are a program: the tree that is compiled is the program
that they are, with each `else` at the nearest `if`, and where compiling ends in a fault of syntax
they are no program at all. -/
theorem compileTokens_recognizes (legacy : Bool) (ts : Tokens) :
    match compileTokens legacy ts with
    | .ok c => c.tree.Derives ts ∧ c.tree.Nearest
    | .error (.syntactic _) => ∀ p : Program, ¬ p.Derives ts
    | .error (.semantic _) => True := by
  rw [compileTokens, compileTokensFrom_eq]
  cases generate legacy (parse Reader.start ts).constructs.toList with
  | error => trivial
  | ok g =>
    cases hresult : (parse Reader.start ts).result with
    | error e =>
      -- Any program that the tokens are could be parsed, with its `else`s attached anew.
      intro p hp
      obtain ⟨q, hq, hnear⟩ := p.exists_nearest hp
      rw [parse_eq_ok_iff.mpr ⟨hq, hnear⟩] at hresult
      cases hresult
    | ok tree => exact parse_eq_ok_iff.mp hresult

/-- The tree that a source is compiled to is what its tokens are. -/
theorem derives_of_compile {name : String} {legacy : Bool} {source : List UInt8} {c : Compilation}
    (h : compile name legacy source = .ok c) :
    ∃ tokens, tokenize (readings source) = .ok tokens ∧ c.tree.Derives tokens := by
  obtain ⟨tokens, htokens, hc⟩ := compile_eq_ok h
  exact ⟨tokens, htokens, (parse_eq_ok_iff.mp (compileTokens_eq_ok hc).1).1⟩

end OnePass
