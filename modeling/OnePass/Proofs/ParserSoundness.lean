import OnePass.Proofs.Grammar
import OnePass.Proofs.Recognition

/-!
# What parsers take is a phrase

Main statement: the tokens of which parsing makes a program are that program, and each `else`
belongs to the nearest `if` (`Parser.takes_program`).

A parser `Takes` a phrase if, whenever it succeeds, the tokens before it began with that phrase and
the tokens behind it are what comes then. What makes a parser succeed plays no part here.
-/

namespace OnePass

/-! ## Which tokens stand for what -/

namespace Token

/-- Only identifiers are names. -/
theorem name?_eq_some {t : Token} {name : String} : t.name? = some name ↔ t = .ident name := by
  constructor
  · intro h
    cases t <;> cases h
    rfl
  · rintro rfl
    rfl

/-- A literal is read off the one token that writes it. -/
theorem literal?_eq_some {t : Token} {v : Literal} : t.literal? = some v ↔ t = v.token := by
  constructor
  · intro h
    cases t <;> cases h <;> rfl
  · rintro rfl
    cases v <;> rfl

/-- A type is read off its keyword. -/
theorem type?_eq_some {t : Token} {type : WordType} : t.type? = some type ↔ t = type.token := by
  constructor
  · intro h
    cases t
    case keyword word => cases word <;> cases h <;> rfl
    all_goals cases h
  · rintro rfl
    cases type <;> rfl

end Token

namespace Parser

/-- A logical operator is its keyword. -/
theorem word?_eq_some {k : Keyword} {t : Token} {u : Unit} :
    word? k t = some u ↔ t = .keyword k := by
  simp [word?]

theorem relation?_eq_some {t : Token} {op : RelOp} : relation? t = some op ↔ t = .relation op := by
  constructor
  · intro h
    cases t <;> cases h
    rfl
  · rintro rfl
    rfl

theorem lead?_eq_some {t : Token} {op : LeadOp} : lead? t = some op ↔ t = op.token := by
  constructor
  · intro h
    cases t <;> cases h <;> rfl
  · rintro rfl
    cases op <;> rfl

/-- The minimum and the maximum are the operators of their level. -/
theorem choosing?_eq_some {t : Token} {op : ArithOp} :
    choosing? t = some op ↔ t = op.token ∧ Level.ofArith op = .choosing := by
  constructor
  · intro h
    cases t
    case bound b => cases b <;> cases h <;> exact ⟨rfl, rfl⟩
    all_goals cases h
  · rintro ⟨rfl, h⟩
    cases op <;> cases h <;> rfl

/-- Plus and minus are the operators of sums. -/
theorem additive?_eq_some {t : Token} {op : ArithOp} :
    additive? t = some op ↔ t = op.token ∧ Level.ofArith op = .sum := by
  constructor
  · intro h
    cases t <;> cases h <;> exact ⟨rfl, rfl⟩
  · rintro ⟨rfl, h⟩
    cases op <;> cases h <;> rfl

/-- The operators of products are those of their level. -/
theorem multiplicative?_eq_some {t : Token} {op : ArithOp} :
    multiplicative? t = some op ↔ t = op.token ∧ Level.ofArith op = .product := by
  constructor
  · intro h
    cases t <;> cases h <;> exact ⟨rfl, rfl⟩
  · rintro ⟨rfl, h⟩
    cases op <;> cases h <;> rfl

variable {α : Type}

/-- What `p` makes of tokens they begin with, and what is left comes behind it. -/
def Takes (p : Parse α) (D : α → Tokens → Tokens → Prop) : Prop :=
  ∀ s a s', Succeeds p s a s' → D a s.cursor.rest s'.cursor.rest

/-! ## Tokens -/

/-- A cursor that gives a token is one token shorter behind it. -/
theorem next?_eq_some {c c' : Cursor} {t : Located Token} (h : c.next? = some (t, c')) :
    c.rest = t :: c'.rest := by
  rw [c.eq_ofList] at h
  cases hrest : c.rest with
  | nil => rw [hrest, Cursor.next?_ofList_nil] at h; cases h
  | cons u ts =>
    rw [hrest, Cursor.next?_ofList_cons] at h
    obtain ⟨rfl, rfl⟩ := Prod.mk.inj (Option.some.inj h)
    rfl

/-- The next token is the one that is taken. -/
theorem takes_next : Takes next fun t ts r => ts = t :: r := by
  intro s t s' hs
  obtain ⟨u, s₁, h₁, h₂⟩ := succeeds_bind.mp hs
  obtain ⟨rfl, rfl⟩ := succeeds_get.mp h₁
  split at h₂
  · exact absurd h₂ not_succeeds_fail
  · rename_i hnext
    obtain ⟨_, s₂, h₃, h₄⟩ := succeeds_bind.mp h₂
    obtain ⟨rfl, rfl⟩ := succeeds_pure.mp h₄
    rw [succeeds_set.mp h₃]
    exact next?_eq_some hnext

/-- The token that is expected is the one that is taken. -/
theorem takes_expect (t : Token) : Takes (expect t) fun span ts r => ts = ⟨t, span⟩ :: r := by
  intro s span s' hs
  obtain ⟨u, s₁, h₁, h₂⟩ := succeeds_bind.mp hs
  obtain ⟨rfl, rfl⟩ := succeeds_get.mp h₁
  split at h₂
  · exact absurd h₂ not_succeeds_fail
  · rename_i found cursor hnext
    obtain ⟨_, s₂, h₃, h₄⟩ := succeeds_bind.mp h₂
    by_cases hfound : found.value = t
    · rw [if_pos hfound] at h₄
      obtain ⟨rfl, rfl⟩ := succeeds_pure.mp h₄
      rw [succeeds_set.mp h₃, ← hfound]
      exact next?_eq_some hnext
    · rw [if_neg hfound] at h₄
      exact absurd h₄ not_succeeds_fail

/-- Looking ahead takes nothing. -/
theorem succeeds_peek? {k : Nat} {s s' : State} {t : Option Token} :
    Succeeds (peek? (k + 1)) s t s' ↔ t = (s.cursor.rest[k]?).map Located.value ∧ s' = s := by
  constructor
  · intro hs
    obtain ⟨u, s₁, h₁, h₂⟩ := succeeds_bind.mp hs
    obtain ⟨rfl, rfl⟩ := succeeds_get.mp h₁
    exact succeeds_pure.mp h₂
  · rintro ⟨rfl, rfl⟩
    exact succeeds_bind.mpr ⟨_, _, succeeds_get.mpr ⟨rfl, rfl⟩, succeeds_pure.mpr ⟨rfl, rfl⟩⟩

/-- As many tokens are left as the cursor holds. -/
theorem succeeds_left {s s' : State} {n : Nat} :
    Succeeds left s n s' ↔ n = s.cursor.rest.length ∧ s' = s := by
  rw [← s.cursor.size_eq]
  constructor
  · intro hs
    obtain ⟨u, s₁, h₁, h₂⟩ := succeeds_bind.mp hs
    obtain ⟨rfl, rfl⟩ := succeeds_get.mp h₁
    exact succeeds_pure.mp h₂
  · rintro ⟨rfl, rfl⟩
    exact succeeds_bind.mpr ⟨_, _, succeeds_get.mpr ⟨rfl, rfl⟩, succeeds_pure.mpr ⟨rfl, rfl⟩⟩

/-- A token that may be there is taken, or it does not come next. -/
theorem takes_accept (t : Token) : Takes (accept t) fun more ts r =>
    (more = true ∧ ∃ span, ts = ⟨t, span⟩ :: r) ∨
      (more = false ∧ ts = r ∧ ∀ span r', r ≠ ⟨t, span⟩ :: r') := by
  intro s more s' hs
  obtain ⟨u, s₁, h₁, h₂⟩ := succeeds_bind.mp hs
  obtain ⟨rfl, rfl⟩ := succeeds_peek?.mp h₁
  by_cases hnext : (s₁.cursor.rest[0]?).map Located.value = some t
  · rw [if_pos hnext] at h₂
    obtain ⟨u, s₂, h₃, h₄⟩ := succeeds_bind.mp h₂
    obtain ⟨rfl, rfl⟩ := succeeds_pure.mp h₄
    have hrest := takes_next _ _ _ h₃
    rw [hrest] at hnext
    exact .inl ⟨rfl, u.span, by rw [hrest, ← Option.some.inj hnext]⟩
  · rw [if_neg hnext] at h₂
    obtain ⟨rfl, rfl⟩ := succeeds_pure.mp h₂
    exact .inr ⟨rfl, rfl, fun span r' h => hnext (by rw [h]; rfl)⟩

/-- To record a construct takes no token. -/
theorem takes_record (c : Construct) : Takes (record c) fun _ ts r => ts = r := by
  intro s _ s' hs
  rw [succeeds_record.mp hs]

/-- A name is taken off an identifier. -/
theorem takes_name : Takes name fun n ts r => ts = n.map .ident :: r := by
  intro s n s' hs
  obtain ⟨t, s₁, h₁, h₂⟩ := succeeds_bind.mp hs
  split at h₂
  · rename_i hname
    obtain ⟨rfl, rfl⟩ := succeeds_pure.mp h₂
    rw [takes_next _ _ _ h₁, Located.map, ← Token.name?_eq_some.mp hname]
  · exact absurd h₂ not_succeeds_fail

/-- A type is taken off its keyword. -/
theorem takes_type : Takes type fun t ts r => ts = t.map WordType.token :: r := by
  intro s t s' hs
  obtain ⟨u, s₁, h₁, h₂⟩ := succeeds_bind.mp hs
  split at h₂
  · rename_i htype
    obtain ⟨rfl, rfl⟩ := succeeds_pure.mp h₂
    rw [takes_next _ _ _ h₁, Located.map, ← Token.type?_eq_some.mp htype]
  · exact absurd h₂ not_succeeds_fail

/-! ## Repetition -/

section

variable {D : α → Tokens → Tokens → Prop} {p : Parse α}

/-- What is taken with separators is separated by them in the grammar. The induction is on the fuel.
-/
theorem takes_separatedBy (t : Token) (hp : Takes p D) (n : Nat) :
    Takes (separatedBy t p n) (Separated t D) := by
  induction n with
  | zero =>
    intro s as s' hs
    obtain ⟨a, s₁, h₁, h₂⟩ := succeeds_bind.mp hs
    obtain ⟨rfl, rfl⟩ := succeeds_pure.mp h₂
    exact .one (hp _ _ _ h₁)
  | succ n ih =>
    intro s as s' hs
    obtain ⟨a, s₁, h₁, hs⟩ := succeeds_bind.mp hs
    obtain ⟨more, s₂, h₂, hs⟩ := succeeds_bind.mp hs
    have ha := hp _ _ _ h₁
    rcases takes_accept t _ _ _ h₂ with ⟨rfl, span, hrest⟩ | ⟨rfl, hrest, -⟩ <;> rw [hrest] at ha
    · obtain ⟨as, s₃, h₃, hs⟩ := succeeds_bind.mp hs
      obtain ⟨rfl, rfl⟩ := succeeds_pure.mp hs
      exact .more ha (ih _ _ _ h₃)
    · obtain ⟨rfl, rfl⟩ := succeeds_pure.mp hs
      exact .one ha

/-- What is taken in rounds is repeated in the grammar. -/
theorem takes_repeatWhile (goOn : Option Token → Bool) (hp : Takes p D) (n : Nat) :
    Takes (repeatWhile goOn p n) (Repeated D) := by
  induction n with
  | zero =>
    intro s as s' hs
    obtain ⟨rfl, rfl⟩ := succeeds_pure.mp hs
    exact .none
  | succ n ih =>
    intro s as s' hs
    obtain ⟨t, s₁, h₁, hs⟩ := succeeds_bind.mp hs
    obtain ⟨rfl, rfl⟩ := succeeds_peek?.mp h₁
    split at hs
    · obtain ⟨a, s₂, h₂, hs⟩ := succeeds_bind.mp hs
      obtain ⟨as, s₃, h₃, hs⟩ := succeeds_bind.mp hs
      obtain ⟨rfl, rfl⟩ := succeeds_pure.mp hs
      exact .more (hp _ _ _ h₂) (ih _ _ _ h₃)
    · obtain ⟨rfl, rfl⟩ := succeeds_pure.mp hs
      exact .none

end

section

variable {level : Level} {op? : Token → Option α} {operand : Parse Expr}

/-- A chain of a level, made of operands of the next tighter one. -/
theorem takes_chain {join : Expr → Located α → Expr → Expr} (hlevel : level ≠ .atom)
    (ho : Takes operand (Expr.Derives level.tighter))
    (hjoin : ∀ {l op t span e ts r r'}, op? t = some op → Expr.Derives level l ts (⟨t, span⟩ :: r) →
      Expr.Derives level.tighter e r r' → Expr.Derives level (join l ⟨op, span⟩ e) ts r') :
    Takes (chain op? join operand) (Expr.Derives level) := by
  have hfrom : ∀ n e s e' s', Succeeds (chainFrom op? join operand n e) s e' s' →
      ∀ ts, e.Derives level ts s.cursor.rest → e'.Derives level ts s'.cursor.rest := by
    intro n
    induction n with
    | zero =>
      intro e s e' s' hs ts he
      obtain ⟨rfl, rfl⟩ := succeeds_pure.mp hs
      exact he
    | succ n ih =>
      intro e s e' s' hs ts he
      obtain ⟨t, s₁, h₁, hs⟩ := succeeds_bind.mp hs
      obtain ⟨rfl, rfl⟩ := succeeds_peek?.mp h₁
      split at hs
      · obtain ⟨rfl, rfl⟩ := succeeds_pure.mp hs
        exact he
      · rename_i op hop
        obtain ⟨t, s₂, h₂, hs⟩ := succeeds_bind.mp hs
        obtain ⟨e₂, s₃, h₃, hs⟩ := succeeds_bind.mp hs
        rw [takes_next _ _ _ h₂] at he hop
        exact ih _ _ _ _ hs ts (hjoin hop he (ho _ _ _ h₃))
  intro s e s' hs
  obtain ⟨e₁, s₁, h₁, hs⟩ := succeeds_bind.mp hs
  obtain ⟨n, s₂, h₂, hs⟩ := succeeds_bind.mp hs
  obtain ⟨rfl, rfl⟩ := succeeds_left.mp h₂
  exact hfrom _ _ _ _ _ hs _ (.tighter hlevel (ho _ _ _ h₁))

/-- An operand of the next tighter level behind operators. -/
theorem takes_leading {join : Located α → Expr → Expr} (hlevel : level ≠ .atom)
    (ho : Takes operand (Expr.Derives level.tighter))
    (hjoin : ∀ {op t span e ts r}, op? t = some op → Expr.Derives level e ts r →
      Expr.Derives level (join ⟨op, span⟩ e) (⟨t, span⟩ :: ts) r) (n : Nat) :
    Takes (leading op? join operand n) (Expr.Derives level) := by
  induction n with
  | zero => exact fun s e s' hs => .tighter hlevel (ho _ _ _ hs)
  | succ n ih =>
    intro s e s' hs
    obtain ⟨t, s₁, h₁, hs⟩ := succeeds_bind.mp hs
    obtain ⟨rfl, rfl⟩ := succeeds_peek?.mp h₁
    split at hs
    · exact .tighter hlevel (ho _ _ _ hs)
    · rename_i op hop
      obtain ⟨t, s₂, h₂, hs⟩ := succeeds_bind.mp hs
      obtain ⟨e, s₃, h₃, hs⟩ := succeeds_bind.mp hs
      obtain ⟨rfl, rfl⟩ := succeeds_pure.mp hs
      have hrest := takes_next _ _ _ h₂
      rw [hrest] at hop
      rw [hrest]
      exact hjoin hop (ih _ _ _ h₃)

end

/-! ## Expressions -/

/-- The arguments of a call are expressions with commas between them. -/
theorem args_derives {es : List Expr} {ts r : Tokens} :
    (Phrase.args es).Derives ts r ↔ Separated .comma Expr.Whole es ts r := by
  constructor
  · intro h
    generalize hp : Phrase.args es = p at h
    induction h generalizing es with
    | arg h => cases hp; exact .one h
    | moreArgs h _ _ ih => cases hp; exact .more h (ih rfl)
    | _ => cases hp
  · intro h
    induction h with
    | one h => exact .arg h
    | more h _ ih => exact .moreArgs h ih

section

variable {expr : Parse Expr} (he : Takes expr Expr.Whole)
include he

/-- Behind an opening parenthesis the arguments complete a call. -/
theorem takes_arguments (n : Name) (span : Span) :
    Takes (arguments expr) fun es ts r =>
      (Expr.call n es).Derives .atom (n.map .ident :: ⟨.openParen, span⟩ :: ts) r := by
  intro s es s' hs
  obtain ⟨none, s₁, h₁, hs⟩ := succeeds_bind.mp hs
  rcases takes_accept _ _ _ _ h₁ with ⟨rfl, span, hrest⟩ | ⟨rfl, hrest, -⟩
  · obtain ⟨rfl, rfl⟩ := succeeds_pure.mp hs
    rw [hrest]
    exact .callNone
  · obtain ⟨_, s₂, h₂, hs⟩ := succeeds_bind.mp hs
    obtain ⟨args, s₃, h₃, hs⟩ := succeeds_bind.mp hs
    obtain ⟨_, s₄, h₄, hs⟩ := succeeds_bind.mp hs
    obtain ⟨rfl, rfl⟩ := succeeds_pure.mp hs
    obtain ⟨rfl, rfl⟩ := succeeds_left.mp h₂
    have hargs := takes_separatedBy .comma he _ _ _ _ h₃
    rw [takes_expect _ _ _ _ h₄] at hargs
    rw [hrest]
    exact .call (args_derives.mpr hargs)

/-- A call is a name, arguments and parentheses. -/
theorem takes_call : Takes (call expr) (Expr.Derives .atom) := by
  intro s e s' hs
  obtain ⟨n, s₁, h₁, hs⟩ := succeeds_bind.mp hs
  obtain ⟨span, s₂, h₂, hs⟩ := succeeds_bind.mp hs
  obtain ⟨es, s₃, h₃, hs⟩ := succeeds_bind.mp hs
  obtain ⟨rfl, rfl⟩ := succeeds_pure.mp hs
  rw [takes_name _ _ _ h₁, takes_expect _ _ _ _ h₂]
  exact takes_arguments he n span _ _ _ h₃

/-- A place is a variable, or one with an index in brackets. -/
theorem takes_place : Takes (place expr) (Expr.Derives .atom) := by
  intro s e s' hs
  obtain ⟨n, s₁, h₁, hs⟩ := succeeds_bind.mp hs
  obtain ⟨more, s₂, h₂, hs⟩ := succeeds_bind.mp hs
  rw [takes_name _ _ _ h₁]
  rcases takes_accept _ _ _ _ h₂ with ⟨rfl, span, hrest⟩ | ⟨rfl, hrest, -⟩ <;> rw [hrest]
  · obtain ⟨i, s₃, h₃, hs⟩ := succeeds_bind.mp hs
    obtain ⟨_, s₄, h₄, hs⟩ := succeeds_bind.mp hs
    obtain ⟨rfl, rfl⟩ := succeeds_pure.mp hs
    have hi := he _ _ _ h₃
    rw [takes_expect _ _ _ _ h₄] at hi
    exact .elem hi
  · obtain ⟨rfl, rfl⟩ := succeeds_pure.mp hs
    exact .var

/-- What closes itself is an expression of the tightest level. -/
theorem takes_closed : Takes (closed expr) (Expr.Derives .atom) := by
  intro s e s' hs
  obtain ⟨t, s₁, h₁, hs⟩ := succeeds_bind.mp hs
  rw [takes_next _ _ _ h₁]
  obtain ⟨t, span⟩ := t
  split at hs
  · rename_i hopen
    obtain ⟨i, s₂, h₂, hs⟩ := succeeds_bind.mp hs
    obtain ⟨_, s₃, h₃, hs⟩ := succeeds_bind.mp hs
    obtain ⟨rfl, rfl⟩ := succeeds_pure.mp hs
    have hi := he _ _ _ h₂
    rw [takes_expect _ _ _ _ h₃] at hi
    obtain rfl : t = .openParen := hopen
    exact .paren hi
  · rename_i v hv _
    obtain ⟨rfl, rfl⟩ := succeeds_pure.mp hs
    obtain rfl : t = v.token := Token.literal?_eq_some.mp hv
    exact .literal
  · exact absurd hs not_succeeds_fail

/-- The smallest expressions are of the tightest level. -/
theorem takes_atom : Takes (atom expr) (Expr.Derives .atom) := by
  intro s e s' hs
  obtain ⟨t, s₁, h₁, hs⟩ := succeeds_bind.mp hs
  obtain ⟨t', s₂, h₂, hs⟩ := succeeds_bind.mp hs
  obtain ⟨rfl, rfl⟩ := succeeds_peek?.mp h₁
  obtain ⟨rfl, rfl⟩ := succeeds_peek?.mp h₂
  split at hs
  · exact takes_call he _ _ _ hs
  · exact takes_place he _ _ _ hs
  · exact takes_closed he _ _ _ hs

/-- Signs stand in front of an expression of the tightest level. -/
theorem takes_unary : Takes (unary expr) (Expr.Derives .leading) := by
  intro s e s' hs
  obtain ⟨n, s₁, h₁, hs⟩ := succeeds_bind.mp hs
  obtain ⟨rfl, rfl⟩ := succeeds_left.mp h₁
  refine takes_leading (by decide) (takes_atom he) ?_ _ _ _ _ hs
  intro op t span e ts r hop h
  obtain rfl := lead?_eq_some.mp hop
  exact .lead h

/-- Minimum and maximum bind least of all arithmetic. -/
theorem takes_arithmetic : Takes (arithmetic expr) (Expr.Derives .choosing) := by
  refine takes_chain (by decide) (takes_chain (by decide) (takes_chain (by decide)
    (takes_unary he) ?_) ?_) ?_ <;> intro l op t span e ts r r' hop hl hr
  · obtain ⟨rfl, hlevel⟩ := multiplicative?_eq_some.mp hop
    exact .arith hlevel hl hr
  · obtain ⟨rfl, hlevel⟩ := additive?_eq_some.mp hop
    exact .arith hlevel hl hr
  · obtain ⟨rfl, hlevel⟩ := choosing?_eq_some.mp hop
    exact .arith hlevel hl hr

/-- A comparison has one operator at most. -/
theorem takes_comparison : Takes (comparison expr) (Expr.Derives .relation) := by
  intro s e s' hs
  obtain ⟨l, s₁, h₁, hs⟩ := succeeds_bind.mp hs
  obtain ⟨t, s₂, h₂, hs⟩ := succeeds_bind.mp hs
  obtain ⟨rfl, rfl⟩ := succeeds_peek?.mp h₂
  have hl := takes_arithmetic he _ _ _ h₁
  split at hs
  · obtain ⟨rfl, rfl⟩ := succeeds_pure.mp hs
    exact .tighter (by decide) hl
  · rename_i op hop
    obtain ⟨t, s₃, h₃, hs⟩ := succeeds_bind.mp hs
    obtain ⟨r, s₄, h₄, hs⟩ := succeeds_bind.mp hs
    obtain ⟨rfl, rfl⟩ := succeeds_pure.mp hs
    rw [takes_next _ _ _ h₃] at hop hl
    obtain ⟨t, span⟩ := t
    obtain rfl : t = .relation op := relation?_eq_some.mp hop
    exact .compare hl (takes_arithmetic he _ _ _ h₄)

theorem takes_negation : Takes (negation expr) (Expr.Derives .negation) := by
  intro s e s' hs
  obtain ⟨n, s₁, h₁, hs⟩ := succeeds_bind.mp hs
  obtain ⟨rfl, rfl⟩ := succeeds_left.mp h₁
  refine takes_leading (by decide) (takes_comparison he) ?_ _ _ _ _ hs
  intro op t span e ts r hop h
  obtain rfl := word?_eq_some.mp hop
  exact .negate h

/-- An expression without an assignment is one of logical operators. -/
theorem takes_simple : Takes (simple expr) Expr.Simple := by
  refine takes_chain (by decide) (takes_chain (by decide) (takes_negation he) ?_) ?_ <;>
    intro l op t span e ts r r' hop hl hr
  · obtain rfl := word?_eq_some.mp hop
    exact .logic rfl hl hr
  · obtain rfl := word?_eq_some.mp hop
    exact .logic rfl hl hr

end

/-- With any fuel, what is taken is an expression of the grammar. The induction is on the fuel,
which the expressions in brackets and parentheses use up. -/
theorem takes_expression (n : Nat) : Takes (expression n) Expr.Whole := by
  induction n with
  | zero => exact fun _ _ _ hs => absurd hs not_succeeds_fail
  | succ n ih =>
    intro s e s' hs
    obtain ⟨p, s₁, h₁, hs⟩ := succeeds_bind.mp hs
    obtain ⟨t, s₂, h₂, hs⟩ := succeeds_bind.mp hs
    obtain ⟨rfl, rfl⟩ := succeeds_peek?.mp h₂
    have hp := takes_simple ih _ _ _ h₁
    split at hs
    · rename_i op hop
      obtain ⟨t, s₃, h₃, hs⟩ := succeeds_bind.mp hs
      obtain ⟨v, s₄, h₄, hs⟩ := succeeds_bind.mp hs
      obtain ⟨rfl, rfl⟩ := succeeds_pure.mp hs
      rw [takes_next _ _ _ h₃] at hop hp
      obtain ⟨t, span⟩ := t
      obtain rfl : t = .assign op := Option.some.inj hop
      exact .assign hp (ih _ _ _ h₄)
    · rename_i op hop
      obtain ⟨t, s₃, h₃, hs⟩ := succeeds_bind.mp hs
      obtain ⟨rfl, rfl⟩ := succeeds_pure.mp hs
      rw [takes_next _ _ _ h₃] at hop hp
      obtain ⟨t, span⟩ := t
      obtain rfl : t = .step op := Option.some.inj hop
      exact .step hp
    · obtain ⟨rfl, rfl⟩ := succeeds_pure.mp hs
      exact .tighter (by decide) hp

/-- What is taken with the fuel that is given is an expression of the grammar. -/
theorem takes_expr : Takes expr Expr.Whole := by
  intro s e s' hs
  obtain ⟨n, s₁, h₁, hs⟩ := succeeds_bind.mp hs
  obtain ⟨rfl, rfl⟩ := succeeds_left.mp h₁
  exact takes_expression _ _ _ _ hs

/-- What is taken where no assignment may stand has none. -/
theorem takes_simpleExpr : Takes simpleExpr Expr.Simple := by
  intro s e s' hs
  obtain ⟨n, s₁, h₁, hs⟩ := succeeds_bind.mp hs
  obtain ⟨rfl, rfl⟩ := succeeds_left.mp h₁
  exact takes_simple (takes_expression _) _ _ _ hs

/-! ## Declarations -/

/-- Behind an opening bracket a length and a closing bracket are taken. -/
theorem takes_arrayLength : Takes arrayLength LengthDerives := by
  intro s n s' hs
  obtain ⟨more, s₁, h₁, hs⟩ := succeeds_bind.mp hs
  rcases takes_accept _ _ _ _ h₁ with ⟨rfl, span, hrest⟩ | ⟨rfl, hrest, -⟩ <;> rw [hrest]
  · obtain ⟨⟨t, span'⟩, s₂, h₂, hs⟩ := succeeds_bind.mp hs
    rw [takes_next _ _ _ h₂]
    split at hs
    · rename_i n hn
      obtain ⟨_, s₃, h₃, hs⟩ := succeeds_bind.mp hs
      obtain ⟨rfl, rfl⟩ := succeeds_pure.mp hs
      obtain rfl : t = .int n := hn
      rw [takes_expect _ _ _ _ h₃]
      exact .some
    · exact absurd hs not_succeeds_fail
  · obtain ⟨rfl, rfl⟩ := succeeds_pure.mp hs
    exact .none

/-- A declarator is a name, perhaps a length and perhaps an initialiser. -/
theorem takes_declarator : Takes declarator Declarator.Derives := by
  intro s d s' hs
  obtain ⟨n, s₁, h₁, hs⟩ := succeeds_bind.mp hs
  obtain ⟨length, s₂, h₂, hs⟩ := succeeds_bind.mp hs
  obtain ⟨colon, s₃, h₃, hs⟩ := succeeds_bind.mp hs
  rw [takes_name _ _ _ h₁]
  have hlength := takes_arrayLength _ _ _ h₂
  rcases takes_accept _ _ _ _ h₃ with ⟨rfl, span, hrest⟩ | ⟨rfl, hrest, -⟩ <;> rw [hrest] at hlength
  · obtain ⟨e, s₄, h₄, hs⟩ := succeeds_bind.mp hs
    obtain ⟨rfl, rfl⟩ := succeeds_pure.mp hs
    exact .mk hlength (.colon (takes_simpleExpr _ _ _ h₄))
  · obtain ⟨equals, s₄, h₄, hs⟩ := succeeds_bind.mp hs
    rcases takes_accept _ _ _ _ h₄ with ⟨rfl, span, hrest⟩ | ⟨rfl,
      hrest, -⟩ <;> rw [hrest] at hlength
    · obtain ⟨e, s₅, h₅, hs⟩ := succeeds_bind.mp hs
      obtain ⟨rfl, rfl⟩ := succeeds_pure.mp hs
      exact .mk hlength (.equals (takes_simpleExpr _ _ _ h₅))
    · obtain ⟨rfl, rfl⟩ := succeeds_pure.mp hs
      exact .mk hlength .none

/-- A declaration behind the word `static`, if that is there. -/
theorem takes_declaration (static : Option Span) : Takes (declaration static) fun d ts r =>
    d.static = static ∧ (Declaration.mk none d.type d.items).Derives ts r := by
  intro s d s' hs
  obtain ⟨t, s₁, h₁, hs⟩ := succeeds_bind.mp hs
  obtain ⟨n, s₂, h₂, hs⟩ := succeeds_bind.mp hs
  obtain ⟨rfl, rfl⟩ := succeeds_left.mp h₂
  obtain ⟨items, s₃, h₃, hs⟩ := succeeds_bind.mp hs
  obtain ⟨_, s₄, h₄, hs⟩ := succeeds_bind.mp hs
  obtain ⟨rfl, rfl⟩ := succeeds_pure.mp hs
  have hitems := takes_separatedBy .comma takes_declarator _ _ _ _ h₃
  rw [takes_expect _ _ _ _ h₄] at hitems
  rw [takes_type _ _ _ h₁]
  exact ⟨rfl, .plain hitems⟩

/-- A declaration with the word `static` in front is one that is static. -/
theorem derives_static {d : Declaration} {word : Span} {ts r : Tokens}
    (h : (Declaration.mk none d.type d.items).Derives ts r) (hstatic : d.static = some word) :
    d.Derives (⟨.keyword .static, word⟩ :: ts) r := by
  obtain ⟨_, type, items⟩ := d
  obtain rfl : _ = some word := hstatic
  rcases h with ⟨hitems⟩
  exact .static hitems

/-- What is taken in a block is a declaration of the grammar, static or not. -/
theorem takes_localDeclaration : Takes localDeclaration Declaration.Derives := by
  intro s d s' hs
  obtain ⟨t, s₁, h₁, hs⟩ := succeeds_bind.mp hs
  obtain ⟨rfl, rfl⟩ := succeeds_peek?.mp h₁
  dsimp only at hs
  split at hs
  · rename_i hword
    rw [map_eq_pure_bind, bind_assoc] at hs
    obtain ⟨⟨t, word⟩, s₂, h₂, hs⟩ := succeeds_bind.mp hs
    simp only [pure_bind] at hs
    obtain ⟨d, s₃, h₃, hs⟩ := succeeds_bind.mp hs
    obtain ⟨_, s₄, h₄, hs⟩ := succeeds_bind.mp hs
    obtain ⟨rfl, rfl⟩ := succeeds_pure.mp hs
    obtain ⟨hstatic, hd⟩ := takes_declaration _ _ _ _ h₃
    have hrest := takes_next _ _ _ h₂
    rw [hrest] at hword
    obtain rfl : t = .keyword .static := Option.some.inj hword
    rw [hrest, ← takes_record _ _ _ _ h₄]
    exact derives_static hd hstatic
  · rw [pure_bind] at hs
    obtain ⟨d, s₃, h₃, hs⟩ := succeeds_bind.mp hs
    obtain ⟨_, s₄, h₄, hs⟩ := succeeds_bind.mp hs
    obtain ⟨rfl, rfl⟩ := succeeds_pure.mp hs
    obtain ⟨hstatic, hd⟩ := takes_declaration _ _ _ _ h₃
    rw [← takes_record _ _ _ _ h₄]
    obtain ⟨static, type, items⟩ := d
    obtain rfl : static = none := hstatic
    exact hd

/-- A parameter is a name, with brackets if it is an array. -/
theorem takes_parameter : Takes parameter Parameter.Derives := by
  intro s q s' hs
  obtain ⟨n, s₁, h₁, hs⟩ := succeeds_bind.mp hs
  obtain ⟨t, s₂, h₂, hs⟩ := succeeds_bind.mp hs
  obtain ⟨rfl, rfl⟩ := succeeds_peek?.mp h₂
  rw [takes_name _ _ _ h₁]
  split at hs
  · rename_i hopen
    obtain ⟨⟨t, span⟩, s₃, h₃, hs⟩ := succeeds_bind.mp hs
    obtain ⟨_, s₄, h₄, hs⟩ := succeeds_bind.mp hs
    obtain ⟨rfl, rfl⟩ := succeeds_pure.mp hs
    have hrest := takes_next _ _ _ h₃
    rw [hrest] at hopen
    obtain rfl : t = .openSquare := Option.some.inj hopen
    rw [hrest, takes_expect _ _ _ _ h₄]
    exact .array
  · obtain ⟨rfl, rfl⟩ := succeeds_pure.mp hs
    exact .scalar

/-- A group of parameters is a type and names. -/
theorem takes_parameterGroup : Takes parameterGroup ParameterGroup.Derives := by
  intro s g s' hs
  obtain ⟨t, s₁, h₁, hs⟩ := succeeds_bind.mp hs
  obtain ⟨n, s₂, h₂, hs⟩ := succeeds_bind.mp hs
  obtain ⟨rfl, rfl⟩ := succeeds_left.mp h₂
  obtain ⟨items, s₃, h₃, hs⟩ := succeeds_bind.mp hs
  obtain ⟨_, s₄, h₄, hs⟩ := succeeds_bind.mp hs
  obtain ⟨rfl, rfl⟩ := succeeds_pure.mp hs
  have hitems := takes_separatedBy .comma takes_parameter _ _ _ _ h₃
  rw [takes_record _ _ _ _ h₄] at hitems
  rw [takes_type _ _ _ h₁]
  exact .mk hitems

/-- Groups of parameters are separated by semicolons, or there are none. -/
theorem takes_parameters : Takes parameters ParametersDerive := by
  intro s gs s' hs
  obtain ⟨t, s₁, h₁, hs⟩ := succeeds_bind.mp hs
  obtain ⟨rfl, rfl⟩ := succeeds_peek?.mp h₁
  split at hs
  · obtain ⟨rfl, rfl⟩ := succeeds_pure.mp hs
    exact .none
  · obtain ⟨n, s₂, h₂, hs⟩ := succeeds_bind.mp hs
    obtain ⟨rfl, rfl⟩ := succeeds_left.mp h₂
    exact .some (takes_separatedBy .semicolon takes_parameterGroup _ _ _ _ hs)

/-! ## Statements -/

end Parser

/-- A statement behind which no `else` comes that could belong to it. -/
def Stmt.Ends (s : Stmt) (r : Tokens) : Prop :=
  s.dangling → ∀ span r', r ≠ ⟨.keyword .else, span⟩ :: r'

/-- All of a statement, with each `else` at the nearest `if`. -/
structure Stmt.Whole (s : Stmt) (ts r : Tokens) : Prop where
  derives : s.Derives ts r
  nearest : s.Nearest
  ends : s.Ends r

/-- Behind a statement that ends with a token of its own anything may come. -/
theorem Stmt.ends_of_not_dangling {s : Stmt} (h : s.dangling = false) (r : Tokens) : s.Ends r :=
  fun hs => absurd hs (by simp [h])

namespace Parser

section

variable {stmt : Parse Stmt} (hstmt : Takes stmt Stmt.Whole)
include hstmt

/-- What is taken between braces is a block of the grammar. -/
theorem takes_block : Takes (block stmt) Stmt.Whole := by
  intro s b s' hs
  obtain ⟨_, s₁, h₁, hs⟩ := succeeds_bind.mp hs
  obtain ⟨_, s₂, h₂, hs⟩ := succeeds_bind.mp hs
  obtain ⟨_, s₃, h₃, hs⟩ := succeeds_bind.mp hs
  obtain ⟨locals, s₄, h₄, hs⟩ := succeeds_bind.mp hs
  obtain ⟨_, s₅, h₅, hs⟩ := succeeds_bind.mp hs
  obtain ⟨body, s₆, h₆, hs⟩ := succeeds_bind.mp hs
  obtain ⟨_, s₇, h₇, hs⟩ := succeeds_bind.mp hs
  obtain ⟨_, s₈, h₈, hs⟩ := succeeds_bind.mp hs
  obtain ⟨rfl, rfl⟩ := succeeds_pure.mp hs
  obtain ⟨rfl, rfl⟩ := succeeds_left.mp h₃
  obtain ⟨rfl, rfl⟩ := succeeds_left.mp h₅
  have hlocals := takes_repeatWhile _ takes_localDeclaration _ _ _ _ h₄
  have hnearest : Takes stmt fun t ts r => t.Derives ts r ∧ t.Nearest :=
    fun s t s' h => ⟨(hstmt s t s' h).derives, (hstmt s t s' h).nearest⟩
  obtain ⟨hbody, hnear⟩ := repeated_and.mp (takes_repeatWhile _ hnearest _ _ _ _ h₆)
  rw [takes_expect _ _ _ _ h₇, takes_record _ _ _ _ h₈] at hbody
  rw [takes_expect _ _ _ _ h₁, takes_record _ _ _ _ h₂]
  exact ⟨.block hlocals hbody, Stmt.nearestAll_iff.mpr hnear, Stmt.ends_of_not_dangling rfl _⟩

/-- What is taken behind an `if` is a choice, and an `else` that comes next belongs to it. -/
theorem takes_choice : Takes (choice stmt) Stmt.Whole := by
  intro s b s' hs
  obtain ⟨_, s₁, h₁, hs⟩ := succeeds_bind.mp hs
  obtain ⟨c, s₂, h₂, hs⟩ := succeeds_bind.mp hs
  obtain ⟨_, s₃, h₃, hs⟩ := succeeds_bind.mp hs
  obtain ⟨_, s₄, h₄, hs⟩ := succeeds_bind.mp hs
  obtain ⟨body, s₅, h₅, hs⟩ := succeeds_bind.mp hs
  obtain ⟨more, s₆, h₆, hs⟩ := succeeds_bind.mp hs
  have hc := takes_simpleExpr _ _ _ h₂
  rw [takes_record _ _ _ _ h₃, takes_expect _ _ _ _ h₄] at hc
  obtain ⟨hbody, hnear, hends⟩ := hstmt _ _ _ h₅
  rw [takes_expect _ _ _ _ h₁]
  rcases takes_accept _ _ _ _ h₆ with ⟨rfl, span, hrest⟩ | ⟨rfl, hrest, hnext⟩ <;>
    rw [hrest] at hbody hends
  · obtain ⟨_, s₇, h₇, hs⟩ := succeeds_bind.mp hs
    obtain ⟨otherwise, s₈, h₈, hs⟩ := succeeds_bind.mp hs
    obtain ⟨_, s₉, h₉, hs⟩ := succeeds_bind.mp hs
    obtain ⟨rfl, rfl⟩ := succeeds_pure.mp hs
    rw [takes_record _ _ _ _ h₇] at hbody hends
    obtain ⟨ho, hnear', hends'⟩ := hstmt _ _ _ h₈
    rw [takes_record _ _ _ _ h₉] at ho hends'
    -- The first branch ends before the `else`, so that it has no `if` to offer.
    have hd : body.dangling = false := Bool.eq_false_iff.mpr fun h => hends h span _ rfl
    exact ⟨.choiceOr hc hbody ho, ⟨hd, hnear, hnear'⟩, hends'⟩
  · obtain ⟨_, s₇, h₇, hs⟩ := succeeds_bind.mp hs
    obtain ⟨rfl, rfl⟩ := succeeds_pure.mp hs
    rw [takes_record _ _ _ _ h₇] at hbody hnext
    exact ⟨.choice hc hbody, hnear, fun _ => hnext⟩

/-- What is taken behind a `while` is a loop. -/
theorem takes_loop : Takes (loop stmt) Stmt.Whole := by
  intro s b s' hs
  obtain ⟨_, s₁, h₁, hs⟩ := succeeds_bind.mp hs
  obtain ⟨c, s₂, h₂, hs⟩ := succeeds_bind.mp hs
  obtain ⟨_, s₃, h₃, hs⟩ := succeeds_bind.mp hs
  obtain ⟨_, s₄, h₄, hs⟩ := succeeds_bind.mp hs
  obtain ⟨body, s₅, h₅, hs⟩ := succeeds_bind.mp hs
  obtain ⟨_, s₆, h₆, hs⟩ := succeeds_bind.mp hs
  obtain ⟨rfl, rfl⟩ := succeeds_pure.mp hs
  have hc := takes_simpleExpr _ _ _ h₂
  rw [takes_expect _ _ _ _ h₃, takes_record _ _ _ _ h₄] at hc
  obtain ⟨hbody, hnear, hends⟩ := hstmt _ _ _ h₅
  rw [takes_record _ _ _ _ h₆] at hbody hends
  rw [takes_expect _ _ _ _ h₁]
  exact ⟨.loop hc hbody, hnear, hends⟩

omit hstmt in
/-- A range is a first value, and perhaps a last one and a step. -/
theorem takes_range : Takes range Range.Derives := by
  intro s g s' hs
  obtain ⟨e, s₁, h₁, hs⟩ := succeeds_bind.mp hs
  obtain ⟨more, s₂, h₂, hs⟩ := succeeds_bind.mp hs
  have he := takes_simpleExpr _ _ _ h₁
  rcases takes_accept _ _ _ _ h₂ with ⟨rfl, span, hrest⟩ | ⟨rfl, hrest, -⟩ <;> rw [hrest] at he
  · obtain ⟨last, s₃, h₃, hs⟩ := succeeds_bind.mp hs
    obtain ⟨more, s₄, h₄, hs⟩ := succeeds_bind.mp hs
    have hlast := takes_simpleExpr _ _ _ h₃
    rcases takes_accept _ _ _ _ h₄ with ⟨rfl, span', hrest⟩ | ⟨rfl,
      hrest, -⟩ <;> rw [hrest] at hlast
    · obtain ⟨step, s₅, h₅, hs⟩ := succeeds_bind.mp hs
      obtain ⟨rfl, rfl⟩ := succeeds_pure.mp hs
      exact .step he hlast (takes_simpleExpr _ _ _ h₅)
    · obtain ⟨rfl, rfl⟩ := succeeds_pure.mp hs
      exact .bound he hlast
  · obtain ⟨rfl, rfl⟩ := succeeds_pure.mp hs
    exact .start he

/-- What is taken behind a `for` is a counted loop. -/
theorem takes_count : Takes (count stmt) Stmt.Whole := by
  intro s b s' hs
  obtain ⟨_, s₁, h₁, hs⟩ := succeeds_bind.mp hs
  obtain ⟨counter, s₂, h₂, hs⟩ := succeeds_bind.mp hs
  obtain ⟨_, s₃, h₃, hs⟩ := succeeds_bind.mp hs
  obtain ⟨g, s₄, h₄, hs⟩ := succeeds_bind.mp hs
  obtain ⟨_, s₅, h₅, hs⟩ := succeeds_bind.mp hs
  obtain ⟨_, s₆, h₆, hs⟩ := succeeds_bind.mp hs
  obtain ⟨body, s₇, h₇, hs⟩ := succeeds_bind.mp hs
  obtain ⟨_, s₈, h₈, hs⟩ := succeeds_bind.mp hs
  obtain ⟨rfl, rfl⟩ := succeeds_pure.mp hs
  have hg := takes_range _ _ _ h₄
  rw [takes_expect _ _ _ _ h₅, takes_record _ _ _ _ h₆] at hg
  obtain ⟨hbody, hnear, hends⟩ := hstmt _ _ _ h₇
  rw [takes_record _ _ _ _ h₈] at hbody hends
  rw [takes_expect _ _ _ _ h₁, takes_name _ _ _ h₂, takes_expect _ _ _ _ h₃]
  exact ⟨.count hg hbody, hnear, hends⟩

end

/-- What is taken behind a `return` is a value, unless the semicolon comes at once. -/
theorem takes_ret : Takes ret Stmt.Whole := by
  intro s b s' hs
  obtain ⟨word, s₁, h₁, hs⟩ := succeeds_bind.mp hs
  obtain ⟨t, s₂, h₂, hs⟩ := succeeds_bind.mp hs
  obtain ⟨rfl, rfl⟩ := succeeds_peek?.mp h₂
  rw [takes_expect _ _ _ _ h₁]
  dsimp only at hs
  split at hs
  · rw [pure_bind] at hs
    obtain ⟨_, s₃, h₃, hs⟩ := succeeds_bind.mp hs
    obtain ⟨_, s₄, h₄, hs⟩ := succeeds_bind.mp hs
    obtain ⟨rfl, rfl⟩ := succeeds_pure.mp hs
    rw [takes_expect _ _ _ _ h₃, takes_record _ _ _ _ h₄]
    exact ⟨.retNone, trivial, Stmt.ends_of_not_dangling rfl _⟩
  · rw [map_eq_pure_bind, bind_assoc] at hs
    obtain ⟨e, s₃, h₃, hs⟩ := succeeds_bind.mp hs
    rw [pure_bind] at hs
    obtain ⟨_, s₄, h₄, hs⟩ := succeeds_bind.mp hs
    obtain ⟨_, s₅, h₅, hs⟩ := succeeds_bind.mp hs
    obtain ⟨rfl, rfl⟩ := succeeds_pure.mp hs
    have he := takes_expr _ _ _ h₃
    rw [takes_expect _ _ _ _ h₄, takes_record _ _ _ _ h₅] at he
    exact ⟨.ret he, trivial, Stmt.ends_of_not_dangling rfl _⟩

/-- An expression and a semicolon are a statement. -/
theorem takes_effect : Takes effect Stmt.Whole := by
  intro s b s' hs
  obtain ⟨e, s₁, h₁, hs⟩ := succeeds_bind.mp hs
  obtain ⟨_, s₂, h₂, hs⟩ := succeeds_bind.mp hs
  obtain ⟨_, s₃, h₃, hs⟩ := succeeds_bind.mp hs
  obtain ⟨rfl, rfl⟩ := succeeds_pure.mp hs
  have he := takes_expr _ _ _ h₁
  rw [takes_expect _ _ _ _ h₂, takes_record _ _ _ _ h₃] at he
  exact ⟨.expr he, trivial, Stmt.ends_of_not_dangling rfl _⟩

/-- An exit is taken where its word comes next. -/
theorem takes_leave {s s' : State} {b : Stmt}
    (hword : (s.cursor.rest[0]?).map Located.value = some (.keyword .break))
    (hs : Succeeds leave s b s') : b.Whole s.cursor.rest s'.cursor.rest := by
  obtain ⟨⟨t, word⟩, s₁, h₁, hs⟩ := succeeds_bind.mp hs
  obtain ⟨_, s₂, h₂, hs⟩ := succeeds_bind.mp hs
  obtain ⟨_, s₃, h₃, hs⟩ := succeeds_bind.mp hs
  obtain ⟨rfl, rfl⟩ := succeeds_pure.mp hs
  have hrest := takes_next _ _ _ h₁
  rw [hrest] at hword
  obtain rfl : t = .keyword .break := Option.some.inj hword
  rw [hrest, takes_expect _ _ _ _ h₂, takes_record _ _ _ _ h₃]
  exact ⟨.leave, trivial, Stmt.ends_of_not_dangling rfl _⟩

/-- With any fuel, what is taken is a statement of the grammar in which every `else` belongs to the
nearest choice. -/
theorem takes_statement (n : Nat) : Takes (statement n) Stmt.Whole := by
  induction n with
  | zero => exact fun _ _ _ hs => absurd hs not_succeeds_fail
  | succ n ih =>
    intro s b s' hs
    obtain ⟨t, s₁, h₁, hs⟩ := succeeds_bind.mp hs
    obtain ⟨rfl, rfl⟩ := succeeds_peek?.mp h₁
    split at hs
    · exact takes_block ih _ _ _ hs
    · exact takes_choice ih _ _ _ hs
    · exact takes_loop ih _ _ _ hs
    · exact takes_count ih _ _ _ hs
    · exact takes_ret _ _ _ hs
    · rename_i hword
      exact takes_leave hword hs
    · rename_i hsemicolon
      rw [map_eq_pure_bind] at hs
      obtain ⟨⟨t, span⟩, s₂, h₂, hs⟩ := succeeds_bind.mp hs
      obtain ⟨rfl, rfl⟩ := succeeds_pure.mp hs
      have hrest := takes_next _ _ _ h₂
      rw [hrest] at hsemicolon
      obtain rfl : t = .semicolon := Option.some.inj hsemicolon
      rw [hrest]
      exact ⟨.empty, trivial, Stmt.ends_of_not_dangling rfl _⟩
    · exact takes_effect _ _ _ hs

/-! ## Programs -/

/-- The parser of functions looks for a type once. -/
theorem function_eq : function = (do
    match (← peek? 1).bind Token.type? with
    | some _ => functionBehind (some (← type))
    | none => functionBehind none) := by
  refine congrArg (bind (peek? 1)) (funext fun t => ?_)
  rcases t.bind Token.type? with _ | type
  · rfl
  · simp only [map_eq_pure_bind, bind_assoc, pure_bind]
    rfl

/-- Behind its type a function is a name, parameters and a block. -/
theorem takes_functionBehind (returns : Option (Located WordType)) :
    Takes (functionBehind returns) fun d ts r =>
      d.Derives (returns.toList.map (Located.map WordType.token) ++ ts) r ∧ d.Nearest := by
  intro s d s' hs
  obtain ⟨n, s₁, h₁, hs⟩ := succeeds_bind.mp hs
  obtain ⟨_, s₂, h₂, hs⟩ := succeeds_bind.mp hs
  obtain ⟨span, s₃, h₃, hs⟩ := succeeds_bind.mp hs
  obtain ⟨params, s₄, h₄, hs⟩ := succeeds_bind.mp hs
  obtain ⟨span', s₅, h₅, hs⟩ := succeeds_bind.mp hs
  obtain ⟨_, s₆, h₆, hs⟩ := succeeds_bind.mp hs
  obtain ⟨_, s₇, h₇, hs⟩ := succeeds_bind.mp hs
  obtain ⟨body, s₈, h₈, hs⟩ := succeeds_bind.mp hs
  obtain ⟨_, s₉, h₉, hs⟩ := succeeds_bind.mp hs
  obtain ⟨rfl, rfl⟩ := succeeds_pure.mp hs
  obtain ⟨rfl, rfl⟩ := succeeds_left.mp h₇
  have hparams := takes_parameters _ _ _ h₄
  rw [takes_expect _ _ _ _ h₅] at hparams
  have hbody := takes_statement _ _ _ _ h₈
  rw [← takes_record _ _ _ _ h₆, takes_record _ _ _ _ h₉] at hbody
  rw [takes_name _ _ _ h₁, takes_record _ _ _ _ h₂, takes_expect _ _ _ _ h₃]
  cases returns with
  | none => exact ⟨.function hparams hbody.derives, hbody.nearest⟩
  | some type => exact ⟨.typed hparams hbody.derives, hbody.nearest⟩

/-- A function has a type or none. -/
theorem takes_function : Takes function fun d ts r => d.Derives ts r ∧ d.Nearest := by
  intro s d s' hs
  rw [function_eq] at hs
  obtain ⟨t, s₁, h₁, hs⟩ := succeeds_bind.mp hs
  obtain ⟨rfl, rfl⟩ := succeeds_peek?.mp h₁
  split at hs
  · obtain ⟨type, s₂, h₂, hs⟩ := succeeds_bind.mp hs
    rw [takes_type _ _ _ h₂]
    exact takes_functionBehind (some type) _ _ _ hs
  · exact takes_functionBehind none _ _ _ hs

/-- Variables outside functions are a declaration. -/
theorem takes_globals : Takes globals fun d ts r => d.Derives ts r ∧ d.Nearest := by
  intro s d s' hs
  obtain ⟨⟨static, type, items⟩, s₁, h₁, hs⟩ := succeeds_bind.mp hs
  obtain ⟨_, s₂, h₂, hs⟩ := succeeds_bind.mp hs
  obtain ⟨rfl, rfl⟩ := succeeds_pure.mp hs
  obtain ⟨rfl, hd⟩ := takes_declaration _ _ _ _ h₁
  rw [takes_record _ _ _ _ h₂] at hd
  exact ⟨.globals rfl hd, trivial⟩

/-- What is taken outside functions is a declaration or a function of the grammar. -/
theorem takes_topLevel : Takes topLevel fun d ts r => d.Derives ts r ∧ d.Nearest := by
  intro s d s' hs
  obtain ⟨_, s₁, h₁, hs⟩ := succeeds_bind.mp hs
  obtain ⟨_, s₂, h₂, hs⟩ := succeeds_bind.mp hs
  obtain ⟨_, s₃, h₃, hs⟩ := succeeds_bind.mp hs
  obtain ⟨_, s₄, h₄, hs⟩ := succeeds_bind.mp hs
  obtain ⟨rfl, rfl⟩ := succeeds_peek?.mp h₁
  obtain ⟨rfl, rfl⟩ := succeeds_peek?.mp h₂
  obtain ⟨rfl, rfl⟩ := succeeds_peek?.mp h₃
  obtain ⟨rfl, rfl⟩ := succeeds_peek?.mp h₄
  split at hs
  · exact takes_function _ _ _ hs
  · obtain ⟨_, s₅, h₅, hs⟩ := succeeds_bind.mp hs
    obtain ⟨rfl, rfl⟩ := succeeds_peek?.mp h₅
    split at hs
    · exact takes_function _ _ _ hs
    · split at hs
      · exact takes_globals _ _ _ hs
      · obtain ⟨_, s₆, h₆, hs⟩ := succeeds_bind.mp hs
        exact absurd hs not_succeeds_fail

/-- **What is parsed is a program.** Tokens of which parsing makes a program are that program, and
each `else` belongs to the nearest `if`. -/
theorem takes_program :
    Takes program fun p ts r => Repeated TopLevel.Derives p.items ts r ∧ p.Nearest := by
  intro s p s' hs
  obtain ⟨_, s₁, h₁, hs⟩ := succeeds_bind.mp hs
  obtain ⟨items, s₂, h₂, hs⟩ := succeeds_bind.mp hs
  obtain ⟨rfl, rfl⟩ := succeeds_pure.mp hs
  obtain ⟨rfl, rfl⟩ := succeeds_left.mp h₁
  exact repeated_and.mp (takes_repeatWhile _ takes_topLevel _ _ _ _ h₂)

end Parser

end OnePass
