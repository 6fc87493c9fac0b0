import OnePass.Tree.View

/-!
# The grammar

Which tokens are which program, rule by rule, without any parser. A rule says of tokens that they
begin with a phrase, and which tokens come behind it, so that the phrases of a rule follow one
another without being put together.

The grammar leaves open which `if` an `else` belongs to. `Stmt.Nearest` says that each belongs to
the nearest one; whatever is a program at all is one in that way too (`Program.exists_nearest`).
-/

namespace OnePass

/-- Tokens where they were read. -/
abbrev Tokens := List (Located Token)

/-! ## Lists -/

section

variable {α : Type}

/-- At least one phrase, the token `t` between each and the next. -/
inductive Separated (t : Token) (D : α → Tokens → Tokens → Prop) : List α → Tokens → Tokens → Prop
  | one {a ts r} : D a ts r → Separated t D [a] ts r
  | more {a as span ts r r'} : D a ts (⟨t, span⟩ :: r) → Separated t D as r r' →
      Separated t D (a :: as) ts r'

/-- Phrases one after another. -/
inductive Repeated (D : α → Tokens → Tokens → Prop) : List α → Tokens → Tokens → Prop
  | none {r} : Repeated D [] r r
  | more {a as ts r r'} : D a ts r → Repeated D as r r' → Repeated D (a :: as) ts r'

/-- Phrases of which each may be taken for another one. -/
theorem Repeated.exists_repeated {D E : α → Tokens → Tokens → Prop} {as : List α} {ts r : Tokens}
    (h : Repeated D as ts r) (he : ∀ a ∈ as, ∀ {ts r}, D a ts r → ∃ b, E b ts r) :
    ∃ bs, Repeated E bs ts r := by
  induction h with
  | none => exact ⟨[], .none⟩
  | more ha _ ih =>
    obtain ⟨b, hb⟩ := he _ List.mem_cons_self ha
    obtain ⟨bs, hbs⟩ := ih fun a ha => he a (List.mem_cons_of_mem _ ha)
    exact ⟨b :: bs, .more hb hbs⟩

/-- What holds of each phrase. -/
theorem repeated_and {D : α → Tokens → Tokens → Prop} {P : α → Prop} {as : List α}
    {ts r : Tokens} :
    Repeated (fun a ts r => D a ts r ∧ P a) as ts r ↔ Repeated D as ts r ∧ ∀ a ∈ as, P a := by
  constructor
  · intro h
    induction h with
    | none => exact ⟨.none, by simp⟩
    | more ha _ ih => exact ⟨.more ha.1 ih.1, List.forall_mem_cons.mpr ⟨ha.2, ih.2⟩⟩
  · rintro ⟨h, hp⟩
    induction h with
    | none => exact .none
    | more ha _ ih =>
      obtain ⟨hpa, hp⟩ := List.forall_mem_cons.mp hp
      exact .more ⟨ha, hpa⟩ (ih hp)

end

/-! ## Expressions -/

/-- The word of an operator on two truth values. -/
def LogicOp.keyword : LogicOp → Keyword
  | .and => .and
  | .or => .or

/-- A phrase of an expression: an expression of a level, or the arguments of a call. -/
inductive Phrase where
  | expr (level : Level) (e : Expr)
  | args (es : List Expr)

/-- `p.Derives ts r`: the tokens `ts` begin with the phrase `p`, and behind it come the tokens `r`.
An expression of a level may stand where one of a looser level may. -/
inductive Phrase.Derives : Phrase → Tokens → Tokens → Prop
  | assign {p op v ts r r'} : Derives (.expr .disjunction p) ts (op.map .assign :: r) →
      Derives (.expr .assignment v) r r' → Derives (.expr .assignment (.assign p op v)) ts r'
  | step {p op ts r} : Derives (.expr .disjunction p) ts (op.map .step :: r) →
      Derives (.expr .assignment (.step p op)) ts r
  | logic {level op left right span ts r r'} : Level.ofLogic op = level →
      Derives (.expr level left) ts (⟨.keyword op.keyword, span⟩ :: r) →
      Derives (.expr level.tighter right) r r' → Derives (.expr level (.logic op left right)) ts r'
  | negate {word e ts r} : Derives (.expr .negation e) ts r →
      Derives (.expr .negation (.negate word e)) (⟨.keyword .not, word⟩ :: ts) r
  | compare {left op right ts r r'} : Derives (.expr .choosing left) ts (op.map .relation :: r) →
      Derives (.expr .choosing right) r r' →
      Derives (.expr .relation (.compare left op right)) ts r'
  | arith {level left op right ts r r'} : Level.ofArith op.value = level →
      Derives (.expr level left) ts (op.map ArithOp.token :: r) →
      Derives (.expr level.tighter right) r r' → Derives (.expr level (.arith left op right)) ts r'
  | lead {op e ts r} : Derives (.expr .leading e) ts r →
      Derives (.expr .leading (.lead op e)) (op.map LeadOp.token :: ts) r
  | paren {e span span' ts r} : Derives (.expr .assignment e) ts (⟨.closeParen, span'⟩ :: r) →
      Derives (.expr .atom (.paren e)) (⟨.openParen, span⟩ :: ts) r
  | literal {v r} : Derives (.expr .atom (.literal v)) (v.map Literal.token :: r) r
  | var {n r} : Derives (.expr .atom (.var n)) (n.map .ident :: r) r
  | elem {n i span span' ts r} : Derives (.expr .assignment i) ts (⟨.closeSquare, span'⟩ :: r) →
      Derives (.expr .atom (.elem n i)) (n.map .ident :: ⟨.openSquare, span⟩ :: ts) r
  | callNone {n span span' r} : Derives (.expr .atom (.call n []))
      (n.map .ident :: ⟨.openParen, span⟩ :: ⟨.closeParen, span'⟩ :: r) r
  | call {n es span span' ts r} : Derives (.args es) ts (⟨.closeParen, span'⟩ :: r) →
      Derives (.expr .atom (.call n es)) (n.map .ident :: ⟨.openParen, span⟩ :: ts) r
  | tighter {level e ts r} : level ≠ .atom → Derives (.expr level.tighter e) ts r →
      Derives (.expr level e) ts r
  | arg {e ts r} : Derives (.expr .assignment e) ts r → Derives (.args [e]) ts r
  | moreArgs {e es span ts r r'} : Derives (.expr .assignment e) ts (⟨.comma, span⟩ :: r) →
      Derives (.args es) r r' → Derives (.args (e :: es)) ts r'

/-- An expression of a level. -/
def Expr.Derives (level : Level) (e : Expr) (ts r : Tokens) : Prop :=
  (Phrase.expr level e).Derives ts r

/-- An expression that is no assignment. -/
abbrev Expr.Simple (e : Expr) (ts r : Tokens) : Prop := e.Derives .disjunction ts r

/-- Any expression. -/
abbrev Expr.Whole (e : Expr) (ts r : Tokens) : Prop := e.Derives .assignment ts r

/-! ## Declarations -/

/-- The word of a type. -/
def WordType.token (t : WordType) : Token := .keyword t.keyword

/-- Perhaps the length of an array, in brackets. -/
inductive LengthDerives : Option (Located Int32) → Tokens → Tokens → Prop
  | none {r} : LengthDerives none r r
  | some {n span span' r} :
      LengthDerives (some n) (⟨.openSquare, span⟩ :: n.map .int :: ⟨.closeSquare, span'⟩ :: r) r

/-- Perhaps what initialises a variable, behind a colon or an equals sign. -/
inductive InitDerives : Option Expr → Tokens → Tokens → Prop
  | none {r} : InitDerives none r r
  | colon {e span ts r} : e.Simple ts r → InitDerives (some e) (⟨.colon, span⟩ :: ts) r
  | equals {e span ts r} : e.Simple ts r → InitDerives (some e) (⟨.assign .set, span⟩ :: ts) r

/-- One variable of a declaration. -/
inductive Declarator.Derives : Declarator → Tokens → Tokens → Prop
  | mk {name length init ts r r'} : LengthDerives length ts r → InitDerives init r r' →
      Derives ⟨name, length, init⟩ (name.map .ident :: ts) r'

/-- A declaration of variables of one type, the word `static` perhaps in front. -/
inductive Declaration.Derives : Declaration → Tokens → Tokens → Prop
  | plain {type items span ts r} :
      Separated .comma Declarator.Derives items ts (⟨.semicolon, span⟩ :: r) →
      Derives ⟨none, type, items⟩ (type.map WordType.token :: ts) r
  | static {word type items span ts r} :
      Separated .comma Declarator.Derives items ts (⟨.semicolon, span⟩ :: r) →
      Derives ⟨some word, type, items⟩ (⟨.keyword .static, word⟩ :: type.map WordType.token :: ts) r

/-- One parameter. -/
inductive Parameter.Derives : Parameter → Tokens → Tokens → Prop
  | scalar {name r} : Derives ⟨name, none⟩ (name.map .ident :: r) r
  | array {name span span' r} : Derives ⟨name, some span⟩
      (name.map .ident :: ⟨.openSquare, span⟩ :: ⟨.closeSquare, span'⟩ :: r) r

/-- Parameters of one type. -/
inductive ParameterGroup.Derives : ParameterGroup → Tokens → Tokens → Prop
  | mk {type items ts r} : Separated .comma Parameter.Derives items ts r →
      Derives ⟨type, items⟩ (type.map WordType.token :: ts) r

/-- The parameters of a function, if there are any. -/
inductive ParametersDerive : List ParameterGroup → Tokens → Tokens → Prop
  | none {r} : ParametersDerive [] r r
  | some {groups ts r} : Separated .semicolon ParameterGroup.Derives groups ts r →
      ParametersDerive groups ts r

/-! ## Statements -/

/-- The range of a counting loop. -/
inductive Range.Derives : Range → Tokens → Tokens → Prop
  | start {e ts r} : e.Simple ts r → Derives ⟨e, none⟩ ts r
  | bound {e last span ts r r'} : e.Simple ts (⟨.keyword .to, span⟩ :: r) → last.Simple r r' →
      Derives ⟨e, some (last, none)⟩ ts r'
  | step {e last step span span' ts r r' r''} : e.Simple ts (⟨.keyword .to, span⟩ :: r) →
      last.Simple r (⟨.keyword .by, span'⟩ :: r') → step.Simple r' r'' →
      Derives ⟨e, some (last, some step)⟩ ts r''

/-- A statement. -/
inductive Stmt.Derives : Stmt → Tokens → Tokens → Prop
  | block {locals body span span' ts r r'} : Repeated Declaration.Derives locals ts r →
      Repeated Derives body r (⟨.closeCurly, span'⟩ :: r') →
      Derives (.block locals body) (⟨.openCurly, span⟩ :: ts) r'
  | expr {e span ts r} : e.Whole ts (⟨.semicolon, span⟩ :: r) → Derives (.expr e) ts r
  | empty {semicolon r} : Derives (.empty semicolon) (⟨.semicolon, semicolon⟩ :: r) r
  | choice {c body span span' ts r r'} : c.Simple ts (⟨.keyword .then, span'⟩ :: r) →
      Derives body r r' → Derives (.choice c body none) (⟨.keyword .if, span⟩ :: ts) r'
  | choiceOr {c body otherwise span span' span'' ts r r' r''} :
      c.Simple ts (⟨.keyword .then, span'⟩ :: r) → Derives body r (⟨.keyword .else, span''⟩ :: r') →
      Derives otherwise r' r'' →
      Derives (.choice c body (some otherwise)) (⟨.keyword .if, span⟩ :: ts) r''
  | loop {c body span span' ts r r'} : c.Simple ts (⟨.keyword .do, span'⟩ :: r) →
      Derives body r r' → Derives (.loop c body) (⟨.keyword .while, span⟩ :: ts) r'
  | count {counter range body span span' span'' ts r r'} :
      range.Derives ts (⟨.keyword .do, span''⟩ :: r) → Derives body r r' →
      Derives (.count counter range body)
        (⟨.keyword .for, span⟩ :: counter.map .ident :: ⟨.assign .set, span'⟩ :: ts) r'
  | retNone {word span r} :
      Derives (.ret word none) (⟨.keyword .return, word⟩ :: ⟨.semicolon, span⟩ :: r) r
  | ret {word e span ts r} : e.Whole ts (⟨.semicolon, span⟩ :: r) →
      Derives (.ret word (some e)) (⟨.keyword .return, word⟩ :: ts) r
  | leave {word span r} :
      Derives (.leave word) (⟨.keyword .break, word⟩ :: ⟨.semicolon, span⟩ :: r) r

/-! ## Programs -/

/-- A declaration outside all functions. -/
inductive TopLevel.Derives : TopLevel → Tokens → Tokens → Prop
  | globals {d ts r} : d.static = none → d.Derives ts r → Derives (.variables d) ts r
  | function {name params body span span' ts r r'} :
      ParametersDerive params ts (⟨.closeParen, span'⟩ :: r) → body.Derives r r' →
      Derives (.function ⟨none, name, params⟩ body) (name.map .ident :: ⟨.openParen, span⟩ :: ts) r'
  | typed {type name params body span span' ts r r'} :
      ParametersDerive params ts (⟨.closeParen, span'⟩ :: r) → body.Derives r r' →
      Derives (.function ⟨some type, name, params⟩ body)
        (type.map WordType.token :: name.map .ident :: ⟨.openParen, span⟩ :: ts) r'

/-- All the tokens are the program. -/
def Program.Derives (p : Program) (ts : Tokens) : Prop := Repeated TopLevel.Derives p.items ts []

/-! ## The nearest `if` -/

namespace Stmt

/-- A statement ends in an `if` without an `else`. -/
def dangling : Stmt → Bool
  | .choice _ _ none => true
  | .choice _ _ (some otherwise) => otherwise.dangling
  | .loop _ body => body.dangling
  | .count _ _ body => body.dangling
  | _ => false

mutual

/-- Each `else` belongs to the nearest `if`. -/
def Nearest : Stmt → Prop
  | .block _ body => NearestAll body
  | .choice _ body none => body.Nearest
  | .choice _ body (some otherwise) => body.dangling = false ∧ body.Nearest ∧ otherwise.Nearest
  | .loop _ body => body.Nearest
  | .count _ _ body => body.Nearest
  | _ => True

/-- Each `else` in statements belongs to the nearest `if`. -/
def NearestAll : List Stmt → Prop
  | [] => True
  | s :: ss => s.Nearest ∧ NearestAll ss

end

end Stmt

/-- Each `else` in a declaration belongs to the nearest `if`. -/
def TopLevel.Nearest : TopLevel → Prop
  | .variables _ => True
  | .function _ body => body.Nearest

/-- Each `else` in a program belongs to the nearest `if`. -/
def Program.Nearest (p : Program) : Prop := ∀ d ∈ p.items, d.Nearest

namespace Stmt

theorem nearestAll_iff {ss : List Stmt} : NearestAll ss ↔ ∀ s ∈ ss, s.Nearest := by
  induction ss with
  | nil => simp [NearestAll]
  | cons s ss ih => rw [NearestAll, ih, List.forall_mem_cons]

/-- `otherwise.attachTo s` is the dangling statement `s` with an `else` and `otherwise` behind: they
belong to its innermost `if` that has no `else`. -/
def attachTo (otherwise : Stmt) : Stmt → Stmt
  | .choice c body none =>
    if body.dangling then .choice c (attachTo otherwise body) none
    else .choice c body (some otherwise)
  | .choice c body (some s) => .choice c body (some (attachTo otherwise s))
  | .loop c body => .loop c (attachTo otherwise body)
  | .count counter range body => .count counter range (attachTo otherwise body)
  | s => s

theorem Derives.attachTo {otherwise s : Stmt} {span : Span} {ts r r' : Tokens} (hs : s.dangling)
    (h : s.Derives ts (⟨.keyword .else, span⟩ :: r)) (ho : otherwise.Derives r r') :
    (otherwise.attachTo s).Derives ts r' := by
  induction s using Stmt.induct generalizing ts with
  | choice c body ih =>
    rcases h with _ | _ | _ | ⟨hc, hbody⟩
    by_cases hd : body.dangling
    · rw [Stmt.attachTo, if_pos hd]
      exact .choice hc (ih hd hbody)
    · rw [Stmt.attachTo, if_neg hd]
      exact .choiceOr hc hbody ho
  | choiceOr c body s _ ih =>
    rcases h with _ | _ | _ | _ | ⟨hc, hbody, h⟩
    rw [Stmt.attachTo]
    exact .choiceOr hc hbody (ih (by simpa [dangling] using hs) h)
  | loop c body ih =>
    rcases h with _ | _ | _ | _ | _ | ⟨hc, hbody⟩
    rw [Stmt.attachTo]
    exact .loop hc (ih (by simpa [dangling] using hs) hbody)
  | count counter range body ih =>
    rcases h with _ | _ | _ | _ | _ | _ | ⟨hrange, hbody⟩
    rw [Stmt.attachTo]
    exact .count hrange (ih (by simpa [dangling] using hs) hbody)
  | block | expr | empty | ret | leave => simp [dangling] at hs

theorem Nearest.attachTo {otherwise s : Stmt} (hs : s.dangling) (h : s.Nearest)
    (ho : otherwise.Nearest) : (otherwise.attachTo s).Nearest := by
  induction s using Stmt.induct with
  | choice c body ih =>
    by_cases hd : body.dangling
    · rw [Stmt.attachTo, if_pos hd]
      exact ih hd h
    · rw [Stmt.attachTo, if_neg hd]
      exact ⟨by simpa using hd, h, ho⟩
  | choiceOr c body s _ ih =>
    rw [Stmt.attachTo]
    exact ⟨h.1, h.2.1, ih (by simpa [dangling] using hs) h.2.2⟩
  | loop c body ih =>
    rw [Stmt.attachTo]
    exact ih (by simpa [dangling] using hs) h
  | count counter range body ih =>
    rw [Stmt.attachTo]
    exact ih (by simpa [dangling] using hs) h
  | block | expr | empty | ret | leave => simp [dangling] at hs

/-- Tokens that begin with a statement begin with one in which each `else` belongs to the nearest
`if`. -/
theorem exists_nearest {s : Stmt} {ts r : Tokens} (h : s.Derives ts r) :
    ∃ t : Stmt, t.Derives ts r ∧ t.Nearest := by
  induction s using Stmt.induct generalizing ts r with
  | block locals body ih =>
    rcases h with ⟨hlocals, hbody⟩
    obtain ⟨ss, hss⟩ := hbody.exists_repeated ih
    obtain ⟨hss, hnear⟩ := repeated_and.mp hss
    exact ⟨_, .block hlocals hss, nearestAll_iff.mpr hnear⟩
  | choice c body ih =>
    rcases h with _ | _ | _ | ⟨hc, hbody⟩
    obtain ⟨t, ht, hnear⟩ := ih hbody
    exact ⟨_, .choice hc ht, hnear⟩
  | choiceOr c body s ih ih' =>
    rcases h with _ | _ | _ | _ | ⟨hc, hbody, h⟩
    obtain ⟨t, ht, hnear⟩ := ih hbody
    obtain ⟨t', ht', hnear'⟩ := ih' h
    -- The `else` may stand behind a statement that has an `if` without one.
    by_cases hd : t.dangling
    · exact ⟨_, .choice hc (ht.attachTo hd ht'), hnear.attachTo hd hnear'⟩
    · exact ⟨_, .choiceOr hc ht ht', by simpa using hd, hnear, hnear'⟩
  | loop c body ih =>
    rcases h with _ | _ | _ | _ | _ | ⟨hc, hbody⟩
    obtain ⟨t, ht, hnear⟩ := ih hbody
    exact ⟨_, .loop hc ht, hnear⟩
  | count counter range body ih =>
    rcases h with _ | _ | _ | _ | _ | _ | ⟨hrange, hbody⟩
    obtain ⟨t, ht, hnear⟩ := ih hbody
    exact ⟨_, .count hrange ht, hnear⟩
  | expr | empty | ret | leave => exact ⟨_, h, trivial⟩

end Stmt

theorem TopLevel.exists_nearest {d : TopLevel} {ts r : Tokens} (h : d.Derives ts r) :
    ∃ d' : TopLevel, d'.Derives ts r ∧ d'.Nearest := by
  rcases h with ⟨hstatic, h⟩ | ⟨hparams, hbody⟩ | ⟨hparams, hbody⟩
  · exact ⟨_, .globals hstatic h, trivial⟩
  · obtain ⟨body, hbody, hnear⟩ := Stmt.exists_nearest hbody
    exact ⟨_, .function hparams hbody, hnear⟩
  · obtain ⟨body, hbody, hnear⟩ := Stmt.exists_nearest hbody
    exact ⟨_, .typed hparams hbody, hnear⟩

/-- Tokens that are a program are one in which each `else` belongs to the nearest `if`. -/
theorem Program.exists_nearest {p : Program} {ts : Tokens} (h : p.Derives ts) :
    ∃ q : Program, q.Derives ts ∧ q.Nearest := by
  obtain ⟨items, hitems⟩ := Repeated.exists_repeated h fun d _ _ _ hd => d.exists_nearest hd
  obtain ⟨hitems, hnear⟩ := repeated_and.mp hitems
  exact ⟨⟨items⟩, hitems, hnear⟩

end OnePass
