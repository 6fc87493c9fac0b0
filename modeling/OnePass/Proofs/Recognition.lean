import OnePass.Compile

/-!
# What parsing records

Code is generated for constructs, and the constructs are recorded while the tokens are
read, not read off the finished tree. Main statement: if tokens are a program, then what was
recorded is exactly what the tree is made of, in order (`parse_constructs`). So what is
said about the code of a program may be proved along its tree.

A parser `Records c` if a success that makes `a` records `c a`. Most parsers record nothing,
even when they fail; they are `Silent`.
-/

namespace OnePass

namespace Parser

variable {α β : Type}

/-- `p` takes the state `s` to `s'` and makes `a`. -/
def Succeeds (p : Parse α) (s : State) (a : α) (s' : State) : Prop := p.run.run s = (.ok a, s')

/-- A success records the constructs `c` of what it makes. -/
def Records (p : Parse α) (c : α → List Construct) : Prop :=
  ∀ s a s', Succeeds p s a s' → s'.found.toList = s.found.toList ++ c a

/-- Nothing is recorded, by a success or by a failure. -/
def Silent (p : Parse α) : Prop := ∀ s, (p.run.run s).2.found = s.found

/-! ## Successes of composed parsers -/

/-- A value leaves the state alone. -/
theorem succeeds_pure {a b : α} {s s' : State} :
    Succeeds (pure a) s b s' ↔ b = a ∧ s' = s := by
  constructor
  · intro h
    injection h with h₁ h₂
    injection h₁ with h₁
    exact ⟨h₁.symm, h₂.symm⟩
  · rintro ⟨rfl, rfl⟩
    rfl

/-- One parser after the other. -/
theorem run_bind {p : Parse α} {f : α → Parse β} {s : State} :
    (p >>= f).run.run s =
      match p.run.run s with
      | (.ok a, s') => (f a).run.run s'
      | (.error e, s') => (.error e, s') := by
  simp only [ExceptT.run_bind, StateT.run_bind]
  change (match p.run.run s with | (x, s') => _) = _
  rcases p.run.run s with ⟨_ | a, s'⟩ <;> rfl

/-- A composition succeeds if both parts do, one behind the other. -/
theorem succeeds_bind {p : Parse α} {f : α → Parse β} {s s'' : State} {b : β} :
    Succeeds (p >>= f) s b s'' ↔ ∃ a s', Succeeds p s a s' ∧ Succeeds (f a) s' b s'' := by
  simp only [Succeeds, run_bind]
  rcases p.run.run s with ⟨e | a, s'⟩
  · constructor
    · intro h
      injection h with h₁ _
      cases h₁
    · rintro ⟨a, t, hp, _⟩
      injection hp with h₁ _
      cases h₁
  · constructor
    · intro h
      exact ⟨a, s', rfl, h⟩
    · rintro ⟨a', t, hp, h⟩
      injection hp with h₁ h₂
      injection h₁ with h₁
      subst h₁ h₂
      exact h

/-- An error is no success. -/
theorem not_succeeds_fail {e : SyntaxError} {s s' : State} {a : α} :
    ¬ Succeeds (fail e) s a s' := by
  intro h
  injection h with h₁ _
  cases h₁

/-- To look at the state leaves it alone. -/
theorem succeeds_get {s s' t : State} : Succeeds get s t s' ↔ t = s ∧ s' = s :=
  succeeds_pure

/-- A state that is set is the one behind. -/
theorem succeeds_set {s t s' : State} {u : PUnit} : Succeeds (set t) s u s' ↔ s' = t := by
  constructor
  · intro h
    injection h with _ h
    exact h.symm
  · rintro rfl
    rfl

/-- Recording a construct adds it at the end. -/
theorem succeeds_record {c : Construct} {s s' : State} {u : PUnit} :
    Succeeds (record c) s u s' ↔ s' = { s with found := s.found.push c } := by
  constructor
  · intro h
    injection h with _ h
    exact h.symm
  · rintro rfl
    rfl

/-! ## Rules for `Records` -/

/-- A value records nothing. -/
theorem Records.pure {a : α} {c : α → List Construct} (h : c a = []) : Records (pure a) c := by
  intro s b s' hs
  obtain ⟨rfl, rfl⟩ := succeeds_pure.mp hs
  rw [h, List.append_nil]

/-- An error has no success to record in. -/
theorem Records.fail {e : SyntaxError} {c : α → List Construct} : Records (fail e) c :=
  fun _ _ _ hs => absurd hs not_succeeds_fail

/-- Recording a construct records this construct. -/
theorem records_record (c : Construct) : Records (record c) fun _ => [c] := by
  intro s a s' hs
  rw [succeeds_record.mp hs, Array.toList_push]

/-- What a composed parser records: first one part, then the other. -/
theorem Records.bind {p : Parse α} {f : α → Parse β} {c : α → List Construct}
    {d : β → List Construct} (hp : Records p c)
    (hf : ∀ a, ∃ e, Records (f a) e ∧ ∀ s b s', Succeeds (f a) s b s' → d b = c a ++ e b) :
    Records (p >>= f) d := by
  intro s b s'' hs
  obtain ⟨a, s', h₁, h₂⟩ := succeeds_bind.mp hs
  obtain ⟨e, he, hd⟩ := hf a
  rw [he _ _ _ h₂, hp _ _ _ h₁, hd _ _ _ h₂, List.append_assoc]


/-- What is made of a result records nothing more. -/
theorem Records.map {p : Parse α} {f : α → β} {c : β → List Construct}
    (hp : Records p fun a => c (f a)) : Records (f <$> p) c := by
  rw [map_eq_pure_bind]
  refine Records.bind hp fun a => ⟨fun _ => [], Records.pure rfl, fun s b s' hs => ?_⟩
  rw [(succeeds_pure.mp hs).1, List.append_nil]

/-! ## Rules for `Silent` -/

theorem silent_pure (a : α) : Silent (pure a : Parse α) := fun _ => rfl

/-- There is no success that could record. -/
theorem silent_fail (e : SyntaxError) : Silent (fail e : Parse α) := fun _ => rfl

theorem silent_get : Silent (get : Parse State) := fun _ => rfl

section

variable {p : Parse α} (hp : Silent p)
include hp

/-- What has been recorded before stays as it is. -/
theorem Silent.found {s s' : State} {a : α} (h : Succeeds p s a s') :
    s'.found.toList = s.found.toList := by
  have hs := hp s
  rw [h] at hs
  rw [← hs]

/-- Silent parsers are silent one after the other. -/
theorem Silent.bind {f : α → Parse β} (hf : ∀ a, Silent (f a)) : Silent (p >>= f) := by
  intro s
  have hs := hp s
  rw [run_bind]
  rcases hrun : p.run.run s with ⟨e | a, s'⟩ <;> rw [hrun] at hs
  · exact hs
  · exact (hf a s').trans hs

/-- What is made of a result records nothing. -/
theorem Silent.map (f : α → β) : Silent (f <$> p) := by
  rw [map_eq_pure_bind]
  exact hp.bind fun _ => silent_pure _

/-- Behind a silent parser, all is recorded by what follows. -/
theorem Silent.before {f : α → Parse β} {c : β → List Construct} (hf : ∀ a, Records (f a) c) :
    Records (p >>= f) c := by
  intro s b s'' hs
  obtain ⟨a, s', h₁, h₂⟩ := succeeds_bind.mp hs
  rw [hf a _ _ _ h₂, hp.found h₁]

end

/-! ## Tokens -/

/-- What the first step of a parser finds is the state. -/
theorem run_get_bind {f : State → Parse β} {s : State} :
    (get >>= f).run.run s = (f s).run.run s := run_bind

/-- Tokens are taken without a record. -/
theorem silent_next : Silent next := by
  intro s
  rw [next, run_get_bind]
  split <;> rfl

/-- Tokens that are expected are taken without a record. -/
theorem silent_expect (t : Token) : Silent (expect t) := by
  intro s
  rw [expect, run_get_bind]
  split
  · rfl
  · rename_i found cursor _
    by_cases h : found.value = t
    · rw [if_pos h]; rfl
    · rw [if_neg h]; rfl

/-- To look ahead records nothing. -/
theorem silent_peek? (k : Nat) : Silent (peek? k) :=
  silent_get.bind fun _ => silent_pure _

theorem silent_left : Silent left :=
  silent_get.bind fun _ => silent_pure _

theorem silent_accept (t : Token) : Silent (accept t) := by
  refine (silent_peek? 1).bind fun _ => ?_
  split
  · exact silent_next.bind fun _ => silent_pure _
  · exact silent_pure _

/-- Names are taken without a record. They are handed on with what they belong to. -/
theorem silent_name : Silent name := by
  refine silent_next.bind fun t => ?_
  split
  · exact silent_pure _
  · exact silent_fail _

theorem silent_type : Silent type := by
  refine silent_next.bind fun t => ?_
  split
  · exact silent_pure _
  · exact silent_fail _

/-! ## Repetition -/

/-- A list with separators records its parts in order. -/
theorem records_separatedBy {t : Token} {p : Parse α} {c : α → List Construct}
    (hp : Records p c) (n : Nat) : Records (separatedBy t p n) fun as => as.flatMap c := by
  induction n with
  | zero =>
    refine Records.bind hp fun a => ⟨fun _ => [], Records.pure rfl, fun s as s' hs => ?_⟩
    rw [(succeeds_pure.mp hs).1]
    simp
  | succ n ih =>
    intro s as s' hs
    obtain ⟨a, s₁, h₁, hs⟩ := succeeds_bind.mp hs
    obtain ⟨more, s₂, h₂, hs⟩ := succeeds_bind.mp hs
    have hfound : s₂.found.toList = s.found.toList ++ c a := by
      rw [(silent_accept t).found h₂, hp _ _ _ h₁]
    split at hs
    · obtain ⟨rest, s₃, h₃, hs⟩ := succeeds_bind.mp hs
      obtain ⟨rfl, rfl⟩ := succeeds_pure.mp hs
      rw [ih _ _ _ h₃, hfound, List.append_assoc]
      rfl
    · obtain ⟨rfl, rfl⟩ := succeeds_pure.mp hs
      simpa using hfound

/-- A repetition records its rounds in order. -/
theorem records_repeatWhile {goOn : Option Token → Bool} {p : Parse α} {c : α → List Construct}
    (hp : Records p c) (n : Nat) : Records (repeatWhile goOn p n) fun as => as.flatMap c := by
  induction n with
  | zero => exact Records.pure rfl
  | succ n ih =>
    refine (silent_peek? 1).before fun next => ?_
    split
    · intro s as s' hs
      obtain ⟨a, s₁, h₁, hs⟩ := succeeds_bind.mp hs
      obtain ⟨rest, s₂, h₂, hs⟩ := succeeds_bind.mp hs
      obtain ⟨rfl, rfl⟩ := succeeds_pure.mp hs
      rw [ih _ _ _ h₂, hp _ _ _ h₁, List.append_assoc]
      rfl
    · exact Records.pure rfl

theorem silent_separatedBy {p : Parse α} (hp : Silent p) (t : Token) (n : Nat) :
    Silent (separatedBy t p n) := by
  induction n with
  | zero => exact hp.bind fun _ => silent_pure _
  | succ n ih =>
    refine hp.bind fun _ => (silent_accept t).bind fun _ => ?_
    split
    · exact ih.bind fun _ => silent_pure _
    · exact silent_pure _

/-- A chain of operators is silent if its operands are. -/
theorem silent_chainFrom {op? : Token → Option α} {join : Expr → Located α → Expr → Expr}
    {operand : Parse Expr} (ho : Silent operand) (n : Nat) (e : Expr) :
    Silent (chainFrom op? join operand n e) := by
  induction n generalizing e with
  | zero => exact silent_pure _
  | succ n ih =>
    refine (silent_peek? 1).bind fun next => ?_
    split
    · exact silent_pure _
    · exact silent_next.bind fun _ => ho.bind fun _ => ih _

theorem silent_chain {op? : Token → Option α} {join : Expr → Located α → Expr → Expr}
    {operand : Parse Expr} (ho : Silent operand) : Silent (chain op? join operand) :=
  ho.bind fun _ => silent_left.bind fun _ => silent_chainFrom ho _ _

/-- Operators in front are silent if the operand is. -/
theorem silent_leading {op? : Token → Option α} {join : Located α → Expr → Expr}
    {operand : Parse Expr} (ho : Silent operand) (n : Nat) :
    Silent (leading op? join operand n) := by
  induction n with
  | zero => exact ho
  | succ n ih =>
    refine (silent_peek? 1).bind fun next => ?_
    split
    · exact ho
    · exact silent_next.bind fun _ => ih.bind fun _ => silent_pure _

/-! ## Expressions -/

section Expressions

variable {e : Parse Expr} (he : Silent e)
include he

/-- Arguments are part of a call and not handed on by themselves. -/
theorem silent_arguments : Silent (arguments e) := by
  refine (silent_accept _).bind fun _ => ?_
  split
  · exact silent_pure _
  · exact silent_left.bind fun n =>
      (silent_separatedBy he _ n).bind fun _ =>
        (silent_expect _).bind fun _ => silent_pure _

theorem silent_call : Silent (call e) :=
  silent_name.bind fun _ => (silent_expect _).bind fun _ =>
    (silent_arguments he).bind fun _ => silent_pure _

/-- Variables and elements are part of an expression. -/
theorem silent_place : Silent (place e) := by
  refine silent_name.bind fun _ => (silent_accept _).bind fun _ => ?_
  split
  · exact he.bind fun _ => (silent_expect _).bind fun _ => silent_pure _
  · exact silent_pure _

theorem silent_closed : Silent (closed e) := by
  refine silent_next.bind fun t => ?_
  split
  · exact he.bind fun _ => (silent_expect _).bind fun _ => silent_pure _
  · exact silent_pure _
  · exact silent_fail _

/-- The smallest expressions record nothing, be they literals, places, calls or in parentheses. -/
theorem silent_atom : Silent (atom e) := by
  refine (silent_peek? 1).bind fun _ => (silent_peek? 2).bind fun _ => ?_
  split
  · exact silent_call he
  · exact silent_place he
  · exact silent_closed he

/-- Sums and products are part of an expression. -/
theorem silent_arithmetic : Silent (arithmetic e) := by
  have hu : Silent (unary e) := silent_left.bind fun n => silent_leading (silent_atom he) n
  exact silent_chain (silent_chain (silent_chain hu))

/-- Comparisons are part of an expression. -/
theorem silent_comparison : Silent (comparison e) := by
  refine (silent_arithmetic he).bind fun _ => (silent_peek? 1).bind fun _ => ?_
  split
  · exact silent_pure _
  · exact silent_next.bind fun _ => (silent_arithmetic he).bind fun _ => silent_pure _

/-- Logical operators are part of an expression. -/
theorem silent_simple : Silent (simple e) := by
  have hn : Silent (negation e) :=
    silent_left.bind fun n => silent_leading (silent_comparison he) n
  exact silent_chain (silent_chain hn)

end Expressions

/-- An expression records nothing, with any fuel: it is handed on as a whole by the statement it
stands in. -/
theorem silent_expression (n : Nat) : Silent (expression n) := by
  induction n with
  | zero => exact silent_fail _
  | succ n ih =>
    refine (silent_simple ih).bind fun _ => (silent_peek? 1).bind fun _ => ?_
    split
    · exact silent_next.bind fun _ => ih.bind fun _ => silent_pure _
    · exact silent_next.bind fun _ => silent_pure _
    · exact silent_pure _

/-- An expression records nothing with the fuel that it is given. -/
theorem silent_expr : Silent expr :=
  silent_left.bind fun n => silent_expression (n + 1)

theorem silent_simpleExpr : Silent simpleExpr :=
  silent_left.bind fun n => silent_simple (silent_expression n)

/-! ## Declarations -/

theorem silent_arrayLength : Silent arrayLength := by
  refine (silent_accept _).bind fun _ => ?_
  split
  · refine silent_next.bind fun _ => ?_
    split
    · exact (silent_expect _).bind fun _ => silent_pure _
    · exact silent_fail _
  · exact silent_pure _

/-- A declarator is handed on with its declaration. -/
theorem silent_declarator : Silent declarator := by
  refine silent_name.bind fun _ => silent_arrayLength.bind fun _ =>
    (silent_accept _).bind fun _ => ?_
  split
  · exact silent_simpleExpr.bind fun _ => silent_pure _
  · refine (silent_accept _).bind fun _ => ?_
    split
    · exact silent_simpleExpr.bind fun _ => silent_pure _
    · exact silent_pure _

/-- A declaration is handed on by what it stands in, which tells whether it is local. -/
theorem silent_declaration (static : Option Span) : Silent (declaration static) :=
  silent_type.bind fun _ => silent_left.bind fun n =>
    (silent_separatedBy silent_declarator _ n).bind fun _ =>
      (silent_expect _).bind fun _ => silent_pure _

/-- A parser that records what it makes in the end. -/
theorem records_thenRecord {p : Parse α} (c : α → Construct) (hp : Silent p) :
    Records (do let a ← p; record (c a); return a) fun a => [c a] := by
  intro s a s' hs
  obtain ⟨a, s₁, h₁, hs⟩ := succeeds_bind.mp hs
  obtain ⟨_, s₂, h₂, hs⟩ := succeeds_bind.mp hs
  obtain ⟨rfl, rfl⟩ := succeeds_pure.mp hs
  rw [records_record _ _ _ _ h₂, hp.found h₁]

/-- A declaration in a block is handed on as soon as it ends. -/
theorem records_localDeclaration : Records localDeclaration fun d => [.locals d] := by
  have hrest := fun static => records_thenRecord .locals (silent_declaration static)
  refine (silent_peek? 1).before fun _ => ?_
  dsimp only
  split
  · exact Silent.before (silent_next.map _) hrest
  · exact hrest none

/-- A parameter is handed on with its group. -/
theorem silent_parameter : Silent parameter := by
  refine silent_name.bind fun _ => (silent_peek? 1).bind fun _ => ?_
  split
  · exact silent_next.bind fun _ => (silent_expect _).bind fun _ => silent_pure _
  · exact silent_pure _

/-- A group of parameters is handed on as soon as it ends. -/
theorem records_parameterGroup : Records parameterGroup fun g => [.parameters g] := by
  refine silent_type.before fun t => silent_left.before fun n => ?_
  have hitems := silent_separatedBy silent_parameter .comma n
  intro s g s' hs
  obtain ⟨items, s₁, h₁, hs⟩ := succeeds_bind.mp hs
  obtain ⟨_, s₂, h₂, hs⟩ := succeeds_bind.mp hs
  obtain ⟨rfl, rfl⟩ := succeeds_pure.mp hs
  rw [records_record _ _ _ _ h₂, hitems.found h₁]

/-- The groups of parameters are handed on in order. -/
theorem records_parameters : Records parameters fun gs => gs.map .parameters := by
  refine (silent_peek? 1).before fun _ => ?_
  split
  · exact Records.pure rfl
  · refine silent_left.before fun n => ?_
    intro s gs s' hs
    rw [records_separatedBy records_parameterGroup n _ _ _ hs]
    exact congrArg _ List.map_eq_flatMap.symm

/-! ## Statements -/

/-- The constructs of a list of statements are those of its elements. -/
theorem flatMap_constructs (body : List Stmt) :
    body.flatMap Stmt.constructs = Stmt.constructsOf body := by
  induction body with
  | nil => rw [Stmt.constructsOf, List.flatMap_nil]
  | cons s ss ih => rw [List.flatMap_cons, ih, Stmt.constructsOf]

section Statements

variable {p : Parse Stmt} (hp : Records p Stmt.constructs)
include hp

/-- A block hands on its declarations and statements between its braces. -/
theorem records_block : Records (block p) Stmt.constructs := by
  intro s b s' hs
  obtain ⟨_, s₁, h₁, hs⟩ := succeeds_bind.mp hs
  obtain ⟨_, s₂, h₂, hs⟩ := succeeds_bind.mp hs
  obtain ⟨n, s₃, h₃, hs⟩ := succeeds_bind.mp hs
  obtain ⟨locals, s₄, h₄, hs⟩ := succeeds_bind.mp hs
  obtain ⟨m, s₅, h₅, hs⟩ := succeeds_bind.mp hs
  obtain ⟨body, s₆, h₆, hs⟩ := succeeds_bind.mp hs
  obtain ⟨_, s₇, h₇, hs⟩ := succeeds_bind.mp hs
  obtain ⟨_, s₈, h₈, hs⟩ := succeeds_bind.mp hs
  obtain ⟨rfl, rfl⟩ := succeeds_pure.mp hs
  rw [records_record _ _ _ _ h₈, (silent_expect _).found h₇, records_repeatWhile hp m _ _ _ h₆,
    silent_left.found h₅, records_repeatWhile records_localDeclaration n _ _ _ h₄,
    silent_left.found h₃, records_record _ _ _ _ h₂, (silent_expect _).found h₁]
  simp [flatMap_constructs, List.map_eq_flatMap]

/-- A choice hands on its condition, its branches and what stands between them. -/
theorem records_choice : Records (choice p) Stmt.constructs := by
  intro s b s' hs
  obtain ⟨_, s₁, h₁, hs⟩ := succeeds_bind.mp hs
  obtain ⟨c, s₂, h₂, hs⟩ := succeeds_bind.mp hs
  obtain ⟨_, s₃, h₃, hs⟩ := succeeds_bind.mp hs
  obtain ⟨_, s₄, h₄, hs⟩ := succeeds_bind.mp hs
  obtain ⟨body, s₅, h₅, hs⟩ := succeeds_bind.mp hs
  obtain ⟨more, s₆, h₆, hs⟩ := succeeds_bind.mp hs
  have hfound : s₆.found.toList = s.found.toList ++ .ifTrue c :: body.constructs := by
    rw [(silent_accept _).found h₆, hp _ _ _ h₅, (silent_expect _).found h₄,
      records_record _ _ _ _ h₃, silent_simpleExpr.found h₂, (silent_expect _).found h₁]
    simp
  split at hs
  · obtain ⟨_, s₇, h₇, hs⟩ := succeeds_bind.mp hs
    obtain ⟨otherwise, s₈, h₈, hs⟩ := succeeds_bind.mp hs
    obtain ⟨_, s₉, h₉, hs⟩ := succeeds_bind.mp hs
    obtain ⟨rfl, rfl⟩ := succeeds_pure.mp hs
    rw [records_record _ _ _ _ h₉, hp _ _ _ h₈, records_record _ _ _ _ h₇, hfound]
    simp
  · obtain ⟨_, s₇, h₇, hs⟩ := succeeds_bind.mp hs
    obtain ⟨rfl, rfl⟩ := succeeds_pure.mp hs
    rw [records_record _ _ _ _ h₇, hfound]
    simp

/-- A loop hands on its beginning, its body and its condition. -/
theorem records_loop : Records (loop p) Stmt.constructs := by
  intro s b s' hs
  obtain ⟨_, s₁, h₁, hs⟩ := succeeds_bind.mp hs
  obtain ⟨c, s₂, h₂, hs⟩ := succeeds_bind.mp hs
  obtain ⟨_, s₃, h₃, hs⟩ := succeeds_bind.mp hs
  obtain ⟨_, s₄, h₄, hs⟩ := succeeds_bind.mp hs
  obtain ⟨body, s₅, h₅, hs⟩ := succeeds_bind.mp hs
  obtain ⟨_, s₆, h₆, hs⟩ := succeeds_bind.mp hs
  obtain ⟨rfl, rfl⟩ := succeeds_pure.mp hs
  rw [records_record _ _ _ _ h₆, hp _ _ _ h₅, records_record _ _ _ _ h₄,
    (silent_expect _).found h₃, silent_simpleExpr.found h₂, (silent_expect _).found h₁]
  simp

omit hp in
/-- A range is handed on with its loop. -/
theorem silent_range : Silent range := by
  refine silent_simpleExpr.bind fun _ => (silent_accept _).bind fun _ => ?_
  split
  · refine silent_simpleExpr.bind fun _ => (silent_accept _).bind fun _ => ?_
    split
    · exact silent_simpleExpr.bind fun _ => silent_pure _
    · exact silent_pure _
  · exact silent_pure _

/-- A counted loop hands on its beginning, its body and its end. -/
theorem records_count : Records (count p) Stmt.constructs := by
  intro s b s' hs
  obtain ⟨_, s₁, h₁, hs⟩ := succeeds_bind.mp hs
  obtain ⟨counter, s₂, h₂, hs⟩ := succeeds_bind.mp hs
  obtain ⟨_, s₃, h₃, hs⟩ := succeeds_bind.mp hs
  obtain ⟨r, s₄, h₄, hs⟩ := succeeds_bind.mp hs
  obtain ⟨_, s₅, h₅, hs⟩ := succeeds_bind.mp hs
  obtain ⟨_, s₆, h₆, hs⟩ := succeeds_bind.mp hs
  obtain ⟨body, s₇, h₇, hs⟩ := succeeds_bind.mp hs
  obtain ⟨_, s₈, h₈, hs⟩ := succeeds_bind.mp hs
  obtain ⟨rfl, rfl⟩ := succeeds_pure.mp hs
  rw [records_record _ _ _ _ h₈, hp _ _ _ h₇, records_record _ _ _ _ h₆,
    (silent_expect _).found h₅, silent_range.found h₄, (silent_expect _).found h₃,
    silent_name.found h₂, (silent_expect _).found h₁]
  simp

end Statements

/-- A return is handed on with its value. -/
theorem records_ret : Records ret Stmt.constructs := by
  refine (silent_expect _).before fun word => (silent_peek? 1).before fun next => ?_
  have hrest (value : Option Expr) : Records (do
      let _ ← expect .semicolon
      record (.ret word value)
      return .ret word value) Stmt.constructs := by
    refine (silent_expect _).before fun _ => ?_
    intro s b s' hs
    obtain ⟨_, s₁, h₁, hs⟩ := succeeds_bind.mp hs
    obtain ⟨rfl, rfl⟩ := succeeds_pure.mp hs
    rw [records_record _ _ _ _ h₁, Stmt.constructs_ret]
  dsimp only
  split
  · exact hrest none
  · exact Silent.before (silent_expr.map _) hrest

theorem records_leave : Records leave Stmt.constructs := by
  refine silent_next.before fun t => (silent_expect _).before fun _ => ?_
  intro s b s' hs
  obtain ⟨_, s₁, h₁, hs⟩ := succeeds_bind.mp hs
  obtain ⟨rfl, rfl⟩ := succeeds_pure.mp hs
  rw [records_record _ _ _ _ h₁, Stmt.constructs_leave]

/-- An expression for its effect is handed on with its semicolon. -/
theorem records_effect : Records effect Stmt.constructs := by
  refine silent_expr.before fun e => (silent_expect _).before fun _ => ?_
  intro s b s' hs
  obtain ⟨_, s₁, h₁, hs⟩ := succeeds_bind.mp hs
  obtain ⟨rfl, rfl⟩ := succeeds_pure.mp hs
  rw [records_record _ _ _ _ h₁, Stmt.constructs_expr]

/-- A statement records its constructs in order. -/
theorem records_statement (n : Nat) : Records (statement n) Stmt.constructs := by
  induction n with
  | zero => exact Records.fail
  | succ n ih =>
    refine (silent_peek? 1).before fun _ => ?_
    split
    · exact records_block ih
    · exact records_choice ih
    · exact records_loop ih
    · exact records_count ih
    · exact records_ret
    · exact records_leave
    · exact Records.map fun s t s' hs => by
        rw [silent_next.found hs]
        simp
    · exact records_effect

/-! ## Programs -/

/-- A function behind the type that it returns. -/
def functionBehind (returns : Option (Located WordType)) : Parse TopLevel := do
  let n ← name
  record .openFunction
  let _ ← expect .openParen
  let params ← parameters
  let _ ← expect .closeParen
  let h : Header := ⟨returns, n, params⟩
  record (.header h)
  let body ← statement ((← left) + 1)
  record .closeFunction
  return .function h body

/-- A function hands on its header, its body and its end. -/
theorem records_functionBehind (returns : Option (Located WordType)) :
    Records (functionBehind returns) TopLevel.constructs := by
  refine silent_name.before fun n => ?_
  intro s f s' hs
  obtain ⟨_, s₁, h₁, hs⟩ := succeeds_bind.mp hs
  obtain ⟨_, s₂, h₂, hs⟩ := succeeds_bind.mp hs
  obtain ⟨params, s₃, h₃, hs⟩ := succeeds_bind.mp hs
  obtain ⟨_, s₄, h₄, hs⟩ := succeeds_bind.mp hs
  obtain ⟨_, s₅, h₅, hs⟩ := succeeds_bind.mp hs
  obtain ⟨k, s₆, h₆, hs⟩ := succeeds_bind.mp hs
  obtain ⟨body, s₇, h₇, hs⟩ := succeeds_bind.mp hs
  obtain ⟨_, s₈, h₈, hs⟩ := succeeds_bind.mp hs
  obtain ⟨rfl, rfl⟩ := succeeds_pure.mp hs
  rw [records_record _ _ _ _ h₈, records_statement _ _ _ _ h₇, silent_left.found h₆,
    records_record _ _ _ _ h₅, (silent_expect _).found h₄, records_parameters _ _ _ h₃,
    (silent_expect _).found h₂, records_record _ _ _ _ h₁]
  simp [TopLevel.constructs]

theorem records_function : Records function TopLevel.constructs := by
  refine (silent_peek? 1).before fun t => ?_
  dsimp only
  split
  · exact Silent.before (silent_type.map _) records_functionBehind
  · exact records_functionBehind none

theorem records_globals : Records globals TopLevel.constructs := by
  refine (silent_declaration none).before fun d => ?_
  intro s b s' hs
  obtain ⟨_, s₁, h₁, hs⟩ := succeeds_bind.mp hs
  obtain ⟨rfl, rfl⟩ := succeeds_pure.mp hs
  rw [records_record _ _ _ _ h₁, TopLevel.constructs]

/-- Variables and functions record what they consist of, whichever the parser finds. -/
theorem records_topLevel : Records topLevel TopLevel.constructs := by
  refine (silent_peek? 1).before fun _ => (silent_peek? 1).before fun _ =>
    (silent_peek? 2).before fun _ => (silent_peek? 3).before fun _ => ?_
  split
  · exact records_function
  · refine (silent_peek? 2).before fun _ => ?_
    split
    · exact records_function
    · split
      · exact records_globals
      · exact silent_next.before fun _ => Records.fail

/-- A program hands on its constructs in the order of the text. -/
theorem records_program : Records program Program.constructs := by
  refine silent_left.before fun n => ?_
  intro s p s' hs
  obtain ⟨items, s₁, h₁, hs⟩ := succeeds_bind.mp hs
  obtain ⟨rfl, rfl⟩ := succeeds_pure.mp hs
  exact records_repeatWhile records_topLevel n _ _ _ h₁

end Parser

/-- **What is recorded of a program.** If tokens are a program, the constructs recorded while
they were read are those of its tree, in order. -/
theorem parse_constructs {start : Span} {tokens : List (Located Token)} {p : Program}
    (h : (parse start tokens).result = .ok p) :
    (parse start tokens).constructs.toList = p.constructs := by
  have hs : Parser.Succeeds Parser.program ⟨.ofList tokens, start, #[]⟩ p
      (Parser.program.run.run ⟨.ofList tokens, start, #[]⟩).2 := Prod.ext h rfl
  exact Parser.records_program _ _ _ hs

/-- A source that is compiled has tokens, and these are compiled. -/
theorem compile_eq_ok {name : String} {legacy : Bool} {source : List UInt8} {c : Compilation}
    (h : compile name legacy source = .ok c) :
    ∃ tokens, tokenize (readings source) = .ok tokens ∧ compileTokens legacy tokens = .ok c := by
  unfold compile at h
  dsimp only at h
  split at h
  · cases h
  rename_i tokens htokens
  split at h
  · cases h
  rename_i c' hc
  obtain rfl := Except.ok.inj h
  exact ⟨tokens, htokens, hc⟩

end OnePass
