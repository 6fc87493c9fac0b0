import OnePass.Proofs.ParserSoundness
import OnePass.Proofs.Unplaced

/-!
# Parsing without places

Parsing looks at the values of tokens and hands their places on. So parsing tokens whose places are
gone is the same as parsing the tokens and then losing the places of whatever was made: the tree, or
the fault, and the constructs recorded on the way (`parse_unplaced`).

A parser behind another one goes on from what the first one made, so two parsers are compared: one
`Loses` to the other if the second does without places what the first does with them.
-/

namespace OnePass

namespace Parser

/-- How far parsing has come, without places. -/
def State.unplaced (s : State) : State :=
  ⟨.ofList (s.cursor.rest.map Located.unplaced), .anywhere, s.found.map Construct.unplaced⟩

variable {α β : Type}

/-- How a parser ends, without places; `u` takes them away from what it makes. -/
def ending (u : α → α) : Except (Located SyntaxError) α × State →
    Except (Located SyntaxError) α × State
  | (.ok a, s) => (.ok (u a), s.unplaced)
  | (.error e, s) => (.error e.unplaced, s.unplaced)

/-- Without places, `p'` does what `p` does, and what it makes is what `u` makes of the result. -/
def Loses (u : α → α) (p p' : Parse α) : Prop :=
  ∀ s : State, p'.run.run s.unplaced = ending u (p.run.run s)

/-! ## Composition -/

section

variable {u : α → α} {v : β → β} {p p' : Parse α} {f f' : α → Parse β}

/-- A value loses its places. -/
theorem loses_pure {a a' : α} (h : a' = u a) : Loses u (pure a) (pure a') := by
  subst h
  exact fun _ => rfl

/-- An error in the words of the grammar is the same without places. -/
theorem loses_fail (e : SyntaxError) : Loses u (fail e) (fail e) := fun _ => rfl

/-- The construct that is recorded loses its places. -/
theorem loses_record (c : Construct) : Loses id (record c) (record c.unplaced) := by
  intro s
  have hfound : (s.found.push c).map Construct.unplaced
      = (s.found.map Construct.unplaced).push c.unplaced := Array.map_push
  change (Except.ok (), ({ s.unplaced with found := s.unplaced.found.push c.unplaced } : State))
    = (.ok (), State.unplaced { s with found := s.found.push c })
  rw [State.unplaced, State.unplaced, hfound]

/-- One parser after the other. -/
theorem Loses.bind (hp : Loses u p p') (hf : ∀ a, Loses v (f a) (f' (u a))) :
    Loses v (p >>= f) (p' >>= f') := by
  intro s
  rw [run_bind, run_bind, hp s]
  rcases p.run.run s with ⟨_ | a, s'⟩
  · rfl
  · exact hf a s'

/-- Where the first parser makes nothing that has a place. -/
theorem Loses.bind_same (hp : Loses id p p') (hf : ∀ a, Loses v (f a) (f' a)) :
    Loses v (p >>= f) (p' >>= f') := hp.bind hf

/-- What is made of a result loses its places if it is made without looking at them. -/
theorem Loses.map {g g' : α → β} (hp : Loses u p p') (hg : ∀ a, g' (u a) = v (g a)) :
    Loses v (g <$> p) (g' <$> p') := by
  rw [map_eq_pure_bind, map_eq_pure_bind]
  exact hp.bind fun a => loses_pure (hg a)

end

/-! ## Tokens -/

/-- To look ahead is to look at tokens and not at their places. -/
theorem loses_peek? (k : Nat) : Loses id (peek? k) (peek? k) := by
  intro s
  have hpeek : (s.unplaced.cursor.peek? k).map Located.value
      = (s.cursor.peek? k).map Located.value := by
    rw [Cursor.peek?, Cursor.peek?]
    split
    · rfl
    · change ((s.cursor.rest.map Located.unplaced)[k - 1]?).map _ = _
      rw [List.getElem?_map, Option.map_map]
      rfl
  exact congrArg (fun t => (Except.ok t, s.unplaced)) hpeek

/-- As many tokens are left. -/
theorem loses_left : Loses id left left := by
  intro s
  have hsize : s.unplaced.cursor.size = s.cursor.size := by
    rw [s.cursor.size_eq]
    exact List.length_map _
  exact congrArg (fun n => (Except.ok n, s.unplaced)) hsize

/-- The next token is the next one without places. -/
theorem next?_unplaced (s : State) : s.unplaced.cursor.next? =
    s.cursor.next?.map fun (t, c) => (t.unplaced, .ofList (c.rest.map Located.unplaced)) := by
  obtain ⟨⟨rest, _, rfl⟩, last, found⟩ := s
  cases rest <;> rfl

/-- The next token loses its place. -/
theorem loses_next : Loses Located.unplaced next next := by
  intro s
  rw [next, run_get_bind, run_get_bind, next?_unplaced]
  rcases s.cursor.next? with _ | ⟨t, c⟩ <;> rfl

/-- Where an expected token stood is lost. -/
theorem loses_expect (t : Token) : Loses (fun _ => .anywhere) (expect t) (expect t) := by
  intro s
  rw [expect, run_get_bind, run_get_bind, next?_unplaced]
  rcases s.cursor.next? with _ | ⟨found, c⟩
  · rfl
  · dsimp only [Option.map_some]
    by_cases h : found.value = t
    · rw [if_pos h, if_pos (show found.unplaced.value = t from h)]
      rfl
    · rw [if_neg h, if_neg (show found.unplaced.value ≠ t from h)]
      rfl

/-- Whether a token comes next does not depend on its place. -/
theorem loses_accept (t : Token) : Loses id (accept t) (accept t) := by
  refine (loses_peek? 1).bind_same fun _ => ?_
  split
  · exact loses_next.bind fun _ => loses_pure rfl
  · exact loses_pure rfl

theorem loses_name : Loses Located.unplaced name name := by
  refine loses_next.bind fun t => ?_
  rw [Located.value_unplaced]
  cases t.value.name? with
  | none => exact loses_fail _
  | some s => exact loses_pure rfl

theorem loses_type : Loses Located.unplaced type type := by
  refine loses_next.bind fun t => ?_
  rw [Located.value_unplaced]
  cases t.value.type? with
  | none => exact loses_fail _
  | some type => exact loses_pure rfl

/-! ## Repetition -/

section

variable {u : α → α} {p : Parse α}

/-- A list with separators loses the places of its parts. -/
theorem loses_separatedBy (hp : Loses u p p) (t : Token) (n : Nat) :
    Loses (List.map u) (separatedBy t p n) (separatedBy t p n) := by
  induction n with
  | zero => exact hp.bind fun _ => loses_pure rfl
  | succ n ih =>
    refine hp.bind fun _ => (loses_accept t).bind_same fun more => ?_
    cases more with
    | true => exact ih.bind fun _ => loses_pure rfl
    | false => exact loses_pure rfl

/-- A repetition goes on as long, and its rounds lose their places. -/
theorem loses_repeatWhile (hp : Loses u p p) (goOn : Option Token → Bool) (n : Nat) :
    Loses (List.map u) (repeatWhile goOn p n) (repeatWhile goOn p n) := by
  induction n with
  | zero => exact loses_pure rfl
  | succ n ih =>
    refine (loses_peek? 1).bind_same fun _ => ?_
    split
    · exact hp.bind fun _ => ih.bind fun _ => loses_pure rfl
    · exact loses_pure rfl

end

section

variable {op? : Token → Option α} {operand : Parse Expr}
  (ho : Loses Expr.unplaced operand operand)
include ho

/-- A chain is continued by the same operators, which are joined without looking at places. -/
theorem loses_chainFrom {join : Expr → Located α → Expr → Expr}
    (hj : ∀ l op r, join l.unplaced op.unplaced r.unplaced = (join l op r).unplaced) (n : Nat)
    (e : Expr) :
    Loses Expr.unplaced (chainFrom op? join operand n e)
      (chainFrom op? join operand n e.unplaced) := by
  induction n generalizing e with
  | zero => exact loses_pure rfl
  | succ n ih =>
    refine (loses_peek? 1).bind_same fun next => ?_
    cases next.bind op? with
    | none => exact loses_pure rfl
    | some op =>
      refine loses_next.bind fun t => ho.bind fun r => ?_
      have hjoined := hj e ⟨op, t.span⟩ r
      exact hjoined ▸ ih (join e ⟨op, t.span⟩ r)

theorem loses_chain {join : Expr → Located α → Expr → Expr}
    (hj : ∀ l op r, join l.unplaced op.unplaced r.unplaced = (join l op r).unplaced) :
    Loses Expr.unplaced (chain op? join operand) (chain op? join operand) :=
  ho.bind fun e => loses_left.bind_same fun n => loses_chainFrom ho hj n e

/-- Operators in front are joined without looking at places. -/
theorem loses_leading {join : Located α → Expr → Expr}
    (hj : ∀ op e, join op.unplaced e.unplaced = (join op e).unplaced) (n : Nat) :
    Loses Expr.unplaced (leading op? join operand n) (leading op? join operand n) := by
  induction n with
  | zero => exact ho
  | succ n ih =>
    refine (loses_peek? 1).bind_same fun next => ?_
    cases next.bind op? with
    | none => exact ho
    | some op => exact loses_next.bind fun t => ih.bind fun e => loses_pure (hj ⟨op, t.span⟩ e)

end

/-! ## Expressions -/

section Expressions

variable {e : Parse Expr} (he : Loses Expr.unplaced e e)
include he

/-- Arguments lose their places one by one. -/
theorem loses_arguments : Loses (List.map Expr.unplaced) (arguments e) (arguments e) := by
  refine (loses_accept _).bind_same fun empty => ?_
  cases empty with
  | true => exact loses_pure rfl
  | false =>
    exact loses_left.bind_same fun n => (loses_separatedBy he _ n).bind fun _ =>
      (loses_expect _).bind fun _ => loses_pure rfl

theorem loses_call : Loses Expr.unplaced (call e) (call e) := by
  refine loses_name.bind fun n => (loses_expect _).bind fun _ =>
    (loses_arguments he).bind fun args => loses_pure ?_
  rw [Expr.unplaced, Expr.unplacedAll_eq_map]

/-- Whether a name has an index does not depend on places. -/
theorem loses_place : Loses Expr.unplaced (place e) (place e) := by
  refine loses_name.bind fun n => (loses_accept _).bind_same fun indexed => ?_
  cases indexed with
  | true => exact he.bind fun _ => (loses_expect _).bind fun _ => loses_pure rfl
  | false => exact loses_pure rfl

theorem loses_closed : Loses Expr.unplaced (closed e) (closed e) := by
  refine loses_next.bind fun t => ?_
  rw [Located.value_unplaced]
  split
  · exact he.bind fun _ => (loses_expect _).bind fun _ => loses_pure rfl
  · exact loses_pure rfl
  · exact loses_fail _

/-- Which of the smallest expressions comes next is told by its first tokens. -/
theorem loses_atom : Loses Expr.unplaced (atom e) (atom e) := by
  refine (loses_peek? 1).bind_same fun _ => (loses_peek? 2).bind_same fun _ => ?_
  split
  · exact loses_call he
  · exact loses_place he
  · exact loses_closed he

/-- The levels of arithmetic lose their places one inside the other. -/
theorem loses_arithmetic : Loses Expr.unplaced (arithmetic e) (arithmetic e) := by
  have hu : Loses Expr.unplaced (unary e) (unary e) := by
    refine loses_left.bind_same fun n => loses_leading (loses_atom he) ?_ n
    exact fun _ _ => rfl
  have hj (l : Expr) (op : Located ArithOp) (r : Expr) :
      Expr.arith l.unplaced op.unplaced r.unplaced = (Expr.arith l op r).unplaced := rfl
  exact loses_chain (loses_chain (loses_chain hu hj) hj) hj

theorem loses_comparison : Loses Expr.unplaced (comparison e) (comparison e) := by
  refine (loses_arithmetic he).bind fun _ => (loses_peek? 1).bind_same fun next => ?_
  cases next.bind relation? with
  | none => exact loses_pure rfl
  | some op =>
    exact loses_next.bind fun _ => (loses_arithmetic he).bind fun _ => loses_pure rfl

/-- The logical levels lose their places one inside the other. -/
theorem loses_simple : Loses Expr.unplaced (simple e) (simple e) := by
  have hn : Loses Expr.unplaced (negation e) (negation e) := by
    refine loses_left.bind_same fun n => loses_leading (loses_comparison he) ?_ n
    exact fun _ _ => rfl
  have hj (op : LogicOp) (l : Expr) (_ : Located Unit) (r : Expr) :
      Expr.logic op l.unplaced r.unplaced = (Expr.logic op l r).unplaced := rfl
  exact loses_chain (loses_chain hn (hj .and)) (hj .or)

end Expressions

/-- With any fuel an expression loses its places. -/
theorem loses_expression (n : Nat) : Loses Expr.unplaced (expression n) (expression n) := by
  induction n with
  | zero => exact loses_fail _
  | succ n ih =>
    refine (loses_simple ih).bind fun _ => (loses_peek? 1).bind_same fun _ => ?_
    split
    · exact loses_next.bind fun _ => ih.bind fun _ => loses_pure rfl
    · exact loses_next.bind fun _ => loses_pure rfl
    · exact loses_pure rfl

/-- There are as many tokens, and so the fuel is the same. -/
theorem loses_expr : Loses Expr.unplaced expr expr :=
  loses_left.bind_same fun n => loses_expression (n + 1)

theorem loses_simpleExpr : Loses Expr.unplaced simpleExpr simpleExpr :=
  loses_left.bind_same fun n => loses_simple (loses_expression n)

/-! ## Declarations -/

theorem loses_arrayLength :
    Loses (Option.map Located.unplaced) arrayLength arrayLength := by
  refine (loses_accept _).bind_same fun long => ?_
  cases long with
  | true =>
    refine loses_next.bind fun t => ?_
    rw [Located.value_unplaced]
    split
    · exact (loses_expect _).bind fun _ => loses_pure rfl
    · exact loses_fail _
  | false => exact loses_pure rfl

/-- A declarator loses the places of its name, its length and its initialiser. -/
theorem loses_declarator : Loses Declarator.unplaced declarator declarator := by
  refine loses_name.bind fun n => loses_arrayLength.bind fun length =>
    (loses_accept _).bind_same fun colon => ?_
  cases colon with
  | true => exact loses_simpleExpr.bind fun _ => loses_pure rfl
  | false =>
    refine (loses_accept _).bind_same fun equals => ?_
    cases equals with
    | true => exact loses_simpleExpr.bind fun _ => loses_pure rfl
    | false => exact loses_pure rfl

/-- Whether a declaration is static is told by a place that may be any. -/
theorem loses_declaration (static : Option Span) :
    Loses Declaration.unplaced (declaration static)
      (declaration (static.map fun _ => .anywhere)) :=
  loses_type.bind fun _ => loses_left.bind_same fun n =>
    (loses_separatedBy loses_declarator _ n).bind fun _ =>
      (loses_expect _).bind fun _ => loses_pure rfl

/-- A parser that records what it makes in the end. -/
theorem Loses.thenRecord {u : α → α} {p p' : Parse α} {c : α → Construct}
    (hp : Loses u p p') (hc : ∀ a, (c a).unplaced = c (u a)) :
    Loses u (do let a ← p; record (c a); return a) (do let a ← p'; record (c a); return a) := by
  refine hp.bind fun a => ?_
  rw [← hc a]
  exact (loses_record _).bind_same fun _ => loses_pure rfl

/-- The declaration that is recorded in a block loses its places. -/
theorem loses_localDeclaration :
    Loses Declaration.unplaced localDeclaration localDeclaration := by
  have hrest (static : Option Span) :=
    (loses_declaration static).thenRecord (c := .locals) fun _ => rfl
  refine (loses_peek? 1).bind_same fun _ => ?_
  dsimp only
  split
  · refine Loses.bind (u := Option.map fun _ => Span.anywhere) ?_ hrest
    exact loses_next.map fun _ => rfl
  · exact hrest none

theorem loses_parameter : Loses Parameter.unplaced parameter parameter := by
  refine loses_name.bind fun _ => (loses_peek? 1).bind_same fun _ => ?_
  split
  · exact loses_next.bind fun _ => (loses_expect _).bind fun _ => loses_pure rfl
  · exact loses_pure rfl

/-- The group that is recorded loses its places. -/
theorem loses_parameterGroup :
    Loses ParameterGroup.unplaced parameterGroup parameterGroup :=
  loses_type.bind fun _ => loses_left.bind_same fun n =>
    (loses_separatedBy loses_parameter _ n).bind fun _ =>
      (loses_record _).bind_same fun _ => loses_pure rfl

/-- Whether there are parameters is told by the closing parenthesis. -/
theorem loses_parameters :
    Loses (List.map ParameterGroup.unplaced) parameters parameters := by
  refine (loses_peek? 1).bind_same fun _ => ?_
  split
  · exact loses_pure rfl
  · exact loses_left.bind_same fun n => loses_separatedBy loses_parameterGroup _ n

/-! ## Statements -/

section Statements

variable {p : Parse Stmt} (hp : Loses Stmt.unplaced p p)
include hp

/-- A block loses the places of what stands in it. -/
theorem loses_block : Loses Stmt.unplaced (block p) (block p) := by
  refine (loses_expect _).bind fun _ => (loses_record .openBlock).bind_same fun _ =>
    loses_left.bind_same fun n => (loses_repeatWhile loses_localDeclaration _ n).bind fun _ =>
    loses_left.bind_same fun m => (loses_repeatWhile hp _ m).bind fun body =>
    (loses_expect _).bind fun _ => (loses_record .closeBlock).bind_same fun _ => loses_pure ?_
  rw [Stmt.unplaced, Stmt.unplacedAll_eq_map]

/-- Whether a choice has an `else` does not depend on places. -/
theorem loses_choice : Loses Stmt.unplaced (choice p) (choice p) := by
  refine (loses_expect _).bind fun _ => loses_simpleExpr.bind fun c =>
    (loses_record (.ifTrue c)).bind_same fun _ => (loses_expect _).bind fun _ =>
    hp.bind fun _ => (loses_accept _).bind_same fun otherwise => ?_
  cases otherwise with
  | true =>
    exact (loses_record .ifFalse).bind_same fun _ => hp.bind fun _ =>
      (loses_record .endIf).bind_same fun _ => loses_pure rfl
  | false => exact (loses_record .endIf).bind_same fun _ => loses_pure rfl

theorem loses_loop : Loses Stmt.unplaced (loop p) (loop p) :=
  (loses_expect _).bind fun _ => loses_simpleExpr.bind fun c => (loses_expect _).bind fun _ =>
    (loses_record .openLoop).bind_same fun _ => hp.bind fun _ =>
      (loses_record (.closeLoop c)).bind_same fun _ => loses_pure rfl

omit hp in
/-- A range loses the places of its expressions. -/
theorem loses_range : Loses Range.unplaced range range := by
  refine loses_simpleExpr.bind fun _ => (loses_accept _).bind_same fun bounded => ?_
  cases bounded with
  | true =>
    refine loses_simpleExpr.bind fun _ => (loses_accept _).bind_same fun stepped => ?_
    cases stepped with
    | true => exact loses_simpleExpr.bind fun _ => loses_pure rfl
    | false => exact loses_pure rfl
  | false => exact loses_pure rfl

/-- The end of a counted loop is recorded with its range, and loses the places in it. -/
theorem loses_count : Loses Stmt.unplaced (count p) (count p) :=
  (loses_expect _).bind fun _ => loses_name.bind fun n => (loses_expect _).bind fun _ =>
    loses_range.bind fun r => (loses_expect _).bind fun _ =>
      (loses_record (.openCount n r)).bind_same fun _ => hp.bind fun _ =>
        (loses_record (.closeCount r)).bind_same fun _ => loses_pure rfl

end Statements

theorem loses_ret : Loses Stmt.unplaced ret ret := by
  refine (loses_expect _).bind fun word => (loses_peek? 1).bind_same fun _ => ?_
  have hrest (value : Option Expr) : Loses Stmt.unplaced
      (do
        let _ ← expect .semicolon
        record (.ret word value)
        return .ret word value)
      (do
        let _ ← expect .semicolon
        record (.ret .anywhere (value.map Expr.unplaced))
        return .ret .anywhere (value.map Expr.unplaced)) :=
    (loses_expect _).bind fun _ => (loses_record (.ret word value)).bind_same fun _ =>
      loses_pure rfl
  dsimp only
  split
  · exact hrest none
  · exact Loses.bind (u := Option.map Expr.unplaced) (loses_expr.map fun _ => rfl) hrest

theorem loses_leave : Loses Stmt.unplaced leave leave :=
  loses_next.bind fun t => (loses_expect _).bind fun _ =>
    (loses_record (.leave t.span)).bind_same fun _ => loses_pure rfl

theorem loses_effect : Loses Stmt.unplaced effect effect :=
  loses_expr.bind fun e => (loses_expect _).bind fun _ =>
    (loses_record (.expr e)).bind_same fun _ => loses_pure rfl

/-- With any fuel a statement loses its places. -/
theorem loses_statement (n : Nat) : Loses Stmt.unplaced (statement n) (statement n) := by
  induction n with
  | zero => exact loses_fail _
  | succ n ih =>
    refine (loses_peek? 1).bind_same fun _ => ?_
    split
    · exact loses_block ih
    · exact loses_choice ih
    · exact loses_loop ih
    · exact loses_count ih
    · exact loses_ret
    · exact loses_leave
    · exact loses_next.map fun _ => rfl
    · exact loses_effect

/-! ## Programs -/

/-- Behind its type a function loses its places as its parts do. -/
theorem loses_functionBehind (returns : Option (Located WordType)) :
    Loses TopLevel.unplaced (functionBehind returns)
      (functionBehind (returns.map Located.unplaced)) :=
  loses_name.bind fun n => (loses_record .openFunction).bind_same fun _ =>
    (loses_expect _).bind fun _ => loses_parameters.bind fun params =>
    (loses_expect _).bind fun _ =>
    (loses_record (.header ⟨returns, n, params⟩)).bind_same fun _ =>
    loses_left.bind_same fun k => (loses_statement (k + 1)).bind fun _ =>
    (loses_record .closeFunction).bind_same fun _ => loses_pure rfl

theorem loses_function : Loses TopLevel.unplaced function function := by
  rw [function_eq]
  refine (loses_peek? 1).bind_same fun next => ?_
  cases next.bind Token.type? with
  | none => exact loses_functionBehind none
  | some _ => exact loses_type.bind fun type => loses_functionBehind (some type)

theorem loses_globals : Loses TopLevel.unplaced globals globals :=
  (loses_declaration none).bind fun d => (loses_record (.globals d)).bind_same fun _ =>
    loses_pure rfl

/-- Whether a function or a declaration comes next is told by the first tokens. -/
theorem loses_topLevel : Loses TopLevel.unplaced topLevel topLevel := by
  refine (loses_peek? 1).bind_same fun _ => (loses_peek? 1).bind_same fun _ =>
    (loses_peek? 2).bind_same fun _ => (loses_peek? 3).bind_same fun _ => ?_
  split
  · exact loses_function
  · refine (loses_peek? 2).bind_same fun _ => ?_
    split
    · exact loses_function
    · split
      · exact loses_globals
      · exact loses_next.bind fun _ => loses_fail _

/-- A program that is parsed without places is the program without them. -/
theorem loses_program : Loses Program.unplaced program program :=
  loses_left.bind_same fun n => (loses_repeatWhile loses_topLevel _ n).bind fun _ =>
    loses_pure rfl

end Parser

/-- What parsing makes of tokens, without places. -/
def Parsed.unplaced (p : Parsed) : Parsed :=
  ⟨p.constructs.map Construct.unplaced,
    match p.result with
    | .ok tree => .ok tree.unplaced
    | .error e => .error e.unplaced⟩

/-- **Parsing tokens whose places are gone.** It makes what parsing makes of the tokens, without
places. Where the text starts is one of the places. -/
theorem parse_unplaced (start : Span) (tokens : List (Located Token)) :
    parse .anywhere (tokens.map Located.unplaced) = (parse start tokens).unplaced := by
  have hstart : (⟨.ofList (tokens.map Located.unplaced), .anywhere, #[]⟩ : Parser.State)
      = Parser.State.unplaced ⟨.ofList tokens, start, #[]⟩ := by
    rw [Parser.State.unplaced, Array.map_empty]
    rfl
  have hrun := Parser.loses_program ⟨.ofList tokens, start, #[]⟩
  rw [← hstart] at hrun
  rw [parse, parse, hrun]
  rcases Parser.program.run.run ⟨.ofList tokens, start, #[]⟩ with ⟨_ | _, s⟩ <;> rfl

end OnePass
