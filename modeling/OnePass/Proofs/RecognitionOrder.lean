import OnePass.Proofs.NodeShapes
import OnePass.Proofs.ParserSoundness

/-!
# The order of constructs

A program that breaks off with a fault has been recognised up to there, and code has been generated
for all of that. Main statement: whether tokens are a program or not, what parsing has recognised of
them is `Orderly` (`orderly_parse`): a return stands behind the beginning of a function, the end of
a counting loop behind its beginning, and what initialises a variable is no assignment.

A parser `Keeps` order if that is so of what has been recognised when it ends, in whatever way it
ends. Of what has been recognised before, some constructs are `known`.
-/

namespace OnePass

/-- A construct may be recognised behind these. -/
def Construct.Follows (cs : List Construct) : Construct → Prop
  | .globals d => d.static = none ∧ d.Plain
  | .locals d => d.Plain
  | .ret _ _ => ∃ h, .header h ∈ cs
  | .closeCount r => ∃ counter, .openCount counter r ∈ cs
  | _ => True

/-- Each of these constructs may be recognised behind those before it. -/
def Orderly (cs : List Construct) : Prop :=
  ∀ pre c post, cs = pre ++ c :: post → c.Follows pre

theorem orderly_nil : Orderly [] := fun _ _ _ h => absurd h (by simp)

theorem Orderly.concat {cs : List Construct} {c : Construct} (h : Orderly cs) (hc : c.Follows cs) :
    Orderly (cs ++ [c]) := by
  intro pre d post heq
  cases post using List.reverseRecOn with
  | nil =>
    obtain ⟨rfl, hd⟩ := List.append_inj' heq rfl
    rwa [← (List.cons.inj hd).1]
  | append_singleton post e =>
    rw [← List.cons_append, ← List.append_assoc] at heq
    exact h pre d post (List.append_inj' heq rfl).1

/-- What constructs in order begin with is in order. -/
theorem Orderly.of_append {cs ds : List Construct} (h : Orderly (cs ++ ds)) : Orderly cs :=
  fun pre c post heq => h pre c (post ++ ds) (by rw [heq]; simp)

/-! ## Initialisers -/

/-- An expression that may stand at a level has that level or a tighter one. -/
theorem Phrase.Derives.rank_le {p : Phrase} {ts r : Tokens} (h : p.Derives ts r) {level : Level}
    {e : Expr} (hp : p = .expr level e) : level.rank ≤ e.level.rank := by
  induction h generalizing level e with
  | logic hop => cases hp; exact hop ▸ le_rfl
  | arith hop => cases hp; exact hop ▸ le_rfl
  | @tighter l _ _ _ _ _ ih =>
    cases hp
    exact le_trans (by cases l <;> decide) (ih rfl)
  | _ => cases hp <;> exact le_rfl

/-- What the grammar has as the declaration of variables initialises them with no assignment. -/
theorem Declaration.plain_of_derives {d : Declaration} {ts r : Tokens} (h : d.Derives ts r) :
    d.Plain := by
  have hitem : ∀ {item : Declarator} {ts r}, item.Derives ts r → item.Plain := by
    rintro item ts r ⟨-, hinit⟩ e he hlevel
    have hsimple : ∃ ts r, e.Simple ts r := by
      cases hinit with
      | none => cases he
      | colon h | equals h => cases he; exact ⟨_, _, h⟩
    obtain ⟨_, _, hsimple⟩ := hsimple
    have hrank := Phrase.Derives.rank_le hsimple rfl
    rw [hlevel] at hrank
    exact absurd hrank (by decide)
  have hitems : ∀ {items ts r}, Separated .comma Declarator.Derives items ts r →
      ∀ item ∈ items, item.Plain := by
    intro items ts r h
    induction h with
    | one h => simpa using hitem h
    | more h _ ih => exact List.forall_mem_cons.mpr ⟨hitem h, ih⟩
  cases h with
  | plain h => exact hitems h
  | static h => exact hitems h

namespace Parser

variable {α β : Type} {known known' known'' : List Construct}

/-- What has been recognised is in order, and the constructs `known` are among it. -/
structure Found (known cs : List Construct) : Prop where
  orderly : Orderly cs
  known : known ⊆ cs

/-- Where `known` are among the constructs recognised, `p` leaves them in order, and where it
succeeds `known'` are among them. -/
def Keeps (known : List Construct) (p : Parse α) (known' : List Construct) : Prop :=
  ∀ s, Found known s.found.toList →
    match p.run.run s with
    | (.ok _, s') => Found known' s'.found.toList
    | (.error _, s') => Orderly s'.found.toList

/-! ## Rules for `Keeps` -/

theorem Silent.keeps {p : Parse α} (hp : Silent p) : Keeps known p known := by
  intro s hs
  have hfound := hp s
  split <;> rename_i hrun <;> rw [hrun] at hfound <;> rw [show _ = s.found from hfound]
  · exact hs
  · exact hs.orderly

theorem keeps_pure (a : α) : Keeps known (pure a : Parse α) known := (silent_pure a).keeps

/-- What a parser makes is known to be so where the next one begins. -/
theorem Keeps.bindOf {p : Parse α} {f : α → Parse β} (hp : Keeps known p known')
    (hf : ∀ a s s', Succeeds p s a s' → Keeps known' (f a) known'') :
    Keeps known (p >>= f) known'' := by
  intro s hs
  have hfirst := hp s hs
  rw [run_bind]
  rcases hrun : p.run.run s with ⟨e | a, s'⟩ <;> rw [hrun] at hfirst
  · exact hfirst
  · exact hf a s s' hrun s' hfirst

theorem Keeps.bind {p : Parse α} {f : α → Parse β} (hp : Keeps known p known')
    (hf : ∀ a, Keeps known' (f a) known'') : Keeps known (p >>= f) known'' :=
  hp.bindOf fun a _ _ _ => hf a

theorem Keeps.weaken {p : Parse α} (hp : Keeps known p known') (h : known'' ⊆ known') :
    Keeps known p known'' := by
  intro s hs
  have hrun := hp s hs
  split at hrun
  · exact ⟨hrun.orderly, fun _ hc => hrun.known (h hc)⟩
  · exact hrun

/-- A construct that may come behind those that are known may be recorded, and is known then. -/
theorem keeps_record {c : Construct} (hc : ∀ cs, known ⊆ cs → c.Follows cs) :
    Keeps known (record c) (c :: known) := by
  intro s hs
  have hfound : (s.found.push c).toList = s.found.toList ++ [c] := Array.toList_push
  refine ⟨?_, ?_⟩
  · change Orderly (s.found.push c).toList
    rw [hfound]
    exact hs.orderly.concat (hc _ hs.known)
  · change _ ⊆ (s.found.push c).toList
    rw [hfound]
    exact List.cons_subset.mpr ⟨by simp, fun d hd => List.mem_append_left _ (hs.known hd)⟩

/-- What is recorded need not be known behind it. -/
theorem Keeps.recordThen {c : Construct} {f : Unit → Parse β}
    (hc : ∀ cs, known ⊆ cs → c.Follows cs) (hf : Keeps known (f ⟨⟩) known') :
    Keeps known (record c >>= f) known' :=
  ((keeps_record hc).weaken (List.subset_cons_self _ _)).bind fun _ => hf

theorem keeps_separatedBy {p : Parse α} (hp : Keeps known p known) (t : Token) (n : Nat) :
    Keeps known (separatedBy t p n) known := by
  induction n with
  | zero => exact hp.bind fun _ => keeps_pure _
  | succ n ih =>
    refine hp.bind fun _ => (silent_accept t).keeps.bind fun _ => ?_
    split
    · exact ih.bind fun _ => keeps_pure _
    · exact keeps_pure _

theorem keeps_repeatWhile {p : Parse α} (hp : Keeps known p known) (goOn : Option Token → Bool)
    (n : Nat) : Keeps known (repeatWhile goOn p n) known := by
  induction n with
  | zero => exact keeps_pure _
  | succ n ih =>
    refine (silent_peek? 1).keeps.bind fun _ => ?_
    split
    · exact hp.bind fun _ => ih.bind fun _ => keeps_pure _
    · exact keeps_pure _

/-! ## Declarations -/

theorem keeps_localDeclaration : Keeps known localDeclaration known := by
  have hrest (static : Option Span) : Keeps known (do
      let d ← declaration static
      record (.locals d)
      return d) known := by
    refine (silent_declaration static).keeps.bindOf fun d s s' hs => ?_
    have hplain := Declaration.plain_of_derives (takes_declaration static _ _ _ hs).2
    exact .recordThen (fun _ _ => hplain) (keeps_pure d)
  refine (silent_peek? 1).keeps.bind fun _ => ?_
  dsimp only
  split
  · exact Keeps.bind (silent_next.map _).keeps hrest
  · exact hrest none

theorem keeps_globals : Keeps known globals known := by
  refine (silent_declaration none).keeps.bindOf fun d s s' hs => ?_
  obtain ⟨hstatic, hderives⟩ := takes_declaration none _ _ _ hs
  have hplain := Declaration.plain_of_derives hderives
  exact .recordThen (fun _ _ => ⟨hstatic, hplain⟩) (keeps_pure _)

theorem keeps_parameterGroup : Keeps known parameterGroup known :=
  silent_type.keeps.bind fun _ => silent_left.keeps.bind fun n =>
    (silent_separatedBy silent_parameter _ n).keeps.bind fun _ =>
      .recordThen (fun _ _ => trivial) (keeps_pure _)

theorem keeps_parameters : Keeps known parameters known := by
  refine (silent_peek? 1).keeps.bind fun _ => ?_
  split
  · exact keeps_pure _
  · exact silent_left.keeps.bind fun n => keeps_separatedBy keeps_parameterGroup _ n

/-! ## Statements -/

/-- A function has begun. -/
def InFunction (known : List Construct) : Prop := ∃ h, Construct.header h ∈ known

section

variable {p : Parse Stmt} (hp : ∀ known, InFunction known → Keeps known p known)
  (hin : InFunction known)
include hp hin

theorem keeps_block : Keeps known (block p) known :=
  (silent_expect _).keeps.bind fun _ => .recordThen (fun _ _ => trivial) <|
    silent_left.keeps.bind fun n =>
      (keeps_repeatWhile keeps_localDeclaration _ n).bind fun _ => silent_left.keeps.bind fun m =>
        (keeps_repeatWhile (hp _ hin) _ m).bind fun _ => (silent_expect _).keeps.bind fun _ =>
          .recordThen (fun _ _ => trivial) (keeps_pure _)

theorem keeps_choice : Keeps known (choice p) known := by
  refine (silent_expect _).keeps.bind fun _ => silent_simpleExpr.keeps.bind fun _ =>
    .recordThen (fun _ _ => trivial) <| (silent_expect _).keeps.bind fun _ =>
      (hp _ hin).bind fun _ => (silent_accept _).keeps.bind fun _ => ?_
  split
  · exact .recordThen (fun _ _ => trivial) <| (hp _ hin).bind fun _ =>
      .recordThen (fun _ _ => trivial) (keeps_pure _)
  · exact .recordThen (fun _ _ => trivial) (keeps_pure _)

theorem keeps_loop : Keeps known (loop p) known :=
  (silent_expect _).keeps.bind fun _ => silent_simpleExpr.keeps.bind fun _ =>
    (silent_expect _).keeps.bind fun _ => .recordThen (fun _ _ => trivial) <|
      (hp _ hin).bind fun _ => .recordThen (fun _ _ => trivial) (keeps_pure _)

/-- The body keeps that the loop has begun. -/
theorem keeps_count : Keeps known (count p) known := by
  refine (silent_expect _).keeps.bind fun _ => silent_name.keeps.bind fun counter =>
    (silent_expect _).keeps.bind fun _ => silent_range.keeps.bind fun r =>
      (silent_expect _).keeps.bind fun _ => ?_
  have hbegun : InFunction (.openCount counter r :: known) := hin.imp fun _ => .tail _
  exact Keeps.bind (keeps_record fun _ _ => trivial) fun _ => (hp _ hbegun).bind fun _ =>
    .recordThen (fun _ hcs => ⟨counter, hcs (.head _)⟩)
      ((keeps_pure _).weaken (List.subset_cons_self _ _))

omit hp in
theorem keeps_ret : Keeps known ret known := by
  have hrest (word : Span) (value : Option Expr) : Keeps known (do
      let _ ← expect .semicolon
      record (.ret word value)
      return Stmt.ret word value) known := by
    exact (silent_expect _).keeps.bind fun _ =>
      .recordThen (fun _ hcs => hin.imp fun _ h => hcs h) (keeps_pure _)
  refine (silent_expect _).keeps.bind fun word => (silent_peek? 1).keeps.bind fun _ => ?_
  dsimp only
  split
  · exact hrest word none
  · exact Keeps.bind (silent_expr.map _).keeps (hrest word)

end

theorem keeps_leave : Keeps known leave known :=
  silent_next.keeps.bind fun _ => (silent_expect _).keeps.bind fun _ =>
    .recordThen (fun _ _ => trivial) (keeps_pure _)

theorem keeps_effect : Keeps known effect known :=
  silent_expr.keeps.bind fun _ => (silent_expect _).keeps.bind fun _ =>
    .recordThen (fun _ _ => trivial) (keeps_pure _)

/-- A statement in a function keeps order. -/
theorem keeps_statement (n : Nat) (hin : InFunction known) :
    Keeps known (statement n) known := by
  induction n generalizing known with
  | zero => exact (silent_fail _).keeps
  | succ n ih =>
    have hbody : ∀ known, InFunction known → Keeps known (statement n) known := fun _ => ih
    refine (silent_peek? 1).keeps.bind fun _ => ?_
    split
    · exact keeps_block hbody hin
    · exact keeps_choice hbody hin
    · exact keeps_loop hbody hin
    · exact keeps_count hbody hin
    · exact keeps_ret hin
    · exact keeps_leave
    · exact (silent_next.map _).keeps
    · exact keeps_effect

/-! ## Programs -/

theorem keeps_functionBehind (returns : Option (Located WordType)) :
    Keeps known (functionBehind returns) known := by
  refine silent_name.keeps.bind fun n => .recordThen (fun _ _ => trivial) <|
    (silent_expect _).keeps.bind fun _ => keeps_parameters.bind fun params =>
      (silent_expect _).keeps.bind fun _ => ?_
  exact Keeps.bind (keeps_record fun _ _ => trivial) fun _ => silent_left.keeps.bind fun k =>
    (keeps_statement _ ⟨_, .head _⟩).bind fun _ => .recordThen (fun _ _ => trivial)
      ((keeps_pure _).weaken (List.subset_cons_self _ _))

theorem keeps_function : Keeps known function known := by
  refine (silent_peek? 1).keeps.bind fun _ => ?_
  dsimp only
  split
  · exact Keeps.bind (silent_type.map _).keeps keeps_functionBehind
  · exact keeps_functionBehind none

theorem keeps_topLevel : Keeps known topLevel known := by
  refine (silent_peek? 1).keeps.bind fun _ => (silent_peek? 1).keeps.bind fun _ =>
    (silent_peek? 2).keeps.bind fun _ => (silent_peek? 3).keeps.bind fun _ => ?_
  split
  · exact keeps_function
  · refine (silent_peek? 2).keeps.bind fun _ => ?_
    split
    · exact keeps_function
    · split
      · exact keeps_globals
      · exact silent_next.keeps.bind fun _ => (silent_fail _).keeps

theorem keeps_program : Keeps known program known :=
  silent_left.keeps.bind fun n => (keeps_repeatWhile keeps_topLevel _ n).bind fun _ => keeps_pure _

end Parser

/-- **What is recognised is in order**, whether the tokens are a program or not. -/
theorem orderly_parse (start : Span) (tokens : List (Located Token)) :
    Orderly (parse start tokens).constructs.toList := by
  have hprogram := (Parser.keeps_program : Parser.Keeps [] _ []) ⟨.ofList tokens, start, #[]⟩
    ⟨orderly_nil, List.nil_subset _⟩
  have hfound : (parse start tokens).constructs =
      (Parser.program.run.run ⟨.ofList tokens, start, #[]⟩).2.found := rfl
  rw [hfound]
  split at hprogram <;> rename_i hrun <;> rw [hrun]
  · exact hprogram.orderly
  · exact hprogram

end OnePass
