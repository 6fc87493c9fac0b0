import OnePass.Proofs.RecognitionOrder

/-!
# Generation from nodes

Code is generated from the nodes of constructs. Main statement: what is generated from the nodes of
all that has been recognised is what is generated for the constructs themselves, and if there is an
error it is the same (`generateFrom_eq`); so a compilation can be told without nodes
(`compileTokensFrom_eq`).

The induction is on the constructs that have been recognised, which are in order. If generation has
got to the end of a counting loop, its beginning had a bound.
-/

namespace OnePass

variable {origin : Span}

/-- A counting loop that has begun has an end. -/
theorem Gen.bound_of_makes {counter : Name} {r : Range} {g g' : Generator} {u : Unit}
    (h : Gen.Makes (Construct.openCount counter r).compile g u g') : r.bound.isSome := by
  cases hbound : r.bound with
  | none =>
    rw [Construct.compile, Gen.openCount, hbound] at h
    cases h
  | some b => rfl

/-- All counting loops that have begun have an end. -/
theorem Gen.bounds_of_makes {cs : List Construct} {counter : Name} {r : Range} {g g' : Generator}
    {u : Unit} (h : Gen.Makes (cs.forM Construct.compile) g u g')
    (hmem : .openCount counter r ∈ cs) : r.bound.isSome := by
  induction cs generalizing g with
  | nil => cases hmem
  | cons c cs ih =>
    obtain ⟨_, g₁, h₁, h₂⟩ := Gen.makes_bind.mp h
    rcases List.mem_cons.mp hmem with rfl | hmem
    · exact Gen.bound_of_makes h₁
    · exact ih h₂ hmem

/-- What follows constructs that have been compiled is as it has to be. -/
theorem Construct.Follows.formed {cs : List Construct} {c : Construct} {g g' : Generator} {u : Unit}
    (h : c.Follows cs) (hmakes : Gen.Makes (cs.forM Construct.compile) g u g') : c.Formed := by
  cases c with
  | globals d => exact h
  | locals d => exact h
  | closeCount r => exact h.elim fun _ hopen => Gen.bounds_of_makes hmakes hopen
  | _ => trivial

/-- What is generated from the nodes of constructs in order is what is generated for the
constructs. -/
theorem run_handle_eq {cs : List Construct} (h : Orderly cs) (g : Generator) :
    (cs.forM (Construct.handle origin)).run g = (cs.forM Construct.compile).run g := by
  induction cs using List.reverseRecOn with
  | nil => rfl
  | append_singleton cs c ih =>
    have hbefore := ih h.of_append
    have hconcat (f : Construct → Gen Unit) :
        (cs ++ [c]).forM f = cs.forM f >>= fun _ => f c >>= fun _ => pure ⟨⟩ := List.forM_append
    rw [hconcat, hconcat, Gen.run_bind, Gen.run_bind, hbefore]
    rcases hmakes : (cs.forM Construct.compile).run g with e | ⟨u, g'⟩
    · rfl
    · dsimp only
      rw [Construct.handle_eq ((h cs c [] rfl).formed hmakes)]

/-- **Generation from nodes** is generation for what they come of. -/
theorem generateFrom_eq {cs : List Construct} (h : Orderly cs) (legacy : Bool) :
    generateFrom origin legacy cs = generate legacy cs := by
  rw [generateFrom, generate, Gen.state, Gen.state, run_handle_eq h]

/-- What is generated by a run of generation. -/
theorem makes_of_generate {legacy : Bool} {cs : List Construct} {g : Generator}
    (h : generate legacy cs = .ok g) : Gen.Makes (cs.forM Construct.compile)
    (.new legacy) ⟨⟩ g := by
  unfold generate Gen.state at h
  split at h
  · rename_i u g₀ hrun
    obtain rfl := Except.ok.inj h
    exact hrun
  · cases h

/-- A compilation of tokens, in terms of the constructs that have been recognised in them. -/
theorem compileTokensFrom_eq (start : Span) (legacy : Bool) (tokens : List (Located Token)) :
    compileTokensFrom start legacy tokens =
      match generate legacy (parse start tokens).constructs.toList, (parse start tokens).result with
      | .error e, _ => .error (.semantic e)
      | .ok _, .error e => .error (.syntactic e)
      | .ok g, .ok tree => .ok ⟨tree, g.finish⟩ := by
  have hgenerate : generateFrom start legacy (parse start tokens).constructs.toList =
      generate legacy (parse start tokens).constructs.toList :=
    generateFrom_eq (orderly_parse start tokens) legacy
  rw [← hgenerate]
  rfl

/-- What tokens are compiled to comes from what they are parsed as. -/
theorem compileTokens_eq_ok {legacy : Bool} {tokens : List (Located Token)} {c : Compilation}
    (h : compileTokens legacy tokens = .ok c) :
    (parse Reader.start tokens).result = .ok c.tree ∧
      ∃ g, generate legacy c.tree.constructs = .ok g ∧ c.image = g.finish := by
  rw [compileTokens, compileTokensFrom_eq] at h
  split at h
  · cases h
  · cases h
  · rename_i g tree hgenerate htree
    obtain rfl := Except.ok.inj h
    exact ⟨htree, g, parse_constructs htree ▸ hgenerate, rfl⟩

/-- What a successful compilation went through: all constructs of its tree, and then the
end. -/
theorem compile_ok {name : String} {legacy : Bool} {source : List UInt8} {c : Compilation}
    (h : compile name legacy source = .ok c) :
    ∃ g, generate legacy c.tree.constructs = .ok g ∧ c.image = g.finish := by
  obtain ⟨tokens, -, hc⟩ := compile_eq_ok h
  exact (compileTokens_eq_ok hc).2

end OnePass
