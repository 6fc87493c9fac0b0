import OnePass.Proofs.NodeGeneration
import OnePass.Proofs.Refusals

/-!
# The generator finds the nodes it needs

Code is generated from nodes of the labelled tree, as soon as they are complete; for the condition
of a loop, and for the end and the step of a counting loop, from a node that was complete long
before. Main statement: whether tokens are a program or not, no node is handed over that lacks a
child or a token that its rule needs, and where a return is handed over there is a function to
return from; so no compilation is refused as malformed (`compileTokens_wellFormed`).

That is so at whatever construct the tokens break off. The nodes of a construct show what it is, so
the induction is on the constructs that have been recognised, which are in order.
-/

namespace OnePass

variable {legacy : Bool}

/-- A function is current behind its beginning, and behind all that follows it. -/
theorem Gen.current_of_makes {cs : List Construct} {h : Header} {g g' : Generator} {u : Unit}
    (hmakes : Gen.Makes (cs.forM Construct.compile) g u g') (hmem : .header h ∈ cs) :
    g'.current.isSome := by
  induction cs generalizing g with
  | nil => cases hmem
  | cons c cs ih =>
    obtain ⟨_, g₁, h₁, h₂⟩ := Gen.makes_bind.mp hmakes
    rcases List.mem_cons.mp hmem with rfl | hmem
    · obtain ⟨_, _, -, -, -, rfl⟩ := Gen.makes_beginFunction h₁
      exact (Gen.makes_constructs_later h₂).current rfl
    · exact ih h₂ hmem

/-- A return that follows constructs that have been compiled is one from the current function. -/
theorem Construct.Follows.current {cs : List Construct} {word : Span} {value : Option Expr}
    {g g' : Generator} {u : Unit} (h : (Construct.ret word value).Follows cs)
    (hmakes : Gen.Makes (cs.forM Construct.compile) g u g') : g'.current.isSome :=
  h.elim fun _ hheader => Gen.current_of_makes hmakes hheader

/-- Constructs in order are not refused as malformed. -/
theorem proper_run {cs : List Construct} (horder : Orderly cs) {e : Located SemanticError}
    (he : (cs.forM Construct.compile).run (.new legacy) = .error e) (rule : Rule) :
    e.value ≠ .malformed rule := by
  induction cs using List.reverseRecOn with
  | nil => cases he
  | append_singleton cs c ih =>
    have hconcat : (cs ++ [c]).forM Construct.compile =
        cs.forM Construct.compile >>= fun _ => c.compile >>= fun _ => pure ⟨⟩ := List.forM_append
    rw [hconcat, Gen.run_bind] at he
    rcases hmakes : (cs.forM Construct.compile).run (.new legacy) with e' | ⟨u, g⟩ <;>
      rw [hmakes] at he
    · cases he
      exact ih horder.of_append hmakes
    · have hret : c.isRet → g.current.isSome := by
        cases c with
        | ret word value => exact fun _ => (horder cs _ [] rfl).current hmakes
        | _ => exact nofun
      dsimp only at he
      rw [Gen.run_bind] at he
      rcases hrun : c.compile.run g with e' | ⟨_, g'⟩ <;> rw [hrun] at he
      · cases he
        exact Construct.proper_compile hret hrun rule
      · cases he

theorem proper_generate {cs : List Construct} (horder : Orderly cs) {e : Located SemanticError}
    (he : generate legacy cs = .error e) (rule : Rule) : e.value ≠ .malformed rule := by
  unfold generate Gen.state at he
  split at he
  · cases he
  · rename_i e' hrun
    cases he
    exact proper_run horder hrun rule

/-- The generator gets to a construct: code is generated from the nodes of all before it. -/
def Reaches (legacy : Bool) (tokens : List (Located Token)) (c : Construct) (g : Generator) :
    Prop :=
  ∃ before after, (parse Reader.start tokens).constructs.toList = before ++ c :: after ∧
    generateFrom Reader.start legacy before = .ok g

/-- Where the generator gets, what has been recognised before is compiled. -/
theorem Reaches.makes {tokens : List (Located Token)} {c : Construct} {g : Generator}
    (h : Reaches legacy tokens c g) :
    ∃ before u, c.Follows before ∧ Gen.Makes (before.forM Construct.compile) (.new legacy) u g := by
  obtain ⟨before, after, hcs, hg⟩ := h
  have horder := orderly_parse Reader.start tokens
  have hfollows := horder before c after hcs
  rw [hcs] at horder
  rw [generateFrom_eq horder.of_append] at hg
  exact ⟨before, ⟨⟩, hfollows, makes_of_generate hg⟩

/-- **The generator finds the nodes it needs.** Whether tokens are a program or not, they are not
refused because a node has not the form of its rule. At whatever construct the generator gets to,
its nodes say what the construct is; and if it is a return, it is one from the current function. -/
theorem compileTokens_wellFormed (legacy : Bool) (tokens : List (Located Token)) :
    (∀ rule span, compileTokens legacy tokens ≠ .error (.semantic ⟨.malformed rule, span⟩)) ∧
      (∀ c g, Reaches legacy tokens c g → c.handle Reader.start = c.compile) ∧
      ∀ word value g, Reaches legacy tokens (.ret word value) g → g.current.isSome := by
  refine ⟨fun rule span hmalformed => ?_, fun c g hreaches => ?_, fun word value g hreaches => ?_⟩
  · rw [compileTokens, compileTokensFrom_eq] at hmalformed
    split at hmalformed
    · rename_i e hgenerate
      cases hmalformed
      exact proper_generate (orderly_parse Reader.start tokens) hgenerate rule rfl
    · cases hmalformed
    · cases hmalformed
  · obtain ⟨before, _, hfollows, hmakes⟩ := hreaches.makes
    exact Construct.handle_eq (hfollows.formed hmakes)
  · obtain ⟨before, _, hfollows, hmakes⟩ := hreaches.makes
    exact hfollows.current hmakes

end OnePass
