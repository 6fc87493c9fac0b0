import OnePass.Proofs.PairedConstructs
import OnePass.Proofs.ExpressionRuns
import OnePass.Proofs.NodeGeneration

/-!
# The legacy form is refused for the same faults

In the legacy form the right side of a compound subtraction or division is compiled a second time.
What was accepted the first time is accepted the second time, as whether an expression is accepted
depends on the names alone.

Main statement: a source is accepted in both forms, or refused with the same report in both
(`compile_alike`).
-/

namespace OnePass

/-! ## Compounds -/

namespace Pairing

/-- Of streams nothing is compared. -/
def loose : Pairing where
  label _ _ := True
  draft _ _ := True
  empty := trivial
  emit _ _ := trivial
  addLabel _ := trivial
  newest _ := trivial
  mark _ _ := trivial

end Pairing

namespace Pairing

/-- A right side that has been compiled once is compiled again. -/
theorem compiled_again {t : Target} {value : Expr} {g₁ g₁' g₂ : Generator}
    (h : Gen.Makes (value.operand t).compileInt g₁ ⟨⟩ g₁') (hscopes : g₂.scopes = g₁.scopes)
    (hfunctions : g₂.functions = g₁.functions) :
    ∃ type d, Gen.Makes (value.operand t).compile g₂ type (g₂.onDraft t fun _ => d) := by
  have hdecided : value.Decided (g₁.names t) := value.decided
  have hfirst := hdecided.compile g₁ (g₁.names_fits t)
  have hsecond := hdecided.compile g₂ ⟨hscopes, hfunctions⟩
  rw [show (value.operand (g₁.names t).target).compile.run g₁ = _ from
    Operand.makes_compileAs h] at hfirst
  rw [show (g₁.names t).target = t from rfl] at hsecond
  split at hsecond
  · rename_i type g₂' hm
    obtain ⟨d, rfl, -⟩ := (value.operand_extends t).compile _ _ _ hm
    exact ⟨type, d, hm⟩
  · exact absurd hfirst.1 (hsecond _)

/-- Every compound is accepted in both forms or in none. -/
theorem loose_allows (index : Option Expr) (value : Expr) : loose.Allows index value := by
  intro t v instruction hindex hvalue g g' hg
  have hstays {α : Type} {m : Gen α} {a : α} {g g' : Generator} (h : Gen.Extends t m)
      (hm : Gen.Makes m g a g') : g'.scopes = g.scopes ∧ g'.functions = g.functions := by
    obtain ⟨d, rfl, -⟩ := h g a g' hm
    exact ⟨by simp, by simp⟩
  have hpresent : Gen.Extends t (Rules.presentValue t v
      (index.map fun i => (i.operand t).compileInt)) := by
    refine Rules.extends_presentValue fun _ hi => ?_
    obtain ⟨i, -, rfl⟩ := Option.mem_map.mp hi
    exact (i.operand_extends t).compileAs _
  -- the first evaluation of the right side
  refine (hvalue.compileAs (.scalar .int) g g' hg).bind fun _ _ g₁ g₁' _ hm' _ hg₁ => ?_
  obtain ⟨hscopes₁, hfunctions₁⟩ := hstays ((value.operand_extends t).compileAs _) hm'
  rw [Gen.run_get_bind, Gen.run_get_bind, hg₁.plain, hg₁.legacy]
  have hpop : (Gen.emit t .pop).run g₁' = .ok (⟨⟩, g₁'.onDraft t fun d => d.emit .pop) :=
    Gen.makes_emit.mpr rfl
  rw [if_neg Bool.false_ne_true, if_pos rfl, Gen.run_bind _ _ g₁', hpop]
  -- the present value
  have hpopped : loose.Paired g₁ (g₁'.onDraft t fun d => d.emit .pop) := hg₁.longer t trivial
  refine (Rules.agrees_presentValue (by simpa using hindex) g₁ _ hpopped).bind
    fun _ _ g₂ g₂' _ hp' _ hg₂ => ?_
  obtain ⟨hscopes₂, hfunctions₂⟩ := hstays hpresent hp'
  -- the second one
  obtain ⟨type, d, hagain⟩ := compiled_again hm'
    (hscopes₂.trans ((g₁'.onDraft_scopes t _).trans hscopes₁))
    (hfunctions₂.trans ((g₁'.onDraft_functions t _).trans hfunctions₁))
  have hswap : (do Gen.emit t .swap; Gen.emit t (.binary instruction) : Gen Unit).run g₂ =
      .ok (⟨⟩, g₂.onDraft t fun d => (d.emit .swap).emit (.binary instruction)) := by
    cases t <;> rfl
  have hemit : (Gen.emit t (.binary instruction)).run (g₂'.onDraft t fun _ => d) =
      .ok (⟨⟩, g₂'.onDraft t fun _ => d.emit (.binary instruction)) := by
    cases t <;> rfl
  rw [hswap, Gen.run_bind, hagain]
  dsimp only
  rw [hemit]
  have hend : loose.Paired (g₂.onDraft t fun d => (d.emit .swap).emit (.binary instruction))
      (g₂'.onDraft t fun _ => d.emit (.binary instruction)) := hg₂.onDraft t trivial
  exact ⟨rfl, hend⟩

end Pairing

/-! ## Whole sources -/

section

variable {P : Pairing}

/-- Generation for constructs comes out alike in both forms. -/
theorem generate_alike (cs : List Construct)
    (h : ∀ x ∈ cs.flatMap Construct.compounds, P.Allows x.1 x.2) :
    Alike P.Paired (generate false cs) (generate true cs) := by
  have hrun := Construct.agrees_forM h _ _ paired_new
  unfold generate Gen.state
  rcases hplain : (cs.forM Construct.compile).run (.new false) with e | ⟨u, g⟩ <;>
    rcases hlegacy : (cs.forM Construct.compile).run (.new true) with e' | ⟨u', g'⟩ <;>
    rw [hplain, hlegacy] at hrun
  · exact hrun
  · exact hrun.elim
  · exact hrun.elim
  · exact hrun.2

end

/-- Tokens come out alike in both forms. -/
theorem compileTokens_alike (tokens : List (Located Token)) :
    Alike (fun c c' => c'.tree = c.tree) (compileTokens false tokens)
      (compileTokens true tokens) := by
  have halike := generate_alike (parse Reader.start tokens).constructs.toList
    fun x _ => Pairing.loose_allows x.1 x.2
  rw [compileTokens, compileTokens, compileTokensFrom_eq, compileTokensFrom_eq]
  generalize (parse Reader.start tokens).constructs.toList = cs at halike ⊢
  rcases hplain : generate false
    cs with e | g <;> rcases hlegacy : generate true cs with e' | g' <;>
    rw [hplain, hlegacy] at halike
  · exact congrArg CompileError.semantic halike
  · exact halike.elim
  · exact halike.elim
  · rcases (parse Reader.start tokens).result with e | tree
    · exact rfl
    · exact rfl

/-- **A source is accepted in both forms or refused with the same report in both.** -/
theorem compile_alike (name : String) (source : List UInt8) :
    Alike (fun c c' => c'.tree = c.tree) (compile name false source)
      (compile name true source) := by
  unfold compile
  rcases tokenize (readings source) with es | tokens
  · exact rfl
  · have halike := compileTokens_alike tokens
    dsimp only
    rcases hplain : compileTokens false tokens with e | c <;>
      rcases hlegacy : compileTokens true tokens with e' | c' <;> rw [hplain, hlegacy] at halike
    · obtain rfl : e' = e := halike
      exact rfl
    · exact halike.elim
    · exact halike.elim
    · exact halike

end OnePass
