import OnePass.Proofs.ProgramCode
import OnePass.Proofs.StatementRuns

/-!
# Statements of compiled functions do what they say

Main statement: in a compiled program, code for a statement that is entered with an empty stack does
what the statement says, wherever it stands in a function (`compile_executes`). Control leaves it
only at its end, at the end of the innermost loop around it, by a return or by a failure.

A function is finished when the next one begins, or at the end of the program; its code is not
changed any more then, and gets a return at its end.
-/

namespace OnePass

/-! ## Finished functions -/

/-- Finished code begins with the code so far, and the labels stay where they are. -/
theorem Draft.Addressable.continues {d : Draft} (h : d.Addressable) (is : List Instruction) :
    (d.emitAll is).toCode.Continues d := by
  refine ⟨h, ((Draft.Grows.refl d).emitAll is).instructions, fun l p hl => ?_⟩
  unfold Code.target? Draft.toCode
  rw [Array.getElem?_map, Draft.labels_emitAll, hl, Option.map_some, Option.map_some,
    Option.getD_some]

theorem getElem?_of_prefix {α : Type} {xs ys : Array α} {a : α} {i : Nat}
    (h : xs.toList <+: ys.toList) (hx : xs[i]? = some a) : ys[i]? = some a := by
  rw [← Array.getElem?_toList] at hx ⊢
  exact getElem?_mono h hx

/-- The routine that a function is finished as. -/
def Current.routine (f : Current) (d : Draft) : Routine :=
  ⟨f.name, f.params, f.returns, f.locals, (d.emitAll (implicitReturn f.returns)).toCode⟩

section

variable {g g' : Generator} {f : Current}

/-- Behind a function and other declarations it is current still, or finished. -/
theorem Program.current_or_finished {items : List TopLevel} (hi : g.scopes.isGlobal = true)
    (hf : g.current = some f)
    (h : Gen.Makes ((items.flatMap TopLevel.constructs).forM Construct.compile) g ⟨⟩ g') :
    (g'.current = some f ∧ g'.body = g.body ∧ g'.routines = g.routines) ∨
      g'.routines[g.routines.size]? = some (f.routine g.body) := by
  induction items generalizing g with
  | nil =>
    obtain rfl := Gen.makes_forM_nil.mp h
    exact .inl ⟨hf, rfl, rfl⟩
  | cons item items ih =>
    rw [List.flatMap_cons] at h
    obtain ⟨g₁, hfirst, hrest⟩ := Gen.makes_forM_append.mp h
    cases item with
    | «variables» d =>
      obtain ⟨hi₁, hc₁, hb₁, hr₁⟩ := Declaration.makes_global hi (Gen.makes_forM_one.mp hfirst)
      have hcases := ih hi₁ (hc₁.trans hf) hrest
      rwa [hb₁, hr₁] at hcases
    | function header body =>
      -- the header finishes the function before it
      right
      obtain ⟨g₂, hm, hclose⟩ := Gen.makes_forM_append.mp hfirst
      obtain ⟨g₃, hopen, hm⟩ := Gen.makes_forM_append.mp hm
      obtain ⟨g₄, hbegin, hbody⟩ := Gen.makes_forM_cons.mp hm
      obtain ⟨g₅, hscope, hparams⟩ := Gen.makes_forM_cons.mp hopen
      obtain rfl := Gen.makes_openScope.mp hscope
      obtain ⟨s, rfl, -⟩ := Gen.makes_parameterGroups (g := g.withScopes g.scopes.push) (k := 0) rfl
        rfl hparams
      obtain ⟨g₆, n, hfinish, -, -, hg₄⟩ := Gen.makes_beginFunction hbegin
      have hg₆ := Gen.makes_finishFunction (g := (g.withScopes g.scopes.push).withScopes s)
        hf hfinish
      have hfinished : g₄.routines[g.routines.size]? = some (f.routine g.body) := by
        rw [hg₄, hg₆]
        exact Array.getElem?_push_size
      have hlater : g₄.Later g' := ((Gen.makes_constructs_later hbody).trans
        (Gen.makes_constructs_later hclose)).trans (Gen.makes_constructs_later hrest)
      exact getElem?_of_prefix hlater.routines hfinished

/-- A function is in the image as it is finished. -/
theorem Program.routine_of_current {items : List TopLevel} (hi : g.scopes.isGlobal = true)
    (hf : g.current = some f)
    (h : Gen.Makes ((items.flatMap TopLevel.constructs).forM Construct.compile) g ⟨⟩ g') :
    g'.finish.routines[g.routines.size]? = some (f.routine g.body) := by
  obtain ⟨g₁, hlast, himage⟩ := makes_of_finish g'
  rw [himage]
  refine getElem?_of_prefix (Generator.routines_toImage _) ?_
  show g₁.routines[g.routines.size]? = _
  obtain ⟨hf', hb, hr⟩ | hfinished := Program.current_or_finished hi hf h
  · rw [Gen.makes_finishFunction hf' hlast, hb, hr]
    exact Array.getElem?_push_size
  · exact getElem?_of_prefix (Gen.routines_finishFunction hlast) hfinished

end

/-! ## The bodies of functions -/

/-- The constructs in front of the body of a function. -/
def Header.front (header : Header) (before : List TopLevel) : List Construct :=
  before.flatMap TopLevel.constructs ++
    (.openFunction :: header.params.map .parameters ++ [.header header])

section

variable {p : Program} {legacy : Bool} {g : Generator} {before after : List TopLevel}
  {header : Header} {body : Stmt}

/-- The body of a function is generated between `g₀` and `g₁`, and stands in the code of its
routine. Exits from a loop around it may lead anywhere, as there is none. -/
structure Program.FunctionStands (p : Program) (legacy : Bool) (image : Image)
    (before : List TopLevel) (header : Header) (body : Stmt) (f : Current) (g₀ g₁ : Generator) :
    Prop where
  routine : image.routines[(headersOf before).length]? = some (f.routine g₁.body)
  name : f.name = header.name.value
  params : f.params = header.parameterTypes
  front : Gen.Makes ((header.front before).forM Construct.compile) (.new legacy) ⟨⟩ g₀
  fair : (Scene.ofFunction p ∅ (before.flatMap TopLevel.kept).length header body).Fair
  stands : ∀ q, (Scene.ofFunction p ∅ (before.flatMap TopLevel.kept).length header body).Stands
    (f.routine g₁.body).code body.constructs body.kept body.locals g₀ g₁ 0 0 q

theorem Program.function_stands (hsize : p.Addressable)
    (hgenerate : generate legacy p.constructs = .ok g) (haddr : g.Addressable)
    (hp : p.items = before ++ .function header body :: after) :
    ∃ f g₀ g₁, p.FunctionStands legacy g.finish before header body f g₀ g₁ := by
  have hmakes := makes_of_generate hgenerate
  rw [Program.constructs, hp, List.flatMap_append, List.flatMap_cons] at hmakes
  obtain ⟨g_b, hbefore, hmakes⟩ := Gen.makes_forM_append.mp hmakes
  obtain ⟨g₂, hfunction, hafter⟩ := Gen.makes_forM_append.mp hmakes
  obtain ⟨g₁, hm, hclose⟩ := Gen.makes_forM_append.mp hfunction
  obtain ⟨g_h, hopen, hm⟩ := Gen.makes_forM_append.mp hm
  obtain ⟨g₀, hbegin, hbody⟩ := Gen.makes_forM_cons.mp hm
  have haddr₁ := ((Gen.makes_constructs_later hclose).trans
    (Gen.makes_constructs_later hafter)).addressable haddr
  have haddr_b := (((Gen.makes_constructs_later hopen).trans (Gen.steady_beginFunction _ _ _ _
    hbegin)).trans
    (Gen.makes_constructs_later hbody)).addressable haddr₁
  obtain rfl := Gen.makes_closeScope.mp (Gen.makes_forM_one.mp hclose)
  -- between the declarations in front of the function and the function
  obtain ⟨hbetween, hcompiled⟩ := between_of_makes hsize hp hbefore haddr_b ∅
  obtain ⟨hx, ho⟩ := Program.function_planned hp
  have hmem : .function header body ∈ p.items := hp ▸ List.mem_append_right _ (.head _)
  have hbegins := hbetween.beginFunction hsize hmem hcompiled ho hopen hbegin
  have hkept : StandsAt body.kept p.kept (before.flatMap TopLevel.kept).length :=
    Program.standsAt_kept hp
  have hfair := Scene.fair_ofFunction (X := ∅) hsize hmem hkept hx
  obtain ⟨hr, hs⟩ := Scene.typed_statement hfair body g₀ [] g₁ 0 0 List.prefix_rfl List.prefix_rfl
    hbegins.holds hbegins.body hbegins.exits hbody haddr₁
  obtain ⟨f, hf, hname, hparams, -, -⟩ := hr.holds.current
  have hglobal : (g₁.withScopes g₁.scopes.pop).scopes.isGlobal = true := by
    show g₁.scopes.pop.isGlobal = true
    rw [hs, hbegins.outer, hbetween.outer]
  have hroutine := Program.routine_of_current hglobal hf hafter
  have hnumber : (headersOf before).length = g₁.routines.size := by
    rw [hr.routines, ← hbegins.size, Program.length_outlinesFrom]
  refine ⟨f, g₀, g₁, hnumber ▸ hroutine, hname, hparams, ?_, hfair,
    fun q => ?_⟩
  · exact Gen.makes_forM_append.mpr ⟨g_b, hbefore, Gen.makes_forM_append.mpr ⟨g_h, hopen,
      Gen.makes_forM_one.mpr hbegin⟩⟩
  · exact ⟨List.prefix_rfl, List.prefix_rfl, hbegins.holds,
      ⟨[], hbegins.body, hbegins.exits⟩, hbody,
      haddr₁, haddr₁.body.continues _, fun k hk => by rw [hbegins.pending] at hk; cases hk⟩

/-! ## Statements -/

theorem Gen.Makes.unique {α : Type} {m : Gen α} {a a' : α} {g g₁ g₂ : Generator}
    (h : Gen.Makes m g a g₁) (h' : Gen.Makes m g a' g₂) : a = a' ∧ g₁ = g₂ :=
  Prod.mk.inj (Except.ok.inj (h.symm.trans h'))

/-- A piece of the code of a function, between two states of generation. -/
def Site.piece (c : Compilation) (r : Routine) (locals : List Slot) (g g' : Generator)
    (callers : List Frame) (fuel : Nat) : Site :=
  ⟨c, .function, g.scopes, g.functions, g.legacy, r.name, r.code, r.params, locals, callers,
    g.body.position, g'.body.position, fuel⟩

section

variable {name : String} {source : List UInt8} {c : Compilation} {s : Stmt} {cs : List Construct}
  {loop : Option (List Construct)} (h : compile name legacy source = .ok c)
  (hsource : source.length < UInt32.size) (haddr : c.image.Addressable)
  (hitems : c.tree.items = before ++ .function header body :: after) (hs : body.Part cs loop s)
include h hsource haddr hitems hs

/-- Where a statement of a function is in a compiled program, and where exits from the innermost
loop around it lead to. -/
theorem compile_stands :
    ∃ r g g' p, c.image.routines[(Program.headersOf before).length]? = some r ∧
      r.name = header.name.value ∧
      Gen.Makes ((header.front before ++ cs).forM Construct.compile) (.new legacy) ⟨⟩ g ∧
      Gen.Makes (s.constructs.forM Construct.compile) g ⟨⟩ g' ∧
      (∀ cs', loop = some cs' → ∃ gₓ, gₓ.body.position = p ∧
        Gen.Makes ((header.front before ++ cs').forM Construct.compile) (.new legacy) ⟨⟩ gₓ) ∧
      ∃ sc m n, sc.Fair ∧ (∀ callers fuel,
        (Site.piece c r body.locals g g' callers fuel).Hosts sc) ∧
        ∀ exit, (loop.isSome → exit = p) →
          sc.Stands r.code s.constructs s.kept s.locals g g' m n exit := by
  obtain ⟨gₑ, hgenerate, hfinish⟩ := compile_ok h
  have hsize := compile_addressable h hsource haddr
  obtain ⟨f, g₀, g₁, hf⟩ := Program.function_stands hsize.tree hgenerate
    (Program.addressable_of_finish hgenerate (hfinish ▸ haddr)) hitems
  rw [← hfinish] at hf
  obtain ⟨g, g', m, n, p, hcs, hpart, -, hloop⟩ := (hf.stands 0).part hf.fair hs
  refine ⟨_, g, g', p, hf.routine, hf.name, Gen.makes_forM_append.mpr ⟨g₀, hf.front, hcs⟩,
    hpart.makes, ?_, Scene.ofFunction c.tree ∅ (before.flatMap TopLevel.kept).length header body,
      m, n,
    hf.fair, fun callers fuel => ⟨compile_typed h hsize, rfl, hf.params, rfl⟩, ?_⟩
  · intro cs' hcs'
    obtain ⟨gₓ, hx, hp⟩ := hloop cs' hcs'
    exact ⟨gₓ, hp, Gen.makes_forM_append.mpr ⟨g₀, hf.front, hx⟩⟩
  · intro exit hexit
    refine ⟨hpart.kept, hpart.locals, hpart.holds, hpart.body, hpart.makes,
      hpart.addressable, hpart.begins, ?_⟩
    -- where there is no loop around the statement, an exit may lead anywhere
    obtain ⟨g₂, g₃, m', n', q, hcs', hpart', hnone, hloop'⟩ := (hf.stands exit).part hf.fair hs
    obtain rfl := (hcs.unique hcs').2
    obtain rfl : q = exit := by
      cases loop with
      | none => exact hnone rfl
      | some cs' =>
        obtain ⟨gₓ, hx, hp⟩ := hloop cs' rfl
        obtain ⟨gₓ', hx', hp'⟩ := hloop' cs' rfl
        obtain rfl := (hx.unique hx').2
        exact hp'.symm.trans (hp.trans (hexit rfl).symm)
    exact hpart'.exit

/-- **Compiled statements do what they say.** For every statement in a function of a compiled
program that 32 bits are enough for, code that is entered with an empty stack and slots as they
should be does what the statement does. It is left only at its end, at the end of the innermost loop
around it if the statement is left by an exit from that, by a return, or by a failure of the
evaluation. -/
theorem compile_executes :
    ∃ r g g' p, c.image.routines[(Program.headersOf before).length]? = some r ∧
      r.name = header.name.value ∧
      Gen.Makes ((header.front before ++ cs).forM Construct.compile) (.new legacy) ⟨⟩ g ∧
      Gen.Makes (s.constructs.forM Construct.compile) g ⟨⟩ g' ∧
      (∀ cs', loop = some cs' → ∃ gₓ, gₓ.body.position = p ∧
        Gen.Makes ((header.front before ++ cs').forM Construct.compile) (.new legacy) ⟨⟩ gₓ) ∧
      ∀ exit, (loop.isSome → exit = p) → ∀ callers fuel,
        (Site.piece c r body.locals g g' callers fuel).Executes g.body.position g'.body.position
          exit (s.execute ((Site.piece c r body.locals g g' callers fuel).surroundings g)) := by
  obtain ⟨r, g, g', p, hr, hname, hfront, hmakes, hloop, sc, m, n, hfair, hhosts, hstands⟩ :=
    compile_stands h hsource haddr hitems hs
  refine ⟨r, g, g', p, hr, hname, hfront, hmakes, hloop, fun exit hexit callers fuel => ?_⟩
  exact Site.simulates_statement (hhosts callers fuel) hfair s g g' m n exit (hstands exit hexit)
    ⟨rfl, rfl, rfl, Nat.le_refl _⟩ (Nat.le_refl _)

end

/-- What an evaluation returns from a function with, if it does. -/
def Eval.returned? (ev : Eval Completion) (m : Memory) : Option (Option Value) :=
  match ev.run.run m with
  | some (.ok (.returned v), _) => some v
  | _ => none

theorem Eval.returned?_eq_some {ev : Eval Completion} {m : Memory} {v : Option Value}
    (h : ev.returned? m = some v) : ∃ m', ev.run.run m = some (.ok (.returned v), m') := by
  unfold Eval.returned? at h
  split at h
  · rename_i hrun
    obtain rfl := Option.some.inj h
    exact ⟨_, hrun⟩
  · cases h

/-- The only function of a program, and the state of generation in front of its body. -/
def Compilation.sole? (c : Compilation) : Option (Header × Stmt × Generator) :=
  match c.tree.items with
  | [.function header body] =>
    match ((header.front []).forM Construct.compile).run (.new false) with
    | .ok (_, g) => some (header, body, g)
    | .error _ => none
  | _ => none

theorem Compilation.sole?_eq_some {c : Compilation} {x : Header × Stmt × Generator}
    (h : c.sole? = some x) : c.tree.items = [.function x.1 x.2.1] ∧
      Gen.Makes ((x.1.front []).forM Construct.compile) (.new false) ⟨⟩ x.2.2 := by
  unfold Compilation.sole? at h
  split at h
  · rename_i hitems
    split at h
    · rename_i hmakes
      obtain rfl := Option.some.inj h
      exact ⟨hitems, hmakes⟩
    · cases h
  · cases h

/-- A counting loop that is left early. -/
theorem compile_executes_sum :
    ∃ c, compile "" false ("int main() \x7b int s; for i = 1 to 9 by 2 do \x7b " ++
        "if i > 5 then break; s = s + i; \x7d return s; \x7d").toUTF8.toList = .ok c ∧
      ∃ r n st, c.image.routines[0]? = some r ∧
        Calls.advance c.image 0 n (.active ⟨⟨"main", r.code, 0, #[], #[.zero, .zero], []⟩, [],
          .trial c.image []⟩) = .done (.ok (some (.word 9))) st := by
  -- One evaluation in the kernel gives the image, the state in front of the body, and what the body
  -- returns by evaluation.
  obtain ⟨c, hc, haddr, hq⟩ := exists_compilation (q := fun c =>
      c.image.routines[0]?.map Routine.params = some [] ∧ c.sole?.any fun x =>
        x.1.name.value = "main" ∧ x.2.1.locals = [.scalar .int, .scalar .int] ∧
        x.2.2.body.position = 0 ∧
        (x.2.1.execute ((Site.piece c emptyEntry [] x.2.2 x.2.2 [] 4).surroundings x.2.2)).returned?
          ⟨#[], #[.zero, .zero], .trial c.image []⟩ = some (some (.word 9)))
    (show (compile "" false ("int main() \x7b int s; for i = 1 to 9 by 2 do \x7b " ++
        "if i > 5 then break; s = s + i; \x7d return s; \x7d").toUTF8.toList
      ).toOption.any _ = true by decide +kernel)
  obtain ⟨hparams, hsole⟩ := of_decide_eq_true hq
  obtain ⟨⟨header, body, gₒ⟩, hx, hsole⟩ := (Option.any_eq_true _ _).mp hsole
  obtain ⟨hname, hlocals, hposition, hvalue⟩ := of_decide_eq_true hsole
  obtain ⟨hitems, hfront⟩ := Compilation.sole?_eq_some hx
  obtain ⟨m', hrun⟩ := Eval.returned?_eq_some hvalue
  replace hitems : c.tree.items = [] ++ .function header body :: [] := hitems
  -- What the body returns is carried over to the machine by the general statement.
  obtain ⟨r, g, g', p, hr, hrname, hmakes, -, -, hexecutes⟩ :=
    compile_executes hc (by decide +kernel) haddr hitems
    .whole
  rw [List.append_nil] at hmakes
  obtain rfl := (hmakes.unique hfront).2
  replace hparams : r.params = [] := by
    rw [show c.image.routines[0]? = some r from hr] at hparams
    exact Option.some.inj hparams
  -- Both local variables are integers, which are zero at the beginning.
  have hzeros : SlotsFit [] body.locals #[.zero, .zero] := by
    intro i s hs
    rw [show body.locals = List.replicate 2 (.scalar .int) from hlocals,
      List.getElem?_replicate] at hs
    split at hs
    · rename_i hi
      obtain rfl := Option.some.inj hs
      refine ⟨.zero, ?_, 0, rfl, WordType.valid_zero .int⟩
      rw [show #[Value.zero, .zero] = Array.replicate 2 .zero from rfl, Array.getElem?_replicate,
        if_pos hi]
    · cases hs
  have hnone : SlotsFit [] r.params #[] := hparams ▸ Site.slotsFit_nil _
  have hst : (Site.piece c r body.locals g g' [] 4).Consistent []
      ⟨#[], #[.zero, .zero], .trial c.image []⟩ :=
    ⟨Store.new_fits (compile_typed hc (compile_addressable hc (by decide +kernel) haddr))
      [] none _ _,
      hnone, hzeros⟩
  have hdoes := hexecutes 0 nofun [] 4 [] _ hst
  replace hrun : (body.execute ((Site.piece c r body.locals g g' [] 4).surroundings g)).run.run
      ⟨#[], #[.zero, .zero], .trial c.image []⟩ = _ := hrun
  rw [hrun] at hdoes
  obtain ⟨⟨n, hn, -⟩, -⟩ := hdoes
  refine ⟨c, hc, r, n, m'.store, hr, ?_⟩
  rw [← hname, ← hrname]
  unfold Site.stand at hn
  rw [hposition] at hn
  exact hn

end

end OnePass
