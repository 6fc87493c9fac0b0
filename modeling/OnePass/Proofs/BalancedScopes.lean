import OnePass.Proofs.Constructs

/-!
# Statements leave the scopes as they are

Compiling a statement opens scopes and sets statements aside. Behind it all of them are closed and
taken up again: what is visible, and which statements wait, is exactly as it was in front of it
(`Stmt.balanced`), in whatever state of generation. So does a whole function
(`Program.isGlobal_of_makes`).
-/

namespace OnePass

/-- A new local slot has nothing to do with the scopes. -/
theorem Gen.keeps_addLocal {g g' : Generator} {n : UInt32} (h : Makes addLocal g n g') :
    g'.scopes = g.scopes ∧ g'.pending = g.pending := by
  obtain ⟨current, -, rfl⟩ := current_of_addLocal h
  exact ⟨rfl, rfl⟩

namespace Declarator

variable {d : Declarator} {g g' : Generator}

/-- Where a variable is kept has nothing to do with the scopes. -/
theorem keeps_allocate {slot : Slot} {static : Bool} {place : Storage × Handle × Target}
    (h : Gen.Makes (d.allocate slot static) g place g') :
    g'.scopes = g.scopes ∧ g'.pending = g.pending := by
  have hfield {name : String} {n : UInt32} {g₁ : Generator}
      (h : Gen.Makes (Gen.addField name slot) g n g₁) :
      g₁.scopes = g.scopes ∧ g₁.pending = g.pending := by
    rw [(Gen.makes_addField h).2]
    exact ⟨rfl, rfl⟩
  simp only [allocate, Gen.allocate, Gen.makes_bind, Gen.makes_get] at h
  obtain ⟨_, _, ⟨rfl, rfl⟩, h⟩ := h
  split at h
  · obtain ⟨n, g₁, hn, h⟩ := Gen.makes_bind.mp h
    obtain ⟨-, rfl⟩ := Gen.makes_pure.mp h
    exact hfield hn
  · obtain ⟨n, g₁, hn, h⟩ := Gen.makes_bind.mp h
    obtain ⟨-, rfl⟩ := Gen.makes_pure.mp h
    exact hfield hn
  · obtain ⟨n, g₁, hn, h⟩ := Gen.makes_bind.mp h
    obtain ⟨-, rfl⟩ := Gen.makes_pure.mp h
    exact Gen.keeps_addLocal hn

/-- A declaration changes the innermost scope only. -/
theorem keeps_compile {type : WordType} {static : Bool}
    (h : Gen.Makes (d.compile type static) g ⟨⟩ g') :
    (∃ c, g'.scopes = g.scopes.withCurrent c) ∧ g'.pending = g.pending := by
  obtain ⟨v, storage, t, g₁, -, hallocate, hprepare⟩ := makes_symbol h
  obtain ⟨hs, hp⟩ := keeps_allocate hallocate
  obtain ⟨d', rfl, -⟩ := extends_prepareCode t v d.init _ _ _ hprepare
  rw [Generator.onDraft_scopes, Generator.onDraft_pending]
  exact ⟨⟨_, congrArg (Scopes.withCurrent · _) hs⟩, hp⟩

end Declarator

namespace Gen

variable {g g' : Generator}

/-- Behind `m` the scopes and the statements that wait are as they were. -/
def Balanced (m : Gen Unit) : Prop :=
  ∀ g g', Makes m g ⟨⟩ g' → g'.scopes = g.scopes ∧ g'.pending = g.pending

theorem Extends.balanced {t : Target} {m : Gen Unit} (h : Extends t m) : Balanced m := by
  intro g g' hm
  obtain ⟨d, rfl, -⟩ := h _ _ _ hm
  exact ⟨g.onDraft_scopes t _, g.onDraft_pending t _⟩

theorem balanced_compileAs (e : Expr) (type : ExprType) :
    Balanced (e.compileAs .function type) :=
  ((Expr.operand_extends .function e).compileAs type).balanced

/-- The constructs of a piece of the text. -/
abbrev BalancedAll (cs : List Construct) : Prop := Balanced (cs.forM Construct.compile)

theorem balanced_nil : BalancedAll [] := by
  intro g g' h
  rw [makes_forM_nil.mp h]
  exact ⟨rfl, rfl⟩

theorem BalancedAll.append {cs cs' : List Construct} (h : BalancedAll cs) (h' : BalancedAll cs') :
    BalancedAll (cs ++ cs') := by
  intro g g' hm
  obtain ⟨g₁, h₁, h₂⟩ := makes_forM_append.mp hm
  obtain ⟨hs, hp⟩ := h g g₁ h₁
  obtain ⟨hs', hp'⟩ := h' g₁ g' h₂
  exact ⟨hs'.trans hs, hp'.trans hp⟩

theorem balanced_one {c : Construct} (h : Balanced c.compile) : BalancedAll [c] :=
  fun g g' hm => h g g' (makes_forM_one.mp hm)

/-! ## Blocks -/

/-- Declarations in a block leave all scopes but that of the block as they are. -/
theorem keeps_declarations {ds : List Declaration} (hg : g.scopes.isGlobal = false)
    (h : Makes ((ds.map .locals).forM Construct.compile) g ⟨⟩ g') :
    g'.scopes.pop = g.scopes.pop ∧ g'.pending = g.pending := by
  have hitems {type : WordType} {static : Bool} {items : List Declarator} {g g' : Generator}
      (hg : g.scopes.isGlobal = false)
      (h : Makes (items.forM (Declarator.compile type static)) g ⟨⟩ g') :
      g'.scopes.isGlobal = false ∧ g'.scopes.pop = g.scopes.pop ∧ g'.pending = g.pending := by
    induction items generalizing g with
    | nil =>
      rw [makes_forM_nil.mp h]
      exact ⟨hg, rfl, rfl⟩
    | cons d items ih =>
      obtain ⟨g₁, h₁, h₂⟩ := makes_forM_cons.mp h
      obtain ⟨⟨c, hc⟩, hp⟩ := Declarator.keeps_compile h₁
      have hg₁ : g₁.scopes.isGlobal = false := by rw [hc, Scopes.isGlobal_withCurrent, hg]
      obtain ⟨hg', hpop, hp'⟩ := ih hg₁ h₂
      exact ⟨hg', by rw [hpop, hc, Scopes.pop_withCurrent c hg], hp'.trans hp⟩
  induction ds generalizing g with
  | nil =>
    rw [makes_forM_nil.mp h]
    exact ⟨rfl, rfl⟩
  | cons d ds ih =>
    obtain ⟨g₁, h₁, h₂⟩ := makes_forM_cons.mp h
    obtain ⟨hg₁, hpop, hp⟩ := hitems hg h₁
    obtain ⟨hpop', hp'⟩ := ih hg₁ h₂
    exact ⟨hpop'.trans hpop, hp'.trans hp⟩

theorem balanced_block (ds : List Declaration) {cs : List Construct} (hbody : BalancedAll cs) :
    BalancedAll (.openBlock :: ds.map .locals ++ cs ++ [.closeBlock]) := by
  intro g g' h
  obtain ⟨g₃, h, hend⟩ := makes_forM_append.mp h
  obtain ⟨g₂, h, hinner⟩ := makes_forM_append.mp h
  obtain ⟨g₁, hopen, hdecls⟩ := makes_forM_cons.mp h
  obtain rfl := makes_openScope.mp hopen
  obtain ⟨hpop, hp⟩ := keeps_declarations rfl hdecls
  obtain ⟨hs, hp'⟩ := hbody g₂ g₃ hinner
  obtain rfl := makes_closeScope.mp (makes_forM_one.mp hend)
  exact ⟨(congrArg Scopes.pop hs).trans hpop, hp'.trans hp⟩

/-! ## Simple statements -/

theorem balanced_effect (e : Expr) : Balanced (effect e) := by
  intro g g' h
  obtain ⟨type, g₁, hc, rfl⟩ := makes_effect h
  obtain ⟨d, rfl, -⟩ := (Expr.operand_extends .function e).compile _ _ _ hc
  split <;> exact ⟨rfl, rfl⟩

theorem balanced_ret (word : Span) (value : Option Expr) : Balanced (ret word value) := by
  intro g g' h
  cases hf : g.current with
  | some f =>
    obtain ⟨e, type, g₁, -, -, hc, rfl⟩ | ⟨-, -, rfl⟩ := makes_ret hf h
    · exact balanced_compileAs e (.scalar type) g g₁ hc
    · exact ⟨rfl, rfl⟩
  | none =>
    simp only [ret, returnStatement, makes_bind, makes_get] at h
    obtain ⟨_, _, ⟨rfl, rfl⟩, h⟩ := h
    rw [hf] at h
    exact absurd h not_makes_fail

theorem balanced_leave (word : Span) : Balanced (leave word) := by
  intro g g' h
  obtain ⟨l, -, rfl⟩ := makes_leave h
  exact ⟨rfl, rfl⟩

/-! ## Choices -/

/-- Behind the condition of a choice the choice waits. -/
theorem pending_ifTrue {c : Expr} (h : Makes (ifTrue c) g ⟨⟩ g') :
    g'.scopes = g.scopes ∧ ∃ l, g'.pending = .choice l :: g.pending := by
  obtain ⟨g₁, l, hc, -, rfl⟩ := makes_ifTrue h
  obtain ⟨hs, hp⟩ := balanced_compileAs c _ _ _ hc
  exact ⟨hs, l, congrArg (Pending.choice l :: ·) hp⟩

theorem balanced_choice (c : Expr) {cs : List Construct} (hbody : BalancedAll cs) :
    BalancedAll (.ifTrue c :: cs ++ [.endIf]) := by
  intro g g' h
  obtain ⟨g₂, h, hend⟩ := makes_forM_append.mp h
  obtain ⟨g₁, hc, hinner⟩ := makes_forM_cons.mp h
  obtain ⟨hs₁, l, hp₁⟩ := pending_ifTrue hc
  obtain ⟨hs₂, hp₂⟩ := hbody g₁ g₂ hinner
  obtain rfl := makes_endIf (hp₂.trans hp₁) (makes_forM_one.mp hend)
  exact ⟨hs₂.trans hs₁, rfl⟩

theorem balanced_choiceOr (c : Expr) {cs cs' : List Construct} (hbody : BalancedAll cs)
    (hotherwise : BalancedAll cs') :
    BalancedAll (.ifTrue c :: cs ++ .ifFalse :: cs' ++ [.endIf]) := by
  intro g g' h
  obtain ⟨g₄, h, hend⟩ := makes_forM_append.mp h
  obtain ⟨g₂, h, helse⟩ := makes_forM_append.mp h
  obtain ⟨g₁, hc, hinner⟩ := makes_forM_cons.mp h
  obtain ⟨g₃, hbetween, hlast⟩ := makes_forM_cons.mp helse
  obtain ⟨hs₁, l, hp₁⟩ := pending_ifTrue hc
  obtain ⟨hs₂, hp₂⟩ := hbody g₁ g₂ hinner
  obtain ⟨done, -, rfl⟩ := makes_ifFalse (hp₂.trans hp₁) hbetween
  obtain ⟨hs₄, hp₄⟩ := hotherwise _ g₄ hlast
  obtain rfl := makes_endIf hp₄ (makes_forM_one.mp hend)
  exact ⟨hs₄.trans (hs₂.trans hs₁), rfl⟩

/-! ## Loops -/

theorem balanced_loop (c : Expr) {cs : List Construct} (hbody : BalancedAll cs) :
    BalancedAll (.openLoop :: cs ++ [.closeLoop c]) := by
  intro g g' h
  obtain ⟨g₂, h, hend⟩ := makes_forM_append.mp h
  obtain ⟨g₁, hopen, hinner⟩ := makes_forM_cons.mp h
  obtain ⟨l, -, rfl⟩ := makes_openLoop hopen
  obtain ⟨hs₂, hp₂⟩ := hbody _ g₂ hinner
  obtain ⟨g₃, hc, rfl⟩ := makes_closeLoop hp₂ (makes_forM_one.mp hend)
  obtain ⟨hs₃, hp₃⟩ := balanced_compileAs c _ _ _ hc
  exact ⟨hs₃.trans hs₂, congrArg List.tail (hp₃.trans hp₂)⟩

/-- Behind the start of a counting loop its counter is in a scope of its own, and it waits. -/
theorem pending_openCount {counter : Name} {range : Range}
    (h : Makes (openCount counter range) g ⟨⟩ g') :
    g'.scopes.pop = g.scopes ∧ ∃ slot l, g'.pending = .count slot l :: g.pending := by
  obtain ⟨-, g₁, g₂, g₃, slot, v, l, hslot, -, rfl, hstart, -, rfl⟩ := makes_openCount h
  obtain ⟨hs₁, hp₁⟩ := keeps_addLocal hslot
  obtain ⟨hs₃, hp₃⟩ := balanced_compileAs _ _ _ _ hstart
  have hinner : g₁.scopes.isGlobal = false := by
    rw [hs₁]
    rfl
  refine ⟨?_, slot, l, congrArg (Pending.count slot l :: ·) (hp₃.trans hp₁)⟩
  calc g₃.scopes.pop = g₁.scopes.pop := by
        rw [hs₃]
        exact Scopes.pop_withCurrent _ hinner
    _ = g.scopes := congrArg Scopes.pop hs₁

theorem balanced_count (counter : Name) (range : Range) {cs : List Construct}
    (hbody : BalancedAll cs) :
    BalancedAll (.openCount counter range :: cs ++ [.closeCount range]) := by
  intro g g' h
  obtain ⟨g₂, h, hend⟩ := makes_forM_append.mp h
  obtain ⟨g₁, hopen, hinner⟩ := makes_forM_cons.mp h
  obtain ⟨hs₁, slot, l, hp₁⟩ := pending_openCount hopen
  obtain ⟨hs₂, hp₂⟩ := hbody g₁ g₂ hinner
  obtain ⟨g₃, g₄, g₅, hstep, rfl, hbound, rfl⟩ :=
    makes_closeCount (hp₂.trans hp₁) (makes_forM_one.mp hend)
  obtain ⟨hs₃, hp₃⟩ := (extends_stepOf range).balanced _ _ hstep
  obtain ⟨hs₅, hp₅⟩ := (extends_boundOf range).balanced _ _ hbound
  have hs : g₅.scopes = g₁.scopes := hs₅.trans (hs₃.trans hs₂)
  have hp : g₅.pending = g₁.pending := hp₅.trans (hp₃.trans hp₂)
  exact ⟨(congrArg Scopes.pop hs).trans hs₁, (congrArg List.tail hp).trans (congrArg List.tail hp₁)⟩

end Gen

/-! ## All statements -/

theorem Gen.balanced_statements {body : List Stmt} (h : ∀ s ∈ body, BalancedAll s.constructs) :
    BalancedAll (Stmt.constructsOf body) := by
  induction body with
  | nil => exact balanced_nil
  | cons s ss ih => exact (h s (.head _)).append (ih fun t ht => h t (.tail _ ht))

/-- **Statements leave the scopes as they are**, and the statements that wait. -/
theorem Stmt.balanced (s : Stmt) : Gen.BalancedAll s.constructs := by
  induction s using Stmt.induct with
  | block ds body ih =>
    exact Gen.balanced_block ds (Gen.balanced_statements ih)
  | expr e => exact Gen.balanced_one (Gen.balanced_effect e)
  | empty semicolon => exact Gen.balanced_nil
  | choice c body ih => exact Gen.balanced_choice c ih
  | choiceOr c body otherwise ih ih' => exact Gen.balanced_choiceOr c ih ih'
  | loop c body ih => exact Gen.balanced_loop c ih
  | count counter range body ih => exact Gen.balanced_count counter range ih
  | ret word value => exact Gen.balanced_one (Gen.balanced_ret word value)
  | leave word => exact Gen.balanced_one (Gen.balanced_leave word)

/-- Between declarations that are outside all functions the global scope is the only one. -/
theorem Program.isGlobal_of_makes {items : List TopLevel} {g g' : Generator}
    (hi : g.scopes.isGlobal = true)
    (h : Gen.Makes ((items.flatMap TopLevel.constructs).forM Construct.compile) g ⟨⟩ g') :
    g'.scopes.isGlobal = true := by
  induction items generalizing g with
  | nil =>
    obtain rfl := Gen.makes_forM_nil.mp h
    exact hi
  | cons item items ih =>
    rw [List.flatMap_cons] at h
    obtain ⟨g₁, hfirst, hrest⟩ := Gen.makes_forM_append.mp h
    refine ih ?_ hrest
    cases item with
    | «variables» d => exact (Declaration.makes_global hi (Gen.makes_forM_one.mp hfirst)).1
    | function header body =>
      -- the scope of its parameters is opened in front of a function and closed behind it
      obtain ⟨g₂, hm, hclose⟩ := Gen.makes_forM_append.mp hfirst
      obtain ⟨g₃, hopen, hm⟩ := Gen.makes_forM_append.mp hm
      obtain ⟨g₄, hbegin, hbody⟩ := Gen.makes_forM_cons.mp hm
      obtain ⟨_, hscope, hparams⟩ := Gen.makes_forM_cons.mp hopen
      obtain rfl := Gen.makes_openScope.mp hscope
      obtain ⟨s, rfl, hpop, -⟩ :=
        Gen.makes_parameterGroups (g := g.withScopes g.scopes.push) (k := 0) rfl rfl hparams
      obtain ⟨g₅, n, hfinish, -, -, rfl⟩ := Gen.makes_beginFunction hbegin
      obtain ⟨hs, -⟩ := Stmt.balanced body _ _ hbody
      have hs₅ : g₅.scopes = s := (Gen.keeps_finishFunction hfinish).1
      rw [Gen.makes_closeScope.mp (Gen.makes_forM_one.mp hclose)]
      calc g₂.scopes.pop.isGlobal = s.pop.isGlobal := by rw [hs]; exact congrArg _ (hs₅ ▸ rfl)
        _ = true := by rw [hpop]; exact hi

end OnePass
