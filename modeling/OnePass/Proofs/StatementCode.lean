import OnePass.Proofs.Constructs

/-!
# Code for statements is typed

Main statement: the code of a statement starts and ends with an empty stack, and where it ends
the same slots are ready as where it starts (`Scene.typed_statement`).

A statement that contains others is taken apart into its pieces. Between them some labels are
not marked yet, and something waits; `Scene.Moves` says what holds there. Any exit from the
statement leads to a label whose sketch is met where the statement starts (`Scene.Exits`), and
so is met anywhere inside.
-/

namespace OnePass

namespace Scopes

variable {s : Scopes}

theorem localArrays_push : s.push.localArrays = s.localArrays := by
  ext i
  simp only [localArrays, has_push, Set.mem_ofPred_eq]

theorem localArrays_pop_subset : s.pop.localArrays ⊆ s.localArrays :=
  fun _ ⟨v, hv, h⟩ => ⟨v, hv.of_pop, h⟩

end Scopes

namespace Scene

variable {sc : Scene} {g g₁ g' : Generator} {L L₁ : List Sketch} {l : List Nat} {s r : List Cell}
  {m n : Nat}

/-! ## Pieces of statements -/

/-- One function has been compiled some way further. Of the labels that are new, those in `l`
are not marked, and the end of the code is reached with the stack `s`. -/
structure Moves (sc : Scene) (g : Generator) (l : List Nat) (g' : Generator) (L' : List Sketch)
    (s : List Cell) (m n : Nat) : Prop where
  holds : sc.Holds g' m n
  functions : g'.functions = g.functions
  routines : g'.routines = g.routines
  grows : g.body.GrowsBut l g'.body
  body : sc.Body g' L' s

/-- What is known at the end of the code depends on the visible variables only. -/
theorem sketch_congr (h : g'.scopes = g.scopes) (s : List Cell) :
    (sc.body g').sketch s = (sc.body g).sketch s := by
  unfold body
  rw [h]
  rfl

namespace Moves

theorem refl (hg : sc.Holds g m n) (hb : sc.Body g L s) : sc.Moves g [] g L s m n :=
  ⟨hg, rfl, rfl, Draft.Grows.refl _, hb⟩

variable (h : sc.Moves g l g₁ L₁ s m n)
include h

theorem suspend (ps : List Pending) : sc.Moves g l (g₁.withPending ps) L₁ s m n :=
  ⟨⟨⟨h.holds.size, h.holds.bound, h.holds.inner, h.holds.visible, h.holds.functions⟩,
    h.holds.current, h.holds.closed, h.holds.initializer⟩, h.functions, h.routines, h.grows, h.body⟩

theorem emit {i : Instruction} (hi : ∀ L, Takes sc.loosePlan sc.outline L i
    ((sc.body g₁).sketch s) (some ((sc.body g₁).sketch r))) :
    sc.Moves g l (g₁.onBody fun d => d.emit i) L₁ r m n :=
  ⟨h.holds.onBody fun d => d.emit i, h.functions, h.routines, h.grows.emit i,
    Draft.Charted.emit h.body (hi L₁)⟩

/-- An instruction that may go to a label. -/
theorem branch {i : Instruction} (hi : Takes sc.loosePlan sc.outline L₁ i
    ((sc.body g₁).sketch s) (some ((sc.body g₁).sketch r))) :
    sc.Moves g l (g₁.onBody fun d => d.emit i) L₁ r m n :=
  ⟨h.holds.onBody fun d => d.emit i, h.functions, h.routines, h.grows.emit i,
    Draft.Charted.emit h.body hi⟩

/-- An instruction that never goes on. -/
theorem leap {i : Instruction} (hi : Takes sc.loosePlan sc.outline L₁ i
    ((sc.body g₁).sketch s) none) (r : List Cell) :
    sc.Moves g l (g₁.onBody fun d => d.emit i) L₁ r m n :=
  ⟨h.holds.onBody fun d => d.emit i, h.functions, h.routines, h.grows.emit i,
    Draft.Charted.leap h.body hi _⟩

/-- A new label, and what is to be known where it is gone to. -/
theorem addLabel (τ : Sketch) :
    sc.Moves g (g₁.body.labels.size :: l) (g₁.onBody Draft.addLabel) (L₁ ++ [τ]) s m n :=
  ⟨h.holds.onBody Draft.addLabel, h.functions, h.routines, h.grows.addLabel,
    Draft.Charted.addLabel h.body τ⟩

theorem newest {k : UInt32} (hk : k.toNat = g₁.body.labels.size) (τ : Sketch) :
    (L₁ ++ [τ])[k.toNat]? = some τ := by
  rw [hk, ← Draft.Charted.length h.body]
  exact List.getElem?_concat_length

/-- A label marks the end. -/
theorem mark {k : Nat} {q : List Nat} (hk : L₁[k]? = some ((sc.body g₁).sketch s))
    (haddr : (g₁.body.mark k).Addressable) (hnew : g.body.labels.size ≤ k)
    (hl : ∀ j ∈ l, j = k ∨ j ∈ q) :
    sc.Moves g q (g₁.onBody fun d => d.mark k) L₁ s m n :=
  ⟨h.holds.onBody fun d => d.mark k, h.functions, h.routines, h.grows.mark hnew hl,
    Draft.Charted.mark h.body hk (.refl _) haddr.position⟩

/-- Code that only adds to the function and takes its stack to another. -/
theorem add {α : Type} {c : Gen α} {a : α} {f : α → List Cell}
    (hl : (sc.body g₁).Leads s c f) (he : Gen.Extends .function c) (hm : Gen.Makes c g₁ a g')
    (haddr : g'.body.Addressable) : ∃ L', L₁ <+: L' ∧ g'.scopes = g₁.scopes ∧ g'.pending =
    g₁.pending ∧
      g₁.body.Grows g'.body ∧ sc.Moves g l g' L' (f a) m n := by
  obtain ⟨L', hL, hd⟩ := (hl g₁ a g' ⟨rfl, rfl⟩ hm).2.charted L₁ haddr h.body
  obtain ⟨d, rfl, hextended⟩ := he _ _ _ hm
  have hgrows := hextended.grows haddr.labels
  exact ⟨L', hL, rfl, rfl, hgrows, h.holds.onBody fun _ => d, h.functions, h.routines,
    h.grows.trans hgrows, hd⟩

/-- The code of an expression of a type. -/
theorem value (hfair : sc.Fair) {e : Expr} {type : ExprType}
    (hm : Gen.Makes (e.compileAs .function type) g₁ ⟨⟩ g') (haddr : g'.body.Addressable) :
    ∃ L', L₁ <+: L' ∧ g'.scopes = g₁.scopes ∧ g'.pending = g₁.pending ∧
      g₁.body.Grows g'.body ∧ sc.Moves g l g' L' (type.cells ++ s) m n := by
  have hleads : (sc.body g₁).Leads s (e.compileAs .function type) fun _ => type.cells ++ s :=
    Expr.leads_compileAs (c := sc.body g₁) (h.holds.body_sound hfair) e
      (fun _ _ _ hf => h.holds.body_knows hfair hf) s type
  have hadd := h.add hleads ((Expr.operand_extends .function e).compileAs type) hm haddr
  exact hadd

/-- Other constructs with closed code. -/
theorem reach {m' n' : Nat} (hr : sc.Reaches g₁ L₁ g' m' n') :
    ∃ L', L₁ <+: L' ∧ sc.Moves g l g' L' [] m' n' := by
  obtain ⟨L', hL, hb⟩ := hr.body
  exact ⟨L', hL, hr.holds, hr.functions.trans h.functions, hr.routines.trans h.routines,
    h.grows.trans hr.grows, hb⟩

end Moves

/-! ## Statements -/

/-- An exit from the innermost loop leads to where what is known here is enough. -/
def Exits (sc : Scene) (g : Generator) (L : List Sketch) : Prop :=
  ∀ k, g.pending.findSome? Pending.exit? = some k →
    ∃ τ, L[k.toNat]? = some τ ∧ ((sc.body g).sketch []).Meets τ

theorem Exits.mono (h : sc.Exits g L) (hL : L <+: L₁)
    (hp : g₁.pending.findSome? Pending.exit? = g.pending.findSome? Pending.exit?)
    (hs : g.scopes.localArrays ⊆ g₁.scopes.localArrays) : sc.Exits g₁ L₁ := by
  intro k hk
  obtain ⟨τ, hτ, hm⟩ := h k (hp ▸ hk)
  exact ⟨τ, getElem?_mono hL hτ, hm.stack, hm.locals.trans hs, hm.fields⟩

/-- The constructs `cs` of a statement with the static variables `ks` and the local slots `ls`
generate typed code, wherever they stand in the function, as long as 32 bits are enough for it. -/
def Typed (sc : Scene) (cs : List Construct) (ks : List Kept) (ls : List Slot) : Prop :=
  ∀ g L g' m n, StandsAt ks sc.kept m → StandsAt ls sc.outline.locals n → sc.Holds g m n →
    sc.Body g L [] → sc.Exits g L → Gen.Makes (cs.forM Construct.compile) g ⟨⟩ g' →
    g'.Addressable → sc.Reaches g L g' (m + ks.length) (n + ls.length) ∧ g'.scopes = g.scopes

/-- What moves to closed code with nothing left behind reaches its end. -/
theorem Moves.reaches (h : sc.Moves g [] g' L₁ [] m n) (hL : L <+: L₁)
    (hs : g'.scopes = g.scopes) (hp : g'.pending = g.pending) :
    sc.Reaches g L g' m n ∧ g'.scopes = g.scopes :=
  ⟨⟨h.holds, by rw [hs], h.functions, h.routines, hp, h.grows, L₁, hL, h.body⟩, hs⟩

/-- What comes behind other code, with some labels open. -/
theorem Typed.moves {cs : List Construct} {ks : List Kept} {ls : List Slot}
    (hc : sc.Typed cs ks ls) (h : sc.Moves g l g₁ L₁ [] m n) (hk : StandsAt ks sc.kept m)
    (hl : StandsAt ls sc.outline.locals n) (hx : sc.Exits g₁ L₁)
    (hm : Gen.Makes (cs.forM Construct.compile) g₁ ⟨⟩ g') (haddr : g'.Addressable) :
    ∃ L', L₁ <+: L' ∧ sc.Moves g l g' L' [] (m + ks.length) (n + ls.length) ∧
      g'.scopes = g₁.scopes ∧ g'.pending = g₁.pending := by
  obtain ⟨hr, hs⟩ := hc g₁ L₁ g' m n hk hl h.holds h.body hx hm haddr
  obtain ⟨L', hL, hmoves⟩ := h.reach hr
  exact ⟨L', hL, hmoves, hs, hr.pending⟩

theorem typed_nil : sc.Typed [] [] [] := by
  intro g L g' m n _ _ hg hb _ h _
  obtain rfl := Gen.makes_forM_nil.mp h
  exact ⟨.refl hg hb, rfl⟩

theorem Typed.append {cs cs' : List Construct} {ks ks' : List Kept} {ls ls' : List Slot}
    (h : sc.Typed cs ks ls) (h' : sc.Typed cs' ks' ls') :
    sc.Typed (cs ++ cs') (ks ++ ks') (ls ++ ls') := by
  intro g L g' m n hk hl hg hb hx hm haddr
  obtain ⟨hk₁, hk₂⟩ := StandsAt.append_iff.mp hk
  obtain ⟨hl₁, hl₂⟩ := StandsAt.append_iff.mp hl
  obtain ⟨g₁, h₁, h₂⟩ := Gen.makes_forM_append.mp hm
  have haddr₁ := (Gen.makes_constructs_later h₂).addressable haddr
  obtain ⟨L₁, hL₁, hmoves₁, hs₁, hp₁⟩ := h.moves (.refl hg hb) hk₁ hl₁ hx h₁ haddr₁
  have hx₁ : sc.Exits g₁ L₁ := hx.mono hL₁ (by rw [hp₁]) (by rw [hs₁])
  obtain ⟨L₂, hL₂, hmoves₂, hs₂, hp₂⟩ := h'.moves hmoves₁ hk₂ hl₂ hx₁ h₂ haddr
  rw [List.length_append, List.length_append, ← Nat.add_assoc, ← Nat.add_assoc]
  exact hmoves₂.reaches (hL₁.trans hL₂) (hs₂.trans hs₁) (hp₂.trans hp₁)

/-! ## Simple statements -/

theorem typed_effect (hfair : sc.Fair) (e : Expr) : sc.Typed [.expr e] [] [] := by
  intro g L g' m n _ _ hg hb _ h haddr
  obtain ⟨type, g₁, hc, hg'⟩ := Gen.makes_effect (Gen.makes_forM_one.mp h)
  have haddr₁ : g₁.body.Addressable := by
    refine haddr.body.of_longer ?_
    rw [hg']
    split
    · exact Draft.longer_emit _ _
    · exact .refl _
  have htyped := Expr.operand_typed (c := sc.body g) (hg.body_sound hfair) e
    fun _ _ _ hf => hg.body_knows hfair hf
  obtain ⟨L₁, hL₁, hs₁, hp₁, -, h₁⟩ := (Moves.refl hg hb).add (htyped.compile [])
    (Expr.operand_extends .function e).compile hc haddr₁
  rw [List.append_nil] at h₁
  subst hg'
  cases type with
  | scalar t => exact (h₁.emit fun _ => .pop).reaches hL₁ hs₁ hp₁
  | array t => exact (h₁.emit fun _ => .pop).reaches hL₁ hs₁ hp₁
  | str => exact (h₁.emit fun _ => .pop).reaches hL₁ hs₁ hp₁
  | void | effect | operator => exact h₁.reaches hL₁ hs₁ hp₁

theorem typed_ret (hfair : sc.Fair) (word : Span) (value : Option Expr) :
    sc.Typed [.ret word value] [] [] := by
  intro g L g' m n _ _ hg hb _ h haddr
  obtain ⟨f, hf, -, -, hreturns, -⟩ := hg.current
  have hafter : sc.outline.after ⊆ sc.outline.before := by
    rw [hfair.after]
    exact Set.empty_subset _
  obtain ⟨e, type, g₁, -, hr, hc, rfl⟩ | ⟨-, hr, rfl⟩ :=
    Gen.makes_ret hf (Gen.makes_forM_one.mp h)
  · obtain ⟨L₁, hL₁, hs₁, hp₁, -, h₁⟩ := (Moves.refl hg hb).value hfair hc
      (haddr.body.of_longer (Draft.longer_emit _ _))
    refine (h₁.leap (.ret ?_ hafter) []).reaches hL₁ hs₁ hp₁
    rw [Outline.result, ← hreturns, hr]
    rfl
  · refine ((Moves.refl hg hb).leap (.ret ?_ hafter) []).reaches List.prefix_rfl rfl rfl
    rw [Outline.result, ← hreturns, hr]
    rfl

theorem typed_leave (word : Span) : sc.Typed [.leave word] [] [] := by
  intro g L g' m n _ _ hg hb hx h _
  obtain ⟨k, hk, rfl⟩ := Gen.makes_leave (Gen.makes_forM_one.mp h)
  obtain ⟨τ, hτ, hmeets⟩ := hx k hk
  exact ((Moves.refl hg hb).leap (.jump hτ hmeets) []).reaches List.prefix_rfl rfl rfl

/-! ## Choices -/

/-- Behind the condition of a choice a label waits for the other way. -/
theorem moves_ifTrue (hfair : sc.Fair) {c : Expr} (hg : sc.Holds g m n) (hb : sc.Body g L [])
    (h : Gen.Makes (Gen.ifTrue c) g ⟨⟩ g₁) (haddr : g₁.body.Addressable) :
    ∃ k L₁, g₁.pending = .choice k :: g.pending ∧ g₁.scopes = g.scopes ∧ L <+: L₁ ∧
      g.body.labels.size ≤ k.toNat ∧ L₁[k.toNat]? = some ((sc.body g).sketch []) ∧
      sc.Moves g [k.toNat] g₁ L₁ [] m n := by
  obtain ⟨g₂, k, hc, hlabel, rfl⟩ := Gen.makes_ifTrue h
  have hk : k.toNat = g₂.body.labels.size := by
    rw [hlabel]
    exact haddr.toNat_addLabel (Draft.longer_emit _ _)
  obtain ⟨L₁, hL₁, hs₁, hp₁, hgrows, h₁⟩ := (Moves.refl hg hb).value hfair hc
    (haddr.of_longer ((Draft.longer_addLabel _).trans (Draft.longer_emit _ _)))
  let σ := (sc.body g).sketch []
  have hσ : (sc.body g₂).sketch [] = σ := sketch_congr hs₁ _
  have hget := h₁.newest hk σ
  refine ⟨k, L₁ ++ [σ], congrArg (Pending.choice k :: ·) hp₁, hs₁,
    hL₁.trans (List.prefix_append ..), ?_,
    hget, ?_⟩
  · rw [hk]
    exact hgrows.labels_size
  · rw [hk]
    exact ((h₁.addLabel σ).branch (.jumpIfFalse hget (hσ ▸ .refl _))).suspend _

/-- A choice whose last branch waits for a label is finished by marking it. -/
theorem Moves.endIf {k : UInt32} (h : sc.Moves g [k.toNat] g₁ L₁ [] m n)
    (hp : g₁.pending = .choice k :: g.pending) (hs : g₁.scopes = g.scopes) (hL : L <+: L₁)
    (hk : g.body.labels.size ≤ k.toNat) (hget : L₁[k.toNat]? = some ((sc.body g).sketch []))
    (hm : Gen.Makes Gen.endIf g₁ ⟨⟩ g') (haddr : g'.body.Addressable) :
    sc.Reaches g L g' m n ∧ g'.scopes = g.scopes := by
  obtain rfl := Gen.makes_endIf hp hm
  rw [← sketch_congr hs] at hget
  exact ((h.mark hget haddr hk (by simp)).suspend _).reaches hL hs rfl

theorem typed_choice (hfair : sc.Fair) (c : Expr) {cs : List Construct} {ks : List Kept}
    {ls : List Slot} (hbody : sc.Typed cs ks ls) :
    sc.Typed (.ifTrue c :: cs ++ [.endIf]) ks ls := by
  intro g L g' m n hk hl hg hb hx h haddr
  obtain ⟨g₂, h, hend⟩ := Gen.makes_forM_append.mp h
  obtain ⟨g₁, hopen, hinner⟩ := Gen.makes_forM_cons.mp h
  have haddr₂ := (Gen.makes_constructs_later hend).addressable haddr
  have haddr₁ := (Gen.makes_constructs_later hinner).addressable haddr₂
  obtain ⟨k, L₁, hp₁, hs₁, hL₁, hnew, hget, h₁⟩ := moves_ifTrue hfair hg hb hopen haddr₁.body
  have hx₁ : sc.Exits g₁ L₁ := hx.mono hL₁ (by rw [hp₁]; rfl) (by rw [hs₁])
  obtain ⟨L₂, hL₂, h₂, hs₂, hp₂⟩ := hbody.moves h₁ hk hl hx₁ hinner haddr₂
  exact h₂.endIf (hp₂.trans hp₁) (hs₂.trans hs₁) (hL₁.trans hL₂) hnew
    (getElem?_mono hL₂ hget) (Gen.makes_forM_one.mp hend) haddr.body

/-- Between the branches: the first one jumps over the second, which the first label is marked
before. -/
theorem Moves.ifFalse {k done : UInt32} (h : sc.Moves g [k.toNat] g₁ L₁ [] m n)
    (hs : g₁.scopes = g.scopes) (hk : g.body.labels.size ≤ k.toNat)
    (hget : L₁[k.toNat]? = some ((sc.body g).sketch [])) (hdone : done.toNat = g₁.body.labels.size)
    (haddr : ((g₁.body.addLabel.emit (.jump done)).mark k.toNat).Addressable) (ps : List Pending) :
    ∃ L₂, L₁ <+: L₂ ∧ L₂[done.toNat]? = some ((sc.body g).sketch []) ∧ sc.Moves g [done.toNat]
      ((g₁.onBody fun d => (d.addLabel.emit (.jump done)).mark k.toNat).withPending ps) L₂
        [] m n := by
  let σ := (sc.body g).sketch []
  have hσ : (sc.body g₁).sketch [] = σ := sketch_congr hs _
  have hnewest := h.newest hdone σ
  have hL : L₁ <+: L₁ ++ [σ] := List.prefix_append ..
  have h₂ := ((h.addLabel σ).leap (.jump hnewest (hσ ▸ .refl _)) []).mark (k := k.toNat)
    (q := [done.toNat]) ((getElem?_mono hL hget).trans (congrArg some hσ.symm))
    haddr hk (by simp [hdone])
  exact ⟨L₁ ++ [σ], hL, hnewest, h₂.suspend ps⟩

theorem typed_choiceOr (hfair : sc.Fair) (c : Expr) {cs cs' : List Construct} {ks ks' : List Kept}
    {ls ls' : List Slot} (hbody : sc.Typed cs ks ls) (hother : sc.Typed cs' ks' ls') :
    sc.Typed (.ifTrue c :: cs ++ .ifFalse :: cs' ++ [.endIf]) (ks ++ ks') (ls ++ ls') := by
  intro g L g' m n hk hl hg hb hx h haddr
  -- What the branches declare stands one behind the other.
  obtain ⟨hk₁, hk₂⟩ := StandsAt.append_iff.mp hk
  obtain ⟨hl₁, hl₂⟩ := StandsAt.append_iff.mp hl
  -- The states between the parts of the choice, of which each can be numbered as the last one can.
  obtain ⟨g₄, h, hend⟩ := Gen.makes_forM_append.mp h
  obtain ⟨g₂, h, hsecond⟩ := Gen.makes_forM_append.mp h
  obtain ⟨g₁, hopen, hfirst⟩ := Gen.makes_forM_cons.mp h
  obtain ⟨g₃, hbetween, hsecond⟩ := Gen.makes_forM_cons.mp hsecond
  have haddr₄ := (Gen.makes_constructs_later hend).addressable haddr
  have haddr₃ := (Gen.makes_constructs_later hsecond).addressable haddr₄
  have haddr₂ := (Gen.steady_construct _ _ _ _ hbetween).addressable haddr₃
  have haddr₁ := (Gen.makes_constructs_later hfirst).addressable haddr₂
  -- The condition jumps over the first branch.
  obtain ⟨k, L₁, hp₁, hs₁, hL₁, hnew, hget, h₁⟩ := moves_ifTrue hfair hg hb hopen haddr₁.body
  have hx₁ : sc.Exits g₁ L₁ := hx.mono hL₁ (by rw [hp₁]; rfl) (by rw [hs₁])
  obtain ⟨L₂, hL₂, h₂, hs₂, hp₂⟩ := hbody.moves h₁ hk₁ hl₁ hx₁ hfirst haddr₂
  -- Behind the first branch a jump leads over the second one.
  obtain ⟨done, hlabel, rfl⟩ := Gen.makes_ifFalse (hp₂.trans hp₁) hbetween
  have hdone : done.toNat = g₂.body.labels.size := by
    rw [hlabel]
    exact haddr₃.body.toNat_addLabel ((Draft.longer_emit _ _).trans (Draft.longer_mark _ _))
  obtain ⟨L₃, hL₃, hnewest, h₃⟩ := h₂.ifFalse (hs₂.trans hs₁) hnew (getElem?_mono hL₂ hget) hdone
    haddr₃.body (.choice done :: g.pending)
  have hx₃ : sc.Exits ((g₂.onBody fun d => (d.addLabel.emit (.jump done)).mark k.toNat).withPending
      (.choice done :: g.pending)) L₃ :=
    hx.mono ((hL₁.trans hL₂).trans hL₃) rfl (by show _ ⊆ g₂.scopes.localArrays; rw [hs₂, hs₁])
  -- The second branch begins where the condition jumps to, with the same stack.
  obtain ⟨L₄, hL₄, h₄, hs₄, hp₄⟩ := hother.moves h₃ hk₂ hl₂ hx₃ hsecond haddr₄
  rw [List.length_append, List.length_append, ← Nat.add_assoc, ← Nat.add_assoc]
  refine h₄.endIf hp₄ (hs₄.trans (hs₂.trans hs₁)) (((hL₁.trans hL₂).trans hL₃).trans hL₄) ?_
    (getElem?_mono hL₄ hnewest) (Gen.makes_forM_one.mp hend) haddr.body
  rw [hdone]
  exact h₂.grows.labels_size

/-! ## Loops -/

/-- All labels of a loop may be gone to with the sketch `τ`. -/
structure Leading (L : List Sketch) (l : LoopLabels) (τ : Sketch) : Prop where
  top : L[l.top.toNat]? = some τ
  test : L[l.test.toNat]? = some τ
  exit : L[l.exit.toNat]? = some τ

theorem Leading.mono {l : LoopLabels} {τ : Sketch} (h : Leading L l τ) (hL : L <+: L₁) :
    Leading L₁ l τ :=
  ⟨getElem?_mono hL h.top, getElem?_mono hL h.test, getElem?_mono hL h.exit⟩

/-- A loop is entered at its test, where the same is known as in front of it. -/
theorem Moves.enterLoop {k : LoopLabels} (h : sc.Moves g [] g₁ L₁ [] m n)
    (hlabels : k = .behind g₁.body.labels.size)
    (haddr : ((g₁.body.addLabel.addLabel.addLabel.emit (.jump k.test)).mark
      k.top.toNat).Addressable) :
    ∃ L₂, L₁ <+: L₂ ∧ Leading L₂ k ((sc.body g₁).sketch []) ∧
      g.body.labels.size ≤ k.test.toNat ∧ g.body.labels.size ≤ k.exit.toNat ∧
      sc.Moves g [k.test.toNat, k.exit.toNat] (g₁.onBody fun d =>
        (d.addLabel.addLabel.addLabel.emit (.jump k.test)).mark k.top.toNat) L₂ [] m n := by
  obtain ⟨htop, htest, hexit⟩ := LoopLabels.from_entered hlabels haddr
  let σ := (sc.body g₁).sketch []
  have h₁ := ((h.addLabel σ).addLabel σ).addLabel σ
  have hone : (g₁.onBody Draft.addLabel).body.labels.size = g₁.body.labels.size + 1 :=
    Array.size_push ..
  have htwo : ((g₁.onBody Draft.addLabel).onBody Draft.addLabel).body.labels.size =
      g₁.body.labels.size + 2 := (Array.size_push ..).trans (congrArg (· + 1) hone)
  have hlast (τ : Sketch) (L : List Sketch) : L <+: L ++ [τ] := List.prefix_append ..
  have hleading : Leading (((L₁ ++ [σ]) ++ [σ]) ++ [σ]) k σ :=
    ⟨getElem?_mono ((hlast σ _).trans (hlast σ _)) (h.newest htop σ),
      getElem?_mono (hlast σ _) ((h.addLabel σ).newest (htest.trans hone.symm) σ),
      ((h.addLabel σ).addLabel σ).newest (hexit.trans htwo.symm) σ⟩
  have hgrows := h.grows.labels_size
  refine ⟨_, ((hlast σ _).trans (hlast σ _)).trans (hlast σ _), hleading, by omega, by omega, ?_⟩
  refine (h₁.leap (.jump hleading.test (.refl _)) []).mark hleading.top haddr (by omega) ?_
  rw [hone, htwo, htop, htest, hexit]
  simp

/-- Behind the body of a loop come its test and a jump back to the body. -/
theorem Moves.exitLoop {k : LoopLabels} {i : Instruction}
    (h : sc.Moves g [k.exit.toNat] g₁ L₁ [.word .bool] m n) (hs : g₁.scopes = g'.scopes)
    (hk : Leading L₁ k ((sc.body g').sketch [])) (hnew : g.body.labels.size ≤ k.exit.toNat)
    (hi : i = .jumpIfTrue k.top) (haddr : ((g₁.body.emit i).mark k.exit.toNat).Addressable) :
    sc.Moves g [] (g₁.onBody fun d => (d.emit i).mark k.exit.toNat) L₁ [] m n := by
  subst hi
  rw [← sketch_congr hs] at hk
  exact (h.branch (.jumpIfTrue hk.top (.refl _))).mark hk.exit haddr hnew (by simp)

theorem typed_loop (hfair : sc.Fair) (c : Expr) {cs : List Construct} {ks : List Kept}
    {ls : List Slot} (hbody : sc.Typed cs ks ls) :
    sc.Typed (.openLoop :: cs ++ [.closeLoop c]) ks ls := by
  intro g L g' m n hk hl hg hb hx h haddr
  obtain ⟨g₂, h, hend⟩ := Gen.makes_forM_append.mp h
  obtain ⟨g₁, hopen, hinner⟩ := Gen.makes_forM_cons.mp h
  have haddr₂ := (Gen.makes_constructs_later hend).addressable haddr
  have haddr₁ := (Gen.makes_constructs_later hinner).addressable haddr₂
  obtain ⟨k, hlabels, rfl⟩ := Gen.makes_openLoop hopen
  obtain ⟨L₁, hL₁, hleading, htest, hexit, h₁⟩ := (Moves.refl hg hb).enterLoop hlabels haddr₁.body
  have hx₁ : sc.Exits ((g.onBody fun d => (d.addLabel.addLabel.addLabel.emit
      (.jump k.test)).mark k.top.toNat).withPending (.loop k :: g.pending)) L₁ := by
    rintro _ ⟨⟩
    exact ⟨_, hleading.exit, .refl _⟩
  obtain ⟨L₂, hL₂, h₂, hs₂, hp₂⟩ := hbody.moves (h₁.suspend _) hk hl hx₁ hinner haddr₂
  have hleading₂ := hleading.mono hL₂
  obtain ⟨g₃, hc, rfl⟩ := Gen.makes_closeLoop hp₂ (Gen.makes_forM_one.mp hend)
  have haddr₃ : g₃.body.Addressable :=
    haddr.body.of_longer ((Draft.longer_emit _ _).trans (Draft.longer_mark _ _))
  have hmarked : (g₂.body.mark k.test.toNat).Addressable :=
    haddr₃.of_longer (((Expr.operand_extends .function c).compileAs _).extended hc).longer
  have h₃ := h₂.mark (k := k.test.toNat) (q := [k.exit.toNat])
    ((sketch_congr hs₂ []).symm ▸ hleading₂.test) hmarked htest (by simp)
  obtain ⟨L₃, hL₃, hs₃, hp₃, -, h₄⟩ := h₃.value hfair hc haddr₃
  have hs : g₃.scopes = g.scopes := hs₃.trans hs₂
  have h₅ := h₄.exitLoop hs (hleading₂.mono hL₃) hexit rfl haddr.body
  exact (h₅.suspend _).reaches ((hL₁.trans hL₂).trans hL₃) hs
    (congrArg List.tail (hp₃.trans hp₂))

/-! ## Scopes -/

theorem Holds.openScope (h : sc.Holds g m n) : sc.Holds (g.withScopes g.scopes.push) m n :=
  ⟨⟨h.size, h.bound, rfl, fun v hv => h.visible v (Scopes.has_push.mp hv), h.functions⟩,
    h.current, h.closed, h.initializer⟩

/-- Behind the end of a scope the variables outside it are known as before. -/
theorem Moves.closeScope (h : sc.Moves g l g₁ L₁ s m n) (hg : g.scopes.isGlobal = false)
    (hs : g₁.scopes.pop = g.scopes) : sc.Moves g l (g₁.withScopes g₁.scopes.pop) L₁ s m n := by
  refine ⟨⟨⟨h.holds.size, h.holds.bound, ?_, fun v hv => h.holds.visible v hv.of_pop,
    h.holds.functions⟩, h.holds.current, h.holds.closed, h.holds.initializer⟩, h.functions,
    h.routines, h.grows, ?_⟩
  · exact (congrArg Scopes.isGlobal hs).trans hg
  · exact Draft.Charted.weaken h.body ⟨rfl, Scopes.localArrays_pop_subset, subset_rfl⟩

/-! ## Counting loops -/

/-- The step of a counting loop is an integer. -/
theorem Moves.step (h : sc.Moves g l g₁ L₁ s m n) (hfair : sc.Fair) {range : Range}
    (hm : Gen.Makes (Gen.stepOf range) g₁ ⟨⟩ g') (haddr : g'.body.Addressable) :
    ∃ L', L₁ <+: L' ∧ g'.scopes = g₁.scopes ∧ g'.pending = g₁.pending ∧
      sc.Moves g l g' L' (.word .int :: s) m n := by
  unfold Gen.stepOf at hm
  split at hm
  · obtain ⟨L', hL, hs, hp, -, h'⟩ := h.value hfair hm haddr
    exact ⟨L', hL, hs, hp, h'⟩
  · obtain rfl := Gen.makes_emitBody.mp hm
    exact ⟨L₁, List.prefix_rfl, rfl, rfl, h.emit fun _ => .pushInt (WordType.valid_int 1)⟩

/-- The end of a counting loop is an integer. -/
theorem Moves.bound (h : sc.Moves g l g₁ L₁ s m n) (hfair : sc.Fair) {range : Range}
    (hr : range.bound.isSome) (hm : Gen.Makes (Gen.boundOf range) g₁ ⟨⟩ g')
    (haddr : g'.body.Addressable) :
    ∃ L', L₁ <+: L' ∧ g'.scopes = g₁.scopes ∧ g'.pending = g₁.pending ∧
      sc.Moves g l g' L' (.word .int :: s) m n := by
  obtain ⟨⟨last, step⟩, hlast⟩ := Option.isSome_iff_exists.mp hr
  rw [Gen.boundOf, hlast] at hm
  obtain ⟨L', hL, hs, hp, -, h'⟩ := h.value hfair hm haddr
  exact ⟨L', hL, hs, hp, h'⟩

/-- A counter is a local variable in a scope of its own. -/
theorem moves_counter (hfair : sc.Fair) (hg : sc.Holds g m n) (hb : sc.Body g L [])
    (hl : sc.outline.locals[n]? = some (.scalar .int)) {counter : Name} {slot : UInt32} {v : Symbol}
    (hslot : Gen.Makes Gen.addLocal (g.withScopes g.scopes.push) slot g₁) (ht : v.type = .int)
    (hshape : v.shape = .scalar) (hh : v.handle = .local slot)
    (hg' : g' = g₁.withScopes (g₁.scopes.withCurrent (g₁.scopes.current.insert counter.value v))) :
    slot.toNat = n ∧ g'.scopes.pop = g.scopes ∧ g'.pending = g.pending ∧
      sc.Moves g [] g' L [] m (n + 1) := by
  obtain ⟨f, hf, hname, hparams, hreturns, hn⟩ := hg.current
  obtain ⟨rfl, rfl⟩ := Gen.makes_addLocal (g := g.withScopes g.scopes.push) hf hslot
  have hlocals := hfair.toNat_locals hl hn
  have ha : v.isArray = false := by rw [Symbol.isArray, hshape]
  have hkeeps : sc.Keeps g'.fields.size v := by
    unfold Keeps
    rw [hh, Symbol.slot_of_scalar ha, ht]
    exact (congrArg (sc.outline.locals[·]?) hn).trans hl
  have hnames : sc.Names g' m := by
    refine hg.openScope.toNames.insert ?_ le_rfl hg.bound (congrArg Generator.scopes hg') ?_ hkeeps
    · rw [hg']
      exact hg.size
    · rw [hg']
      rfl
  subst hg'
  refine ⟨hn, ?_, rfl, ⟨hnames, ⟨{ f with locals := f.locals + 1 }, rfl, hname, hparams, hreturns,
    hlocals⟩, hg.closed,
    hg.initializer⟩, rfl, rfl, Draft.Grows.refl _, Draft.Charted.weaken hb ⟨rfl, ?_, subset_rfl⟩⟩
  · exact Scopes.pop_withCurrent _ rfl
  · refine (localArrays_insert_subset (s := g.scopes.push) fun h => ?_).trans
      Scopes.localArrays_push.subset
    rw [ha] at h
    cases h

/-- The counter gets its first value, and the loop is entered. -/
theorem moves_openCount (hfair : sc.Fair) (hg : sc.Holds g m n) (hb : sc.Body g L [])
    (hl : sc.outline.locals[n]? = some (.scalar .int)) {counter : Name} {range : Range}
    (h : Gen.Makes (Gen.openCount counter range) g ⟨⟩ g₁) (haddr : g₁.body.Addressable) :
    range.bound.isSome ∧ ∃ slot k L₁, slot.toNat = n ∧ g₁.scopes.pop = g.scopes ∧
      g₁.pending = .count slot k :: g.pending ∧ L <+: L₁ ∧
      Leading L₁ k ((sc.body g₁).sketch []) ∧ g.body.labels.size ≤ k.test.toNat ∧
      g.body.labels.size ≤ k.exit.toNat ∧
      sc.Moves g [k.test.toNat, k.exit.toNat] g₁ L₁ [] m (n + 1) := by
  obtain ⟨hbound, g₂, g₃, g₄, slot, v, k, hslot, rfl, hg₃, hstart, hlabels, rfl⟩ :=
    Gen.makes_openCount h
  obtain ⟨hn, hpop, hp, h₃⟩ := moves_counter hfair hg hb hl hslot rfl rfl rfl hg₃
  obtain ⟨L₄, hL₄, hs₄, hp₄, -, h₄⟩ := h₃.value hfair hstart
    (haddr.of_longer ((Draft.longer_emit _ _).trans (Draft.longer_enterLoop _ _)))
  have hword : sc.outline.locals[slot.toNat]? = some (.scalar .int) := by rw [hn, hl]
  obtain ⟨L₅, hL₅, hleading, htest, hexit, h₅⟩ :=
    (h₄.emit fun _ => .storeLocal hword).enterLoop hlabels haddr
  exact ⟨hbound, slot, k, L₅, hn, (congrArg Scopes.pop hs₄).trans hpop,
    congrArg (Pending.count slot k :: ·) (hp₄.trans hp), hL₄.trans hL₅, hleading, htest, hexit,
    h₅.suspend _⟩

/-- Behind the body the counter goes one step and is compared with the end. -/
theorem Moves.closeCount (hfair : sc.Fair) {slot : UInt32} {k : LoopLabels} {ps : List Pending}
    (h : sc.Moves g [k.test.toNat, k.exit.toNat] g₁ L₁ [] m n)
    (hl : sc.outline.locals[slot.toNat]? = some (.scalar .int)) {range : Range}
    (hbound : range.bound.isSome) (hp : g₁.pending = .count slot k :: ps)
    (hk : Leading L₁ k ((sc.body g₁).sketch [])) (htest : g.body.labels.size ≤ k.test.toNat)
    (hexit : g.body.labels.size ≤ k.exit.toNat)
    (hm : Gen.Makes (Gen.closeCount range) g₁ ⟨⟩ g') (haddr : g'.body.Addressable) :
    ∃ g₂ L', g' = (g₂.withPending ps).withScopes g₁.scopes.pop ∧ g₂.scopes = g₁.scopes ∧
      L₁ <+: L' ∧ sc.Moves g [] g₂ L' [] m n := by
  obtain ⟨g₂, g₃, g₄, hstep, hg₃, hlast, rfl⟩ := Gen.makes_closeCount hp hm
  -- The states between the parts can be numbered as the last one can.
  have haddr₄ : g₄.body.Addressable :=
    haddr.of_longer ((Draft.longer_emitAll _ _).trans (Draft.longer_mark _ _))
  have haddr₃ : g₃.body.Addressable :=
    haddr₄.of_longer ((Gen.extends_boundOf range).extended hlast).longer
  have hmarked : (((g₂.body.emit (.binary .add)).emit (.storeLocal slot)).mark
      k.test.toNat).Addressable := by
    subst hg₃
    exact haddr₃.of_longer (Draft.longer_emit _ _)
  have haddr₂ : g₂.body.Addressable := hmarked.of_longer
    (((Draft.longer_emit _ _).trans (Draft.longer_emit _ _)).trans (Draft.longer_mark _ _))
  have hload {L : List Sketch} {s : List Cell} {a f : Set Nat} : Takes sc.loosePlan sc.outline L
      (.loadLocal slot) ⟨s, a, f⟩ (some ⟨.word .int :: s, a, f⟩) := .loadLocal hl nofun
  -- The step is computed from the counter.
  obtain ⟨L₂, hL₂, hs₂, hp₂, h₂⟩ := (h.emit fun _ => hload).step hfair hstep haddr₂
  have hsketch : (sc.body g₂).sketch [] = (sc.body g₁).sketch [] := sketch_congr hs₂ []
  have hk₂ : Leading L₂ k ((sc.body g₂).sketch []) := hsketch ▸ hk.mono hL₂
  -- The counter is stored, the test is marked, and the counter is loaded again.
  have h₃ : sc.Moves g [k.exit.toNat] g₃ L₂ [.word .int] m n := by
    subst hg₃
    exact (((h₂.emit fun _ => .binary (show BinaryOp.add.Types .int .int from ⟨rfl, rfl⟩)).emit
      fun _ => .storeLocal hl).mark (k := k.test.toNat) (q := [k.exit.toNat]) hk₂.test
        hmarked htest (by simp)).emit fun _ => hload
  have hs₃ : g₃.scopes = g₁.scopes := by
    subst hg₃
    exact hs₂
  have hp₃ : g₃.pending = g₁.pending := by
    subst hg₃
    exact hp₂
  obtain ⟨L₄, hL₄, hs₄, hp₄, h₄⟩ := h₃.bound hfair hbound hlast haddr₄
  have hs₅ : g₄.scopes = g₁.scopes := hs₄.trans hs₃
  -- The test is the comparison that is not true.
  have h₅ := ((h₄.emit fun _ => .binary (BinaryOp.types_gt .int)).emit
    fun _ => .pushInt (WordType.valid_zero .bool)).emit fun _ => .binary (BinaryOp.types_eq .bool)
  have h₆ := h₅.exitLoop hs₅ ((hk.mono hL₂).mono hL₄) hexit rfl haddr
  refine ⟨g₄.onBody fun d => (d.emitAll [.binary .gt, .pushInt 0, .binary .eq,
    .jumpIfTrue k.top]).mark k.exit.toNat, L₄, ?_, hs₅, hL₂.trans hL₄, h₆⟩
  rw [hs₅, hp₄, hp₃, hp, List.tail_cons]

theorem typed_count (hfair : sc.Fair) (counter : Name) (range : Range) {cs : List Construct}
    {ks : List Kept} {ls : List Slot} (hbody : sc.Typed cs ks ls) :
    sc.Typed (.openCount counter range :: cs ++ [.closeCount range]) ks (.scalar .int :: ls) := by
  intro g L g' m n hk hl hg hb hx h haddr
  obtain ⟨hcounter, hl⟩ := StandsAt.cons_iff.mp hl
  obtain ⟨g₂, h, hend⟩ := Gen.makes_forM_append.mp h
  obtain ⟨g₁, hopen, hinner⟩ := Gen.makes_forM_cons.mp h
  have haddr₂ := (Gen.makes_constructs_later hend).addressable haddr
  have haddr₁ := (Gen.makes_constructs_later hinner).addressable haddr₂
  obtain ⟨hbound, slot, k, L₁, hn, hpop, hp₁, hL₁, hleading, htest, hexit, h₁⟩ :=
    moves_openCount hfair hg hb hcounter hopen haddr₁.body
  have hx₁ : sc.Exits g₁ L₁ := by
    intro j hj
    rw [hp₁] at hj
    obtain rfl := Option.some.inj hj
    exact ⟨_, hleading.exit, .refl _⟩
  obtain ⟨L₂, hL₂, h₂, hs₂, hp₂⟩ := hbody.moves h₁ hk hl hx₁ hinner haddr₂
  have hleading₂ := hleading.mono hL₂
  rw [← sketch_congr hs₂] at hleading₂
  obtain ⟨g₃, L₃, rfl, hs₃, hL₃, h₃⟩ := h₂.closeCount hfair (by rw [hn, hcounter]) hbound
    (hp₂.trans hp₁) hleading₂ htest hexit (Gen.makes_forM_one.mp hend) haddr.body
  have hpop₃ : g₃.scopes.pop = g.scopes := by rw [hs₃, hs₂, hpop]
  rw [List.length_cons, Nat.add_comm ls.length, ← Nat.add_assoc, ← hs₃]
  exact ((h₃.suspend g.pending).closeScope hg.inner hpop₃).reaches ((hL₁.trans hL₂).trans hL₃)
    hpop₃ rfl

/-! ## Blocks -/

/-- The declarations at the beginning of a block. -/
theorem moves_declarations (hfair : sc.Fair) {ds : List Declaration} {L₀ : List Sketch}
    (h : sc.Moves g [] g₁ L₁ [] m n) (hk : StandsAt (ds.flatMap Declaration.kept) sc.kept m)
    (hl : StandsAt (ds.flatMap Declaration.locals) sc.outline.locals n) (hL : L₀ <+: L₁)
    (hm : Gen.Makes ((ds.map .locals).forM Construct.compile) g₁ ⟨⟩ g') (haddr : g'.Addressable) :
    ∃ L', L₀ <+: L' ∧ g'.scopes.pop = g₁.scopes.pop ∧ g'.pending = g₁.pending ∧
      sc.Moves g [] g' L' [] (m + (ds.flatMap Declaration.kept).length)
        (n + (ds.flatMap Declaration.locals).length) := by
  induction ds generalizing g₁ L₁ m n with
  | nil =>
    obtain rfl := Gen.makes_forM_nil.mp hm
    exact ⟨L₁, hL, rfl, rfl, h⟩
  | cons d ds ih =>
    rw [List.flatMap_cons] at hk hl
    obtain ⟨hk₁, hk₂⟩ := StandsAt.append_iff.mp hk
    obtain ⟨hl₁, hl₂⟩ := StandsAt.append_iff.mp hl
    obtain ⟨g₂, hfirst, hrest⟩ := Gen.makes_forM_cons.mp hm
    have haddr₂ := (Gen.makes_constructs_later hrest).addressable haddr
    have hr := reaches_declaration hfair hk₁ hl₁ h.holds h.body hfirst haddr₂
    obtain ⟨L₂, hL₂, h₂⟩ := h.reach hr
    obtain ⟨L', hL', hpop, hp, h'⟩ := ih h₂ hk₂ hl₂ (hL.trans hL₂) hrest
    rw [List.flatMap_cons, List.flatMap_cons, List.length_append, List.length_append,
      ← Nat.add_assoc, ← Nat.add_assoc]
    exact ⟨L', hL', hpop.trans hr.outer, hp.trans hr.pending, h'⟩

theorem typed_block (hfair : sc.Fair) (ds : List Declaration) {cs : List Construct}
    {ks : List Kept} {ls : List Slot} (hbody : sc.Typed cs ks ls) :
    sc.Typed (.openBlock :: ds.map .locals ++ cs ++ [.closeBlock])
      (ds.flatMap Declaration.kept ++ ks) (ds.flatMap Declaration.locals ++ ls) := by
  intro g L g' m n hk hl hg hb hx h haddr
  obtain ⟨hk₁, hk₂⟩ := StandsAt.append_iff.mp hk
  obtain ⟨hl₁, hl₂⟩ := StandsAt.append_iff.mp hl
  obtain ⟨g₃, h, hend⟩ := Gen.makes_forM_append.mp h
  obtain ⟨g₂, h, hinner⟩ := Gen.makes_forM_append.mp h
  obtain ⟨g₁, hopen, hdecls⟩ := Gen.makes_forM_cons.mp h
  obtain rfl := Gen.makes_openScope.mp hopen
  have h₁ : sc.Moves g [] (g.withScopes g.scopes.push) L [] m n :=
    ⟨hg.openScope, rfl, rfl, Draft.Grows.refl _,
      Draft.Charted.weaken hb ⟨rfl, Scopes.localArrays_push.subset, subset_rfl⟩⟩
  have haddr₃ := (Gen.makes_constructs_later hend).addressable haddr
  have haddr₂ := (Gen.makes_constructs_later hinner).addressable haddr₃
  obtain ⟨L₂, hL₂, hpop₂, hp₂, h₂⟩ :=
    moves_declarations hfair h₁ hk₁ hl₁ List.prefix_rfl hdecls haddr₂
  -- inside the block at least as much is ready as in front of it
  have hx₂ : sc.Exits g₂ L₂ := by
    refine hx.mono hL₂ (by rw [hp₂]; rfl) ?_
    have hsub : g₂.scopes.pop.localArrays ⊆ g₂.scopes.localArrays := Scopes.localArrays_pop_subset
    rwa [hpop₂] at hsub
  obtain ⟨L₃, hL₃, h₃, hs₃, hp₃⟩ := hbody.moves h₂ hk₂ hl₂ hx₂ hinner haddr₃
  have hpop₃ : g₃.scopes.pop = g.scopes := by rw [hs₃, hpop₂]; rfl
  obtain rfl := Gen.makes_closeScope.mp (Gen.makes_forM_one.mp hend)
  rw [List.length_append, List.length_append, ← Nat.add_assoc, ← Nat.add_assoc]
  exact (h₃.closeScope hg.inner hpop₃).reaches (hL₂.trans hL₃) hpop₃ (hp₃.trans hp₂)

end Scene

/-! ## All statements -/

/-- **Code for statements is typed.** In any function, wherever a statement stands. -/
theorem Scene.typed_statement {sc : Scene} (hfair : sc.Fair) (s : Stmt) :
    sc.Typed s.constructs s.kept s.locals := by
  induction s using Stmt.induct with
  | block ds body ih =>
    have hbody : sc.Typed (Stmt.constructsOf body) (Stmt.keptOf body) (Stmt.localsOf body) := by
      induction body with
      | nil => exact typed_nil
      | cons s ss ihs => exact (ih s (.head _)).append (ihs fun t ht => ih t (.tail _ ht))
    exact typed_block hfair ds hbody
  | expr e => exact typed_effect hfair e
  | empty semicolon => exact typed_nil
  | choice c body ih => exact typed_choice hfair c ih
  | choiceOr c body otherwise ih ih' => exact typed_choiceOr hfair c ih ih'
  | loop c body ih => exact typed_loop hfair c ih
  | count counter range body ih => exact typed_count hfair counter range ih
  | ret word value => exact typed_ret hfair word value
  | leave word => exact typed_leave word

theorem Scene.typed_statements {sc : Scene} (hfair : sc.Fair) (body : List Stmt) :
    sc.Typed (Stmt.constructsOf body) (Stmt.keptOf body) (Stmt.localsOf body) := by
  induction body with
  | nil => exact typed_nil
  | cons s ss ih => exact (typed_statement hfair s).append ih

end OnePass
