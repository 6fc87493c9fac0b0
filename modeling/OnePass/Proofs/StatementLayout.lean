import OnePass.Proofs.ControlRuns
import OnePass.Proofs.StatementCode

/-!
# Where the pieces of statements stand

`Scene.Stands` says that constructs have been compiled in a function, and that the finished code of
the function begins with what there is behind them. For each kind of statement there is a structure
of its pieces: it says where the code of the parts begins and ends, where the labels between them
lead, and that the parts stand there as well. A statement that stands somewhere has such pieces.

A label that is marked behind a part is open in the part. So what is known of the finished code is
read backwards, from the end of the statement (`Code.Continues.of_mark`).
-/

namespace OnePass

/-! ## Going on within a function -/

/-- Generation has gone on within a function. -/
structure Generator.Follows (g g' : Generator) : Prop where
  functions : g'.functions = g.functions
  legacy : g'.legacy = g.legacy
  position : g.body.position ≤ g'.body.position

theorem Generator.Follows.trans {g g₁ g' : Generator} (h : g.Follows g₁) (h' : g₁.Follows g') :
    g.Follows g' :=
  ⟨h'.functions.trans h.functions, h'.legacy.trans h.legacy, h.position.trans h'.position⟩

theorem Gen.Extends.follows {α : Type} {t : Target} {m : Gen α} {g g' : Generator} {a : α}
    (h : Gen.Extends t m) (hm : Gen.Makes m g a g') : g.Follows g' := by
  obtain ⟨d, rfl, hd⟩ := h g a g' hm
  refine ⟨by simp, by simp, ?_⟩
  cases t with
  | initializer => exact Nat.le_refl _
  | function => exact hd.position

/-! ## Choices in code -/

/-- Between two branches, the label behind the choice is open. -/
theorem Draft.label_between {d : Draft} {k done : UInt32} (hk : d.labels[k.toNat]? = some none)
    (hdone : done.toNat = d.labels.size) :
    ((d.addLabel.emit (.jump done)).mark k.toNat).labels[done.toNat]? = some none := by
  have hlt := (Array.getElem?_eq_some_iff.mp hk).1
  rw [hdone]
  simp [Draft.mark, Draft.emit, Draft.addLabel, hlt.ne]

/-- What is between two branches is in the code: a jump behind the choice, and the label in front of
the second branch. -/
theorem Code.Continues.between {c : Code} {d : Draft} {k done : UInt32}
    (hk : d.labels[k.toNat]? = some none)
    (h : c.Continues ((d.addLabel.emit (.jump done)).mark k.toNat)) :
    c.instructions[d.position]? = some (.jump done) ∧ c.target? k = some (d.position + 1) ∧
      c.Continues d := by
  have hlt := (Array.getElem?_eq_some_iff.mp hk).1
  have hopen : (d.addLabel.emit (.jump done)).labels[k.toNat]? = some none := by
    simp [Draft.emit, Draft.addLabel, Array.getElem?_push, hlt.ne, hk]
  have hjump := h.of_mark hopen
  have htarget := h.target? (Array.getElem?_eq_some_iff.mp hopen).1
  rw [Draft.position_emit, Draft.position_addLabel] at htarget
  exact ⟨hjump.getElem?, htarget, hjump.of_emit.of_addLabel⟩

/-! ## Loops in code -/

/-- A loop of the code that is entered at `entry`, by a jump to its test. Behind the test, at
`jump`, control goes back to the body if the test is passed. -/
def Code.Loops (c : Code) (entry test jump : Nat) : Prop :=
  ∃ top l : UInt32, c.instructions[entry]? = some (.jump l) ∧ c.target? l = some test ∧
    c.instructions[jump]? = some (.jumpIfTrue top) ∧ c.target? top = some (entry + 1)

/-- The labels of a loop that is entered. Only the one in front of the body is marked. -/
theorem LoopLabels.From.labels {d : Draft} {k : LoopLabels} (h : k.From d.labels.size) :
    let d' := (d.addLabel.addLabel.addLabel.emit (.jump k.test)).mark k.top.toNat
    d'.labels[k.top.toNat]? = some (some (.ofNat (d.position + 1))) ∧
      d'.labels[k.test.toNat]? = some none ∧ d'.labels[k.exit.toNat]? = some none := by
  obtain ⟨htop, htest, hexit⟩ := h
  rw [htop, htest, hexit]
  simp only [Draft.mark, Draft.emit, Draft.addLabel, Draft.position, Array.getElem?_push,
    Array.getElem?_setIfInBounds, Array.size_push]
  simp
  omega

/-- A loop whose beginning is in the code. -/
theorem LoopLabels.From.entered {c : Code} {d : Draft} {k : LoopLabels} (hk : k.From d.labels.size)
    (h : c.Continues ((d.addLabel.addLabel.addLabel.emit (.jump k.test)).mark k.top.toNat)) :
    c.instructions[d.position]? = some (.jump k.test) ∧ c.target? k.top = some (d.position + 1) ∧
      c.Continues d := by
  have hopen : (d.addLabel.addLabel.addLabel.emit (.jump k.test)).labels[k.top.toNat]? =
      some none := by
    simp only [Draft.emit, Draft.addLabel, Array.getElem?_push, Array.size_push]
    rw [hk.1, if_neg (by omega), if_neg (by omega), if_pos rfl]
  have hjump := h.of_mark hopen
  have htarget := h.target? (Array.getElem?_eq_some_iff.mp hopen).1
  rw [Draft.position_emit] at htarget
  exact ⟨hjump.getElem?, htarget, hjump.of_emit.of_addLabel.of_addLabel.of_addLabel⟩

/-- A loop whose end is in the code. -/
theorem Code.Continues.left {c : Code} {d : Draft} {k : LoopLabels}
    (h : c.Continues ((d.emit (.jumpIfTrue k.top)).mark k.exit.toNat))
    (hexit : d.labels[k.exit.toNat]? = some none) :
    c.instructions[d.position]? = some (.jumpIfTrue k.top) ∧
      c.target? k.exit = some (d.position + 1) ∧ c.Continues d := by
  have hback := h.of_mark hexit
  have htarget := h.target? (Array.getElem?_eq_some_iff.mp hexit).1
  rw [Draft.position_emit] at htarget
  exact ⟨hback.getElem?, htarget, hback.of_emit⟩

/-- A loop with the labels `k` is in the code `c`. There was `d` in front of it, `d₁` behind its
body, where the test is marked, and `d₂` behind the test. -/
structure Code.Encloses (c : Code) (k : LoopLabels) (d d₁ d₂ : Draft) : Prop where
  front : c.Continues d
  body : c.Continues d₁
  test : c.Continues d₂
  loops : c.Loops d.position d₁.position d₂.position
  exit : c.target? k.exit = some (d₂.position + 1)

/-- A loop whose end is in the code is there as a whole. -/
theorem LoopLabels.From.encloses {c : Code} {d d₁ d₂ : Draft} {k : LoopLabels}
    (hk : k.From d.labels.size)
    (hbody : ((d.addLabel.addLabel.addLabel.emit (.jump k.test)).mark k.top.toNat).Grows d₁)
    (htest : (d₁.mark k.test.toNat).Grows d₂)
    (h : c.Continues ((d₂.emit (.jumpIfTrue k.top)).mark k.exit.toNat)) : c.Encloses k d d₁ d₂ := by
  obtain ⟨-, htest₁, hexit₁⟩ := hk.labels
  replace htest₁ := hbody.label htest₁
  have hne : k.test.toNat ≠ k.exit.toNat := by
    obtain ⟨-, h₁, h₂⟩ := hk
    omega
  have hexit₂ : d₂.labels[k.exit.toNat]? = some none := by
    refine htest.label ?_
    rw [Draft.mark, Array.getElem?_setIfInBounds, if_neg hne, hbody.label hexit₁]
  -- from the label behind the loop to the instruction in front
  obtain ⟨hback, hleave, htwo⟩ := Code.Continues.left h hexit₂
  have hmarked := htwo.mono htest.extended
  have hone := hmarked.of_mark htest₁
  obtain ⟨hentry, htop, hzero⟩ := hk.entered (hone.mono hbody.extended)
  have htarget := hmarked.target? (Array.getElem?_eq_some_iff.mp htest₁).1
  exact ⟨hzero, hone, htwo, ⟨k.top, k.test, hentry, htarget, hback, htop⟩, hleave⟩

namespace Gen

/-- The part of a counting loop behind its body, where the counter goes one step. -/
def advanceCode (slot : UInt32) (range : Range) : Gen Unit := do
  emitBody (.loadLocal slot)
  stepOf range
  emitBody (.binary .add)
  emitBody (.storeLocal slot)

/-- The test of a counting loop. -/
def withinCode (slot : UInt32) (range : Range) : Gen Unit := do
  emitBody (.loadLocal slot)
  boundOf range
  emitAll .function [.binary .gt, .pushInt 0, .binary .eq]

theorem extends_advanceCode (slot : UInt32) (range : Range) :
    Extends .function (advanceCode slot range) :=
  (extends_emit _).bind fun _ => (extends_stepOf range).bind fun _ => (extends_emit _).bind fun _ =>
    extends_emit _

theorem extends_withinCode (slot : UInt32) (range : Range) :
    Extends .function (withinCode slot range) :=
  (extends_emit _).bind fun _ => (extends_boundOf range).bind fun _ => extends_emitAll _

theorem makes_closeCount_pieces {range : Range} {slot : UInt32} {l : LoopLabels} {g g' : Generator}
    {u : Unit} {ps : List Pending} (hp : g.pending = .count slot l :: ps)
    (h : Makes (closeCount range) g u g') :
    ∃ g₁ g₂, Makes (advanceCode slot range) g ⟨⟩ g₁ ∧
      Makes (withinCode slot range) (g₁.onBody fun d => d.mark l.test.toNat) ⟨⟩ g₂ ∧
      g' = ((g₂.onBody fun d => (d.emit (.jumpIfTrue l.top)).mark l.exit.toNat).withPending
        g₂.pending.tail).withScopes g₂.scopes.pop := by
  obtain ⟨g₁, g₂, g₃, hstep, rfl, hbound, rfl⟩ := makes_closeCount hp h
  refine ⟨g₁.onBody fun d => (d.emit (.binary .add)).emit (.storeLocal slot),
    g₃.onBody fun d => d.emitAll [.binary .gt, .pushInt 0, .binary .eq], ?_, ?_, rfl⟩
  · exact makes_bind.mpr ⟨⟨⟩, _, makes_emitBody.mpr rfl, makes_bind.mpr ⟨⟨⟩, g₁, hstep,
      makes_bind.mpr ⟨⟨⟩, _, makes_emitBody.mpr rfl, makes_emitBody.mpr rfl⟩⟩⟩
  · exact makes_bind.mpr ⟨⟨⟩, _, makes_emitBody.mpr rfl, makes_bind.mpr ⟨⟨⟩, g₃, hbound,
      makes_emitAll.mpr rfl⟩⟩

end Gen

/-- The condition of a choice has code in the function only. -/
theorem Gen.follows_ifTrue {c : Expr} {g g₁ : Generator} {u : Unit}
    (h : Gen.Makes (Gen.ifTrue c) g u g₁) : g.Follows g₁ := by
  obtain ⟨g₂, l, hc, -, rfl⟩ := Gen.makes_ifTrue h
  have hfollows := ((Expr.operand_extends .function c).compileAs _).follows hc
  refine ⟨hfollows.functions, hfollows.legacy, hfollows.position.trans ?_⟩
  exact (Draft.position_emit ..).symm ▸ Nat.le_succ _

/-- The label that waits behind the condition of a choice is open. -/
theorem Gen.open_ifTrue {c : Expr} {g g₁ : Generator} {u : Unit} {k : UInt32} {ps : List Pending}
    (hp : g₁.pending = .choice k :: ps) (h : Gen.Makes (Gen.ifTrue c) g u g₁)
    (haddr : g₁.body.Addressable) : g₁.body.labels[k.toNat]? = some none := by
  obtain ⟨g₂, l, -, hlabel, rfl⟩ := Gen.makes_ifTrue h
  obtain ⟨rfl, -⟩ : l = k ∧ _ := by simpa [Generator.withPending] using hp
  have hl : l.toNat = g₂.body.labels.size := by
    rw [hlabel]
    exact haddr.toNat_addLabel (Draft.longer_emit _ _)
  simp [Generator.withPending, Generator.onBody, Draft.emit, Draft.addLabel, hl]

namespace Scene

variable {sc : Scene} {code : Code} {g g₁ g' : Generator} {L L₁ : List Sketch} {m n q : Nat}
  {cs cs' : List Construct} {ks ks' : List Kept} {ls ls' : List Slot}

/-- Constructs have been compiled in a function, in front of them `m` static variables and `n` local
slots, and the code of the function begins with what there is behind them. An exit from the loop
around them leads to `q`. -/
structure Stands (sc : Scene) (code : Code) (cs : List Construct) (ks : List Kept) (ls : List Slot)
    (g g' : Generator) (m n q : Nat) : Prop where
  kept : StandsAt ks sc.kept m
  locals : StandsAt ls sc.outline.locals n
  holds : sc.Holds g m n
  body : ∃ L, sc.Body g L [] ∧ sc.Exits g L
  makes : Gen.Makes (cs.forM Construct.compile) g ⟨⟩ g'
  addressable : g'.Addressable
  begins : code.Continues g'.body
  exit : ∀ k, g.pending.findSome? Pending.exit? = some k → code.target? k = some q

/-! ## The pieces of statements -/

/-- The pieces of a choice with one branch. -/
structure Choice (sc : Scene) (code : Code) (c : Expr) (cs : List Construct) (ks : List Kept)
    (ls : List Slot) (g g' : Generator) (m n q : Nat) where
  /-- in front of the branch -/
  first : Generator
  /-- behind the branch -/
  last : Generator
  /-- the label behind the choice -/
  done : UInt32
  opens : Gen.Makes (Gen.ifTrue c) g ⟨⟩ first
  pending : first.pending = .choice done :: g.pending
  scopes : first.scopes = g.scopes
  branch : sc.Stands code cs ks ls first last m n q
  done_target : code.target? done = some last.body.position
  closes : Gen.Makes Gen.endIf last ⟨⟩ g'
  ending : g'.body.position = last.body.position

/-- The pieces of a choice with two branches. Behind the first one there is a jump. -/
structure ChoiceOr (sc : Scene) (code : Code) (c : Expr) (cs cs' : List Construct)
    (ks ks' : List Kept) (ls ls' : List Slot) (g g' : Generator) (m n q : Nat) where
  /-- in front of the first branch -/
  first : Generator
  /-- behind the first branch -/
  last : Generator
  /-- in front of the second branch -/
  first' : Generator
  /-- behind the second branch -/
  last' : Generator
  /-- the label in front of the second branch -/
  otherwise : UInt32
  /-- the label behind the choice -/
  done : UInt32
  opens : Gen.Makes (Gen.ifTrue c) g ⟨⟩ first
  pending : first.pending = .choice otherwise :: g.pending
  scopes : first.scopes = g.scopes
  branch : sc.Stands code cs ks ls first last m n q
  between : Gen.Makes Gen.ifFalse last ⟨⟩ first'
  follows : last.Follows first'
  jump : code.instructions[last.body.position]? = some (.jump done)
  position' : first'.body.position = last.body.position + 1
  scopes' : first'.scopes = g.scopes
  branch' : sc.Stands code cs' ks' ls' first' last' (m + ks.length) (n + ls.length) q
  otherwise_target : code.target? otherwise = some first'.body.position
  done_target : code.target? done = some last'.body.position
  closes : Gen.Makes Gen.endIf last' ⟨⟩ g'
  ending : g'.body.position = last'.body.position

/-- The pieces of a loop while a condition holds. The condition is behind the body. -/
structure Loop (sc : Scene) (code : Code) (c : Expr) (cs : List Construct) (ks : List Kept)
    (ls : List Slot) (g g' : Generator) (m n : Nat) where
  /-- in front of the body -/
  first : Generator
  /-- behind the body -/
  last : Generator
  /-- in front of the condition -/
  test : Generator
  /-- behind the condition -/
  tested : Generator
  opens : Gen.Makes Gen.openLoop g ⟨⟩ first
  scopes : first.scopes = g.scopes
  enters : g.Follows first
  position : first.body.position = g.body.position + 1
  body : sc.Stands code cs ks ls first last m n g'.body.position
  test_scopes : test.scopes = g.scopes
  follows : last.Follows test
  test_position : test.body.position = last.body.position
  tests : Gen.Makes (c.compileAs .function (.scalar .bool)) test ⟨⟩ tested
  tested_code : code.Continues tested.body
  loops : code.Loops g.body.position last.body.position tested.body.position
  closes : Gen.Makes (Gen.closeLoop c) last ⟨⟩ g'
  ending : g'.body.position = tested.body.position + 1

/-- The pieces of a counting loop. Its counter is visible from its first value on. -/
structure Count (sc : Scene) (code : Code) (counter : Name) (range : Range) (cs : List Construct)
    (ks : List Kept) (ls : List Slot) (g g' : Generator) (m n : Nat) where
  /-- the slot of the counter -/
  slot : UInt32
  /-- the counter -/
  v : Symbol
  /-- in front of the first value -/
  start : Generator
  /-- behind the first value -/
  started : Generator
  /-- in front of the body -/
  first : Generator
  /-- behind the body, where the counter goes one step -/
  last : Generator
  /-- behind the step -/
  advanced : Generator
  /-- in front of the test -/
  test : Generator
  /-- behind the test -/
  tested : Generator
  bounded : range.bound.isSome
  slot_eq : slot.toNat = n
  v_eq : v = ⟨.int, .local, 0, .scalar, .local slot⟩
  start_scopes : start.scopes =
    g.scopes.push.withCurrent (g.scopes.push.current.insert counter.value v)
  holds : sc.Holds start m (n + 1)
  begins : g.Follows start
  start_position : start.body.position = g.body.position
  starts : Gen.Makes (prepareCode .function v (some range.start)) start ⟨⟩ started
  started_code : code.Continues started.body
  opens : Gen.Makes (Gen.openCount counter range) g ⟨⟩ first
  scopes : first.scopes = start.scopes
  enters : started.Follows first
  position : first.body.position = started.body.position + 1
  body : sc.Stands code cs ks ls first last m (n + 1) g'.body.position
  advances : Gen.Makes (Gen.advanceCode slot range) last ⟨⟩ advanced
  advanced_code : code.Continues advanced.body
  test_scopes : test.scopes = start.scopes
  follows : advanced.Follows test
  test_position : test.body.position = advanced.body.position
  tests : Gen.Makes (Gen.withinCode slot range) test ⟨⟩ tested
  tested_code : code.Continues tested.body
  loops : code.Loops started.body.position advanced.body.position tested.body.position
  closes : Gen.Makes (Gen.closeCount range) last ⟨⟩ g'
  ending : g'.body.position = tested.body.position + 1

/-- The pieces of a block: its declarations are in front of its statements. -/
structure Block (sc : Scene) (code : Code) (ds : List Declaration) (cs : List Construct)
    (ks : List Kept) (ls : List Slot) (g g' : Generator) (m n q : Nat) where
  /-- in front of the statements -/
  first : Generator
  /-- behind the statements -/
  last : Generator
  kept : StandsAt (ds.flatMap Declaration.kept) sc.kept m
  locals : StandsAt (ds.flatMap Declaration.locals) sc.outline.locals n
  holds : sc.Holds (g.withScopes g.scopes.push) m n
  charted : ∃ L, sc.Body (g.withScopes g.scopes.push) L []
  declares : Gen.Makes ((ds.map .locals).forM Construct.compile) (g.withScopes g.scopes.push) ⟨⟩
    first
  follows : (g.withScopes g.scopes.push).Follows first
  body : sc.Stands code cs ks ls first last (m + (ds.flatMap Declaration.kept).length)
    (n + (ds.flatMap Declaration.locals).length) q
  closes : Gen.Makes Gen.closeScope last ⟨⟩ g'
  ending : g'.body.position = last.body.position

/-- A counting loop begins with a scope of its counter. There the counter gets its first value,
between `start` and `started`, and behind that a loop is entered. -/
structure Opened (sc : Scene) (counter : Name) (range : Range) (slot : UInt32) (k : LoopLabels)
    (g start started first : Generator) (m n : Nat) : Prop where
  start_scopes : start.scopes = g.scopes.push.withCurrent (g.scopes.push.current.insert
    counter.value
    ⟨.int, .local, 0, .scalar, .local slot⟩)
  start_body : start.body = g.body
  holds : sc.Holds start m (n + 1)
  begins : g.Follows start
  starts : Gen.Makes (prepareCode .function ⟨.int, .local, 0, .scalar,
    .local slot⟩ (some range.start))
    start ⟨⟩ started
  labels : k = .behind started.body.labels.size
  scopes : first.scopes = start.scopes
  enters : started.Follows first
  body : first.body =
    (started.body.addLabel.addLabel.addLabel.emit (.jump k.test)).mark k.top.toNat

theorem Opened.position {counter : Name} {range : Range} {slot : UInt32} {k : LoopLabels}
    {start started first : Generator}
    (h : sc.Opened counter range slot k g start started first m n) :
    first.body.position = started.body.position + 1 := by
  rw [h.body]
  exact Draft.position_emit ..

theorem Opened.from_labels {counter : Name} {range : Range} {slot : UInt32} {k : LoopLabels}
    {start started first : Generator} (h : sc.Opened counter range slot k g start started first m n)
    (haddr : first.body.Addressable) : k.From started.body.labels.size :=
  LoopLabels.from_entered h.labels (h.body ▸ haddr)

theorem opened_openCount (hfair : sc.Fair) (hg : sc.Holds g m n) (hb : sc.Body g L [])
    (hl : sc.outline.locals[n]? = some (.scalar .int)) {counter : Name} {range : Range}
    {slot : UInt32}
    {k : LoopLabels} (hp : g₁.pending = .count slot k :: g.pending)
    (h : Gen.Makes (Gen.openCount counter range) g ⟨⟩ g₁) :
    ∃ start started, sc.Opened counter range slot k g start started g₁ m n := by
  -- The states inside the beginning: behind the counter, and behind its first value.
  obtain ⟨-, gₐ, g₀, gₛ, slot', v, k', hslot, hv, hg₀, hstart, hlabels, hg₁⟩ :=
    Gen.makes_openCount h
  -- The labels are those that are left open.
  obtain ⟨rfl, rfl⟩ : slot' = slot ∧ k' = k := by
    rw [hg₁] at hp
    simpa [Generator.withPending] using (List.cons.inj hp).1
  obtain ⟨-, -, -, h₀⟩ := moves_counter hfair hg hb hl hslot (by rw [hv]) (by rw [hv])
    (by rw [hv]) hg₀
  have hlegacy := Gen.steady_addLocal _ _ _ hslot
  obtain ⟨f, hf, -⟩ := hg.current
  obtain ⟨-, hgₐ⟩ := Gen.makes_addLocal (g := g.withScopes g.scopes.push) hf hslot
  have hscopesₐ : gₐ.scopes = g.scopes.push := by rw [hgₐ]; rfl
  have hbody₀ : g₀.body = g.body := by rw [hg₀, hgₐ]; rfl
  rw [hscopesₐ] at hv hg₀
  subst hv
  -- The first value is code, so it changes no scope.
  have hscopes₁ : g₁.scopes = g₀.scopes := by
    obtain ⟨d, hd, -⟩ := (Expr.operand_extends .function range.start).compileAs _ _ _ _ hstart
    rw [hg₁, hd]
    simp [Generator.withPending]
  have hbody₁ : g₁.body = ((gₛ.body.emit (.storeLocal slot')).addLabel.addLabel.addLabel.emit
      (.jump k'.test)).mark k'.top.toNat := by
    rw [hg₁]
    rfl
  refine ⟨g₀, gₛ.onBody fun d => d.emit (.storeLocal slot'), {
    start_scopes := by rw [hg₀]; rfl
    start_body := hbody₀
    holds := h₀.holds
    begins := ⟨h₀.functions, by rw [hg₀]; exact hlegacy.legacy, h₀.grows.position⟩
    starts := Gen.makes_bind.mpr ⟨⟨⟩, gₛ, hstart, Gen.makes_emitBody.mpr rfl⟩
    labels := hlabels
    scopes := hscopes₁
    enters := ⟨by rw [hg₁]; rfl, by rw [hg₁]; rfl, ?_⟩
    body := hbody₁ }⟩
  rw [hbody₁]
  exact (Nat.le_succ _).trans_eq (Draft.position_emit ..).symm

namespace Stands

/-! ## From the beginning to the end -/

section

variable (h : sc.Stands code cs ks ls g g' m n q) (hc : sc.Typed cs ks ls)
include h hc

theorem reaches : (∃ L, sc.Reaches g L g' (m + ks.length) (n + ls.length)) ∧
    g'.scopes = g.scopes := by
  obtain ⟨L, hb, hx⟩ := h.body
  obtain ⟨hr, hs⟩ := hc g L g' m n h.kept h.locals h.holds hb hx h.makes h.addressable
  exact ⟨⟨L, hr⟩, hs⟩

theorem follows : g.Follows g' := by
  obtain ⟨⟨L, hr⟩, -⟩ := h.reaches hc
  exact ⟨hr.functions, (Gen.makes_constructs_later h.makes).legacy, hr.grows.position⟩

/-- The code of the function begins with what there is in front of the constructs, too. -/
theorem start : code.Continues g.body := by
  obtain ⟨⟨L, hr⟩, -⟩ := h.reaches hc
  exact h.begins.mono hr.grows.extended

end

/-- One part and then another one. -/
theorem append (h : sc.Stands code (cs ++ cs') (ks ++ ks') (ls ++ ls') g g' m n q)
    (hc : sc.Typed cs ks ls) (hc' : sc.Typed cs' ks' ls') :
    ∃ g₁, sc.Stands code cs ks ls g g₁ m n q ∧
      sc.Stands code cs' ks' ls' g₁ g' (m + ks.length) (n + ls.length) q ∧
      g₁.scopes = g.scopes := by
  obtain ⟨hk₁, hk₂⟩ := StandsAt.append_iff.mp h.kept
  obtain ⟨hl₁, hl₂⟩ := StandsAt.append_iff.mp h.locals
  obtain ⟨L, hb, hx⟩ := h.body
  obtain ⟨g₁, h₁, h₂⟩ := Gen.makes_forM_append.mp h.makes
  have haddr₁ := (Gen.makes_constructs_later h₂).addressable h.addressable
  obtain ⟨hr, hs⟩ := hc g L g₁ m n hk₁ hl₁ h.holds hb hx h₁ haddr₁
  obtain ⟨L₁, hL₁, hb₁⟩ := hr.body
  have hx₁ : sc.Exits g₁ L₁ := hx.mono hL₁ (by rw [hr.pending]) (by rw [hs])
  have hsecond : sc.Stands code cs' ks' ls' g₁ g' (m + ks.length) (n + ls.length) q :=
    ⟨hk₂, hl₂, hr.holds, ⟨L₁, hb₁, hx₁⟩, h₂, h.addressable, h.begins, hr.pending ▸ h.exit⟩
  exact ⟨g₁, ⟨hk₁, hl₁, h.holds, ⟨L, hb, hx⟩, h₁, haddr₁, hsecond.start hc', h.exit⟩, hsecond, hs⟩

/-! ## Choices -/

/-- A choice with one branch. -/
theorem choice (hfair : sc.Fair) {c : Expr}
    (h : sc.Stands code (.ifTrue c :: cs ++ [.endIf]) ks ls g g' m n q) (hc : sc.Typed cs ks ls) :
    Nonempty (sc.Choice code c cs ks ls g g' m n q) := by
  obtain ⟨L, hb, hx⟩ := h.body
  obtain ⟨g₂, hm, hend⟩ := Gen.makes_forM_append.mp h.makes
  obtain ⟨g₁, hopen, hinner⟩ := Gen.makes_forM_cons.mp hm
  have haddr₂ := (Gen.makes_constructs_later hend).addressable h.addressable
  have haddr₁ := (Gen.makes_constructs_later hinner).addressable haddr₂
  obtain ⟨k, L₁, hp₁, hs₁, hL₁, -, -, h₁⟩ := moves_ifTrue hfair h.holds hb hopen haddr₁.body
  have hx₁ : sc.Exits g₁ L₁ := hx.mono hL₁ (by rw [hp₁]; rfl) (by rw [hs₁])
  obtain ⟨hr, -⟩ := hc g₁ L₁ g₂ m n h.kept h.locals h₁.holds h₁.body hx₁ hinner haddr₂
  obtain rfl := Gen.makes_endIf (hr.pending.trans hp₁) (Gen.makes_forM_one.mp hend)
  have hopen₂ := hr.grows.label (Gen.open_ifTrue hp₁ hopen haddr₁.body)
  have hstands : sc.Stands code cs ks ls g₁ g₂ m n q :=
    ⟨h.kept, h.locals, h₁.holds, ⟨L₁, h₁.body, hx₁⟩, hinner, haddr₂, h.begins.of_mark hopen₂,
      fun j hj => h.exit j (by rw [hp₁] at hj; exact hj)⟩
  exact ⟨{
    first := g₁
    last := g₂
    done := k
    opens := hopen
    pending := hp₁
    scopes := hs₁
    branch := hstands
    done_target := h.begins.target? (Array.getElem?_eq_some_iff.mp hopen₂).1
    closes := Gen.makes_forM_one.mp hend
    ending := rfl }⟩

/-- A choice with two branches. -/
theorem choiceOr (hfair : sc.Fair) {c : Expr} (h : sc.Stands code
      (.ifTrue c :: cs ++ .ifFalse :: cs' ++ [.endIf]) (ks ++ ks') (ls ++ ls') g g' m n q)
    (hc : sc.Typed cs ks ls) (hc' : sc.Typed cs' ks' ls') :
    Nonempty (sc.ChoiceOr code c cs cs' ks ks' ls ls' g g' m n q) := by
  obtain ⟨hk₁, hk₂⟩ := StandsAt.append_iff.mp h.kept
  obtain ⟨hl₁, hl₂⟩ := StandsAt.append_iff.mp h.locals
  obtain ⟨L, hb, hx⟩ := h.body
  obtain ⟨g₄, hm, hend⟩ := Gen.makes_forM_append.mp h.makes
  obtain ⟨g₂, hm, hsecond⟩ := Gen.makes_forM_append.mp hm
  obtain ⟨g₁, hopen, hfirst⟩ := Gen.makes_forM_cons.mp hm
  obtain ⟨g₃, hbetween, hsecond⟩ := Gen.makes_forM_cons.mp hsecond
  have haddr₄ := (Gen.makes_constructs_later hend).addressable h.addressable
  have haddr₃ := (Gen.makes_constructs_later hsecond).addressable haddr₄
  have haddr₂ := (Gen.steady_construct _ _ _ _ hbetween).addressable haddr₃
  have haddr₁ := (Gen.makes_constructs_later hfirst).addressable haddr₂
  obtain ⟨k, L₁, hp₁, hs₁, hL₁, hnew, hget, h₁⟩ := moves_ifTrue hfair h.holds hb hopen haddr₁.body
  have hx₁ : sc.Exits g₁ L₁ := hx.mono hL₁ (by rw [hp₁]; rfl) (by rw [hs₁])
  obtain ⟨hr, hs₂⟩ := hc g₁ L₁ g₂ m n hk₁ hl₁ h₁.holds h₁.body hx₁ hfirst haddr₂
  obtain ⟨L₂, hL₂, h₂⟩ := h₁.reach hr
  have hopen₂ := hr.grows.label (Gen.open_ifTrue hp₁ hopen haddr₁.body)
  obtain ⟨done, hlabel, hg₃⟩ := Gen.makes_ifFalse (hr.pending.trans hp₁) hbetween
  have hbody₃ : g₃.body = (g₂.body.addLabel.emit (.jump done)).mark k.toNat := by
    rw [hg₃]
    rfl
  have hdone : done.toNat = g₂.body.labels.size := by
    rw [hlabel]
    exact (hbody₃ ▸ haddr₃.body).toNat_addLabel
      ((Draft.longer_emit _ (.jump done)).trans (Draft.longer_mark _ k.toNat))
  obtain ⟨L₃, hL₃, -, h₃⟩ := h₂.ifFalse (hs₂.trans hs₁) hnew (getElem?_mono hL₂ hget) hdone
    (hbody₃ ▸ haddr₃.body) (.choice done :: g.pending)
  rw [← hg₃] at h₃
  have hs₃ : g₃.scopes = g.scopes := by
    rw [hg₃]
    exact hs₂.trans hs₁
  have hp₃ : g₃.pending = .choice done :: g.pending := by
    rw [hg₃]
    rfl
  have hx₃ : sc.Exits g₃ L₃ := hx.mono ((hL₁.trans hL₂).trans hL₃) (by rw [hp₃]; rfl) (by rw [hs₃])
  obtain ⟨hr', -⟩ := hc' g₃ L₃ g₄ _ _ hk₂ hl₂ h₃.holds h₃.body hx₃ hsecond haddr₄
  obtain rfl := Gen.makes_endIf (hr'.pending.trans hp₃) (Gen.makes_forM_one.mp hend)
  -- the labels of both branches, from the last one to the first
  have hdone₄ := hr'.grows.label (hbody₃ ▸ Draft.label_between hopen₂ hdone)
  have hfour : sc.Stands code cs' ks' ls' g₃ g₄ (m + ks.length) (n + ls.length) q :=
    ⟨hk₂, hl₂, h₃.holds, ⟨L₃, h₃.body, hx₃⟩, hsecond, haddr₄, h.begins.of_mark hdone₄,
      fun j hj => h.exit j (by rw [hp₃] at hj; exact hj)⟩
  obtain ⟨hjump, htarget, htwo⟩ := Code.Continues.between hopen₂ (hbody₃ ▸ hfour.start hc')
  have hposition : g₃.body.position = g₂.body.position + 1 := by
    rw [hbody₃, Draft.position_mark, Draft.position_emit, Draft.position_addLabel]
  have hfollows : g₂.Follows g₃ := by
    refine ⟨by rw [hg₃]; rfl, by rw [hg₃]; rfl, ?_⟩
    rw [hposition]
    exact Nat.le_succ _
  have hone : sc.Stands code cs ks ls g₁ g₂ m n q :=
    ⟨hk₁, hl₁, h₁.holds, ⟨L₁, h₁.body, hx₁⟩, hfirst, haddr₂, htwo,
      fun j hj => h.exit j (by rw [hp₁] at hj; exact hj)⟩
  exact ⟨{
    first := g₁
    last := g₂
    first' := g₃
    last' := g₄
    otherwise := k
    done := done
    opens := hopen
    pending := hp₁
    scopes := hs₁
    branch := hone
    between := hbetween
    follows := hfollows
    jump := hjump
    position' := hposition
    scopes' := hs₃
    branch' := hfour
    otherwise_target := hposition ▸ htarget
    done_target := h.begins.target? (Array.getElem?_eq_some_iff.mp hdone₄).1
    closes := Gen.makes_forM_one.mp hend
    ending := rfl }⟩

/-! ## Loops -/

/-- A loop while a condition holds. -/
theorem loop {c : Expr}
    (h : sc.Stands code (.openLoop :: cs ++ [.closeLoop c]) ks ls g g' m n q)
    (hc : sc.Typed cs ks ls) : Nonempty (sc.Loop code c cs ks ls g g' m n) := by
  obtain ⟨L, hb, hx⟩ := h.body
  -- The states between the parts of a loop, of which each can be numbered as the last one can.
  obtain ⟨g₂, hm, hclose⟩ := Gen.makes_forM_append.mp h.makes
  obtain ⟨g₁, hopen, hinner⟩ := Gen.makes_forM_cons.mp hm
  have haddr₂ := (Gen.makes_constructs_later hclose).addressable h.addressable
  have haddr₁ := (Gen.makes_constructs_later hinner).addressable haddr₂
  replace hclose := Gen.makes_forM_one.mp hclose
  obtain ⟨k, hlabels, rfl⟩ := Gen.makes_openLoop hopen
  obtain ⟨L₁, hL₁, hleading, -, -, h₁⟩ := (Moves.refl h.holds hb).enterLoop hlabels haddr₁.body
  -- A `break` in the body leads to the exit of this loop.
  have hx₁ : sc.Exits ((g.onBody fun d => (d.addLabel.addLabel.addLabel.emit
      (.jump k.test)).mark k.top.toNat).withPending (.loop k :: g.pending)) L₁ := by
    rintro _ ⟨⟩
    exact ⟨_, hleading.exit, .refl _⟩
  have h₁' := h₁.suspend (.loop k :: g.pending)
  obtain ⟨hr, hs⟩ := hc _ L₁ g₂ m n h.kept h.locals h₁'.holds h₁'.body hx₁ hinner haddr₂
  obtain ⟨g₄, hcond, rfl⟩ := Gen.makes_closeLoop hr.pending hclose
  have haddr₄ : g₄.body.Addressable :=
    h.addressable.body.of_longer ((Draft.longer_emit _ _).trans (Draft.longer_mark _ _))
  have hgrows : (g₂.body.mark k.test.toNat).Grows g₄.body :=
    (((Expr.operand_extends .function c).compileAs _).extended hcond).grows haddr₄.labels
  have hfrom := LoopLabels.from_entered hlabels haddr₁.body
  -- From the labels of the loop its code is told apart: the jump, the body and the test.
  have hencloses := hfrom.encloses hr.grows hgrows h.begins
  have hposition (i : Instruction) : ((g.body.addLabel.addLabel.addLabel.emit i).mark
      k.top.toNat).position = g.body.position + 1 := Draft.position_emit ..
  have hend (i : Instruction) : ((g₄.body.emit i).mark k.exit.toNat).position =
      g₄.body.position + 1 := Draft.position_emit ..
  have hstands : sc.Stands code cs ks ls _ g₂ m n (g₄.body.position + 1) :=
    ⟨h.kept, h.locals, h₁'.holds, ⟨L₁, h₁'.body, hx₁⟩, hinner, haddr₂, hencloses.body,
      fun j hj => by
      obtain rfl := Option.some.inj hj
      exact hencloses.exit⟩
  exact ⟨{
    first := _
    last := g₂
    test := g₂.onBody fun d => d.mark k.test.toNat
    tested := g₄
    opens := hopen
    scopes := rfl
    enters := ⟨rfl, rfl, (hposition (.jump k.test)).symm ▸ Nat.le_succ _⟩
    position := hposition _
    body := (hend (.jumpIfTrue k.top)).symm ▸ hstands
    test_scopes := hs
    follows := ⟨rfl, rfl, Nat.le_refl _⟩
    test_position := rfl
    tests := hcond
    tested_code := hencloses.test
    loops := hencloses.loops
    closes := hclose
    ending := hend _ }⟩

/-- A counting loop. -/
theorem count (hfair : sc.Fair) {counter : Name} {range : Range} (h : sc.Stands code
      (.openCount counter range :: cs ++ [.closeCount range]) ks (.scalar .int :: ls) g g' m n q)
    (hc : sc.Typed cs ks ls) : Nonempty (sc.Count code counter range cs ks ls g g' m n) := by
  -- The counter takes the first slot, the body the others.
  obtain ⟨hcounter, hl⟩ := StandsAt.cons_iff.mp h.locals
  obtain ⟨L, hb, hx⟩ := h.body
  -- The states between the parts of the loop.
  obtain ⟨g₂, hm, hclose⟩ := Gen.makes_forM_append.mp h.makes
  obtain ⟨g₁, hopen, hinner⟩ := Gen.makes_forM_cons.mp hm
  have haddr₂ := (Gen.makes_constructs_later hclose).addressable h.addressable
  have haddr₁ := (Gen.makes_constructs_later hinner).addressable haddr₂
  replace hclose := Gen.makes_forM_one.mp hclose
  obtain ⟨hbound, slot, k, L₁, hn, -, hp₁, -, hleading, -, -, h₁⟩ :=
    moves_openCount hfair h.holds hb hcounter hopen haddr₁.body
  -- A `break` in the body leads to the exit of this loop.
  have hx₁ : sc.Exits g₁ L₁ := by
    intro j hj
    rw [hp₁] at hj
    obtain rfl := Option.some.inj hj
    exact ⟨_, hleading.exit, .refl _⟩
  obtain ⟨hr, hs₂⟩ := hc g₁ L₁ g₂ m (n + 1) h.kept hl h₁.holds h₁.body hx₁ hinner haddr₂
  obtain ⟨g₃, g₅, hadvance, hwithin, rfl⟩ :=
    Gen.makes_closeCount_pieces (hr.pending.trans hp₁) hclose
  obtain ⟨g₀, gₛ, hopened⟩ := opened_openCount hfair h.holds hb hcounter hp₁ hopen
  have haddr₅ : g₅.body.Addressable :=
    h.addressable.body.of_longer ((Draft.longer_emit _ _).trans (Draft.longer_mark _ _))
  have hextended₅ := (Gen.extends_withinCode slot range).extended hwithin
  have haddr₃ : g₃.body.Addressable :=
    haddr₅.of_longer ((Draft.longer_mark _ _).trans hextended₅.longer)
  have hthree : g₂.body.Grows g₃.body :=
    ((Gen.extends_advanceCode slot range).extended hadvance).grows haddr₃.labels
  have hfive : (g₃.body.mark k.test.toNat).Grows g₅.body := hextended₅.grows haddr₅.labels
  -- From the labels of the loop its code is told apart.
  have hencloses := (hopened.from_labels haddr₁.body).encloses
    (hopened.body ▸ Draft.GrowsBut.trans hr.grows hthree) hfive h.begins
  have hend (i : Instruction) : ((g₅.body.emit i).mark k.exit.toNat).position =
      g₅.body.position + 1 := Draft.position_emit ..
  have hstands : sc.Stands code cs ks ls g₁ g₂ m (n + 1) (g₅.body.position + 1) :=
    ⟨h.kept, hl, h₁.holds, ⟨L₁, h₁.body, hx₁⟩, hinner, haddr₂,
      hencloses.body.mono hthree.extended, fun j hj => by
      rw [hp₁] at hj
      obtain rfl := Option.some.inj hj
      exact hencloses.exit⟩
  -- The step does not declare anything, so the scopes are those in front.
  have hscopes₃ : g₃.scopes = g₀.scopes := by
    obtain ⟨d, rfl, -⟩ := Gen.extends_advanceCode slot range _ _ _ hadvance
    exact hs₂.trans hopened.scopes
  exact ⟨{
    slot := slot
    v := _
    start := g₀
    started := gₛ
    first := g₁
    last := g₂
    advanced := g₃
    test := g₃.onBody fun d => d.mark k.test.toNat
    tested := g₅
    bounded := hbound
    slot_eq := hn
    v_eq := rfl
    start_scopes := hopened.start_scopes
    holds := hopened.holds
    begins := hopened.begins
    start_position := congrArg Draft.position hopened.start_body
    starts := hopened.starts
    started_code := hencloses.front
    opens := hopen
    scopes := hopened.scopes
    enters := hopened.enters
    position := hopened.position
    body := (hend (.jumpIfTrue k.top)).symm ▸ hstands
    advances := hadvance
    advanced_code := hencloses.body
    test_scopes := hscopes₃
    follows := ⟨rfl, rfl, Nat.le_refl _⟩
    test_position := rfl
    tests := hwithin
    tested_code := hencloses.test
    loops := hencloses.loops
    closes := hclose
    ending := hend _ }⟩

/-! ## Blocks -/

/-- A block. -/
theorem block (hfair : sc.Fair) {ds : List Declaration}
    (h : sc.Stands code (.openBlock :: ds.map .locals ++ cs ++ [.closeBlock])
      (ds.flatMap Declaration.kept ++ ks) (ds.flatMap Declaration.locals ++ ls) g g' m n q) :
    Nonempty (sc.Block code ds cs ks ls g g' m n q) := by
  obtain ⟨hk₁, hk₂⟩ := StandsAt.append_iff.mp h.kept
  obtain ⟨hl₁, hl₂⟩ := StandsAt.append_iff.mp h.locals
  obtain ⟨L, hb, hx⟩ := h.body
  obtain ⟨g₂, hm, hclose⟩ := Gen.makes_forM_append.mp h.makes
  obtain ⟨g₁, hm, hinner⟩ := Gen.makes_forM_append.mp hm
  have haddr₂ := (Gen.makes_constructs_later hclose).addressable h.addressable
  have haddr₁ := (Gen.makes_constructs_later hinner).addressable haddr₂
  replace hclose := Gen.makes_forM_one.mp hclose
  obtain ⟨g₀, hopen, hdecls⟩ := Gen.makes_forM_cons.mp hm
  obtain rfl := Gen.makes_openScope.mp hopen
  have h₀ : sc.Moves g [] (g.withScopes g.scopes.push) L [] m n :=
    ⟨h.holds.openScope, rfl, rfl, Draft.Grows.refl _,
      Draft.Charted.weaken hb ⟨rfl, Scopes.localArrays_push.subset, subset_rfl⟩⟩
  obtain ⟨L₁, hL₁, hpop₁, hp₁, h₁⟩ :=
    moves_declarations hfair h₀ hk₁ hl₁ List.prefix_rfl hdecls haddr₁
  have hx₁ : sc.Exits g₁ L₁ := by
    refine hx.mono hL₁ (by rw [hp₁]; rfl) ?_
    have hsub : g₁.scopes.pop.localArrays ⊆ g₁.scopes.localArrays := Scopes.localArrays_pop_subset
    rwa [hpop₁] at hsub
  obtain rfl := Gen.makes_closeScope.mp hclose
  have hstands : sc.Stands code cs ks ls g₁ g₂ (m + (ds.flatMap Declaration.kept).length)
      (n + (ds.flatMap Declaration.locals).length) q :=
    ⟨hk₂, hl₂, h₁.holds, ⟨L₁, h₁.body, hx₁⟩, hinner, haddr₂, h.begins,
      fun j hj => h.exit j (by rw [hp₁] at hj; exact hj)⟩
  exact ⟨{
    first := g₁
    last := g₂
    kept := hk₁
    locals := hl₁
    holds := h₀.holds
    charted := ⟨L, h₀.body⟩
    declares := hdecls
    follows := ⟨h₁.functions, (Gen.makes_constructs_later hdecls).legacy, h₁.grows.position⟩
    body := hstands
    closes := hclose
    ending := rfl }⟩

end Stands

namespace Count

variable {counter : Name} {range : Range} (x : sc.Count code counter range cs ks ls g g' m n)
include x

theorem started_follows : x.start.Follows x.started :=
  (extends_prepareCode .function x.v (some range.start)).follows x.starts

theorem first_follows : x.start.Follows x.first := x.started_follows.trans x.enters

theorem advanced_follows : x.last.Follows x.advanced :=
  (Gen.extends_advanceCode x.slot range).follows x.advances

theorem tested_follows : x.test.Follows x.tested :=
  (Gen.extends_withinCode x.slot range).follows x.tests

variable (hc : sc.Typed cs ks ls)
include hc

theorem last_follows : x.start.Follows x.last := x.first_follows.trans (x.body.follows hc)

theorem test_follows : x.start.Follows x.test :=
  (x.last_follows hc).trans (x.advanced_follows.trans x.follows)

/-- Behind the body the same is visible as in front of it. -/
theorem last_scopes : x.last.scopes = x.start.scopes := (x.body.reaches hc).2.trans x.scopes

end Count

end Scene

/-! ## Statements in statements -/

namespace Stmt

theorem constructsOf_append (xs ys : List Stmt) :
    constructsOf (xs ++ ys) = constructsOf xs ++ constructsOf ys := by
  induction xs with
  | nil => rfl
  | cons x xs ih => rw [List.cons_append, constructsOf, ih, constructsOf, List.append_assoc]

theorem keptOf_append (xs ys : List Stmt) : keptOf (xs ++ ys) = keptOf xs ++ keptOf ys := by
  induction xs with
  | nil => rfl
  | cons x xs ih => rw [List.cons_append, keptOf, ih, keptOf, List.append_assoc]

theorem localsOf_append (xs ys : List Stmt) : localsOf (xs ++ ys) = localsOf xs ++ localsOf ys := by
  induction xs with
  | nil => rfl
  | cons x xs ih => rw [List.cons_append, localsOf, ih, localsOf, List.append_assoc]

/-- `t.Part cs loop s`: the statement `t` has the statement `s` as a part, behind the constructs
`cs`. If there is a loop in `t` around `s`, the innermost one ends behind the constructs `loop`. -/
inductive Part (t : Stmt) : List Construct → Option (List Construct) → Stmt → Prop where
  | whole : Part t [] none t
  | inBlock {cs loop ds before s after} : Part t cs loop (.block ds (before ++ s :: after)) →
      Part t (cs ++ (.openBlock :: ds.map .locals ++ constructsOf before)) loop s
  | first {cs loop c s otherwise} : Part t cs loop (.choice c s otherwise) →
      Part t (cs ++ [.ifTrue c]) loop s
  | second {cs loop c body s} : Part t cs loop (.choice c body (some s)) →
      Part t (cs ++ (.ifTrue c :: body.constructs ++ [.ifFalse])) loop s
  | inLoop {cs loop c s} : Part t cs loop (.loop c s) →
      Part t (cs ++ [.openLoop]) (some (cs ++ (Stmt.loop c s).constructs)) s
  | inCount {cs loop counter range s} : Part t cs loop (.count counter range s) →
      Part t (cs ++ [.openCount counter range]) (some (cs ++
        (Stmt.count counter range s).constructs))
        s

end Stmt

namespace Scene.Stands

variable {sc : Scene} {code : Code} {g g' : Generator} {m n q : Nat}

/-- **Where a statement stands its parts stand.** Exits from a part lead to the end of the innermost
loop around it. -/
theorem part (hfair : sc.Fair) {t s : Stmt} {cs : List Construct} {loop : Option (List Construct)}
    (h : sc.Stands code t.constructs t.kept t.locals g g' m n q) (hp : t.Part cs loop s) :
    ∃ g₁ g₂ m₁ n₁ q₁, Gen.Makes (cs.forM Construct.compile) g ⟨⟩ g₁ ∧
      sc.Stands code s.constructs s.kept s.locals g₁ g₂ m₁ n₁ q₁ ∧ (loop = none → q₁ = q) ∧
      ∀ cs', loop = some cs' → ∃ gₓ, Gen.Makes (cs'.forM Construct.compile) g ⟨⟩ gₓ ∧
        gₓ.body.position = q₁ := by
  have htyped := Scene.typed_statement hfair
  -- The induction goes from the whole into its parts. The stream behind is that of the innermost
  -- loop.
  induction hp with
  | whole => exact ⟨g, g', m, n, q, Gen.makes_forM_nil.mpr rfl, h, fun _ => rfl, nofun⟩
  | @inBlock cs loop ds before s after _ ih =>
    obtain ⟨g₁, g₂, m₁, n₁, q₁, hmakes, hstands, hnone, hsome⟩ := ih
    have hblock := hstands.block hfair
    rw [Stmt.constructsOf_append, Stmt.keptOf_append, Stmt.localsOf_append] at hblock
    obtain ⟨x⟩ := hblock
    obtain ⟨g₃, hbefore, hrest, -⟩ := x.body.append (Scene.typed_statements hfair before)
      (Scene.typed_statements hfair (s :: after))
    obtain ⟨g₄, hs, -, -⟩ := hrest.append (htyped s) (Scene.typed_statements hfair after)
    refine ⟨g₃, g₄, _, _, q₁, ?_, hs, hnone, hsome⟩
    refine Gen.makes_forM_append.mpr ⟨g₁, hmakes,
      Gen.makes_forM_append.mpr ⟨x.first, ?_, hbefore.makes⟩⟩
    exact Gen.makes_forM_cons.mpr ⟨_, Gen.makes_openScope.mpr rfl, x.declares⟩
  | @first cs loop c s otherwise _ ih =>
    obtain ⟨g₁, g₂, m₁, n₁, q₁, hmakes, hstands, hnone, hsome⟩ := ih
    cases otherwise with
    | none =>
      obtain ⟨x⟩ := hstands.choice hfair (htyped s)
      exact ⟨x.first, x.last, _, _, q₁,
        Gen.makes_forM_append.mpr ⟨g₁, hmakes, Gen.makes_forM_one.mpr x.opens⟩, x.branch, hnone,
        hsome⟩
    | some t =>
      obtain ⟨x⟩ := hstands.choiceOr hfair (htyped s) (htyped t)
      exact ⟨x.first, x.last, _, _, q₁,
        Gen.makes_forM_append.mpr ⟨g₁, hmakes, Gen.makes_forM_one.mpr x.opens⟩, x.branch, hnone,
        hsome⟩
  | @second cs loop c body s _ ih =>
    obtain ⟨g₁, g₂, m₁, n₁, q₁, hmakes, hstands, hnone, hsome⟩ := ih
    obtain ⟨x⟩ := hstands.choiceOr hfair (htyped body) (htyped s)
    refine ⟨x.first', x.last', _, _, q₁, ?_, x.branch', hnone, hsome⟩
    refine Gen.makes_forM_append.mpr ⟨g₁, hmakes, Gen.makes_forM_append.mpr ⟨x.last, ?_,
      Gen.makes_forM_one.mpr x.between⟩⟩
    exact Gen.makes_forM_cons.mpr ⟨x.first, x.opens, x.branch.makes⟩
  -- Inside a loop a `break` leads to the end of the loop, and not to where it led around it.
  | @inLoop cs loop c s _ ih =>
    obtain ⟨g₁, g₂, m₁, n₁, q₁, hmakes, hstands, -⟩ := ih
    obtain ⟨x⟩ := hstands.loop (htyped s)
    refine ⟨x.first, x.last, _, _, _,
      Gen.makes_forM_append.mpr ⟨g₁, hmakes, Gen.makes_forM_one.mpr x.opens⟩, x.body, nofun, ?_⟩
    rintro _ ⟨⟩
    exact ⟨g₂, Gen.makes_forM_append.mpr ⟨g₁, hmakes, hstands.makes⟩, rfl⟩
  | @inCount cs loop counter range s _ ih =>
    obtain ⟨g₁, g₂, m₁, n₁, q₁, hmakes, hstands, -⟩ := ih
    obtain ⟨x⟩ := hstands.count hfair (htyped s)
    refine ⟨x.first, x.last, _, _, _,
      Gen.makes_forM_append.mpr ⟨g₁, hmakes, Gen.makes_forM_one.mpr x.opens⟩, x.body, nofun, ?_⟩
    rintro _ ⟨⟩
    exact ⟨g₂, Gen.makes_forM_append.mpr ⟨g₁, hmakes, hstands.makes⟩, rfl⟩

end Scene.Stands

end OnePass
