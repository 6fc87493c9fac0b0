import OnePass.Proofs.EffectRuns
import OnePass.Proofs.Execution

/-!
# Jumps and loops

Where control goes that a statement directs. A piece of code is entered with an empty stack and left
at its end, at the exit of a loop, or by a return (`Site.Executes`).

A loop is tested once before each round. The jump back to its body is one instruction for each
round, so that a loop that goes on for many rounds runs for at least as many instructions
(`Site.executes_loop`).
-/

namespace OnePass

/-! ## Labels -/

namespace Code.Continues

variable {c : Code} {d : Draft} {k : UInt32}

/-- A label that was marked at the end so far. -/
theorem target? (h : c.Continues (d.mark k.toNat)) (hk : k.toNat < d.labels.size) :
    c.target? k = some d.position := by
  rw [h.labels k (.ofNat d.position), (h.addressable.of_longer (d.longer_mark _)).toNat_position
    (Nat.le_refl _)]
  rw [Draft.mark, Array.getElem?_setIfInBounds, if_pos rfl, if_pos hk]

/-- What was there before a label was marked that was open. -/
theorem of_mark {n : Nat} (h : c.Continues (d.mark n)) (hn : d.labels[n]? = some none) :
    c.Continues d := by
  refine ⟨h.addressable.of_longer (d.longer_mark n), h.instructions, fun l p hl => h.labels l p ?_⟩
  have hne : n ≠ l.toNat := by
    rintro rfl
    rw [hn] at hl
    cases Option.some.inj hl
  rw [Draft.mark, Array.getElem?_setIfInBounds, if_neg hne]
  exact hl

theorem of_emit {i : Instruction} (h : c.Continues (d.emit i)) : c.Continues d :=
  h.mono (Draft.grows_emit d i).extended

/-- What was there before a label was added. -/
theorem of_addLabel (h : c.Continues d.addLabel) : c.Continues d := by
  refine ⟨h.addressable.of_longer d.longer_addLabel, h.instructions, fun l p hl => h.labels l p ?_⟩
  have hlt := (Array.getElem?_eq_some_iff.mp hl).1
  rw [Draft.addLabel, Array.getElem?_push, if_neg hlt.ne]
  exact hl

end Code.Continues

namespace Site

variable {w : Site} {m : Memory} {s : List Value} {p q : Nat}

/-! ## Jumps -/

section

variable {l : UInt32} (hp : w.first ≤ p ∧ p < w.last) (hl : w.code.target? l = some q)

include hp hl

theorem passes_jump (hi : w.code.instructions[p]? = some (.jump l)) :
    w.Passes 1 (w.stand p s m) (.active (w.stand q s m)) :=
  passes_one hp hi (Exec.outcome_jump hl)

/-- A jump that is made where a condition does not hold. -/
theorem passes_jumpIfFalse (hi : w.code.instructions[p]? = some (.jumpIfFalse l)) (b : Bool) :
    w.Passes 1 (w.stand p (.word (Word.ofBool b) :: s) m)
      (.active (w.stand (if b then p + 1 else q) s m)) := by
  cases b with
  | false => exact passes_one hp hi (Exec.outcome_jumpIfFalse hl)
  | true => exact passes_one hp hi (Exec.outcome_jumpIfFalse hl)

/-- A jump that is made where a condition holds. -/
theorem passes_jumpIfTrue (hi : w.code.instructions[p]? = some (.jumpIfTrue l)) (b : Bool) :
    w.Passes 1 (w.stand p (.word (Word.ofBool b) :: s) m)
      (.active (w.stand (if b then q else p + 1) s m)) := by
  cases b with
  | false => exact passes_one hp hi (Exec.outcome_jumpIfTrue hl)
  | true => exact passes_one hp hi (Exec.outcome_jumpIfTrue hl)

end

/-! ## Pieces of code that are entered with an empty stack -/

/-- First one evaluation, and then another one where calls go on. -/
theorem Does.bind_or {α β : Type} {c : Calls} {ev : Eval α} {f : α → Eval β}
    {dest : α → Memory → Progress} {Q : α → Memory → Prop} {dest' : β → Memory → Progress}
    {R : β → Memory → Prop} (h : w.Does c (ev.run.run m) dest Q)
    (hf : ∀ a m', Q a m' →
      (∃ c₁, dest a m' = .active c₁ ∧ w.Does c₁ ((f a).run.run m') dest' R) ∨
      ∃ b, f a = Pure.pure b ∧ dest a m' = dest' b m' ∧ R b m') :
    w.Does c ((ev >>= f).run.run m) dest' R := by
  refine h.bind_reached fun a m' hr hq => ?_
  obtain ⟨c₁, hc, hdoes⟩ | ⟨b, hb, hdest, hR⟩ := hf a m' hq
  · exact hdoes.after (hc ▸ hr)
  · rw [hb]
    exact ⟨hdest ▸ hr, hR⟩

/-- Where a piece of code that ends at `p` is left, exits from the loop around it leading to `q`. -/
def leaves (w : Site) (p q : Nat) : Completion → Memory → Progress
  | .onward, m => .active (w.stand p [] m)
  | .left, m => .active (w.stand q [] m)
  | .returned v, m => Calls.leave (w.stand p [] m) v

/-- The code from `p` to `p'` does what `ev` says, exits from the loop around it leading to `q`. -/
def Executes (w : Site) (p p' q : Nat) (ev : Eval Completion) : Prop :=
  ∀ H m, w.Consistent H m → w.Does (w.stand p [] m) (ev.run.run m) (w.leaves p' q)
    fun _ m' => w.Keeps H m' fun _ => True

/-- The code from `p` to `p'` leaves the stack empty. -/
def Carries (w : Site) (p p' : Nat) (ev : Eval Unit) : Prop :=
  ∀ H m, w.Consistent H m → w.Does (w.stand p [] m) (ev.run.run m)
    (fun _ m' => .active (w.stand p' [] m')) fun _ m' => w.Keeps H m' fun _ => True

/-- The code from `p` to `p'` pushes a truth value. -/
def Answers (w : Site) (p p' : Nat) (ev : Eval Bool) : Prop :=
  ∀ H m, w.Consistent H m → w.Does (w.stand p [] m) (ev.run.run m)
    (fun b m' => .active (w.stand p' [.word (Word.ofBool b)] m'))
    fun _ m' => w.Keeps H m' fun _ => True

section

variable {p' p₁ p₂ : Nat} {ev₁ : Eval Unit} {ev ev₂ : Eval Completion} {test : Eval Bool}

/-- A jump, or several, to where a piece of code is. -/
theorem Executes.after (h : w.Executes p₁ p' q ev)
    (hr : ∀ m, w.Reaches (w.stand p [] m) (.active (w.stand p₁ [] m))) : w.Executes p p' q ev :=
  fun H m hst => (h H m hst).after (hr m)

/-- A jump, or several, from the end of a piece of code. -/
theorem Executes.onto (h : w.Executes p p₁ q ev)
    (hr : ∀ m, w.Reaches (w.stand p₁ [] m) (.active (w.stand p' [] m))) : w.Executes p p' q ev := by
  intro H m hst
  have hdoes := h H m hst
  match hev : ev.run.run m, hdoes with
  | some (.ok .onward, m'), ⟨hreach, hkeeps⟩ => exact ⟨hreach.trans (hr m'), hkeeps⟩
  | some (.ok .left, m'), hdoes => exact hdoes
  | some (.ok (.returned v), m'), hdoes => exact hdoes
  | some (.error e, m'), hdoes => exact hdoes
  | none, hdoes => exact hdoes

/-- Code that is always left at its end, and other code behind it. -/
theorem Carries.before (h : w.Carries p p₁ ev₁) (h' : w.Executes p₁ p' q ev) :
    w.Executes p p' q (do ev₁; ev) := by
  intro H m hst
  refine (h H m hst).bind fun _ m₁ ⟨H₁, hst₁, hH₁, _⟩ => ?_
  exact (h' H₁ m₁ hst₁).imp fun _ _ h => h.trans hH₁

/-- What comes behind a piece of code is done if that is left at its end. -/
theorem Executes.seq (h : w.Executes p p₁ q ev) (h' : w.Executes p₁ p' q ev₂) :
    w.Executes p p' q (ev.andThen ev₂) := by
  intro H m hst
  refine (h H m hst).bind_or fun c m₁ ⟨H₁, hst₁, hH₁, _⟩ => ?_
  cases c with
  | onward => exact .inl ⟨_, rfl, (h' H₁ m₁ hst₁).imp fun _ _ h => h.trans hH₁⟩
  | left => exact .inr ⟨.left, rfl, rfl, H₁, hst₁, hH₁, trivial⟩
  | returned v => exact .inr ⟨.returned v, rfl, rfl, H₁, hst₁, hH₁, trivial⟩

/-- Of two pieces of code, the one that the answer selects is run. -/
theorem Answers.branch (h : w.Answers p p₁ test)
    (htrue : ∀ m, w.Reaches (w.stand p₁ [.word (Word.ofBool true)] m) (.active (w.stand p₂ [] m)))
    {p₃ : Nat}
    (hfalse : ∀ m, w.Reaches (w.stand p₁ [.word (Word.ofBool false)] m) (.active (w.stand p₃ [] m)))
    (hyes : w.Executes p₂ p' q ev) (hno : w.Executes p₃ p' q ev₂) :
    w.Executes p p' q (do if ← test then ev else ev₂) := by
  intro H m hst
  refine (h H m hst).bind fun b m₁ ⟨H₁, hst₁, hH₁, _⟩ => ?_
  cases b with
  | true => exact ((hyes H₁ m₁ hst₁).imp fun _ _ h => h.trans hH₁).after (htrue m₁)
  | false => exact ((hno H₁ m₁ hst₁).imp fun _ _ h => h.trans hH₁).after (hfalse m₁)

theorem executes_onward : w.Executes p p q (pure .onward) :=
  fun _ _ hst => Does.pure (.refl _ _) (.of_consistent hst trivial)

end

/-! ## Loops -/

/-- The same site where calls may take more or fewer instructions. -/
abbrev withFuel (w : Site) (n : Nat) : Site := { w with fuel := n }

section

variable {α : Type} {c c₁ : Calls} {x : Option (Except MachineError α × Memory)}
  {dest : α → Memory → Progress} {Q : α → Memory → Prop} {n : Nat}

theorem Does.lower (h : w.Does c x dest Q) (hn : n ≤ w.fuel) : (w.withFuel n).Does c x dest Q := by
  match x, h with
  | some (.ok _, _), h => exact h
  | some (.error _, _), h => exact h
  | none, ⟨k, c', hk, hpasses⟩ => exact ⟨k, c', hn.trans hk, hpasses⟩

/-- An instruction more. -/
theorem Does.step (h : (w.withFuel n).Does c₁ x dest Q) (hc : w.Passes 1 c (.active c₁)) :
    (w.withFuel (n + 1)).Does c x dest Q := by
  match x, h with
  | some (.ok _, _), ⟨hr, hq⟩ => exact ⟨Reaches.trans ⟨1, hc⟩ hr, hq⟩
  | some (.error _, _), h => exact Reaches.trans ⟨1, hc⟩ h
  | none, ⟨k, c', hk, hpasses⟩ =>
    exact ⟨1 + k, c', by rw [Nat.add_comm]; exact Nat.add_le_add_left hk 1,
      Passes.trans hc hpasses⟩

end

/-- A loop whose test is at `p` and its body at `top`. An exit from it leads behind the jump at its
end, where it also gets to when the test fails. -/
theorem executes_loop {test : Eval Bool} {body : Eval Completion} {top jump : Nat} {l : UInt32}
    (hjump : w.first ≤ jump ∧ jump < w.last) (hl : w.code.target? l = some top)
    (hi : w.code.instructions[jump]? = some (.jumpIfTrue l)) (htest : w.Answers p jump test)
    (hbody : w.Executes top p (jump + 1) body) :
    w.Executes p (jump + 1) q (Eval.loop test body w.fuel) := by
  -- the induction is on the number of rounds, each of which takes an instruction
  have hrounds (n : Nat) (hn : n ≤ w.fuel) (H : Heap) (m : Memory) (hst : w.Consistent H m) :
      (w.withFuel n).Does (w.stand p [] m) ((Eval.loop test body n).run.run m)
        (w.leaves (jump + 1) q) fun _ m' => w.Keeps H m' fun _ => True := by
    induction n generalizing H m with
    | zero => exact ⟨0, _, Nat.le_refl _, .zero w _⟩
    | succ n ih =>
      refine ((htest H m hst).lower hn).bind fun b m₁ ⟨H₁, hst₁, hH₁, _⟩ => ?_
      have hback := passes_jumpIfTrue (s := []) (m := m₁) hjump hl hi b
      cases b with
      | false =>
        exact Does.after (w := w.withFuel (n + 1)) ⟨.refl _ _, H₁, hst₁, hH₁, trivial⟩ ⟨1, hback⟩
      | true =>
        refine Does.step ?_ hback
        refine ((hbody H₁ m₁ hst₁).lower (Nat.le_of_succ_le hn)).bind_or
          fun c m₂ ⟨H₂, hst₂, hH₂, _⟩ => ?_
        have hH := hH₁.trans hH₂
        cases c with
        | onward =>
          exact .inl ⟨_, rfl, (ih (Nat.le_of_succ_le hn) H₂ m₂ hst₂).imp fun _ _ h => h.trans hH⟩
        | left => exact .inr ⟨.onward, rfl, rfl, H₂, hst₂, hH, trivial⟩
        | returned v => exact .inr ⟨.returned v, rfl, rfl, H₂, hst₂, hH, trivial⟩
  exact hrounds w.fuel le_rfl

end Site

end OnePass
