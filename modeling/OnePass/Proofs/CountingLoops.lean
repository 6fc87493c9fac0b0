import Mathlib.Algebra.Group.Int.Defs
import OnePass.Proofs.FunctionRuns
import OnePass.Proofs.Updates

/-!
# Counting loops

The counter of a loop should go through the integers of a `progression`, and the loop should end
when it is past them. Main statement: a counting loop whose bound and step are the same each time
executes its body exactly once for each integer of the progression, in order, and ends there exactly
if the integer that comes next is a word (`compile_counts`). The counter is a word; if the next
integer is none, the counter is 2³² below that, which is within the range, and there are more
rounds. -/

namespace OnePass

/-! ## Progressions -/

/-- The integers from `a` on in steps of `s`, as long as they are not above `b`. -/
def progression (a b s : Int) : List Int :=
  (List.range ((b - a) / s + 1).toNat).map fun k : Nat => a + k * s

/-- The integer that comes behind those of a progression. -/
def past (a b s : Int) : Int := a + (progression a b s).length * s

section

variable {a b s v : Int} (hs : 0 < s)

theorem progression_of_lt (h : b < a) (hs : 0 < s) : progression a b s = [] := by
  have hneg : (b - a) / s < 0 := Int.ediv_neg_of_neg_of_pos (by omega) hs
  rw [progression, Int.toNat_of_nonpos (by omega)]
  rfl

theorem progression_of_le (h : a ≤ b) (hs : 0 < s) :
    progression a b s = a :: progression (a + s) b s := by
  have hdiv : (b - a) / s = (b - (a + s)) / s + 1 := by
    rw [show b - a = b - (a + s) + s by omega, Int.add_ediv_of_dvd_right (Int.dvd_refl s),
      Int.ediv_self (by omega)]
  have hnonneg : 0 ≤ (b - a) / s := Int.ediv_nonneg (by omega) (by omega)
  unfold progression
  rw [hdiv, show ((b - (a + s)) / s + 1 + 1).toNat = ((b - (a + s)) / s + 1).toNat + 1 by omega,
    List.range_succ_eq_map, List.map_cons, List.map_map]
  congr 1
  · simp
  · refine List.map_congr_left fun k _ => ?_
    rw [Function.comp_apply, Int.natCast_succ, Int.add_mul, Int.one_mul]
    omega

/-- The progression goes as far as the bound, and no further. -/
theorem mem_progression (hs : 0 < s) :
    v ∈ progression a b s ↔ ∃ k : Nat, v = a + k * s ∧ v ≤ b := by
  simp only [progression, List.mem_map, List.mem_range]
  constructor
  · rintro ⟨k, hk, rfl⟩
    have hle : (k : Int) ≤ (b - a) / s := by omega
    have := (Int.le_ediv_iff_mul_le hs).mp hle
    exact ⟨k, rfl, by omega⟩
  · rintro ⟨k, rfl, hle⟩
    have := (Int.le_ediv_iff_mul_le hs).mpr (show (k : Int) * s ≤ b - a by omega)
    exact ⟨k, by omega, rfl⟩

theorem past_of_lt (h : b < a) (hs : 0 < s) : past a b s = a := by
  rw [past, progression_of_lt h hs]
  simp

theorem past_of_le (h : a ≤ b) (hs : 0 < s) : past a b s = past (a + s) b s := by
  rw [past, progression_of_le h hs, past, List.length_cons, Int.natCast_succ, Int.add_mul,
    Int.one_mul]
  omega

/-- It is the first one above the bound, if the progression does not begin above it. -/
theorem lt_past (hs : 0 < s) : b < past a b s ∧ past a b s ≤ max a (b + s) := by
  generalize hn : (progression a b s).length = n
  induction n generalizing a with
  | zero =>
    have hlt : b < a := by
      by_contra hle
      rw [progression_of_le (by omega) hs] at hn
      cases hn
    rw [past_of_lt hlt hs]
    omega
  | succ n ih =>
    have hle : a ≤ b := by
      by_contra hlt
      rw [progression_of_lt (by omega) hs] at hn
      cases hn
    rw [past_of_le hle hs]
    rw [progression_of_le hle hs] at hn
    have := ih (Nat.succ.inj hn)
    omega

end

/-! ## Rounds -/

namespace Eval

/-- Rounds of a counting loop, one for each of some integers: the counter gets the integer, the
bound is asked for, the body is executed, and the step is asked for. -/
def rounds (h : Handle) (bound stride : Eval Int32) (body : Eval Completion) : List Int → Eval Unit
  | [] => return
  | v :: vs => do
    store (.slot h) (.ofInt v)
    let _ ← bound
    let _ ← body
    let _ ← stride
    rounds h bound stride body vs

theorem run_store_slot (h : Handle) (x : Int32) (m : Memory) :
    (store (.slot h) x).run.run m = some (.ok ⟨⟩, m.set h (.word x)) := rfl

end Eval

namespace Situation

/-- Whenever they are asked for, the bound of a counting loop is `b` and its step is `d`, and its
body is left at its end. None of them changes the counter. What is known of the memory in front of
the test is `P`, in front of the body `Q`, and in front of the step `R`. -/
structure Regular (s : Situation) (h : Handle) (range : Range) (body : Eval Completion)
    (b d : Int32) (P Q R : Memory → Prop) : Prop where
  slot : ∀ m, P m → (m.get? h).isSome
  bound : ∀ m x, P m → m.get? h = some (.word x) → ∃ m', (s.bound range).run.run m =
    some (.ok b, m') ∧
    m'.get? h = some (.word x) ∧ (x.toInt ≤ b.toInt → Q m')
  body : ∀ m x, Q m → m.get? h = some (.word x) → ∃ m', body.run.run m = some (.ok .onward, m') ∧
    m'.get? h = some (.word x) ∧ R m'
  stride : ∀ m x, R m → m.get? h = some (.word x) → ∃ m', (s.stride range).run.run m =
    some (.ok d, m') ∧
    m'.get? h = some (.word x) ∧ P (m'.set h (.word (.ofInt (x.toInt + d.toInt))))

/-- What a counting loop does once its counter has a value, in fewer than `n` rounds. -/
def countFrom (s : Situation) (h : Handle) (range : Range) (body : Eval Completion) (n : Nat) :
    Eval Completion :=
  Eval.loop (s.within h range) (body.andThen do
    s.advance h range
    return .onward) n

namespace Regular

variable {s : Situation} {h : Handle} {range : Range} {body : Eval Completion} {b d : Int32}
  {P Q R : Memory → Prop} {m : Memory} {v : Int} {n : Nat}

/-- The counter has been set. -/
theorem counter (hreg : s.Regular h range body b d P Q R) {x : Int32} (hP : P (m.set h (.word x))) :
    (m.set h (.word x)).get? h = some (.word x) :=
  Memory.get?_set (Memory.isSome_get?_set ▸ hreg.slot _ hP)

/-- One test. -/
theorem within (hreg : s.Regular h range body b d P Q R) {x : Int32} (hP : P m)
    (hx : m.get? h = some (.word x)) : ∃ m', (s.bound range).run.run m = some (.ok b, m') ∧
      (s.within h range).run.run m = some (.ok (decide (x.toInt ≤ b.toInt)), m') ∧
      m'.get? h = some (.word x) ∧ (x.toInt ≤ b.toInt → Q m') := by
  obtain ⟨m', hbound, hx', hQ⟩ := hreg.bound m x hP hx
  refine ⟨m', hbound, ?_, hx', hQ⟩
  unfold Situation.within
  rw [Eval.run_bind_ok (Eval.run_read hx)]
  exact Eval.run_bind_ok hbound

/-- One round, from the body on. -/
theorem round (hreg : s.Regular h range body b d P Q R) {x : Int32} (hQ : Q m)
    (hx : m.get? h = some (.word x)) : ∃ m₁ m₂, body.run.run m = some (.ok .onward, m₁) ∧
      (s.stride range).run.run m₁ = some (.ok d, m₂) ∧
      P (m₂.set h (.word (.ofInt (x.toInt + d.toInt)))) ∧
      (body.andThen do
        s.advance h range
        return .onward).run.run m =
          some (.ok .onward, m₂.set h (.word (.ofInt (x.toInt + d.toInt)))) := by
  obtain ⟨m₁, hbody, hx₁, hR⟩ := hreg.body m x hQ hx
  obtain ⟨m₂, hstride, hx₂, hP⟩ := hreg.stride m₁ x hR hx₁
  refine ⟨m₁, m₂, hbody, hstride, hP, ?_⟩
  have hadvance : (s.advance h range).run.run m₁ =
      some (.ok ⟨⟩, m₂.set h (.word (.ofInt (x.toInt + d.toInt)))) := by
    unfold Situation.advance
    rw [Eval.run_bind_ok (Eval.run_read hx₁)]
    exact Eval.run_bind_ok hstride
  unfold Eval.andThen
  rw [Eval.run_bind_ok hbody]
  exact Eval.run_bind_ok hadvance

/-- Rounds for a whole progression, whatever comes next. -/
theorem rounds (hreg : s.Regular h range body b d P Q R) (hd : 0 < d.toInt) (hv : -2 ^ 31 ≤ v)
    (hP : P (m.set h (.word (.ofInt v)))) (hn : (progression v b.toInt d.toInt).length ≤ n) :
    ∃ m', (Eval.rounds h (s.bound range) (s.stride range) body
        (progression v b.toInt d.toInt)).run.run m = some (.ok ⟨⟩, m') ∧
      P (m'.set h (.word (.ofInt (past v b.toInt d.toInt)))) ∧
      (s.countFrom h range body n).run.run (m.set h (.word (.ofInt v))) =
        (s.countFrom h range body (n - (progression v b.toInt d.toInt).length)).run.run
          (m'.set h (.word (.ofInt (past v b.toInt d.toInt)))) := by
  -- The induction is on the fuel, of which one is used for each value of the counter.
  induction n generalizing v m with
  | zero =>
    have hnil : progression v b.toInt d.toInt = [] := List.length_eq_zero_iff.mp (Nat.le_zero.mp hn)
    have hpast : past v b.toInt d.toInt = v := by
      rw [past, hnil]
      simp
    rw [hnil, hpast]
    exact ⟨m, rfl, hP, rfl⟩
  | succ n ih =>
    by_cases hle : v ≤ b.toInt
    · rw [progression_of_le hle hd] at hn ⊢
      rw [past_of_le hle hd]
      -- The counter is between the smallest integer and the bound, so it does not wrap here.
      have hx : (Int32.ofInt v).toInt = v :=
        Int32.toInt_ofInt_of_le hv (hle.trans_lt b.toInt_lt)
      obtain ⟨m₁, hbound, hwithin, hcounter, hQ⟩ := hreg.within hP (hreg.counter hP)
      rw [hx] at hwithin hQ
      obtain ⟨m₂, m₃, hbody, hstride, hP₃, hround⟩ := hreg.round (hQ hle) hcounter
      rw [hx] at hP₃ hround
      -- Behind the round the counter has the next value, from which the rest goes on.
      obtain ⟨m', hrounds, hP', hrest⟩ := ih (by omega) hP₃ (Nat.le_of_succ_le_succ hn)
      refine ⟨m', ?_, hP', ?_⟩
      · rw [Eval.rounds, Eval.run_bind_ok (Eval.run_store_slot _ _ _), Eval.run_bind_ok hbound,
          Eval.run_bind_ok hbody, Eval.run_bind_ok hstride]
        exact hrounds
      · rw [List.length_cons, Nat.add_sub_add_right, ← hrest]
        unfold Situation.countFrom
        rw [Eval.loop, Eval.run_bind_ok hwithin, decide_eq_true hle]
        exact Eval.run_bind_ok hround
    -- The counter is beyond the bound from the beginning.
    · rw [progression_of_lt (by omega) hd, past_of_lt (by omega) hd]
      exact ⟨m, rfl, hP, rfl⟩

/-- Past the progression the loop ends, if that is a word. -/
theorem ends (hreg : s.Regular h range body b d P Q R) (hv : b.toInt < v) (hword : v < 2 ^ 31)
    (hP : P (m.set h (.word (.ofInt v)))) : ∃ m',
      (do
        Eval.store (.slot h) (.ofInt v)
        s.bound range).run.run m = some (.ok b, m') ∧
      (s.countFrom h range body (n + 1)).run.run (m.set h (.word (.ofInt v))) =
        some (.ok .onward, m') := by
  have hb := b.le_toInt
  have hx : (Int32.ofInt v).toInt = v := Int32.toInt_ofInt_of_le (by omega) hword
  obtain ⟨m', hbound, hwithin, -⟩ := hreg.within hP (hreg.counter hP)
  rw [hx, decide_eq_false (by omega)] at hwithin
  refine ⟨m', ?_, ?_⟩
  · rw [Eval.run_bind_ok (Eval.run_store_slot _ _ _)]
    exact hbound
  · unfold Situation.countFrom
    rw [Eval.loop, Eval.run_bind_ok hwithin]
    rfl

/-- If that is no word, there is one more round, for an integer that is 2³² below. -/
theorem wraps (hreg : s.Regular h range body b d P Q R) (hv : v ≤ b.toInt + d.toInt)
    (hword : 2 ^ 31 ≤ v) (hP : P (m.set h (.word (.ofInt v)))) : ∃ m',
      (Eval.rounds h (s.bound range) (s.stride range) body [v - 2 ^ 32]).run.run m =
        some (.ok ⟨⟩, m') ∧
      (s.countFrom h range body (n + 1)).run.run (m.set h (.word (.ofInt v))) =
        (do
          Eval.store (.slot h) (.ofInt (v - 2 ^ 32 + d.toInt))
          s.countFrom h range body n).run.run m' := by
  have hb := b.toInt_lt
  have hd := d.toInt_lt
  have hofInt : Int32.ofInt v = .ofInt (v - 2 ^ 32) := by
    rw [Int32.ofInt_sub]
    exact (Int32.sub_zero _).symm
  have hx : (Int32.ofInt (v - 2 ^ 32)).toInt = v - 2 ^ 32 :=
    Int32.toInt_ofInt_of_le (by omega) (by omega)
  rw [hofInt] at hP ⊢
  obtain ⟨m₁, hbound, hwithin, hcounter, hQ⟩ := hreg.within hP (hreg.counter hP)
  rw [hx] at hwithin hQ
  have hle : v - 2 ^ 32 ≤ b.toInt := by omega
  obtain ⟨m₂, m₃, hbody, hstride, -, hround⟩ := hreg.round (hQ hle) hcounter
  rw [hx] at hround
  refine ⟨m₃, ?_, ?_⟩
  · rw [Eval.rounds, Eval.run_bind_ok (Eval.run_store_slot _ _ _), Eval.run_bind_ok hbound,
      Eval.run_bind_ok hbody, Eval.run_bind_ok hstride]
    rfl
  · rw [Eval.run_bind_ok (Eval.run_store_slot _ _ _)]
    unfold Situation.countFrom
    rw [Eval.loop, Eval.run_bind_ok hwithin, decide_eq_true hle]
    exact Eval.run_bind_ok hround

end Regular

end Situation

/-! ## Compiled loops -/

/-- What a counting loop does is to set its counter and to count from there. -/
theorem Stmt.run_count {r : Surroundings} {counter : Name} {range : Range} {body : Stmt} {a : Int32}
    {m m₀ : Memory} (hstart : (range.start.evaluate (r.counting counter).toSituation >>=
      Eval.word).run.run m = some (.ok a, m₀)) :
    ((Stmt.count counter range body).execute r).run.run m =
      ((r.counting counter).countFrom r.counter range (body.execute (r.counting counter))
        r.fuel).run.run (m₀.set r.counter (.word a)) := by
  obtain ⟨v, m₁, hvalue, hword⟩ := Eval.of_run_bind hstart
  rw [Stmt.execute, Eval.run_bind_ok hvalue, Eval.run_bind_ok hword]
  exact Eval.run_bind_ok (Eval.run_store_slot _ _ _)

section

variable {name : String} {legacy : Bool} {source : List UInt8} {c : Compilation}
  {before after : List TopLevel} {header : Header} {body s : Stmt} {cs : List Construct}
  {loop : Option (List Construct)} {counter : Name} {range : Range}

/-- **Counting loops count as long as they can.** In a compiled program, take a counting loop that
is entered with an empty stack and slots as they should be. Let its first value be `a`, its bound
`b` and its step `d`, the same each time they are asked for, the step being positive; let its body
leave the counter alone and be left at its end only. The body is executed exactly once for each
integer of the progression, in order. If the integer that comes next is a word, then control gets to
the end of the loop, and nothing but the bound is asked for before. If it is none, there is another
round, for the integer 2³² below it, and the loop goes on behind that. 32 bits have to be enough for
the source and its code. -/
theorem compile_counts (h : compile name legacy source = .ok c)
    (hsource : source.length < UInt32.size) (haddr : c.image.Addressable)
    (hitems : c.tree.items = before ++ .function header body :: after)
    (hs : body.Part cs loop (.count counter range s)) :
    ∃ r g g' p, c.image.routines[(Program.headersOf before).length]? = some r ∧
      r.name = header.name.value ∧
      Gen.Makes ((header.front before ++ cs).forM Construct.compile) (.new legacy) ⟨⟩ g ∧
      Gen.Makes ((Stmt.count counter range s).constructs.forM Construct.compile) g ⟨⟩ g' ∧
      (∀ cs', loop = some cs' → ∃ gₓ, gₓ.body.position = p ∧
        Gen.Makes ((header.front before ++ cs').forM Construct.compile) (.new legacy) ⟨⟩ gₓ) ∧
      ∀ callers fuel,
        let w := Site.piece c r body.locals g g' callers fuel
        let i := (w.surroundings g).counter
        let q := (w.surroundings g).counting counter
        ∀ {H : Heap} {m m₀ : Memory} {a b d : Int32} {P Q R : Memory → Prop}, w.Consistent H m →
          (range.start.evaluate q.toSituation >>= Eval.word).run.run m = some (.ok a, m₀) →
          P (m₀.set i (.word a)) → q.Regular i range (s.execute q) b d P Q R → 0 < d.toInt →
          (progression a.toInt b.toInt d.toInt).length < fuel →
          ∃ m₁, (Eval.rounds i (q.bound range) (q.stride range) (s.execute q)
              (progression a.toInt b.toInt d.toInt)).run.run m₀ = some (.ok ⟨⟩, m₁) ∧
            (past a.toInt b.toInt d.toInt < 2 ^ 31 → ∃ m₂,
              (do
                Eval.store (.slot i) (.ofInt (past a.toInt b.toInt d.toInt))
                q.bound range).run.run m₁ = some (.ok b, m₂) ∧
              w.Reaches (w.stand g.body.position [] m)
                (.active (w.stand g'.body.position [] m₂))) ∧
            (2 ^ 31 ≤ past a.toInt b.toInt d.toInt → ∃ m₂ k,
              (Eval.rounds i (q.bound range) (q.stride range) (s.execute q)
                [past a.toInt b.toInt d.toInt - 2 ^ 32]).run.run m₁ = some (.ok ⟨⟩, m₂) ∧
              k + (progression a.toInt b.toInt d.toInt).length + 1 = fuel ∧
              w.Does (w.stand g.body.position [] m)
                ((do
                  Eval.store (.slot i) (.ofInt (past a.toInt b.toInt d.toInt - 2 ^ 32 + d.toInt))
                  q.countFrom i range (s.execute q) k).run.run m₂)
                (w.leaves g'.body.position p) fun _ m' => w.Keeps H m' fun _ => True) := by
  obtain ⟨r, g, g', p, hr, hname, hfront, hmakes, hloop, sc, n, n', hfair, hhosts, hstands⟩ :=
    compile_stands h hsource haddr hitems hs
  refine ⟨r, g, g', p, hr, hname, hfront, hmakes, hloop, ?_⟩
  intro callers fuel w i q H m m₀ a b d P Q R hst hstart hP hreg hd hfuel
  -- The code does what the statement does by evaluation, so it is evaluation that is counted here.
  have hexecutes := Site.simulates_statement (hhosts callers fuel) hfair _ g g' n n' p
    (hstands p fun _ => rfl) ⟨rfl, rfl, rfl, Nat.le_refl _⟩ (Nat.le_refl _) H m hst
  rw [Stmt.run_count hstart] at hexecutes
  rw [← a.ofInt_toInt] at hP hexecutes
  -- The rounds up to the bound, in front of the one test that is beyond it.
  obtain ⟨m₁, hrounds, hP₁, hrest⟩ := hreg.rounds hd a.le_toInt hP hfuel.le
  obtain ⟨k, hk⟩ := Nat.exists_eq_add_of_lt hfuel
  have hleft : fuel - (progression a.toInt b.toInt d.toInt).length = k + 1 := by omega
  replace hexecutes : w.Does _ ((q.countFrom i range (s.execute q) fuel).run.run
    (m₀.set i (.word (.ofInt a.toInt)))) _ _ := hexecutes
  rw [hrest, hleft] at hexecutes
  obtain ⟨hlt, hle⟩ := lt_past (a := a.toInt) (b := b.toInt) hd
  refine ⟨m₁, hrounds, fun hword => ?_, fun hword => ?_⟩
  · obtain ⟨m₂, hlast, hend⟩ := hreg.ends hlt hword hP₁
    -- The counter is beyond the bound, and the loop ends.
    rw [hend] at hexecutes
    exact ⟨m₂, hlast, hexecutes.1⟩
  -- The counter has gone beyond the integers, and is below the bound again.
  · have ha := a.toInt_lt
    obtain ⟨m₂, hmore, hgoes⟩ := hreg.wraps (by omega) hword hP₁
    rw [hgoes] at hexecutes
    exact ⟨m₂, k, hmore, by omega, hexecutes⟩

/-- The first value, the bound and the step of a counting loop that does nothing else, if they are
written as literals. -/
def Stmt.literalCount? : Stmt → Option (Int32 × Int32 × Int32)
  | .count _ ⟨.literal ⟨.int a, _⟩, some (.literal ⟨.int b, _⟩, some (.literal ⟨.int d, _⟩))⟩
      (.empty _) => some (a, b, d)
  | _ => none

theorem Stmt.literalCount?_eq_some {s : Stmt} {a b d : Int32}
    (h : s.literalCount? = some (a, b, d)) :
    ∃ counter p₁ p₂ p₃ p₄, s = .count counter ⟨.literal ⟨.int a, p₁⟩,
      some (.literal ⟨.int b, p₂⟩, some (.literal ⟨.int d, p₃⟩))⟩ (.empty p₄) := by
  unfold Stmt.literalCount? at h
  split at h
  · obtain ⟨⟩ := h
    exact ⟨_, _, _, _, _, rfl⟩
  · cases h

/-- A loop from 1 to 9 in steps of 4. -/
theorem compile_counts_nine :
    ∃ c, compile "" false "int main() for i = 1 to 9 by 4 do ;".toUTF8.toList = .ok c ∧
      ∃ r n p, c.image.routines[0]? = some r ∧
        Calls.advance c.image 0 n (.active ⟨⟨"main", r.code, 0, #[], #[.zero], []⟩, [],
            .trial c.image []⟩) =
          .active ⟨⟨"main", r.code, p, #[], #[.word 13], []⟩, [], .trial c.image []⟩ := by
  -- One evaluation in the kernel gives all that is needed of this source.
  obtain ⟨c, hc, haddr, hq⟩ := exists_compilation (q := fun c =>
      c.image.routines[0]?.map Routine.params = some [] ∧ c.sole?.any fun x =>
        x.1.name.value = "main" ∧ x.2.1.literalCount? = some (1, 9, 4) ∧
        x.2.2.body.position = 0 ∧ x.2.2.localCount = 0)
    (show (compile "" false "int main() for i = 1 to 9 by 4 do ;".toUTF8.toList
      ).toOption.any _ = true by decide +kernel)
  obtain ⟨hparams, hsole⟩ := of_decide_eq_true hq
  obtain ⟨⟨header, body, gₒ⟩, hx, hsole⟩ := (Option.any_eq_true _ _).mp hsole
  obtain ⟨hname, hcount, hposition, hlocals⟩ := of_decide_eq_true hsole
  obtain ⟨hitems, hfront⟩ := Compilation.sole?_eq_some hx
  obtain ⟨counter, p₁, p₂, p₃, p₄, rfl⟩ := Stmt.literalCount?_eq_some hcount
  replace hitems : c.tree.items = [] ++ .function header _ :: [] := hitems
  obtain ⟨r, g, g', p, hr, hrname, hmakes, -, -, hcounts⟩ := 
    compile_counts hc (by decide +kernel) haddr hitems .whole
  rw [List.append_nil] at hmakes
  obtain rfl := (hmakes.unique hfront).2
  replace hparams : r.params = [] := by
    rw [show c.image.routines[0]? = some r from hr] at hparams
    exact Option.some.inj hparams
  let w : Site := .piece c r [.scalar .int] g g' [] 4
  -- The only variable is the counter, so a memory is told by its value.
  let memory (x : Int32) : Memory := ⟨#[], #[.word x], .trial c.image []⟩
  have hcounter : (w.surroundings g).counter = .local 0 := by
    show Handle.local (.ofNat g.localCount) = _
    rw [show g.localCount = 0 from hlocals]
    rfl
  have hzero : SlotsFit [] [.scalar .int] #[.word 0] := by
    intro i s hs
    obtain rfl : i = 0 := by
      have hlt := (List.getElem?_eq_some_iff.mp hs).1
      exact Nat.lt_one_iff.mp hlt
    cases hs
    exact ⟨.word 0, rfl, 0, rfl, WordType.valid_zero .int⟩
  have hnone : SlotsFit [] r.params #[] := hparams ▸ Site.slotsFit_nil _
  have hst : w.Consistent [] (memory 0) :=
    ⟨Store.new_fits (compile_typed hc (compile_addressable hc (by decide +kernel) haddr))
      [] none _ _,
      hnone, hzero⟩
  let range : Range := ⟨.literal ⟨.int 1, p₁⟩,
    some (.literal ⟨.int 9, p₂⟩, some (.literal ⟨.int 4, p₃⟩))⟩
  let q := (w.surroundings g).counting counter
  -- The body does nothing, so all that must be kept is that there is a slot.
  have hreg : q.Regular (w.surroundings g).counter range ((Stmt.empty p₄).execute q) 9 4
      (fun m => m.locals.size = 1) (fun m => m.locals.size = 1) fun m => m.locals.size = 1 := by
    rw [hcounter]
    refine ⟨fun m hm => ?_, fun m x hm hx => ⟨m, rfl, hx, fun _ => hm⟩,
      fun m x hm hx => ⟨m, rfl, hx, hm⟩, fun m x hm hx => ⟨m, rfl, hx, ?_⟩⟩
    · show (m.locals[0]?).isSome
      simp [hm]
    · exact Array.size_setIfInBounds.trans hm
  have hfirst : ((memory 0).set (w.surroundings g).counter (.word 1)).locals.size = 1 := by
    rw [hcounter]
    rfl
  obtain ⟨m₁, hrounds, hends, -⟩ := hcounts [] 4 (a := 1) (b := 9) (d := 4)
    (P := fun m => m.locals.size = 1) hst rfl hfirst hreg (by decide) (by decide)
  obtain ⟨m₂, hlast, n, hn, -⟩ := hends (by decide)
  replace hrounds : (Eval.rounds (w.surroundings g).counter (q.bound range) (q.stride range)
    ((Stmt.empty p₄).execute q) [1, 5, 9]).run.run (memory 0) = some (.ok ⟨⟩, m₁) := hrounds
  replace hlast : (do
    Eval.store (.slot (w.surroundings g).counter) 13
    q.bound range).run.run m₁ = some (.ok 9, m₂) := hlast
  rw [hcounter] at hrounds hlast
  -- The rounds and the end are computed, and with them the memories.
  obtain rfl : m₁ = memory 9 := (Prod.mk.inj (Option.some.inj (hrounds.symm.trans rfl))).2
  obtain rfl : m₂ = memory 13 := (Prod.mk.inj (Option.some.inj (hlast.symm.trans rfl))).2
  refine ⟨c, hc, r, n, g'.body.position, hr, ?_⟩
  rw [← hname, ← hrname]
  unfold Site.stand at hn
  rw [hposition] at hn
  exact hn

/-- What has been written when a run ends. -/
def Run.written : Run → Option (Array UInt8)
  | .active _ => none
  | .done _ st => some st.output.bytes

/-- Behind 1 there is no integer in the range of this loop, but the next one in steps of 2147483647
is no word. There are two more rounds. -/
theorem compile_counts_wrapping :
    progression 1 2147483000 2147483647 = [1] ∧
      ∃ c st, compile "" false ("int main() \x7b for i = 1 to 2147483000 by 2147483647 do " ++
          "print(i); return 0; \x7d").toUTF8.toList = .ok c ∧
        Run.advance c.image 60 (Execution.start c.image (.trial c.image [])) =
          .done (.ok (some 0)) st ∧
        st.output.bytes = "1-2147483648-1".toUTF8.data := by
  refine ⟨by decide, ?_⟩
  obtain ⟨c, hc, -, hq⟩ := exists_compilation (q := fun c =>
      (Run.advance c.image 60 (Execution.start c.image (.trial c.image []))).endsIn
        (.ok (some 0)) = true ∧
      (Run.advance c.image 60 (Execution.start c.image (.trial c.image []))).written =
        some "1-2147483648-1".toUTF8.data)
    (show (compile "" false ("int main() \x7b for i = 1 to 2147483000 by 2147483647 do " ++
      "print(i); return 0; \x7d").toUTF8.toList).toOption.any _ = true by decide +kernel)
  obtain ⟨hends, hwritten⟩ := of_decide_eq_true hq
  obtain ⟨st, hst⟩ := Run.eq_done_of_endsIn hends
  rw [hst] at hwritten
  exact ⟨c, st, hc, hst, Option.some.inj hwritten⟩

end

end OnePass
