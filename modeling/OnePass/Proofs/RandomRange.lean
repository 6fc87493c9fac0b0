import OnePass.Proofs.ExpressionRuns

/-!
# The random operator stays in its range

All that is known of a number that is drawn below a positive bound is that it is one from 0 below
the bound (`Random.range`). Main statement: the code for a random expression replaces the word of
its operand by one between 0 and that word, wherever it stands (`compile_random_range`). -/

namespace OnePass

namespace Random

/-! ## Numbers below a bound -/

theorem below_of_pos {n : Int32} (hn : 0 < n.toInt) (r : Random) :
    0 ≤ (below n r).1.toInt ∧ (below n r).1.toInt < n.toInt := by
  have hpos : 0 < n := Int32.lt_iff_toInt_lt.mpr hn
  obtain ⟨hnonneg, hlt⟩ := r.range r.state n hpos
  unfold below
  rw [if_pos hpos]
  exact ⟨Int32.le_iff_toInt_le.mp hnonneg, Int32.lt_iff_toInt_lt.mp hlt⟩

theorem below_of_not_pos {n : Int32} (hn : ¬ 0 < n.toInt) (r : Random) : below n r = (0, r) := by
  unfold below
  rw [if_neg (mt (Int32.lt_iff_toInt_lt (x := 0)).mp hn)]

/-! ## Numbers toward a word -/

/-- The opposite of a word is the opposite integer, but for the least word. -/
theorem toInt_neg_of_lt {x : Int32} (h : Int32.minValue.toInt < x.toInt) :
    (-x).toInt = -x.toInt := by
  rw [Int32.toInt_minValue] at h
  have hmax := x.toInt_lt
  rw [Int32.toInt_neg]
  exact Int.bmod_eq_of_le (by omega) (by omega)

theorem toward_of_pos {n : Int32} (hn : 0 < n.toInt) (r : Random) :
    0 ≤ (toward n r).1.toInt ∧ (toward n r).1.toInt < n.toInt := by
  unfold toward
  rw [if_neg (by omega)]
  exact below_of_pos hn r

/-- The least word has no positive opposite to draw below, so that 0 is drawn. -/
theorem toward_of_neg {n : Int32} (hn : n.toInt < 0) (r : Random) :
    n.toInt < (toward n r).1.toInt ∧ (toward n r).1.toInt ≤ 0 := by
  unfold toward
  rw [if_pos hn]
  dsimp only
  by_cases hmin : n.toInt = Int32.minValue.toInt
  · have hopposite : ¬ 0 < (-n).toInt := by
      rw [Int32.toInt_neg, hmin]
      decide
    have hzero : (-(0 : Int32)).toInt = 0 := by decide
    rw [below_of_not_pos hopposite, hzero]
    exact ⟨hn, le_rfl⟩
  · have hle := n.le_toInt
    have hleast := Int32.toInt_minValue
    have hopposite : (-n).toInt = -n.toInt := toInt_neg_of_lt (by omega)
    obtain ⟨hnonneg, hlt⟩ := below_of_pos (n := -n) (by omega) r
    have hneg := toInt_neg_of_lt (x := (below (-n) r).1) (by omega)
    omega

theorem toward_zero {n : Int32} (hn : n.toInt = 0) (r : Random) : (toward n r).1 = 0 := by
  unfold toward
  rw [if_neg (by omega), below_of_not_pos (by omega)]

end Random

/-- What the code for a random expression is made of. -/
theorem Expr.makes_random {t : Target} {e : Expr} {span : Span} {g g' : Generator} {type : ExprType}
    (h : Gen.Makes (Expr.compile t (.lead ⟨.random, span⟩ e)) g type g') :
    ∃ g₁, Gen.Makes (e.compile t) g (.scalar .int) g₁ ∧
      Gen.Makes (Rules.random t) g₁ ⟨⟩ g' := by
  obtain ⟨_, g₁, h₁, h⟩ := Gen.makes_bind.mp h
  obtain ⟨_, g₂, h₂, h⟩ := Gen.makes_bind.mp h
  obtain ⟨-, rfl⟩ := Gen.makes_pure.mp h
  exact ⟨g₁, Operand.makes_compileUnder h₁, h₂⟩

/-- **The random operator stays in its range.** The code for a random expression is that of its
operand and a block behind it. Wherever the block stands in either stream, as long as 32 bits are
enough for its labels, whatever the operand left and whatever the generator is and has done, the
block replaces the topmost word `n` by one word between 0 and `n`. Apart from the state of the
generator it changes nothing. -/
theorem compile_random_range {t : Target} {e : Expr} {span : Span} {g g' : Generator}
    {type : ExprType} (hm : Gen.Makes (Expr.compile t (.lead ⟨.random, span⟩ e)) g type g') :
    ∃ g₁, Gen.Makes (e.compile t) g (.scalar .int) g₁ ∧
      ∀ (image : Image) (c : Calls) (n : Int32) (s : List Value),
        c.top.code.Continues (g'.draft t) → c.top.position = (g₁.draft t).position →
        c.top.stack = .word n :: s →
        ∃ (k : Nat) (r : Int32) (random : Random),
          Calls.advance image 0 k (.active c) = .active
            { c with
              top := { c.top with position := (g'.draft t).position, stack := .word r :: s }
              store := { c.store with random } } ∧
          (0 < n.toInt → 0 ≤ r.toInt ∧ r.toInt < n.toInt) ∧
          (n.toInt < 0 → n.toInt < r.toInt ∧ r.toInt ≤ 0) ∧
          (n.toInt = 0 → r = 0) := by
  obtain ⟨g₁, he, hrandom⟩ := Expr.makes_random hm
  refine ⟨g₁, he, fun image c n s hcode hposition hstack => ?_⟩
  obtain ⟨⟨name, code, position, args, locals, stack⟩, callers, store⟩ := c
  dsimp only at hcode hposition hstack ⊢
  subst hposition hstack
  -- nothing of the program but the code of this call matters for the block
  let w : Site := ⟨⟨⟨[]⟩, image⟩, t, g₁.scopes, g₁.functions, g₁.legacy, name, code, [],
    [], callers,
    0, (g'.draft t).position, 0⟩
  obtain ⟨k, hk, -⟩ := Site.reaches_random (w := w) (m := ⟨args, locals, store⟩) (x := n) (s := s)
    ⟨rfl, rfl, rfl, Nat.zero_le _⟩ hrandom ⟨hcode, le_rfl⟩
  exact ⟨k, _, _, hk, fun h => Random.toward_of_pos h _, fun h => Random.toward_of_neg h _,
    fun h => Random.toward_zero h _⟩

/-- Two random expressions of one stream, each with labels of its own: behind the inner one the
outer one goes the way of the negative words. -/
theorem compile_random_range_nested :
    let code : Code := ⟨.mk (.pushInt 5 :: Rules.randomInstructions 0 1 ++
      .neg :: Rules.randomInstructions 2 3), #[9, 10, 19, 20]⟩
    let st : Store := ⟨#[], #[], [], ⟨#[], none⟩, .ofSeed 0, .simple⟩
    ∃ k r random, Calls.advance ⟨true, [], .empty, #[], 0⟩ 0 k
        (.active ⟨⟨"main", code, 11, #[], #[], [.word (-3), .word 7]⟩, [], st⟩) =
          .active ⟨⟨"main", code, 20, #[], #[], [.word r, .word 7]⟩, [], { st with random }⟩ ∧
      -3 < r.toInt ∧ r.toInt ≤ 0 := by
  intro code st
  let span : Span := .single .origin
  let e : Expr := .lead ⟨.negative, span⟩ (.lead ⟨.random, span⟩ (.literal ⟨.int 5, span⟩))
  let g' : Generator :=
    { Generator.new false with body := ⟨code.instructions, #[some 9, some 10, some 19, some 20]⟩ }
  have hm : Gen.Makes (Expr.compile .function (.lead ⟨.random, span⟩ e)) (.new false)
      (.scalar .int) g' := rfl
  obtain ⟨g₁, he, hruns⟩ := compile_random_range hm
  have hposition : (g₁.draft .function).position = 11 := by
    cases he
    rfl
  have hcode : code.Continues (g'.draft .function) := by
    refine ⟨⟨by decide, by decide⟩, List.prefix_rfl, fun l p hl => ?_⟩
    have hlabels : (g'.draft .function).labels = code.labels.map some := by
      simp [g', code, Generator.draft]
    rw [hlabels, Array.getElem?_map, Option.map_eq_some_iff] at hl
    obtain ⟨n, hn, hp⟩ := hl
    rw [Code.target?, hn, Option.some.inj hp]
    rfl
  obtain ⟨k, r, random, hk, -, hneg, -⟩ := hruns ⟨true, [], .empty, #[], 0⟩
    ⟨⟨"main", code, 11, #[], #[], [.word (-3), .word 7]⟩, [], st⟩ (-3) [.word 7] hcode
    hposition.symm rfl
  exact ⟨k, r, random, hk, hneg (by decide)⟩

end OnePass
