import Mathlib.Data.List.Basic
import OnePass.Token.Cursor
import OnePass.Token.Lookahead

/-!
# Looking ahead changes nothing

Main statement: however looking ahead and taking follow on each other, a stream with a buffer
answers as a cursor over the list of tokens does, and behind `m` tokens that were taken each answer
is read off the list at `m` (`Lookahead.run_reads`).

The buffer grows by what the source loses, whether the source lasts or ends too early, so the two
together are the tokens not taken: `Lookahead.rest` is what every step keeps.
-/

namespace OnePass

/-! ## What is done with tokens -/

/-- One thing that is done with tokens. -/
inductive TokenStep where
  /-- looks at the token `k` places ahead, from 1 -/
  | peek (k : Nat) (pos : 0 < k)
  /-- takes the next token -/
  | next

/-- What was done, each thing with its answer. -/
abbrev TokenHistory : Type := List (TokenStep × Option (Located Token))

/-- The tokens that were taken, in order. -/
def TokenHistory.taken (history : TokenHistory) : List (Located Token) :=
  history.filterMap fun
    | (.next, answer) => answer
    | (.peek .., _) => none

namespace TokenHistory

variable {history : TokenHistory} {answer : Option (Located Token)} {k : Nat} {pos : 0 < k}

theorem taken_peek : taken ((.peek k pos, answer) :: history) = history.taken := rfl

theorem taken_next : taken ((.next, answer) :: history) = answer.toList ++ history.taken := by
  cases answer <;> rfl

end TokenHistory

namespace Lookahead

/-- Does one thing. -/
def step (s : Lookahead) : TokenStep → Option (Located Token) × Lookahead
  | .peek k _ => s.peek k
  | .next => s.next

/-- Does one thing after the other. -/
def run (s : Lookahead) : List TokenStep → TokenHistory × Lookahead
  | [] => ([], s)
  | step :: steps =>
    let (answer, s') := s.step step
    let (history, s'') := s'.run steps
    ((step, answer) :: history, s'')

theorem run_cons (s : Lookahead) (step : TokenStep) (steps : List TokenStep) :
    s.run (step :: steps) = ((step, (s.step step).1) :: ((s.step step).2.run steps).1,
      ((s.step step).2.run steps).2) := rfl

end Lookahead

namespace Cursor

/-- Does one thing. Looking ahead leaves the cursor where it is. -/
def step (c : Cursor) : TokenStep → Option (Located Token) × Cursor
  | .peek k _ => (c.peek? k, c)
  | .next =>
    match c.next? with
    | some (t, c') => (some t, c')
    | none => (none, c)

/-- Does one thing after the other. -/
def run (c : Cursor) : List TokenStep → TokenHistory × Cursor
  | [] => ([], c)
  | step :: steps =>
    let (answer, c') := c.step step
    let (history, c'') := c'.run steps
    ((step, answer) :: history, c'')

theorem run_cons (c : Cursor) (step : TokenStep) (steps : List TokenStep) :
    c.run (step :: steps) = ((step, (c.step step).1) :: ((c.step step).2.run steps).1,
      ((c.step step).2.run steps).2) := rfl

theorem peek?_ofList (ts : List (Located Token)) {k : Nat} (pos : 0 < k) :
    (ofList ts).peek? k = ts[k - 1]? :=
  if_neg (Nat.ne_of_gt pos)

theorem step_next (ts : List (Located Token)) :
    (ofList ts).step .next = (ts.head?, ofList ts.tail) := by
  cases ts <;> rfl

end Cursor

/-! ## One step -/

namespace Lookahead

variable {s : Lookahead} {ts : List (Located Token)} {k : Nat}

/-- Delivering tokens loses none of them. It fails only when there are fewer than `k`, and else `k`
of them wait. -/
theorem fill_spec (k : Nat) (buffer source : List (Located Token)) :
    (fill k buffer source).2.rest = buffer ++ source ∧
      ((fill k buffer source).1 = true → k ≤ (fill k buffer source).2.buffer.length) ∧
      ((fill k buffer source).1 = false → (buffer ++ source).length < k) := by
  induction source generalizing buffer with
  | nil => simp [fill, rest]
  | cons t source ih =>
    rw [fill]
    by_cases h : buffer.length < k
    · rw [if_pos h, List.append_cons buffer t source]
      exact ih (buffer ++ [t])
    · rw [if_neg h]
      exact ⟨rfl, fun _ => Nat.le_of_not_lt h, Bool.noConfusion⟩

/-- Looking ahead shows what stands there among the tokens not taken, and takes none of them. -/
theorem peek_eq (s : Lookahead) (pos : 0 < k) :
    (s.peek k).1 = s.rest[k - 1]? ∧ (s.peek k).2.rest = s.rest := by
  obtain ⟨hrest, hfull, hshort⟩ := fill_spec k s.buffer s.source
  rw [peek]
  match hfill : fill k s.buffer s.source with
  | (true, s') =>
    -- `k` tokens wait, so what stands at `k` is one of them
    rw [hfill] at hrest hfull
    have hwaits : k - 1 < s'.buffer.length :=
      Nat.lt_of_lt_of_le (Nat.sub_one_lt_of_lt pos) (hfull rfl)
    refine ⟨?_, hrest⟩
    calc s'.buffer[k - 1]? = s'.rest[k - 1]? := (List.getElem?_append_left hwaits).symm
      _ = s.rest[k - 1]? := by rw [show s'.rest = s.rest from hrest]
  | (false, s') =>
    -- the source has ended in front of `k`
    rw [hfill] at hrest hshort
    exact ⟨(List.getElem?_eq_none (Nat.le_sub_one_of_lt (hshort rfl))).symm, hrest⟩

/-- All tokens that are left come one after the other. -/
theorem drain_eq (s : Lookahead) : s.drain = s.rest := by
  fun_induction drain s with
  | case1 s t s' h _ ih =>
    obtain ⟨hhead, htail⟩ := next_eq s
    rw [h] at hhead htail
    rw [ih, htail]
    exact List.cons_head?_tail hhead.symm
  | case2 s s' h =>
    obtain ⟨hhead, -⟩ := next_eq s
    rw [h] at hhead
    exact (List.head?_eq_none_iff.mp hhead.symm).symm

/-- One step gives the answer of the cursor over the tokens left, and leaves what the cursor
leaves. -/
theorem step_eq (s : Lookahead) (step : TokenStep) :
    (s.step step).1 = ((Cursor.ofList s.rest).step step).1 ∧
      Cursor.ofList (s.step step).2.rest = ((Cursor.ofList s.rest).step step).2 := by
  cases step with
  | peek k pos =>
    obtain ⟨hanswer, hrest⟩ := peek_eq s pos
    exact ⟨hanswer.trans (Cursor.peek?_ofList _ pos).symm, congrArg Cursor.ofList hrest⟩
  | next =>
    obtain ⟨hanswer, hrest⟩ := next_eq s
    rw [Cursor.step_next]
    exact ⟨hanswer, congrArg Cursor.ofList hrest⟩

/-! ## Many steps -/

/-- The answers are those of the cursor over the tokens left. -/
theorem run_eq (s : Lookahead) (steps : List TokenStep) :
    (Cursor.ofList s.rest).run steps =
      ((s.run steps).1, Cursor.ofList (s.run steps).2.rest) := by
  induction steps generalizing s with
  | nil => rfl
  | cons step steps ih =>
    obtain ⟨hanswer, hcursor⟩ := step_eq s step
    rw [run_cons, Cursor.run_cons, ← hanswer, ← hcursor, ih]

/-- What was taken and what is left is what there was. -/
theorem taken_append_rest (s : Lookahead) (steps : List TokenStep) :
    (s.run steps).1.taken ++ (s.run steps).2.rest = s.rest := by
  induction steps generalizing s with
  | nil => rfl
  | cons step steps ih =>
    have hrun := ih (s.step step).2
    rw [run_cons]
    cases step with
    | peek k pos =>
      rw [TokenHistory.taken_peek, hrun]
      exact (peek_eq s pos).2
    | next =>
      obtain ⟨hhead, htail⟩ := next_eq s
      rw [TokenHistory.taken_next, List.append_assoc, hrun, step, hhead, htail]
      cases s.rest <;> rfl

/-- What is shown of `ts` behind `m` tokens that were taken. -/
structure ReadsAt (s : Lookahead) (ts : List (Located Token)) (m : Nat) : Prop where
  /-- the token at `m + k`, from 1, or nothing -/
  peek : ∀ k, 0 < k → (s.peek k).1 = ts[m + k - 1]?
  /-- the token at `m + 1`, from 1, or nothing -/
  next : s.next.1 = ts[m]?
  /-- all tokens behind the `m` taken -/
  drain : s.drain = ts.drop m

theorem readsAt_of_rest {m : Nat} (h : s.rest = ts.drop m) : s.ReadsAt ts m where
  peek k pos := by rw [(peek_eq s pos).1, h, List.getElem?_drop, Nat.add_sub_assoc pos]
  next := by rw [(next_eq s).1, h, List.head?_drop]
  drain := by rw [drain_eq, h]

/-- **Looking ahead changes nothing**: whatever was done with tokens, each answer is that of a
cursor which only taking advances. The tokens taken are the first ones of the list, in order; behind
them stands the cursor, and behind them is read what is shown next. -/
theorem run_reads (ts : List (Located Token)) (steps : List TokenStep) :
    let (history, s) := (ofList ts).run steps
    let m := history.taken.length
    (Cursor.ofList ts).run steps = (history, Cursor.ofList (ts.drop m)) ∧
      history.taken = ts.take m ∧ s.ReadsAt ts m := by
  have hrun := run_eq (ofList ts) steps
  have hsplit := taken_append_rest (ofList ts) steps
  rw [rest_ofList] at hrun hsplit
  match h : (ofList ts).run steps with
  | (history, s) =>
    rw [h] at hrun hsplit
    have htaken : ts.take history.taken.length = history.taken := by rw [← hsplit, List.take_left]
    have hrest : ts.drop history.taken.length = s.rest := by rw [← hsplit, List.drop_left]
    exact ⟨hrest.symm ▸ hrun, htaken.symm, readsAt_of_rest hrest.symm⟩

end Lookahead

end OnePass
