import Mathlib.Data.List.Chain
import OnePass.Proofs.LineStreams

/-!
# What unreadable lines hide

Main statement: every unreadable line is a fault, but the lexer does not move with it. The fault is
placed where the first of a run of unreadable lines stands, and the line that can be read behind the
run is skipped with all that is wrong on it (`Line.reported`). So every line has its own faults
reported, each on its line, exactly if what stands behind an unreadable line can be read and has no
fault (`faults_unreadable`).
-/

namespace OnePass

namespace Line

/-- The source `piece` has one line, which cannot be read. -/
def Unreadable (piece : List UInt8) : Prop := ofBytes piece = [none]

instance : DecidablePred Unreadable := fun piece => inferInstanceAs (Decidable (ofBytes piece = _))

/-- The faults `es` are those of the lines below `n` others, line by line: of an unreadable line
that it cannot be read, of any other line those that it has as a source of its own. -/
inductive OwnFaults : Nat → List (List UInt8) → List (Located LexicalError) → Prop where
  | nil {n : Nat} : OwnFaults n [] []
  | unreadable {n : Nat} {piece : List UInt8} {ps : List (List UInt8)} {span : Span}
      {es : List (Located LexicalError)} (hpiece : Unreadable piece)
      (hspan : span.start.line = .ofNat (n + 1)) (h : OwnFaults (n + 1) ps es) :
      OwnFaults n (piece :: ps) (⟨.unreadable, span⟩ :: es)
  | readable {n : Nat} {piece : List UInt8} {ps : List (List UInt8)}
      {es : List (Located LexicalError)} (hpiece : ¬ Unreadable piece)
      (h : OwnFaults (n + 1) ps es) :
      OwnFaults n (piece :: ps) ((faults (lexemes (readings piece))).map (Located.down n) ++ es)

/-- The faults that are reported of the lines below `n` others, the last `m` of which are
unreadable. -/
def reported : Nat → Nat → List (List UInt8) → List (Located LexicalError)
  | _, _, [] => []
  | m, n, piece :: ps =>
    if Unreadable piece then
      ⟨.unreadable, .single (.down (n - m) .origin)⟩ :: reported (m + 1) (n + 1) ps
    else if m = 0 then
      (faults (lexemes (readings piece))).map (Located.down n) ++ reported 0 (n + 1) ps
    else reported 0 (n + 1) ps

/-- A line on which nothing can be hidden: it can be read and has no fault. -/
def Faultless (piece : List UInt8) : Prop :=
  ¬ Unreadable piece ∧ faults (lexemes (readings piece)) = []

instance : DecidablePred Faultless := fun piece =>
  inferInstanceAs (Decidable (¬ Unreadable piece ∧ _))

end Line

/-! ## What the lexer reports -/

open Line

variable {piece bytes : List UInt8} {ps : List (List UInt8)} {lines : List Line}

theorem Line.Alone.not_unreadable {s : String} (h : Alone piece (some s)) : ¬ Unreadable piece := by
  rw [Unreadable, h.ofBytes_eq]
  simp

/-- The lexer behind `m` unreadable lines, the first of which stands below `k` lines. -/
theorem faults_run (h : List.Forall₂ Alone ps lines) (hopen : Unopened lines) {m n : Nat}
    (hm : m ≤ n) :
    faults (Lexer.run (if m = 0 then .fresh else .skipping) (.single (.down (n - m) .origin))
      (Reading.ofLines (.down n .origin) lines)) = reported m n ps := by
  induction h generalizing m n with
  | nil => split <;> rfl
  | @cons piece l ps lines hpiece _ ih =>
    rw [reported]
    cases l with
    | none =>
      have hun : Unreadable piece := hpiece.ofBytes_eq
      rw [if_pos hun]
      have hrest := ih hopen.tail (Nat.add_le_add_right hm 1)
      rw [if_neg (Nat.succ_ne_zero m), Nat.add_sub_add_right, Position.down_succ n] at hrest
      exact congrArg _ hrest
    | some s =>
      have hline : '\n' ∉ s.toList := hpiece.newline_not_mem
      have hrest := ih hopen.tail (Nat.zero_le (n + 1))
      rw [if_pos rfl] at hrest
      rw [if_neg hpiece.not_unreadable]
      by_cases hzero : m = 0
      · subst hzero
        rw [if_pos rfl, if_pos rfl, Nat.sub_zero,
          run_readable hpiece (hopen (some s) List.mem_cons_self), faults_append, faults_down,
          ← hrest]
        rfl
      · rw [if_neg hzero, if_neg hzero, Reading.ofLines_cons hline, Lexer.run_skipping hline,
          ← hrest, Nat.sub_zero, Position.down_succ n]
        rfl

theorem faults_eq_reported (hopen : Unopened (ofBytes bytes)) :
    faults (lexemes (readings bytes)) = reported 0 0 (pieces bytes) :=
  faults_run (alone_pieces bytes) hopen (Nat.le_refl 0)

/-! ## When nothing is hidden -/

/-- The place of the line below `n` others. -/
theorem line_down_origin (n : Nat) : (Position.down n .origin).line = .ofNat (n + 1) := by
  rw [Nat.add_comm, UInt32.ofNat_add]
  rfl

/-- The number of faults that lines have as sources of their own, an unreadable one having one. -/
def Line.ownCount (ps : List (List UInt8)) : Nat :=
  (ps.map fun piece =>
    if Unreadable piece then 1 else (faults (lexemes (readings piece))).length).sum

theorem Line.OwnFaults.length_eq {n : Nat} {es : List (Located LexicalError)}
    (h : OwnFaults n ps es) : es.length = ownCount ps := by
  induction h with
  | nil => rfl
  | unreadable hpiece _ _ ih =>
    rw [List.length_cons, ih, ownCount, ownCount, List.map_cons, List.sum_cons, if_pos hpiece,
      Nat.add_comm]
  | readable hpiece _ ih =>
    rw [List.length_append, List.length_map, ih, ownCount, ownCount, List.map_cons, List.sum_cons,
      if_neg hpiece]

/-- No more is reported than there is. -/
theorem Line.length_reported_le (m n : Nat) (ps : List (List UInt8)) :
    (reported m n ps).length ≤ ownCount ps := by
  induction ps generalizing m n with
  | nil => exact Nat.le_refl 0
  | cons piece ps ih =>
    have hcount : ownCount (piece :: ps) =
        (if Unreadable piece then 1 else (faults (lexemes (readings piece))).length)
          + ownCount ps := rfl
    rw [reported, hcount]
    split
    · rw [List.length_cons, Nat.add_comm]
      exact Nat.add_le_add_left (ih _ _) 1
    · split
      · rw [List.length_append, List.length_map]
        exact Nat.add_le_add_left (ih _ _) _
      · exact (ih _ _).trans (Nat.le_add_left _ _)

theorem Line.ownFaults_of_unreadable (h : Unreadable piece) {n : Nat}
    {es : List (Located LexicalError)} :
    OwnFaults n (piece :: ps) es ↔
      ∃ span es', es = ⟨.unreadable, span⟩ :: es' ∧ span.start.line = .ofNat (n + 1) ∧
        OwnFaults (n + 1) ps es' := by
  constructor
  · intro hown
    cases hown with
    | unreadable _ hspan hrest => exact ⟨_, _, rfl, hspan, hrest⟩
    | readable hpiece _ => exact absurd h hpiece
  · rintro ⟨span, es', rfl, hspan, hrest⟩
    exact .unreadable h hspan hrest

theorem Line.ownFaults_of_readable (h : ¬ Unreadable piece) {n : Nat}
    {es : List (Located LexicalError)} :
    OwnFaults n (piece :: ps) es ↔
      ∃ es', es = (faults (lexemes (readings piece))).map (Located.down n) ++ es' ∧
        OwnFaults (n + 1) ps es' := by
  constructor
  · intro hown
    cases hown with
    | unreadable hpiece _ _ => exact absurd hpiece h
    | readable _ hrest => exact ⟨_, rfl, hrest⟩
  · rintro ⟨es', rfl, hrest⟩
    exact .readable h hrest

/-- A line that is skipped has its own faults reported exactly if it has none: otherwise there are
more of them than are reported. -/
theorem Line.ownFaults_skipped_iff (h : ¬ Unreadable piece) {n : Nat} :
    OwnFaults n (piece :: ps) (reported 0 (n + 1) ps) ↔
      faults (lexemes (readings piece)) = [] ∧ OwnFaults (n + 1) ps (reported 0 (n + 1) ps) := by
  rw [ownFaults_of_readable h]
  constructor
  · rintro ⟨es', hes, hrest⟩
    have hle := length_reported_le 0 (n + 1) ps
    rw [hes, List.length_append, List.length_map, hrest.length_eq] at hle
    have hnone : faults (lexemes (readings piece)) = [] := List.length_eq_zero_iff.mp (by omega)
    rw [hnone] at hes
    exact ⟨hnone, hes ▸ hrest⟩
  · rintro ⟨hnone, hrest⟩
    refine ⟨_, ?_, hrest⟩
    rw [hnone]
    rfl

/-- At the beginning, or behind the first of a run of unreadable lines, all lines have their own
faults reported exactly if there is nothing to be hidden on the first of them behind an unreadable
one, nor on those behind another one. -/
theorem Line.ownFaults_reported_iff (ps : List (List UInt8)) (n : Nat) :
    (OwnFaults n ps (reported 0 n ps) ↔
      ps.IsChain fun piece behind => Unreadable piece → Faultless behind) ∧
    (OwnFaults (n + 1) ps (reported 1 (n + 1) ps) ↔
      (∀ piece ∈ ps.head?, Faultless piece) ∧
        ps.IsChain fun piece behind => Unreadable piece → Faultless behind) := by
  induction ps generalizing n with
  | nil => exact ⟨⟨fun _ => .nil, fun _ => .nil⟩, ⟨fun _ => ⟨by simp, .nil⟩, fun _ => .nil⟩⟩
  | cons piece ps ih =>
    simp only [reported, List.isChain_cons, List.head?_cons]
    by_cases hun : Unreadable piece
    · simp only [if_pos hun, ownFaults_of_unreadable hun, Nat.sub_zero, Nat.add_sub_cancel]
      constructor
      · have hbehind : (∀ q ∈ ps.head?, Unreadable piece → Faultless q) ↔
            ∀ q ∈ ps.head?, Faultless q :=
          forall₂_congr fun q _ => forall_prop_of_true hun
        rw [hbehind, ← (ih n).2]
        constructor
        · rintro ⟨span, es', hes, -, hown⟩
          exact (List.cons.inj hes).2 ▸ hown
        · exact fun hown => ⟨_, _, rfl, line_down_origin n, hown⟩
      · -- the fault is placed where the line above stands
        refine iff_of_false ?_ fun h => (h.1 piece rfl).1 hun
        rintro ⟨span, es', hes, hspan, -⟩
        obtain ⟨hhead, -⟩ := List.cons.inj hes
        have hline : (Position.down n .origin).line = .ofNat (n + 1 + 1) :=
          (congrArg (·.span.start.line) hhead).trans hspan
        rw [line_down_origin, UInt32.ofNat_add (n + 1)] at hline
        exact absurd hline (by simp)
    · have hchain : (∀ q ∈ ps.head?, Unreadable piece → Faultless q) := fun q _ h => absurd h hun
      simp only [if_neg hun, if_true, Nat.one_ne_zero, if_false, and_iff_right hchain]
      constructor
      · rw [ownFaults_of_readable hun, ← (ih (n + 1)).1]
        constructor
        · rintro ⟨es', hes, hown⟩
          exact List.append_cancel_left hes ▸ hown
        · exact fun hown => ⟨_, rfl, hown⟩
      · rw [ownFaults_skipped_iff hun, (ih (n + 1 + 1)).1]
        refine and_congr_left fun _ => ⟨fun hnone q hq => ?_, fun hhead => (hhead piece rfl).2⟩
        exact Option.some.inj hq ▸ ⟨hun, hnone⟩

theorem Line.ownFaults_iff (hopen : Unopened (ofBytes bytes)) :
    OwnFaults 0 (pieces bytes) (faults (lexemes (readings bytes))) ↔
      (pieces bytes).IsChain fun piece behind => Unreadable piece → Faultless behind := by
  rw [faults_eq_reported hopen]
  exact (ownFaults_reported_iff _ 0).1

/-- **Unreadable lines.** Of a source that opens no block comment in a line that can be read, all
unreadable lines are reported, those behind another one in the place of the first of them, and of
the other lines those that do not stand behind an unreadable one, each with the faults that it has
as a source of its own, in its place. So every line has its own faults reported, in order, exactly
if no line behind an unreadable one is unreadable or has a fault. -/
theorem faults_unreadable (hopen : Unopened (ofBytes bytes)) :
    faults (lexemes (readings bytes)) = reported 0 0 (pieces bytes) ∧
      (OwnFaults 0 (pieces bytes) (faults (lexemes (readings bytes))) ↔
        (pieces bytes).IsChain fun piece behind => Unreadable piece → Faultless behind) :=
  ⟨faults_eq_reported hopen, ownFaults_iff hopen⟩

/-- A line with a fault, an unreadable line, one without a fault and another one with a fault. -/
theorem faults_unreadable_shown :
    Unopened (ofBytes [0x40, 0x0a, 0xff, 0x0a, 0x61, 0x0a, 0x40]) ∧
    faults (lexemes (readings [0x40, 0x0a, 0xff, 0x0a, 0x61, 0x0a, 0x40]))
      = [⟨.badChar '@', .single ⟨1, 1⟩⟩, ⟨.unreadable, .single ⟨2, 1⟩⟩,
        ⟨.badChar '@', .single ⟨4, 1⟩⟩] ∧
    OwnFaults 0 [[0x40, 0x0a], [0xff, 0x0a], [0x61, 0x0a], [0x40]]
      [⟨.badChar '@', .single ⟨1, 1⟩⟩, ⟨.unreadable, .single ⟨2, 1⟩⟩,
        ⟨.badChar '@', .single ⟨4, 1⟩⟩] := by
  have hopen : Unopened (ofBytes [0x40, 0x0a, 0xff, 0x0a, 0x61, 0x0a, 0x40]) := by decide +kernel
  have hreported : reported 0 0 (pieces [0x40, 0x0a, 0xff, 0x0a, 0x61, 0x0a, 0x40])
      = [⟨.badChar '@', .single ⟨1, 1⟩⟩, ⟨.unreadable, .single ⟨2, 1⟩⟩,
        ⟨.badChar '@', .single ⟨4, 1⟩⟩] := by decide +kernel
  obtain ⟨hfaults, hiff⟩ := faults_unreadable hopen
  rw [hreported] at hfaults
  rw [hfaults] at hiff
  exact ⟨hopen, hfaults, hiff.mpr (by decide +kernel)⟩

/-- What is wrong on a line behind an unreadable one is not reported. -/
theorem faults_hidden :
    Unopened (ofBytes [0xff, 0x0a, 0x40, 0x0a]) ∧
      ¬ OwnFaults 0 (pieces [0xff, 0x0a, 0x40, 0x0a])
        (faults (lexemes (readings [0xff, 0x0a, 0x40, 0x0a]))) := by
  have hopen : Unopened (ofBytes [0xff, 0x0a, 0x40, 0x0a]) := by decide +kernel
  rw [ownFaults_iff hopen]
  exact ⟨hopen, by decide +kernel⟩

end OnePass
