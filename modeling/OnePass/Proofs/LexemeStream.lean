import OnePass.Proofs.ReadingPlaces
import OnePass.Proofs.WrittenTokens
import OnePass.Token.Scanner

/-!
# Lexing comes to an end

A scanner is called for one lexeme after the other. Main statement: every call comes to an end, the
calls give the lexemes of the source one by one and nothing behind them, and there are no more
lexemes than characters and unreadable lines (`Scanner.calls_end`).

What a scanner has still to give is its `output`. A round without an answer keeps it
(`Turn.output_eq`), though it may leave its character to be looked at again, and an answer is the
first of it (`Turn.head?_output`). This rests on the source consisting of ended lines
(`Scanner.Sound`): the next thing behind a token that is complete is a character of the same line,
so no unreadable line comes between the token and its being given away. -/

namespace OnePass

/-! ## Sources of ended lines -/

namespace Reader

/-- What was reached of a line ends with a line feed. -/
def Ended (r : Reader) : Prop := r.pending = [] ∨ r.pending.getLast? = some '\n'

variable {r r' : Reader} {x : Reading}

theorem ended_ofBytes (bytes : List UInt8) : (ofBytes bytes).Ended := .inl rfl

/-- Behind a character that ends no line there is another one. -/
theorem Ended.of_next? (h : r.Ended) (hx : r.next? = some (x, r')) :
    r'.Ended ∧ (x.passed ≠ '\n' → r'.pending ≠ []) := by
  -- all that is known of the characters that were still to come is that the last one is a line feed
  have hsplit {c : Char} {cs : List Char} (hlast : (c :: cs).getLast? = some '\n') :
      (cs = [] ∨ cs.getLast? = some '\n') ∧ (c ≠ '\n' → cs ≠ []) := by
    cases cs with
    | nil => exact ⟨.inl rfl, fun hc => absurd (Option.some.inj hlast) hc⟩
    | cons d ds => exact ⟨.inr hlast, fun _ => List.cons_ne_nil d ds⟩
  cases step_of_next? hx with
  | char hpending =>
    have hlast := h.resolve_left (hpending ▸ List.cons_ne_nil _ _)
    rw [hpending] at hlast
    exact hsplit hlast
  | unreadable hpending => exact ⟨.inl hpending, fun hne => absurd rfl hne⟩
  | @line s _ _ _ _ _ hline =>
    have hlast : (s.toList ++ ['\n']).getLast? = some '\n' := List.getLast?_concat
    rw [hline] at hlast
    exact hsplit hlast

/-- In the middle of a line comes a character. -/
theorem next?_of_pending (h : r.pending ≠ []) (source : Reader) :
    r.next? ≠ some (.unreadable, source) := by
  obtain ⟨c, cs, hpending⟩ := List.exists_cons_of_ne_nil h
  unfold next?
  rw [hpending]
  exact nofun

end Reader

/-! ## What a character makes -/

namespace Lexer

variable {s : State} {c : Char} {here : Span} {t : Token} {span : Span} {rest : List Reading}

/-- A token is not completed by the end of a line. -/
theorem ne_newline_of_complete (h : move s c here = .complete t span) : c ≠ '\n' := by
  rintro rfl
  cases s with
  | operator t' seen =>
    rw [move, extend?_of_not_mark (by decide)] at h
    cases h
  | comment depth last => simp [move, commentMove] at h
  | _ => cases h

/-- How many lexemes come at most of what is in progress. -/
def State.pending : State → Nat
  | .fresh | .skipping | .lineComment => 0
  | _ => 1

theorem State.pending_le (s : State) : s.pending ≤ 1 := by
  unfold pending
  split <;> decide

theorem length_finish_le (s : State) (here : Span) : (finish s here).length ≤ s.pending := by
  cases s <;> exact Nat.le_refl _

theorem pending_recover (c : Char) : (recover c).pending = 0 := by
  unfold recover
  split <;> rfl

/-- Before a token that a character stands behind, something is in progress. -/
theorem pending_of_behind (h : move s c here = .behind t span) : s.pending = 1 := by
  cases s with
  | fresh => exact absurd h (begin_ne_behind c here span t)
  | skipping => unfold move at h; dsimp only at h; split at h <;> cases h
  | lineComment => unfold move at h; dsimp only at h; split at h <;> cases h
  | _ => rfl

/-- A text has no more lexemes than characters and lines that cannot be read. -/
theorem length_run_le (s : State) (here : Span) (rs : List Reading) :
    (run s here rs).length ≤ rs.length + s.pending := by
  induction rs generalizing s here with
  | nil => exact (length_finish_le s here).trans (Nat.le_add_left _ _)
  | cons x rs ih =>
    cases x with
    | unreadable =>
      have hrest := ih .skipping here
      rw [run, List.length_cons, List.length_cons]
      exact (Nat.succ_le_succ hrest).trans (Nat.le_add_right _ _)
    | char c next =>
      have hplain (s : State) (hs : ∀ t span, move s c here ≠ .behind t span) :
          (run s here (.char c next :: rs)).length ≤ rs.length + 1 := by
        rw [run_char]
        cases hmove : move s c here with
        | into s' => exact (ih s' next).trans (Nat.add_le_add_left s'.pending_le _)
        | complete t span => exact Nat.succ_le_succ (ih .fresh next)
        | behind t span => exact absurd hmove (hs t span)
        | fault e =>
          have hrest := ih (recover c) next
          rw [pending_recover] at hrest
          exact Nat.succ_le_succ hrest
      by_cases hs : ∃ t span, move s c here = .behind t span
      · obtain ⟨t, span, hmove⟩ := hs
        have hfresh := hplain .fresh fun t span => begin_ne_behind c here span t
        rw [run_char, hmove, pending_of_behind hmove, List.length_cons, List.length_cons]
        exact Nat.succ_le_succ hfresh
      · have hrest := hplain s fun t span hmove => hs ⟨t, span, hmove⟩
        exact hrest.trans (Nat.le_add_right _ _)

/-- Behind a fault the character is looked at again, and skipped like the rest of its line. -/
theorem run_skipping_char (here : Span) (c : Char) (next : Span) (rest : List Reading) :
    run .skipping here (.char c next :: rest) = run (recover c) next rest := by
  rw [run_char, move, recover]
  split_ifs <;> rfl

/-- A number is the same when its first digit is looked at once more. -/
theorem run_integer_zero {d : Nat} (hd : Text.digit? c = some d) (here next : Span)
    (rest : List Reading) :
    run (.integer 0 ⟨here.start, here.start⟩) here (.char c next :: rest) =
      run .fresh here (.char c next :: rest) := by
  have hfresh : move .fresh c here = .into (.integer d here) := begin_of_digit hd here
  have hinteger : move (.integer 0 ⟨here.start, here.start⟩) c here = .into (.integer d here) := by
    obtain ⟨hdigit, rfl⟩ := digit?_eq_some.mp hd
    have hrange := isDigit_iff.mp hdigit
    have hsmall : 0 * 10 + (c.toNat - '0'.toNat) ≤ 2147483647 := by omega
    rw [move, hd]
    dsimp only
    rw [if_pos hsmall, Nat.zero_mul, Nat.zero_add]
    rfl
  rw [run_char, run_char, hfresh, hinteger]

end Lexer

/-! ## What a call does -/

namespace Scanner

variable {s s' : Scanner} {x : Option Lexeme}

/-- The lexemes that are still to come. -/
def output (s : Scanner) : List Lexeme :=
  match s.phase with
  | .reading state => Lexer.run state s.here s.source.remaining
  | .complete t span => .ok ⟨t, span⟩ :: Lexer.run .fresh s.here s.source.remaining

/-- The source consists of ended lines, so no line ends behind a token that is complete. -/
structure Sound (s : Scanner) : Prop where
  ended : s.source.Ended
  inLine : ∀ t span, s.phase = .complete t span → s.source.pending ≠ []

theorem sound_ofBytes (bytes : List UInt8) : (ofBytes bytes).Sound :=
  ⟨Reader.ended_ofBytes bytes, nofun⟩

theorem output_ofBytes (bytes : List UInt8) :
    (ofBytes bytes).output = lexemes (readings bytes) := rfl

theorem output_of_reading {state : Lexer.State} (h : s.phase = .reading state) :
    s.output = Lexer.run state s.here s.source.remaining := by
  rw [output, h]

theorem output_of_complete {t : Token} {span : Span} (h : s.phase = .complete t span) :
    s.output = .ok ⟨t, span⟩ :: Lexer.run .fresh s.here s.source.remaining := by
  rw [output, h]

/-- A round without an answer leaves what is to come. -/
theorem Turn.output_eq (h : s.Turn (.again s')) (hs : s.Sound) :
    s'.Sound ∧ s'.output = s.output := by
  cases h with
  | number hphase hsource hdigit =>
    refine ⟨⟨hs.ended, nofun⟩, ?_⟩
    rw [output_of_reading hphase, Reader.remaining_of_next? hsource,
      ← Lexer.run_integer_zero hdigit, ← Reader.remaining_of_next? hsource]
    rfl
  | into hphase hsource hmove =>
    refine ⟨⟨(hs.ended.of_next? hsource).1, nofun⟩, ?_⟩
    rw [output_of_reading hphase, Reader.remaining_of_next? hsource, Lexer.run_char, hmove]
    rfl
  | completed hphase hsource hmove =>
    obtain ⟨hended, hpending⟩ := hs.ended.of_next? hsource
    refine ⟨⟨hended, fun _ _ _ => hpending (Lexer.ne_newline_of_complete hmove)⟩, ?_⟩
    rw [output_of_reading hphase, Reader.remaining_of_next? hsource, Lexer.run_char, hmove]
    rfl
  | comment hphase hsource =>
    refine ⟨⟨hs.ended, nofun⟩, ?_⟩
    rw [output_of_reading hphase, output_of_reading rfl, (Reader.next?_eq_none_iff _).mp hsource]
    rfl

/-- An answer is the first lexeme that was to come. -/
theorem Turn.head?_output (h : s.Turn (.answer x s')) (hs : s.Sound) :
    s'.Sound ∧ s.output.head? = x ∧ s'.output = s.output.tail := by
  have hgiven {source : Reader} {y : Lexeme} (hended : source.Ended) :
      (⟨.reading (Scanner.behind y), s.here, source⟩ : Scanner).Sound := ⟨hended, nofun⟩
  cases h with
  | unreadable hsource =>
    refine ⟨hgiven (hs.ended.of_next? hsource).1, ?_⟩
    cases hphase : s.phase with
    | complete t span =>
      exact absurd hsource (Reader.next?_of_pending (hs.inLine t span hphase) _)
    | reading state =>
      rw [output_of_reading hphase, Reader.remaining_of_next? hsource]
      exact ⟨rfl, rfl⟩
  | given hphase =>
    refine ⟨hgiven hs.ended, ?_⟩
    rw [output_of_complete hphase]
    exact ⟨rfl, rfl⟩
  | behind hphase hsource hmove =>
    refine ⟨hgiven hs.ended, ?_⟩
    rw [output_of_reading hphase, Reader.remaining_of_next? hsource, Lexer.run_char, hmove,
      ← Reader.remaining_of_next? hsource]
    exact ⟨rfl, rfl⟩
  | fault hphase hsource hmove =>
    refine ⟨hgiven hs.ended, ?_⟩
    rw [output_of_reading hphase, Reader.remaining_of_next? hsource, Lexer.run_char, hmove,
      ← Lexer.run_skipping_char s.here, ← Reader.remaining_of_next? hsource]
    exact ⟨rfl, rfl⟩
  | ended hphase hsource hfinish =>
    have houtput : s.output = [] := by
      rw [output_of_reading hphase, (Reader.next?_eq_none_iff _).mp hsource]
      exact hfinish
    rw [houtput]
    exact ⟨hs, rfl, rfl⟩
  | @last state y hphase hsource hfinish =>
    have houtput : s.output = [y] := by
      rw [output_of_reading hphase, (Reader.next?_eq_none_iff _).mp hsource]
      exact hfinish
    refine ⟨hgiven hs.ended, ?_⟩
    rw [houtput, output_of_reading rfl, (Reader.next?_eq_none_iff _).mp hsource]
    cases y <;> exact ⟨rfl, rfl⟩

/-- A call takes the first lexeme of those that are to come. -/
theorem next_spec (hs : s.Sound) :
    s.next.2.Sound ∧ s.output.head? = s.next.1 ∧ s.next.2.output = s.output.tail := by
  have hturn := s.turn_round
  fun_induction next s with
  | case1 s x s' hround => exact Turn.head?_output (hround ▸ hturn) hs
  | case2 s s' hround hweight ih =>
    obtain ⟨hs', houtput⟩ := Turn.output_eq (hround ▸ hturn) hs
    rw [← houtput]
    exact ih hs' s'.turn_round

theorem after_spec (hs : s.Sound) (k : Nat) :
    (s.after k).Sound ∧ (s.after k).output = s.output.drop k := by
  induction k generalizing s with
  | zero => exact ⟨hs, rfl⟩
  | succ k ih =>
    obtain ⟨hnext, -, houtput⟩ := next_spec hs
    obtain ⟨hafter, hdrop⟩ := ih hnext
    refine ⟨hafter, ?_⟩
    rw [after, hdrop, houtput, List.drop_tail]

/-- The scanner behind a round. -/
def Round.scanner : Round → Scanner
  | .again s => s
  | .answer _ s => s

/-- No round gives anything back to the source. -/
theorem Turn.remaining_le {r : Round} (h : s.Turn r) :
    r.scanner.source.remaining.length ≤ s.source.remaining.length := by
  cases h with
  | unreadable hsource | into _ hsource | completed _ hsource =>
    rw [length_of_next? hsource]
    exact Nat.le_succ _
  | _ => exact le_rfl

theorem remaining_next_le (s : Scanner) :
    s.next.2.source.remaining.length ≤ s.source.remaining.length := by
  have hround := s.turn_round.remaining_le
  fun_induction next s with
  | case1 s x s' h => rwa [h] at hround
  | case2 s s' h hweight ih =>
    rw [h] at hround
    exact (ih s'.turn_round.remaining_le).trans hround

theorem remaining_after_le (s : Scanner) (k : Nat) :
    (s.after k).source.remaining.length ≤ s.source.remaining.length := by
  induction k generalizing s with
  | zero => exact le_rfl
  | succ k ih => exact (ih s.next.2).trans s.remaining_next_le

/-- A call answers after as many rounds as its weight allows. -/
theorem answers_next (s : Scanner) : ∃ n ≤ s.weight + 1, s.Answers n s.next.1 s.next.2 := by
  fun_induction next s with
  | case1 s x s' hround => exact ⟨1, Nat.le_add_left 1 _, .now hround⟩
  | case2 s s' hround hweight ih =>
    obtain ⟨n, hn, hanswers⟩ := ih
    exact ⟨n + 1, Nat.succ_le_succ (hn.trans hweight), .later hround hanswers⟩

/-- What reading delivers are characters and lines that cannot be read. -/
theorem length_readings (bytes : List UInt8) :
    (readings bytes).length =
      ((readings bytes).filterMap Reading.content).length + (Line.ofBytes bytes).count none := by
  have hline (l : Line) :
      l.contents.length = (l.contents.filterMap id).length + [l].count none := by
    cases l with
    | none => rfl
    | some s => simp [Line.contents]
  have hlines (ls : List Line) : (ls.flatMap Line.contents).length =
      ((ls.flatMap Line.contents).filterMap id).length + ls.count none := by
    induction ls with
    | nil => rfl
    | cons l ls ih =>
      have hl := hline l
      rw [List.flatMap_cons, List.filterMap_append, List.length_append, List.length_append,
        ← List.singleton_append, List.count_append]
      omega
  have hall := hlines (Line.ofBytes bytes)
  rwa [← Reading.content_readings, List.length_map, List.filterMap_map] at hall

theorem next_after_ofBytes (bytes : List UInt8) (k : Nat) :
    ((ofBytes bytes).after k).next.1 = (lexemes (readings bytes))[k]? := by
  obtain ⟨hsound, houtput⟩ := after_spec (sound_ofBytes bytes) k
  obtain ⟨-, hhead, -⟩ := next_spec hsound
  rw [← hhead, houtput, output_ofBytes, List.head?_drop]

/-- **Lexing comes to an end.** A source has no more tokens and errors than characters and
unreadable lines; the calls give them one by one; every call answers after finitely many rounds; and
behind the end there is nothing forever. -/
theorem calls_end (bytes : List UInt8) :
    let characters := (readings bytes).filterMap Reading.content
    let unreadable := (Line.ofBytes bytes).count none
    let call k := ((ofBytes bytes).after k).next
    (lexemes (readings bytes)).length ≤ characters.length + unreadable ∧
    (∀ k, (call k).1 = (lexemes (readings bytes))[k]?) ∧
    (∀ k, ∃ n ≤ 3 * (characters.length + unreadable) + 3,
      ((ofBytes bytes).after k).Answers n (call k).1 (call k).2) ∧
    ∀ k m, k ≤ m → (call k).1 = none → (call m).1 = none := by
  intro characters unreadable call
  have hlength : (readings bytes).length = characters.length + unreadable := length_readings bytes
  have hcall (k : Nat) : (call k).1 = (lexemes (readings bytes))[k]? := next_after_ofBytes bytes k
  refine ⟨?_, hcall, fun k => ?_, fun k m hkm hnone => ?_⟩
  · have hle := Lexer.length_run_le .fresh Reader.start (readings bytes)
    rwa [hlength] at hle
  · obtain ⟨n, hn, hanswers⟩ := answers_next ((ofBytes bytes).after k)
    have hremaining : ((ofBytes bytes).after k).source.remaining.length ≤ (readings bytes).length :=
      remaining_after_le (ofBytes bytes) k
    have hrank := ((ofBytes bytes).after k).phase.rank_le
    unfold weight at hn
    exact ⟨n, by omega, hanswers⟩
  · rw [hcall, List.getElem?_eq_none_iff] at hnone ⊢
    exact hnone.trans hkm

end Scanner

end OnePass
