import OnePass.Proofs.LexerPlaces

/-!
# Lines are lexed one by one

Main statement: of a readable source that opens no block comment the lexer makes what it makes of
its lines one by one, each a source of its own, moved down to where it stands; so a line has at most
one fault, and the source is refused exactly if a line of it is, with all their faults in order
(`lexemes_lines`).

Nothing that the lexer does depends on the line (`Lexer.lex_down`). Outside of block comments a line
feed leads back between tokens whatever stands before it (`Lexer.feed_newline`), and only a slash
and a star behind it lead into one (`Lexer.feed_outside`), so a line takes no part in what follows
it (`Lexer.run_line`).
-/

namespace OnePass

/-! ## Moving down -/

/-- The position `n` lines below. -/
def Position.down (n : Nat) (p : Position) : Position := ⟨p.line + .ofNat n, p.column⟩

/-- The region `n` lines below. -/
def Span.down (n : Nat) (s : Span) : Span := ⟨s.start.down n, s.stop.down n⟩

/-- The same value, `n` lines below. -/
def Located.down {α : Type} (n : Nat) (x : Located α) : Located α := ⟨x.value, x.span.down n⟩

/-- The same token or fault, `n` lines below. -/
def Lexeme.down (n : Nat) : Lexeme → Lexeme
  | .ok t => .ok (t.down n)
  | .error e => .error (e.down n)

/-- Characters take the same place further down. -/
theorem Position.after_down (n : Nat) (p : Position) (c : Char) :
    (p.down n).after c = (p.after c).down n := by
  unfold after
  split
  · simp only [down, mk.injEq, and_true]
    ac_rfl
  · split <;> rfl

@[simp] theorem Position.down_zero (p : Position) : p.down 0 = p := by
  simp [down]

/-- The line below. -/
theorem Position.down_succ (n : Nat) (p : Position) :
    p.down (n + 1) = ⟨(p.down n).line + 1, p.column⟩ := by
  simp only [down, mk.injEq, and_true, UInt32.ofNat_add, UInt32.add_assoc]
  rfl

@[simp] theorem Lexeme.down_zero : Lexeme.down 0 = id := by
  funext l
  cases l <;> simp [down, Located.down, Span.down]

/-- The faults of pieces are those of each piece. -/
theorem faults_flatMap {α : Type} (xs : List α) (f : α → List Lexeme) :
    faults (xs.flatMap f) = xs.flatMap fun x => faults (f x) :=
  List.filterMap_flatMap

theorem faults_append (ls ks : List Lexeme) : faults (ls ++ ks) = faults ls ++ faults ks :=
  List.filterMap_append

/-- Further down there are the same faults. -/
theorem faults_down (n : Nat) (ls : List Lexeme) :
    faults (ls.map (Lexeme.down n)) = (faults ls).map (Located.down n) := by
  induction ls with
  | nil => rfl
  | cons l ls ih =>
    cases l with
    | ok t => exact ih
    | error e => exact congrArg (e.down n :: ·) ih

namespace Lexer

/-- A text is lexed alike on any line. -/
theorem lex_down (n : Nat) (p : Position) (cs : List Char) :
    lex .fresh (p.down n) cs = (lex .fresh p cs).map (Lexeme.down n) := by
  have hdown : Lexeme.down n = Lexeme.place (Span.down n) := by
    funext l
    cases l <;> rfl
  have hsingle (p : Position) : Span.single (p.down n) = (Span.single p).down n := rfl
  rw [hdown]
  exact lex_place (s := .fresh) (fun _ _ => rfl) hsingle (Position.after_down n) cs

/-! ## Outside of block comments -/

/-- No block comment is opened in the characters `cs` or in front of them, the character before
them being `d`. -/
def Unopened (d : Char) (cs : List Char) : Prop := ¬ ['/', '*'] <:+: d :: cs

variable {d c : Char} {cs : List Char} {s : State} {p : Position}

/-- A slash is not followed by a star. -/
theorem Unopened.head (h : Unopened d (c :: cs)) : d = '/' → c ≠ '*' :=
  fun hd hc => h ⟨[], cs, by rw [hd, hc]; rfl⟩

/-- In the rest of a text no comment opens either. -/
theorem Unopened.tail (h : Unopened d (c :: cs)) : Unopened c cs :=
  fun hopen => h (hopen.trans (List.suffix_cons _ _).isInfix)

/-- A line feed opens nothing with what stands behind it. -/
theorem unopened_newline (h : ¬ ['/', '*'] <:+: cs) : Unopened '\n' cs := by
  rw [Unopened, List.infix_cons_iff, not_or]
  refine ⟨fun hprefix => ?_, h⟩
  exact absurd (List.cons_prefix_cons.mp hprefix).1 (by decide)

/-- The states behind the character `d` that are outside of block comments. -/
def State.Outside (d : Char) : State → Prop
  | .comment _ _ => False
  | .slash _ => d = '/'
  | _ => True

/-- At its beginning a text is outside of comments. -/
theorem outside_fresh (d : Char) : State.Outside d .fresh := trivial

/-- Moves at the character `c` that stay outside of block comments. -/
def Move.Outside (c : Char) : Move → Prop
  | .into s => s.Outside c
  | _ => True

/-- A token begins outside of comments. -/
theorem begin_outside (c : Char) (here : Span) : (begin c here).Outside c := by
  unfold begin
  split
  · trivial
  · trivial
  · trivial
  · split
    · next h => exact h
    · repeat' split
      all_goals trivial

/-- Without an opening mark a token goes on outside of comments. -/
theorem move_outside (hs : s.Outside d) (h : d = '/' → c ≠ '*') (here : Span) :
    (move s c here).Outside c := by
  cases s with
  | fresh => exact begin_outside c here
  | comment depth last => exact hs.elim
  | slash seen =>
    simp only [move, if_neg (h hs)]
    repeat' split
    all_goals trivial
  | _ =>
    simp only [move]
    repeat' split
    all_goals trivial

theorem settle_outside {m : Move} (h : m.Outside c) (here : Span) :
    (settle m c here).2.Outside c := by
  cases m with
  | into s => exact h
  | fault e =>
    simp only [settle, recover]
    split <;> trivial
  | _ => trivial

/-- A block comment is opened by a slash and a star, and by nothing else. -/
theorem feed_outside (hs : s.Outside d) (h : d = '/' → c ≠ '*') (here : Span) :
    (feed s c here).2.Outside c := by
  have hmove := move_outside hs h here
  rw [feed]
  split
  · exact settle_outside (begin_outside c here) here
  · exact settle_outside hmove here

/-- Behind a line feed, the lexer stands between tokens. -/
theorem feed_newline (hs : s.Outside d) (here : Span) : (feed s '\n' here).2 = .fresh := by
  cases s with
  | comment depth last => exact hs.elim
  | operator t seen =>
    -- what stands behind an operator may be a part of it, but not a line feed
    have h : extend? t '\n' = none := by
      unfold extend?
      split <;> first | rfl | contradiction
    simp only [feed, move, h]
    rfl
  | _ => rfl

/-! ## One line -/

/-- What stands on a line does not lead to another one. -/
theorem after_line (h : c ≠ '\n') : (p.after c).line = p.line := by
  have hc : '\n' ∉ [c] := by simpa using Ne.symm h
  exact p.advance_line hc

/-- A line is lexed as if nothing followed it, and what follows it as if nothing stood before. -/
theorem run_line (hs : s.Outside d) (hline : '\n' ∉ cs) (hopen : Unopened d cs)
    (rest : List Reading) :
    run s (.single p) ((Reading.ofChars p (cs ++ ['\n'])).1 ++ rest)
      = lex s p (cs ++ ['\n']) ++ run .fresh (.single ⟨p.line + 1, 1⟩) rest := by
  induction cs generalizing d s p with
  | nil =>
    have hrun : run s (.single p) ((Reading.ofChars p ([] ++ ['\n'])).1 ++ rest)
        = (feed s '\n' (.single p)).1
          ++ run (feed s '\n' (.single p)).2 (.single (p.after '\n')) rest := rfl
    rw [hrun, List.nil_append, lex_feed, feed_newline hs, lex_nil, finish, List.append_nil,
      Position.after, if_pos rfl]
  | cons c cs ih =>
    rw [List.mem_cons, not_or] at hline
    have hrun : run s (.single p) ((Reading.ofChars p (c :: cs ++ ['\n'])).1 ++ rest)
        = (feed s c (.single p)).1 ++ run (feed s c (.single p)).2 (.single (p.after c))
          ((Reading.ofChars (p.after c) (cs ++ ['\n'])).1 ++ rest) := rfl
    rw [hrun, ih (feed_outside hs hopen.head _) hline.2 hopen.tail, after_line (Ne.symm hline.1),
      List.cons_append, lex_feed, List.append_assoc]

/-- Nothing comes of a line that is skipped. -/
theorem run_skipping (hline : '\n' ∉ cs) (here : Span) (rest : List Reading) :
    run .skipping here ((Reading.ofChars p (cs ++ ['\n'])).1 ++ rest)
      = run .fresh (.single ⟨p.line + 1, 1⟩) rest := by
  induction cs generalizing p here with
  | nil =>
    have hrun : run .skipping here ((Reading.ofChars p ([] ++ ['\n'])).1 ++ rest)
        = run .fresh (.single (p.after '\n')) rest := rfl
    rw [hrun, Position.after, if_pos rfl]
  | cons c cs ih =>
    rw [List.mem_cons, not_or] at hline
    have hrun : run .skipping here ((Reading.ofChars p (c :: cs ++ ['\n'])).1 ++ rest)
        = (feed .skipping c here).1 ++ run (feed .skipping c here).2 (.single (p.after c))
          ((Reading.ofChars (p.after c) (cs ++ ['\n'])).1 ++ rest) := rfl
    simp only [hrun, feed, move, if_neg (Ne.symm hline.1)]
    rw [← after_line (p := p) (Ne.symm hline.1)]
    exact ih hline.2 _

/-- In a line that is skipped there are no tokens. -/
theorem lex_skipping (hline : '\n' ∉ cs) : lex .skipping p (cs ++ ['\n']) = [] := by
  have hrun := run_skipping (p := p) hline (.single p) []
  rwa [List.append_nil] at hrun

/-- A move reports one fault at most, and recovers then. -/
theorem settle_faults (m : Move) (c : Char) (here : Span) :
    faults (settle m c here).1 = [] ∨
      (∃ e, faults (settle m c here).1 = [⟨e, here⟩]) ∧ (settle m c here).2 = recover c := by
  cases m with
  | fault e => exact .inr ⟨⟨e, rfl⟩, rfl⟩
  | _ => exact .inl rfl

/-- A character is at most one fault, and the rest of its line is skipped then. -/
theorem feed_faults (s : State) (c : Char) (here : Span) :
    faults (feed s c here).1 = [] ∨
      (∃ e, faults (feed s c here).1 = [⟨e, here⟩]) ∧ (feed s c here).2 = recover c := by
  rw [feed]
  split
  · exact settle_faults (begin c here) c here
  · exact settle_faults _ c here

/-- A line has at most one fault, and that stands on it. -/
theorem faults_line (hs : s.Outside d) (hline : '\n' ∉ cs) (hopen : Unopened d cs) :
    faults (lex s p (cs ++ ['\n'])) = [] ∨
      ∃ e, faults (lex s p (cs ++ ['\n'])) = [e] ∧ e.span.start.line = p.line := by
  induction cs generalizing d s p with
  | nil =>
    rw [List.nil_append, lex_feed, feed_newline hs, lex_nil, faults_append]
    rcases feed_faults s '\n' (.single p) with hnone | ⟨⟨e, hone⟩, -⟩
    · rw [hnone]
      exact .inl rfl
    · rw [hone]
      exact .inr ⟨_, rfl, rfl⟩
  | cons c cs ih =>
    rw [List.mem_cons, not_or] at hline
    rw [List.cons_append, lex_feed, faults_append]
    rcases feed_faults s c (.single p) with hnone | ⟨⟨e, hone⟩, hrecover⟩
    · rw [hnone, List.nil_append, ← after_line (Ne.symm hline.1)]
      exact ih (feed_outside hs hopen.head _) hline.2 hopen.tail
    · -- nothing comes of what stands behind the first fault
      rw [hone, hrecover, recover, if_neg (Ne.symm hline.1), lex_skipping hline.2]
      exact .inr ⟨_, rfl, rfl⟩

end Lexer

/-! ## The lines of a source -/

namespace Line

/-- The bytes of a source, cut behind every line feed. -/
def pieces : List UInt8 → List (List UInt8)
  | [] => []
  | b :: bs =>
    if b = 0x0a then [b] :: pieces bs
    else match pieces bs with
      | [] => [[b]]
      | piece :: rest => (b :: piece) :: rest

/-- Nothing is lost between the lines. -/
theorem flatten_pieces (bytes : List UInt8) : (pieces bytes).flatten = bytes := by
  fun_induction pieces bytes with
  | case1 => rfl
  | case2 bs ih =>
    rw [List.flatten_cons, ih]
    rfl
  | case3 b bs hb hnil ih =>
    rw [hnil] at ih
    rw [← ih]
    rfl
  | case4 b bs hb piece rest hcons ih =>
    rw [hcons] at ih
    rw [← ih]
    rfl

/-- A piece ends at its line feed. -/
theorem pieces_append {piece : List UInt8} (h : 0x0a ∉ piece) (rest : List UInt8) :
    pieces (piece ++ 0x0a :: rest) = (piece ++ [0x0a]) :: pieces rest := by
  induction piece with
  | nil => rfl
  | cons b piece ih =>
    rw [List.mem_cons, not_or] at h
    rw [List.cons_append, pieces, if_neg (Ne.symm h.1), ih h.2]
    rfl

/-- Without a line feed there is one piece. -/
theorem pieces_of_not_mem {piece : List UInt8} (h : 0x0a ∉ piece) (hpiece : piece ≠ []) :
    pieces piece = [piece] := by
  induction piece with
  | nil => exact absurd rfl hpiece
  | cons b piece ih =>
    rw [List.mem_cons, not_or] at h
    cases piece with
    | nil =>
      rw [pieces, if_neg (Ne.symm h.1)]
      rfl
    | cons d ds => rw [pieces, if_neg (Ne.symm h.1), ih h.2 (List.cons_ne_nil d ds)]

/-- The source `piece` has the one line `l`. -/
structure Alone (piece : List UInt8) (l : Line) : Prop where
  ofBytes_eq : ofBytes piece = [l]
  newline_not_mem : '\n' ∉ l.text.toList

/-- What is decoded has line feeds only where they were encoded. -/
theorem newline_not_mem_decode? {bytes : List UInt8} (h : 0x0a ∉ bytes) :
    '\n' ∉ (text (Text.decode? bytes)).toList := by
  cases hdecode : Text.decode? bytes with
  | none => exact List.not_mem_nil
  | some s =>
    intro hmem
    have hencode := Text.encode_ofList s.toList
    rw [String.ofList_toList, Text.encode_of_decode? hdecode] at hencode
    exact h (hencode ▸ List.mem_flatMap.mpr ⟨'\n', hmem, by decide⟩)

theorem not_mem_dropReturn {bytes : List UInt8} (h : 0x0a ∉ bytes) : 0x0a ∉ dropReturn bytes := by
  rw [dropReturn]
  split
  · exact fun hmem => h (List.dropLast_subset _ hmem)
  · exact h

/-- A source is empty, or a line that is not ended, or a line feed stands behind its first line. -/
@[elab_as_elim]
theorem lines_induction {motive : List UInt8 → Prop} (nil : motive [])
    (last : ∀ piece, 0x0a ∉ piece → piece ≠ [] → motive piece)
    (ended : ∀ line rest, 0x0a ∉ line → motive rest → motive (line ++ 0x0a :: rest))
    (bytes : List UInt8) : motive bytes := by
  induction h : bytes.length using Nat.strong_induction_on generalizing bytes with
  | h n ih =>
    by_cases hmem : 0x0a ∈ bytes
    · obtain ⟨line, rest, rfl, hline⟩ := List.eq_append_cons_of_mem hmem
      have hlength : rest.length < n := by
        rw [← h, List.length_append, List.length_cons]
        omega
      exact ended line rest hline (ih _ hlength rest rfl)
    · cases bytes with
      | nil => exact nil
      | cons b bs => exact last _ hmem (List.cons_ne_nil b bs)

/-- Every piece of a source has one line, and these are the lines of the source. -/
theorem alone_pieces (bytes : List UInt8) :
    List.Forall₂ Alone (pieces bytes) (ofBytes bytes) := by
  induction bytes using lines_induction with
  | nil => exact .nil
  | last piece hmem hne =>
    have hone := ofBytes_of_not_mem hmem hne
    rw [pieces_of_not_mem hmem hne, hone]
    exact .cons ⟨hone, newline_not_mem_decode? hmem⟩ .nil
  | ended line rest hline ih =>
    have hone : ofBytes (line ++ [0x0a]) = [Text.decode? (dropReturn line)] := ofBytes_append hline
    rw [pieces_append hline, ofBytes_append hline]
    exact .cons ⟨hone, newline_not_mem_decode? (not_mem_dropReturn hline)⟩ ih

/-- Every piece has its line. -/
theorem alone_of_mem {ps : List (List UInt8)} {lines : List Line}
    (h : List.Forall₂ Alone ps lines) {piece : List UInt8} (hpiece : piece ∈ ps) :
    ∃ l ∈ lines, Alone piece l := by
  induction h with
  | nil => exact absurd hpiece List.not_mem_nil
  | cons halone _ ih =>
    rcases List.mem_cons.mp hpiece with rfl | hpiece
    · exact ⟨_, List.mem_cons_self, halone⟩
    · obtain ⟨l, hl, halone⟩ := ih hpiece
      exact ⟨l, List.mem_cons_of_mem _ hl, halone⟩

/-- In no line that can be read a block comment is opened. -/
def Unopened (lines : List Line) : Prop := ∀ l ∈ lines, ¬ ['/', '*'] <:+: l.text.toList

instance : DecidablePred Unopened := fun lines => inferInstanceAs (Decidable (∀ l ∈ lines, _))

theorem Unopened.tail {l : Line} {lines : List Line} (h : Unopened (l :: lines)) :
    Unopened lines :=
  fun k hk => h k (List.mem_cons_of_mem _ hk)

end Line

/-- Behind a line the next one begins. -/
theorem Position.advance_newline (p : Position) {line : List Char} (h : '\n' ∉ line) :
    p.advance (line ++ ['\n']) = ⟨p.line + 1, 1⟩ := by
  rw [advance_append, advance_cons, advance_nil, after, if_pos rfl, p.advance_line h]

/-- The first line is read in front of the others, which stand one line further down. -/
theorem Reading.ofLines_cons {s : String} (h : '\n' ∉ s.toList) (p : Position)
    (lines : List Line) :
    ofLines p (some s :: lines)
      = (ofChars p (s.toList ++ ['\n'])).1 ++ ofLines ⟨p.line + 1, 1⟩ lines := by
  have hlines : ofLines p (some s :: lines) = (ofChars p (s.toList ++ ['\n'])).1
      ++ ofLines (ofChars p (s.toList ++ ['\n'])).2 lines := rfl
  rw [hlines, ofChars_snd, p.advance_newline h]

variable {piece bytes : List UInt8} {s : String}

/-- A source of one line that can be read. -/
theorem lexemes_alone (h : Line.Alone piece (some s)) :
    lexemes (readings piece) = Lexer.lex .fresh .origin (s.toList ++ ['\n']) := by
  have hline : '\n' ∉ s.toList := h.newline_not_mem
  have hlines : lexemes (readings piece)
      = Lexer.run .fresh (.single .origin) (Reading.ofLines .origin (Line.ofBytes piece)) := rfl
  rw [hlines, h.ofBytes_eq, Reading.ofLines_cons hline, Reading.ofLines, List.append_nil]
  rfl

/-- A line that can be read, below `n` others, and what follows it. -/
theorem run_readable (h : Line.Alone piece (some s)) (hopen : ¬ ['/', '*'] <:+: s.toList) (n : Nat)
    (lines : List Line) :
    Lexer.run .fresh (.single (.down n .origin))
        (Reading.ofLines (.down n .origin) (some s :: lines))
      = (lexemes (readings piece)).map (Lexeme.down n) ++
        Lexer.run .fresh (.single (.down (n + 1) .origin))
          (Reading.ofLines (.down (n + 1) .origin) lines) := by
  have hline : '\n' ∉ s.toList := h.newline_not_mem
  rw [Reading.ofLines_cons hline,
    Lexer.run_line (Lexer.outside_fresh '\n') hline (Lexer.unopened_newline hopen),
    lexemes_alone h, ← Lexer.lex_down, Position.down_succ n]
  rfl

/-- A line that can be read has at most one fault, and that stands on it. -/
theorem faults_alone (h : Line.Alone piece (some s)) (hopen : ¬ ['/', '*'] <:+: s.toList) :
    faults (lexemes (readings piece)) = [] ∨
      ∃ e, faults (lexemes (readings piece)) = [e] ∧ e.span.start.line = 1 := by
  rw [lexemes_alone h]
  exact Lexer.faults_line (Lexer.outside_fresh '\n') h.newline_not_mem
    (Lexer.unopened_newline hopen)

/-- The lines of a source below `n` others, from the first of them on. -/
theorem run_ofLines {ps : List (List UInt8)} {lines : List Line}
    (h : List.Forall₂ Line.Alone ps lines) (hreadable : Line.Readable lines)
    (hopen : Line.Unopened lines) (n : Nat) :
    Lexer.run .fresh (.single (.down n .origin)) (Reading.ofLines (.down n .origin) lines)
      = (ps.zipIdx n).flatMap fun x => (lexemes (readings x.1)).map (Lexeme.down x.2) := by
  induction h generalizing n with
  | nil => rfl
  | @cons piece l ps lines hpiece _ ih =>
    obtain ⟨s, rfl⟩ := Option.isSome_iff_exists.mp (hreadable l List.mem_cons_self)
    rw [run_readable hpiece (hopen (some s) List.mem_cons_self), List.zipIdx_cons,
      List.flatMap_cons]
    congr 1
    exact ih (fun l hl => hreadable l (List.mem_cons_of_mem _ hl)) hopen.tail (n + 1)

/-- Without block comments a source is read line by line. -/
theorem lexemes_eq_flatMap (hreadable : Line.Readable (Line.ofBytes bytes))
    (hopen : Line.Unopened (Line.ofBytes bytes)) :
    lexemes (readings bytes)
      = (Line.pieces bytes).zipIdx.flatMap fun x =>
          (lexemes (readings x.1)).map (Lexeme.down x.2) := by
  have hlines := run_ofLines (Line.alone_pieces bytes) hreadable hopen 0
  rwa [Position.down_zero] at hlines

/-- A source is refused with all of its faults, and if it has any. -/
theorem tokenize_eq_error_iff {rs : List Reading} {es : List (Located LexicalError)} :
    tokenize rs = .error es ↔ faults (lexemes rs) = es ∧ es ≠ [] := by
  rw [tokenize]
  constructor
  · intro h
    split at h
    · cases h
    · next hne =>
      obtain rfl := Except.error.inj h
      exact ⟨rfl, hne⟩
  · rintro ⟨rfl, hne⟩
    split
    · next hnil => exact absurd hnil hne
    · rfl

/-- A source is refused if it has a fault. -/
theorem refused_iff {rs : List Reading} :
    (∃ es, tokenize rs = .error es) ↔ faults (lexemes rs) ≠ [] := by
  simp only [tokenize_eq_error_iff, exists_eq_left', ne_eq]

/-- **Lines are lexed independently.** Of a source whose lines can all be read and open no block
comment, the lexer makes what it makes of the lines, one by one and in order, each a source of its
own, moved down by the number of lines above it. Each line has at most one fault; the source is
refused exactly if one of its lines is, and then with the faults of all of them in order. -/
theorem lexemes_lines (hreadable : Line.Readable (Line.ofBytes bytes))
    (hopen : Line.Unopened (Line.ofBytes bytes)) :
    (Line.pieces bytes).flatten = bytes ∧
    (lexemes (readings bytes) = (Line.pieces bytes).zipIdx.flatMap fun x =>
      (lexemes (readings x.1)).map (Lexeme.down x.2)) ∧
    (∀ piece ∈ Line.pieces bytes, (faults (lexemes (readings piece))).length ≤ 1) ∧
    ((∃ es, tokenize (readings bytes) = .error es) ↔
      ∃ piece ∈ Line.pieces bytes, ∃ es, tokenize (readings piece) = .error es) ∧
    ∀ es, tokenize (readings bytes) = .error es → es = (Line.pieces bytes).zipIdx.flatMap fun x =>
      (faults (lexemes (readings x.1))).map (Located.down x.2) := by
  have hlexemes := lexemes_eq_flatMap hreadable hopen
  have hfaults : faults (lexemes (readings bytes)) = (Line.pieces bytes).zipIdx.flatMap fun x =>
      (faults (lexemes (readings x.1))).map (Located.down x.2) := by
    simp only [hlexemes, faults_flatMap, faults_down]
  refine ⟨Line.flatten_pieces bytes, hlexemes, fun piece hpiece => ?_, ?_, fun es hes => ?_⟩
  · obtain ⟨l, hl, halone⟩ := Line.alone_of_mem (Line.alone_pieces bytes) hpiece
    obtain ⟨s, rfl⟩ := Option.isSome_iff_exists.mp (hreadable l hl)
    rcases faults_alone halone (hopen (some s) hl) with hnone | ⟨e, hone, -⟩
    · rw [hnone]
      exact Nat.zero_le 1
    · rw [hone]
      exact le_refl 1
  · have hnone : faults (lexemes (readings bytes)) = [] ↔
        ∀ piece ∈ Line.pieces bytes, faults (lexemes (readings piece)) = [] := by
      rw [hfaults, List.flatMap_eq_nil_iff]
      simp only [List.map_eq_nil_iff]
      rw [← List.forall_mem_map (P := fun piece => faults (lexemes (readings piece)) = []),
        List.zipIdx_map_fst]
    simp only [refused_iff, ne_eq, hnone, not_forall, exists_prop]
  · rw [← hfaults]
    exact (tokenize_eq_error_iff.mp hes).1.symm

/-- A string that is not ended, a slash at the end of a line and a star behind it. -/
theorem lexemes_lines_slash :
    Line.Readable (Line.ofBytes (Text.encode "\"a\n/\n*b @ c @")) ∧
    Line.Unopened (Line.ofBytes (Text.encode "\"a\n/\n*b @ c @")) ∧
    lexemes (readings (Text.encode "\"a\n/\n*b @ c @"))
      = lexemes (readings (Text.encode "\"a\n"))
        ++ (lexemes (readings (Text.encode "/\n"))).map (Lexeme.down 1)
        ++ (lexemes (readings (Text.encode "*b @ c @"))).map (Lexeme.down 2) ∧
    ∃ es, tokenize (readings (Text.encode "\"a\n/\n*b @ c @")) = .error es := by
  have hpieces : Line.pieces (Text.encode "\"a\n/\n*b @ c @")
      = [Text.encode "\"a\n", Text.encode "/\n", Text.encode "*b @ c @"] := by decide +kernel
  have hreadable : Line.Readable (Line.ofBytes (Text.encode "\"a\n/\n*b @ c @")) := by
    rw [Line.Readable]
    decide +kernel
  have hopen : Line.Unopened (Line.ofBytes (Text.encode "\"a\n/\n*b @ c @")) := by
    decide +kernel
  have hfirst : tokenize (readings (Text.encode "\"a\n"))
      = .error [⟨.unterminatedString, ⟨⟨1, 3⟩, ⟨1, 4⟩⟩⟩] := by
    decide +kernel
  obtain ⟨-, hlexemes, -, hrefused, -⟩ := lexemes_lines hreadable hopen
  refine ⟨hreadable, hopen, ?_, hrefused.mpr ?_⟩
  · rw [hlexemes, hpieces]
    simp [List.zipIdx]
  · rw [hpieces]
    exact ⟨Text.encode "\"a\n", List.mem_cons_self, _, hfirst⟩

end OnePass
