import OnePass.Proofs.LineStreams

/-!
# Characters and their places

What reading a source delivers, and with which places. The bytes of a source are cut behind every
line feed (`Line.Cut`), and there is one way to do so. Main statement: line by line, the characters
of a readable line and one line feed are delivered, and one error of an unreadable line; with each
character comes the place behind everything delivered so far, so places go strictly onwards; and a
source that is read to its end knows the text of each of its lines (`Reader.delivers_exactly`).

A reader reaches a line before it delivers the characters of it. What carries the last part over
this is that the lines reached and the lines ahead are the lines of the source at any time
(`Reader.lines`). -/

namespace OnePass

namespace Line

/-! ## The lines of a source -/

/-- The source is cut behind every line feed, and nowhere else. -/
structure Cut (bytes : List UInt8) (ps : List (List UInt8)) : Prop where
  /-- nothing is lost -/
  flatten : ps.flatten = bytes
  /-- no piece is empty -/
  nonempty : ∀ piece ∈ ps, piece ≠ []
  /-- a line feed is the last byte of its piece -/
  inside : ∀ piece ∈ ps, 0x0a ∉ piece.dropLast
  /-- only the last piece may lack one -/
  ended : ∀ piece ∈ ps.dropLast, piece.getLast? = some 0x0a

/-- The bytes of a line without its ending, which is a line feed, perhaps with a carriage return
before it. -/
def body (piece : List UInt8) : List UInt8 :=
  if piece.getLast? = some 0x0a then dropReturn piece.dropLast else piece

/-- The line that a piece of a source is. -/
def ofPiece (piece : List UInt8) : Line := Text.decode? (body piece)

theorem body_append (line : List UInt8) : body (line ++ [0x0a]) = dropReturn line := by
  rw [body, if_pos List.getLast?_concat, List.dropLast_concat]

theorem body_of_not_mem {piece : List UInt8} (h : 0x0a ∉ piece) : body piece = piece :=
  if_neg fun hlast => h (List.mem_of_getLast? hlast)

variable {bytes line rest piece : List UInt8} {ps : List (List UInt8)}

theorem cut_nil : Cut [] [] := ⟨rfl, nofun, nofun, nofun⟩

theorem cut_singleton (h : 0x0a ∉ piece) (hpiece : piece ≠ []) : Cut piece [piece] where
  flatten := List.append_nil piece
  nonempty := by simpa using hpiece
  inside := by
    rw [List.forall_mem_singleton]
    exact fun hmem => h (List.dropLast_subset _ hmem)
  ended := nofun

theorem Cut.cons (h : Cut rest ps) (hline : 0x0a ∉ line) :
    Cut (line ++ 0x0a :: rest) ((line ++ [0x0a]) :: ps) where
  flatten := by rw [List.flatten_cons, h.flatten, List.append_assoc, List.singleton_append]
  nonempty := List.forall_mem_cons.mpr
    ⟨List.append_ne_nil_of_right_ne_nil _ (List.cons_ne_nil _ _), h.nonempty⟩
  inside := List.forall_mem_cons.mpr ⟨by rwa [List.dropLast_concat], h.inside⟩
  ended := by
    cases ps with
    | nil => exact nofun
    | cons p ps =>
      rw [List.dropLast_cons_cons, List.forall_mem_cons]
      exact ⟨List.getLast?_concat, h.ended⟩

/-- A source is cut into pieces, and these are its lines. -/
theorem cut_pieces (bytes : List UInt8) :
    Cut bytes (pieces bytes) ∧ ofBytes bytes = (pieces bytes).map ofPiece := by
  induction bytes using lines_induction with
  | nil => exact ⟨cut_nil, rfl⟩
  | last piece hmem hne =>
    rw [pieces_of_not_mem hmem hne, ofBytes_of_not_mem hmem hne, List.map_singleton, ofPiece,
      body_of_not_mem hmem]
    exact ⟨cut_singleton hmem hne, rfl⟩
  | ended line rest hline ih =>
    rw [pieces_append hline, ofBytes_append hline, ih.2, List.map_cons, ofPiece, body_append]
    exact ⟨ih.1.cons hline, rfl⟩

theorem Cut.tail (h : Cut bytes (piece :: ps)) : Cut ps.flatten ps where
  flatten := rfl
  nonempty p hp := h.nonempty p (.tail _ hp)
  inside p hp := h.inside p (.tail _ hp)
  ended p hp := h.ended p (by
    cases ps with
    | nil => exact absurd hp List.not_mem_nil
    | cons q ps => exact .tail _ hp)

theorem Cut.eq_pieces (h : Cut bytes ps) : ps = pieces bytes := by
  induction ps generalizing bytes with
  | nil =>
    obtain rfl : [] = bytes := h.flatten
    rfl
  | cons piece ps ih =>
    obtain rfl : piece ++ ps.flatten = bytes := h.flatten
    rcases List.eq_nil_or_concat piece with rfl | ⟨line, b, rfl⟩
    · exact absurd rfl (h.nonempty _ (.head _))
    rw [List.concat_eq_append] at h ⊢
    have hline : 0x0a ∉ line := by
      have hinside := h.inside _ (.head _)
      rwa [List.dropLast_concat] at hinside
    by_cases hb : b = 0x0a
    · rw [hb, List.append_assoc, List.singleton_append, pieces_append hline, ← ih h.tail]
    · -- a piece without a line feed is the last one
      cases ps with
      | nil =>
        have hmem : 0x0a ∉ line ++ [b] := by
          rw [List.mem_append, List.mem_singleton, not_or]
          exact ⟨hline, Ne.symm hb⟩
        rw [List.flatten_nil, List.append_nil, pieces_of_not_mem hmem (by simp)]
      | cons q qs =>
        have hlast := h.ended (line ++ [b]) (.head _)
        rw [List.getLast?_concat] at hlast
        exact absurd (Option.some.inj hlast) hb

/-- There is one way to cut a source behind its line feeds. -/
theorem cut_iff : Cut bytes ps ↔ ps = pieces bytes :=
  ⟨Cut.eq_pieces, fun h => h ▸ (cut_pieces bytes).1⟩

end Line

/-! ## What is delivered -/

namespace Reading

/-- The character that is delivered; none in place of a line that cannot be read. -/
def content : Reading → Option Char
  | .char c _ => some c
  | .unreadable => none

/-- What positions go on by: a line that cannot be read counts as a line feed. -/
def passed : Reading → Char
  | .char c _ => c
  | .unreadable => '\n'

/-- The position that comes with a character. -/
def start? : Reading → Option Position
  | .char _ next => some next.start
  | .unreadable => none

/-- The position behind what was delivered of a source. -/
def behind (xs : List Reading) : Position := Position.origin.advance (xs.map passed)

end Reading

/-- What is delivered of a line: its characters and a line feed, or one error. -/
def Line.contents : Line → List (Option Char)
  | none => [none]
  | some s => (s.toList ++ ['\n']).map some

namespace Reading

theorem content_ofChars (p : Position) (cs : List Char) :
    (ofChars p cs).1.map content = cs.map some := by
  induction cs generalizing p with
  | nil => rfl
  | cons c cs ih => rw [ofChars_cons, List.map_cons, List.map_cons, ih, content]

theorem passed_ofChars (p : Position) (cs : List Char) : (ofChars p cs).1.map passed = cs := by
  induction cs generalizing p with
  | nil => rfl
  | cons c cs ih => rw [ofChars_cons, List.map_cons, ih, passed]

theorem content_ofLines (p : Position) (lines : List Line) :
    (ofLines p lines).map content = lines.flatMap Line.contents := by
  induction lines generalizing p with
  | nil => rfl
  | cons l lines ih =>
    cases l with
    | none => rw [ofLines, List.map_cons, ih, List.flatMap_cons]; rfl
    | some s =>
      rw [ofLines]
      dsimp only
      rw [List.map_append, content_ofChars, ih, List.flatMap_cons]
      rfl

/-- Line by line, characters are delivered, or an error. -/
theorem content_readings (bytes : List UInt8) :
    (readings bytes).map content = (Line.ofBytes bytes).flatMap Line.contents :=
  content_ofLines _ _

/-- A character comes with the position behind it. -/
def Stands (p : Position) : Reading → Prop
  | .char c next => next = .single (p.after c)
  | .unreadable => True

/-- Everything in a list stands behind what is in front of it, the first from `p` on. -/
def Placed : Position → List Reading → Prop
  | _, [] => True
  | p, x :: xs => x.Stands p ∧ Placed (p.after x.passed) xs

variable {p : Position} {xs ys front back : List Reading} {c : Char} {next : Span}

theorem placed_append :
    Placed p (xs ++ ys) ↔ Placed p xs ∧ Placed (p.advance (xs.map passed)) ys := by
  induction xs generalizing p with
  | nil => exact (and_iff_right trivial).symm
  | cons x xs ih => rw [List.cons_append, Placed, Placed, ih, List.map_cons, Position.advance_cons,
      and_assoc]

theorem placed_ofChars (p : Position) (cs : List Char) : Placed p (ofChars p cs).1 := by
  induction cs generalizing p with
  | nil => trivial
  | cons c cs ih => exact ⟨rfl, ih _⟩

theorem placed_ofLines (p : Position) (lines : List Line) : Placed p (ofLines p lines) := by
  induction lines generalizing p with
  | nil => trivial
  | cons l lines ih =>
    cases l with
    | none => exact ⟨trivial, ih _⟩
    | some s =>
      rw [ofLines]
      dsimp only
      rw [placed_append, passed_ofChars, ofChars_snd]
      exact ⟨placed_ofChars _ _, ih _⟩

theorem placed_readings (bytes : List UInt8) : Placed .origin (readings bytes) :=
  placed_ofLines _ _

/-- The place that comes with a character is that behind it and all in front of it. -/
theorem Placed.next_eq (h : Placed p (front ++ .char c next :: back)) :
    next = .single (p.advance ((front ++ [Reading.char c next]).map passed)) := by
  obtain ⟨-, hnext, -⟩ := placed_append.mp h
  rw [List.map_append, Position.advance_append]
  exact hnext

/-- Where there is room for them, places go strictly onwards. -/
theorem Placed.pairwise (h : Placed p xs) (hroom : p.Room xs.length) :
    (p :: xs.filterMap start?).Pairwise (· < ·) := by
  induction xs generalizing p with
  | nil => exact List.pairwise_singleton _ _
  | cons x xs ih =>
    have hrest := ih h.2 (hroom.after x.passed)
    have hlt := (hroom.mono (Nat.le_add_left 1 _)).lt_after x.passed
    have hbehind : ∀ q ∈ xs.filterMap start?, p < q := fun q hq =>
      hlt.trans ((List.pairwise_cons.mp hrest).1 q hq)
    cases x with
    | unreadable => exact List.pairwise_cons.mpr ⟨hbehind, (List.pairwise_cons.mp hrest).2⟩
    | char c next =>
      obtain rfl : next = .single (p.after c) := h.1
      exact List.pairwise_cons.mpr ⟨List.forall_mem_cons.mpr ⟨hlt, hbehind⟩, hrest⟩

end Reading

/-! ## How far places go -/

namespace Line

theorem length_contents_le (bytes : List UInt8) :
    (contents (Text.decode? bytes)).length ≤ bytes.length + 1 := by
  cases hdecode : Text.decode? bytes with
  | none => exact Nat.le_add_left 1 _
  | some s =>
    -- no character is stored in less than one byte
    have hstored (cs : List Char) : cs.length ≤ (cs.flatMap String.utf8EncodeChar).length := by
      induction cs with
      | nil => exact le_rfl
      | cons c cs ih =>
        have hc := List.length_pos_iff.mpr (String.utf8EncodeChar_ne_nil (c := c))
        rw [List.flatMap_cons, List.length_append, List.length_cons]
        omega
    rw [← Text.encode_of_decode? hdecode, ← String.ofList_toList (s := s), Text.encode_ofList]
    simpa [contents] using hstored s.toList

/-- Only one character is delivered that is not stored: the end of the last line. -/
theorem length_readings_le (bytes : List UInt8) : (readings bytes).length ≤ bytes.length + 1 := by
  rw [← List.length_map Reading.content, Reading.content_readings]
  induction bytes using lines_induction with
  | nil => exact Nat.zero_le 1
  | last piece hmem hne =>
    rw [ofBytes_of_not_mem hmem hne, List.flatMap_singleton]
    exact length_contents_le piece
  | ended line rest hline ih =>
    have hdrop : (dropReturn line).length ≤ line.length := by
      rw [dropReturn]
      split
      · exact List.length_dropLast.trans_le (Nat.sub_le _ _)
      · exact le_rfl
    have hfirst := length_contents_le (dropReturn line)
    rw [ofBytes_append hline, List.flatMap_cons, List.length_append, List.length_append,
      List.length_cons]
    omega

end Line

/-- A source of less than 2³⁰ − 1 bytes has room for the places of all that is delivered of it. -/
theorem room_readings {bytes : List UInt8} (hsize : bytes.length < 2 ^ 30 - 1) :
    Position.origin.Room (readings bytes).length := by
  have hlength := Line.length_readings_le bytes
  exact Position.room_origin (by omega)

/-! ## Reading step by step -/

namespace Reader

/-- What a reader can deliver next, and what it is behind that. -/
inductive Step (r : Reader) : Reading → Reader → Prop
  /-- a character of the line that was reached -/
  | char {c : Char} {cs : List Char} (hpending : r.pending = c :: cs) :
    Step r (.char c (.single (r.position.after c)))
      { r with pending := cs, position := r.position.after c }
  /-- a line that cannot be read -/
  | unreadable {ls : List Line} (hpending : r.pending = []) (hahead : r.ahead = none :: ls) :
    Step r .unreadable
      { r with ahead := ls, position := r.position.after '\n', reached := none :: r.reached }
  /-- the first character of a line, or the line feed of an empty one -/
  | line {s : String} {ls : List Line} {c : Char} {cs : List Char} (hpending : r.pending = [])
      (hahead : r.ahead = some s :: ls) (hline : s.toList ++ ['\n'] = c :: cs) :
    Step r (.char c (.single (r.position.after c)))
      ⟨ls, cs, r.position.after c, some s :: r.reached⟩

/-- The reader delivers readings one by one, and comes to another one behind them. -/
inductive Delivers : Reader → List Reading → Reader → Prop
  | nil (r : Reader) : Delivers r [] r
  | cons {r r' r'' : Reader} {x : Reading} {xs : List Reading} (hx : r.next? = some (x, r'))
      (hxs : Delivers r' xs r'') : Delivers r (x :: xs) r''

/-- The lines of the source, those that were reached and those ahead. -/
def lines (r : Reader) : List Line := r.reached.reverse ++ r.ahead

variable {r r' : Reader} {x : Reading} {xs : List Reading}

theorem step_of_next? (h : r.next? = some (x, r')) : r.Step x r' := by
  unfold next? at h
  split at h
  · next hpending =>
    obtain ⟨rfl, rfl⟩ := Prod.mk.inj (Option.some.inj h)
    exact .char hpending
  · next hpending =>
    split at h
    · cases h
    · next hahead =>
      obtain ⟨rfl, rfl⟩ := Prod.mk.inj (Option.some.inj h)
      exact .unreadable hpending hahead
    · next hahead =>
      dsimp only at h
      split at h
      · next hnil =>
        obtain ⟨rfl, rfl⟩ := Prod.mk.inj (Option.some.inj h)
        exact .line hpending hahead (by rw [hnil, List.nil_append])
      · next hcons =>
        obtain ⟨rfl, rfl⟩ := Prod.mk.inj (Option.some.inj h)
        exact .line hpending hahead (by rw [hcons, List.cons_append])

theorem lines_ofBytes (bytes : List UInt8) : (ofBytes bytes).lines = Line.ofBytes bytes := rfl

/-- What is delivered next may be of the next line, which is reached then. -/
theorem lines_of_next? (h : r.next? = some (x, r')) : r'.lines = r.lines := by
  have hreached (l : Line) (ls : List Line) :
      (l :: r.reached).reverse ++ ls = r.reached.reverse ++ l :: ls := by
    rw [List.reverse_cons, List.append_assoc, List.singleton_append]
  cases step_of_next? h with
  | char => rfl
  | unreadable _ hahead | line _ hahead =>
    rw [lines, lines, hahead]
    exact hreached _ _

theorem Delivers.lines_eq (h : r.Delivers xs r') : r'.lines = r.lines := by
  induction h with
  | nil => rfl
  | cons hx _ ih => rw [ih, lines_of_next? hx]

/-- All that remains can be delivered. -/
theorem delivers_remaining (r : Reader) : ∃ r', r.Delivers r.remaining r' ∧ r'.next? = none := by
  induction h : r.remaining generalizing r with
  | nil => exact ⟨r, .nil r, (next?_eq_none_iff r).mpr h⟩
  | cons x xs ih =>
    have hsome : r.next? ≠ none := fun hnone => by
      rw [(next?_eq_none_iff r).mp hnone] at h
      cases h
    obtain ⟨⟨y, r₁⟩, hy⟩ := Option.ne_none_iff_exists'.mp hsome
    rw [remaining_of_next? hy] at h
    obtain ⟨rfl, hrest⟩ := List.cons.inj h
    obtain ⟨r', hr', hend⟩ := ih r₁ hrest
    exact ⟨r', .cons hy hr', hend⟩

/-- What is known of the lines of a source when it is read to its end. -/
structure Knows (r : Reader) (lines : List Line) : Prop where
  /-- the text of a readable line -/
  readable : ∀ n s, n ≠ 0 → lines[n.toNat - 1]? = some (some s) → r.line n = s
  /-- nothing of an unreadable line -/
  unreadable : ∀ n, n ≠ 0 → lines[n.toNat - 1]? = some none → r.line n = ""
  /-- nothing of lines that there are not -/
  outside : ∀ n, n = 0 ∨ lines.length < n.toNat → r.line n = ""

/-- At the end of a source no line is ahead. -/
theorem ahead_of_next?_eq_none (h : r.next? = none) : r.ahead = [] := by
  unfold next? at h
  split at h
  · cases h
  · split at h
    · next hahead => exact hahead
    · cases h
    · dsimp only at h
      split at h <;> cases h

theorem knows_of_next?_eq_none (h : r.next? = none) : r.Knows r.lines := by
  have hlines : r.lines = r.reached.reverse := by
    rw [lines, (ahead_of_next?_eq_none h), List.append_nil]
  have hline {n : UInt32} (hn : n ≠ 0) :
      r.line n = ((r.lines[n.toNat - 1]?).map Line.text).getD "" := by
    rw [line, if_neg hn, hlines]
  refine ⟨fun n s hn hs => ?_, fun n hn hnone => ?_, fun n hn => ?_⟩
  · rw [hline hn, hs]
    rfl
  · rw [hline hn, hnone]
    rfl
  · by_cases hzero : n = 0
    · rw [hzero]
      rfl
    · have hbeyond := hn.resolve_left hzero
      rw [hline hzero, List.getElem?_eq_none (by omega)]
      rfl

/-- **Characters come with exact places.** There is one way to cut a source behind its line feeds.
Line by line, the characters of a line and one line feed are delivered, or one error if it cannot be
read, until nothing comes any more; with each character comes the place that is reached by it from
the beginning on, an unreadable line counting as one line; so places go strictly onwards, unless the
source is so large that their numbers may begin anew. At the end all lines are known. -/
theorem delivers_exactly (bytes : List UInt8) :
    let lines := (Line.pieces bytes).map Line.ofPiece
    (∀ ps, Line.Cut bytes ps ↔ ps = Line.pieces bytes) ∧
    ∃ r, (ofBytes bytes).Delivers (readings bytes) r ∧ r.next? = none ∧
      (readings bytes).map Reading.content = lines.flatMap Line.contents ∧
      (∀ front c next back, readings bytes = front ++ .char c next :: back →
        next = .single (Reading.behind (front ++ [.char c next]))) ∧
      (bytes.length < 2 ^ 30 - 1 →
        (.origin :: (readings bytes).filterMap Reading.start?).Pairwise (· < ·)) ∧
      r.Knows lines := by
  intro lines
  have hlines : Line.ofBytes bytes = lines := (Line.cut_pieces bytes).2
  obtain ⟨r, hr, hend⟩ := delivers_remaining (ofBytes bytes)
  have hplaced := Reading.placed_readings bytes
  refine ⟨fun ps => Line.cut_iff, r, hr, hend, ?_, ?_,
    fun hsize => hplaced.pairwise (room_readings hsize), ?_⟩
  · rw [Reading.content_readings, hlines]
  · intro front c next back hreadings
    rw [hreadings] at hplaced
    exact hplaced.next_eq
  · rw [← hlines, ← lines_ofBytes, ← hr.lines_eq]
    exact knows_of_next?_eq_none hend

/-- A tabulator between lines, and a last line that is not ended. -/
example : (readings (Text.encode "ab\n\tc")).filterMap Reading.start? =
    [⟨1, 2⟩, ⟨1, 3⟩, ⟨2, 1⟩, ⟨2, 5⟩, ⟨2, 6⟩, ⟨3, 1⟩] := by decide +kernel

end Reader

end OnePass
