import OnePass.Proofs.ReadingPlaces
import OnePass.Proofs.TokenLayout
import OnePass.Report

/-!
# Reports underline the right place

A region of a source reaches from the place of one of its characters to that of another. Main
statement: however the two stand to each other, nothing goes below zero when the region is shown;
the lines of the region are quoted with their texts, and the texts stand under each other; the
carets are one run, which covers the columns from the first of the region to the last or the other
way round; and those of a region on one line stand under its characters (`Diagnostic.Underlined`,
`Diagnostic.underlined_places`).

Which character stands where is said by `characters`. A line that can be read delivers its
characters and the line feed (`mem_characters_iff`); without tabulators these stand in columns 1, 2,
3 and so on (`Text.placed_plain`). So a place on it is in one of these columns
(`column_le_of_mem_places`), and a place on a line that cannot be read is in the first one. -/

namespace OnePass

/-! ## Characters and where they stand -/

namespace Text

variable {p q : Position} {c : Char} {cs : List Char}

/-- All of a line stands on it. -/
theorem line_of_mem_placed (hcs : '\n' ∉ cs) (h : (q, c) ∈ placed p (cs ++ ['\n'])) :
    q.line = p.line := by
  induction cs generalizing p with
  | nil =>
    obtain ⟨rfl, -⟩ := Prod.mk.inj (List.mem_singleton.mp h)
    rfl
  | cons d ds ih =>
    rw [List.mem_cons, not_or] at hcs
    rcases List.mem_cons.mp h with h | h
    · obtain ⟨rfl, -⟩ := Prod.mk.inj h
      rfl
    · rw [ih hcs.2 h, Lexer.after_line (Ne.symm hcs.1)]

/-- On a line without tabulators each character takes one column. -/
theorem placed_plain (hcs : '\n' ∉ cs) (htab : '\t' ∉ cs) {k : Nat} (hk : .ofNat k = p.column) :
    placed p (cs ++ ['\n']) =
      ((cs ++ ['\n']).zipIdx k).map fun x => (⟨p.line, .ofNat x.2⟩, x.1) := by
  induction cs generalizing p k with
  | nil =>
    rw [List.nil_append, List.zipIdx_singleton, List.map_singleton, hk]
    rfl
  | cons d ds ih =>
    rw [List.mem_cons, not_or] at hcs htab
    have hafter : p.after d = ⟨p.line, p.column + 1⟩ :=
      p.after_eq_single_stop (Ne.symm hcs.1) (Ne.symm htab.1)
    have hnext : UInt32.ofNat (k + 1) = (p.after d).column := by
      rw [hafter, ← hk]
      exact UInt32.ofNat_add k 1
    rw [List.cons_append, placed, ih hcs.2 htab.2 hnext, List.zipIdx_cons, List.map_cons,
      hk, hafter]

theorem mem_placed_plain (hcs : '\n' ∉ cs) (htab : '\t' ∉ cs)
    (hsize : (cs ++ ['\n']).length < UInt32.size) (n : UInt32) :
    (q, c) ∈ placed ⟨n, 1⟩ (cs ++ ['\n']) ↔
      q.line = n ∧ 0 < q.column.toNat ∧ (cs ++ ['\n'])[q.column.toNat - 1]? = some c := by
  rw [placed_plain (p := ⟨n, 1⟩) (k := 1) hcs htab rfl, List.mem_map]
  constructor
  · rintro ⟨⟨d, k⟩, hmem, hq⟩
    obtain ⟨rfl, rfl⟩ := Prod.mk.inj hq
    have hget := List.mk_mem_zipIdx_iff_le_and_getElem?_sub.mp hmem
    have hlt := (List.getElem?_eq_some_iff.mp hget.2).1
    have hk : (UInt32.ofNat k).toNat = k := UInt32.toNat_ofNat_of_lt' (by omega)
    rw [hk]
    exact ⟨rfl, hget⟩
  · rintro ⟨rfl, hq⟩
    refine ⟨(c, q.column.toNat), List.mk_mem_zipIdx_iff_le_and_getElem?_sub.mpr hq, ?_⟩
    rw [UInt32.ofNat_toNat]

end Text

namespace Reading

/-- The place that comes with a character. -/
def place? : Reading → Option Span
  | .char _ next => some next
  | .unreadable => none

/-- The characters that are delivered from position `p` on, each with the position of its own. -/
def seen : Position → List Reading → List (Position × Char)
  | _, [] => []
  | p, .char c _ :: xs => (p, c) :: seen (p.after c) xs
  | p, .unreadable :: xs => seen (p.after '\n') xs

variable {p q : Position} {c : Char} {xs ys : List Reading}

/-- Places are behind characters. -/
theorem Placed.filterMap_place? (h : Placed p xs) :
    xs.filterMap place? = (seen p xs).map fun x => .single (x.1.after x.2) := by
  induction xs generalizing p with
  | nil => rfl
  | cons x xs ih =>
    have hrest := ih h.2
    cases x with
    | unreadable => exact hrest
    | char c next =>
      obtain rfl : next = .single (p.after c) := h.1
      exact congrArg (Span.single (p.after c) :: ·) hrest

theorem seen_ofChars_append (p : Position) (cs : List Char) (xs : List Reading) :
    seen p ((ofChars p cs).1 ++ xs) = Text.placed p cs ++ seen (p.advance cs) xs := by
  induction cs generalizing p with
  | nil => rfl
  | cons c cs ih => exact congrArg ((p, c) :: ·) (ih _)

/-- What stands where is said line by line. -/
theorem mem_seen_ofLines {lines : List Line} (hlines : ∀ l ∈ lines, '\n' ∉ l.text.toList)
    (n : UInt32) :
    (q, c) ∈ seen ⟨n, 1⟩ (ofLines ⟨n, 1⟩ lines) ↔
      ∃ i s, lines[i]? = some (some s) ∧
        (q, c) ∈ Text.placed ⟨n + .ofNat i, 1⟩ (s.toList ++ ['\n']) := by
  induction lines generalizing n with
  | nil => simp [ofLines, seen]
  | cons l lines ih =>
    obtain ⟨hline, hlines⟩ := List.forall_mem_cons.mp hlines
    -- the lines behind the first one
    have hrest : (q, c) ∈ seen ⟨n + 1, 1⟩ (ofLines ⟨n + 1, 1⟩ lines) ↔
        ∃ i s, (l :: lines)[i + 1]? = some (some s) ∧
          (q, c) ∈ Text.placed ⟨n + .ofNat (i + 1), 1⟩ (s.toList ++ ['\n']) := by
      have hnext (i : Nat) : n + 1 + .ofNat i = n + .ofNat (i + 1) := by
        rw [UInt32.add_assoc, UInt32.ofNat_add, UInt32.add_comm 1]
        rfl
      rw [ih hlines (n + 1)]
      simp only [List.getElem?_cons_succ, hnext]
    rw [← Nat.or_exists_add_one, ← hrest]
    cases l with
    | none => exact ⟨.inr, fun h => h.resolve_left (by simp)⟩
    | some s =>
      have hline : '\n' ∉ s.toList := hline
      rw [ofLines_cons hline, seen_ofChars_append, Position.advance_newline _ hline,
        List.mem_append]
      refine or_congr_left ?_
      simp

/-- Where there is room for all that is delivered, there is room for each character. -/
theorem room_of_mem_seen (hroom : p.Room xs.length) (h : (q, c) ∈ seen p xs) : q.Room 1 := by
  induction xs generalizing p with
  | nil => cases h
  | cons x xs ih =>
    cases x with
    | unreadable => exact ih (hroom.after '\n') h
    | char d next =>
      rcases List.mem_cons.mp h with h | h
      · obtain ⟨rfl, -⟩ := Prod.mk.inj h
        exact hroom.mono (Nat.le_add_left 1 _)
      · exact ih (hroom.after d) h

end Reading

/-- The characters of a source, each with its position. -/
def characters (bytes : List UInt8) : List (Position × Char) :=
    Reading.seen .origin (readings bytes)

/-- The places of the characters of a source: that of the first one, and those that come with the
characters in front of the others. -/
def places (bytes : List UInt8) : List Span :=
  Reader.start :: (readings bytes).filterMap Reading.place?

namespace Line

/-- The text of the line numbered `n` from 1 of a source, cut out of it; nothing if it cannot be
read or is not there. -/
def own (bytes : List UInt8) (n : UInt32) : String :=
  (((pieces bytes)[n.toNat - 1]?).bind ofPiece).getD ""

variable {bytes : List UInt8} {n : UInt32} {s : String}

theorem newline_not_mem_ofBytes (bytes : List UInt8) :
    ∀ l ∈ ofBytes bytes, '\n' ∉ l.text.toList := by
  induction bytes using lines_induction with
  | nil => exact nofun
  | last piece hmem hne =>
    rw [ofBytes_of_not_mem hmem hne, List.forall_mem_singleton]
    exact newline_not_mem_decode? hmem
  | ended line rest hline ih =>
    rw [ofBytes_append hline, List.forall_mem_cons]
    exact ⟨newline_not_mem_decode? (not_mem_dropReturn hline), ih⟩

theorem own_eq (hn : n ≠ 0) : lineText (ofBytes bytes) n = own bytes n := by
  rw [lineText, if_neg hn, own, (cut_pieces bytes).2, List.getElem?_map]
  cases (pieces bytes)[n.toNat - 1]? with
  | none => rfl
  | some piece => rfl

theorem own_of_getElem? (h : (ofBytes bytes)[n.toNat - 1]? = some (some s)) : own bytes n = s := by
  rw [(cut_pieces bytes).2, List.getElem?_map, Option.map_eq_some_iff] at h
  obtain ⟨piece, hpiece, hs⟩ := h
  rw [own, hpiece, Option.bind_some, hs, Option.getD_some]

/-- Something is delivered of every line. -/
theorem length_ofBytes_le (bytes : List UInt8) :
    (ofBytes bytes).length ≤ (readings bytes).length := by
  rw [← List.length_map Reading.content, Reading.content_readings]
  induction ofBytes bytes with
  | nil => exact Nat.le_refl 0
  | cons l lines ih =>
    have hline : 1 ≤ (contents l).length := by
      cases l with
      | none => exact Nat.le_refl 1
      | some s => simp [contents]
    rw [List.length_cons, List.flatMap_cons, List.length_append]
    omega

/-- All of a line is delivered. -/
theorem length_line_le (h : some s ∈ ofBytes bytes) :
    (s.toList ++ ['\n']).length ≤ (readings bytes).length := by
  rw [← List.length_map Reading.content, Reading.content_readings]
  have hsublist := List.sublist_flatten_of_mem (List.mem_map_of_mem (f := contents) h)
  simpa [contents, List.flatMap_def] using hsublist.length_le

end Line

/-! ## Places of a source -/

section

variable {bytes : List UInt8} {p q : Position} {a : Span} {c : Char} {s : String}

/-- A place is that of the first character, or behind another character. -/
theorem mem_places_iff : a ∈ places bytes ↔
    a = .single .origin ∨ ∃ q c, (q, c) ∈ characters bytes ∧ a = .single (q.after c) := by
  rw [places, (Reading.placed_readings bytes).filterMap_place?, List.mem_cons, Reader.start]
  refine or_congr_right ?_
  simp only [List.mem_map, Prod.exists, eq_comm, characters]

/-- A place takes one column. -/
theorem single_of_mem_places (h : a ∈ places bytes) : a = .single a.start := by
  rcases mem_places_iff.mp h with rfl | ⟨q, c, -, rfl⟩ <;> rfl

/-- A place is in the first column of its line or behind a character of the line. -/
theorem column_of_mem_places (h : a ∈ places bytes) :
    a.start.column = 1 ∨ ∃ q c, (q, c) ∈ characters bytes ∧ c ≠ '\n' ∧ q.line = a.start.line ∧
      a.start = q.after c := by
  rcases mem_places_iff.mp h with rfl | ⟨q, c, hq, rfl⟩
  · exact .inl rfl
  · by_cases hc : c = '\n'
    · subst hc
      exact .inl rfl
    · exact .inr ⟨q, c, hq, hc, (Lexer.after_line hc).symm, rfl⟩

/-- Where no character stands on its line, a place is in the first column. -/
theorem column_eq_one_of_mem_places (h : a ∈ places bytes)
    (hnone : ∀ q c, (q, c) ∈ characters bytes → q.line ≠ a.start.line) : a.start.column = 1 :=
  (column_of_mem_places h).resolve_right fun ⟨q, c, hq, _, hline, _⟩ => hnone q c hq hline

-- from here on, the source is so small that no number in it begins anew
variable (hsize : bytes.length < 2 ^ 30 - 1)
include hsize

theorem room_of_mem_characters (h : (q, c) ∈ characters bytes) : q.Room 1 :=
  Reading.room_of_mem_seen (room_readings hsize) h

theorem mem_characters_iff : (q, c) ∈ characters bytes ↔
    ∃ s, 0 < q.line.toNat ∧ (Line.ofBytes bytes)[q.line.toNat - 1]? = some (some s) ∧
      (q, c) ∈ Text.placed ⟨q.line, 1⟩ (s.toList ++ ['\n']) := by
  have hlines := Line.newline_not_mem_ofBytes bytes
  have hcount := (Line.length_ofBytes_le bytes).trans (Line.length_readings_le bytes)
  rw [characters, readings, Position.origin, Reading.mem_seen_ofLines hlines]
  constructor
  · rintro ⟨i, s, hs, hmem⟩
    have hi := (List.getElem?_eq_some_iff.mp hs).1
    have hline : q.line = 1 + .ofNat i :=
      Text.line_of_mem_placed (hlines _ (List.mem_of_getElem? hs)) hmem
    have hnumber : q.line.toNat = 1 + i := by
      rw [hline, ← UInt32.ofNat_toNat (x := 1), ← UInt32.ofNat_add]
      exact UInt32.toNat_ofNat_of_lt' (by simp only [UInt32.toNat_one, UInt32.size]; omega)
    refine ⟨s, by omega, ?_, hline ▸ hmem⟩
    rwa [hnumber, Nat.add_sub_cancel_left]
  · rintro ⟨s, hpos, hs, hmem⟩
    refine ⟨q.line.toNat - 1, s, hs, ?_⟩
    have hline : 1 + .ofNat (q.line.toNat - 1) = q.line := by
      rw [← UInt32.ofNat_toNat (x := 1), ← UInt32.ofNat_add, UInt32.toNat_one,
        Nat.add_sub_cancel' hpos, UInt32.ofNat_toNat]
    rwa [hline]

/-- A line without tabulators holds its characters, and the line feed, in columns from 1. -/
theorem mem_characters_plain (hs : (Line.ofBytes bytes)[q.line.toNat - 1]? = some (some s))
    (htab : '\t' ∉ s.toList) : (q, c) ∈ characters bytes ↔
      0 < q.line.toNat ∧ 0 < q.column.toNat ∧
        (s.toList ++ ['\n'])[q.column.toNat - 1]? = some c := by
  have hmem := List.mem_of_getElem? hs
  have hline : '\n' ∉ s.toList := Line.newline_not_mem_ofBytes _ _ hmem
  have hlength : (s.toList ++ ['\n']).length < UInt32.size := by
    have hle := (Line.length_line_le hmem).trans (Line.length_readings_le bytes)
    simp only [UInt32.size]
    omega
  have hplain := Text.mem_placed_plain (q := q) (c := c) hline htab hlength q.line
  rw [mem_characters_iff hsize]
  constructor
  · rintro ⟨s', hpos, hs', hplaced⟩
    obtain rfl : s' = s := Option.some.inj (Option.some.inj (hs'.symm.trans hs))
    exact ⟨hpos, (hplain.mp hplaced).2⟩
  · rintro ⟨hpos, hq⟩
    exact ⟨s, hpos, hs, hplain.mpr ⟨rfl, hq⟩⟩

/-- There is room for the character at a place. -/
theorem room_of_mem_places (h : a ∈ places bytes) : a.start.Room 0 := by
  rcases mem_places_iff.mp h with rfl | ⟨q, c, hq, rfl⟩
  · exact Position.room_origin (by decide)
  · exact (room_of_mem_characters hsize hq).after c

theorem line_pos_of_mem_places (h : a ∈ places bytes) : 0 < a.start.line.toNat := by
  rcases mem_places_iff.mp h with rfl | ⟨q, c, hq, rfl⟩
  · exact Nat.one_pos
  · obtain ⟨-, hpos, -⟩ := (mem_characters_iff hsize).mp hq
    have hstart : (Span.single (q.after c)).start = q.after c := rfl
    rw [hstart]
    obtain ⟨-, hline, -⟩ | ⟨-, hline, -⟩ := (room_of_mem_characters hsize hq).after_cases c
    · omega
    · rwa [hline]

/-- The last place on a line is that of its line feed. -/
theorem column_le_of_mem_places (h : a ∈ places bytes)
    (hs : (Line.ofBytes bytes)[a.start.line.toNat - 1]? = some (some s)) (htab : '\t' ∉ s.toList) :
    a.start.column.toNat ≤ (s.toList ++ ['\n']).length := by
  rcases column_of_mem_places h with hone | ⟨q, c, hq, hc, hline, hafter⟩
  · rw [hone, List.length_append]
    exact Nat.le_add_left 1 _
  · rw [← hline] at hs
    obtain ⟨-, hcolumn, hget⟩ := (mem_characters_plain hsize hs htab).mp hq
    have hmem : c ∈ s.toList := (List.mem_append.mp (List.mem_of_getElem? hget)).resolve_right
      (List.mem_singleton.not.mpr hc)
    have htab : c ≠ '\t' := fun heq => htab (heq ▸ hmem)
    -- behind the text stands the line feed alone
    have hlt : q.column.toNat - 1 < s.toList.length := by
      by_contra hle
      rw [List.getElem?_append_right (Nat.not_lt.mp hle)] at hget
      exact hc (List.mem_singleton.mp (List.mem_of_getElem? hget))
    have hstop : a.start.column.toNat = q.column.toNat + 1 := by
      rw [hafter, q.after_eq_single_stop hc htab]
      exact (room_of_mem_characters hsize hq).toNat_stop
    rw [hstop, List.length_append, List.length_singleton]
    omega

end

/-! ## Rows of a report -/

/-- A difference of numbers, unless it is below zero. -/
def minus? {α : Type} [Sub α] [LE α] [DecidableLE α] (m n : α) : Option α :=
  if n ≤ m then some (m - n) else none

theorem minus?_of_le {α : Type} [Sub α] [LE α] [DecidableLE α] {m n : α} (h : n ≤ m) :
    minus? m n = some (m - n) :=
  if_pos h

namespace Diagnostic

/-- The width of the numbers of lines. -/
def gutter (d : Diagnostic) : Nat := (toString d.span.stop.line.toNat).length

/-- An error as it is shown, unless a number is below zero on the way. -/
def render? (name : String) (lines : List Line) (d : Diagnostic) : Option String := do
  let (first, last) := caretColumns d.span
  let quote (n : UInt32) :=
    alignRight d.gutter (toString n.toNat) ++ " | " ++ lineText lines n ++ "\n"
  let head ← minus? d.gutter 1
  let width ← minus? last first
  let indent ← minus? first 1
  return d.phase.text ++ ": " ++ d.message ++ "\n"
    ++ fill head ' ' ++ " --> " ++ d.span.render name ++ "\n"
    ++ fill d.gutter ' ' ++ " |\n"
    ++ String.join ((quotedLines d.span).map quote)
    ++ fill d.gutter ' ' ++ " | " ++ fill indent.toNat ' ' ++ fill (width.toNat + 1) '^' ++ "\n"

/-- The row of a line: its number and its text. -/
def quote (d : Diagnostic) (bytes : List UInt8) (n : UInt32) : String :=
  alignRight d.gutter (toString n.toNat) ++ " | " ++ Line.own bytes n

/-- The row of carets. -/
def underline (d : Diagnostic) : String := fill d.gutter ' ' ++ " | " ++ carets d.span

/-- The rows of an error: what is wrong, where it is, the lines of the region and the carets. -/
def rows (d : Diagnostic) (name : String) (bytes : List UInt8) : List String :=
  [d.phase.text ++ ": " ++ d.message,
    fill (d.gutter - 1) ' ' ++ " --> " ++ d.span.render name,
    fill d.gutter ' ' ++ " |"]
  ++ (quotedLines d.span).map (d.quote bytes) ++ [d.underline]

/-- Where texts begin in their rows. -/
def margin (d : Diagnostic) : Nat := d.gutter + " | ".length

variable {d : Diagnostic} {name : String} {n : UInt32}

theorem gutter_pos (d : Diagnostic) : 0 < d.gutter := Nat.length_repr_pos

theorem toList_fill (n : Nat) (c : Char) : (fill n c).toList = List.replicate n c :=
  String.toList_ofList

theorem length_fill (n : Nat) (c : Char) : (fill n c).length = n := by
  rw [← String.length_toList, toList_fill, List.length_replicate]

/-- Numbers of lines fit the gutter, however many digits they have: the last one is the widest. -/
theorem length_alignRight (h : n.toNat ≤ d.span.stop.line.toNat) :
    (alignRight d.gutter (toString n.toNat)).length = d.gutter := by
  have hfits : (toString n.toNat).length ≤ d.gutter := by
    have hstop := (Nat.length_repr_le_iff d.gutter_pos).mp (Nat.le_refl d.gutter)
    exact (Nat.length_repr_le_iff d.gutter_pos).mpr (Nat.lt_of_le_of_lt h hstop)
  rw [alignRight, String.length_append, length_fill]
  omega

theorem quote_eq (bytes : List UInt8) (h : n.toNat ≤ d.span.stop.line.toNat) : ∃ front,
    front.length = d.margin ∧ (d.quote bytes n).toList = front ++ (Line.own bytes n).toList := by
  refine ⟨(alignRight d.gutter (toString n.toNat) ++ " | ").toList, ?_, String.toList_append⟩
  rw [String.length_toList, String.length_append, length_alignRight h, margin]

/-- The lines that are quoted are those from the first to the last. -/
theorem mem_quotedLines {s : Span} :
    n ∈ quotedLines s ↔ s.start.line ≤ n ∧ n ≤ s.stop.line := by
  have hstop := s.stop.line.toNat_lt
  rw [quotedLines, List.mem_map, UInt32.le_iff_toNat_le, UInt32.le_iff_toNat_le]
  constructor
  · rintro ⟨k, hk, rfl⟩
    rw [List.mem_range'_1] at hk
    rw [UInt32.toNat_ofNat_of_lt' (by simp only [UInt32.size]; omega)]
    omega
  · intro hn
    exact ⟨n.toNat, List.mem_range'_1.mpr (by omega), UInt32.ofNat_toNat⟩

theorem pairwise_quotedLines (s : Span) : (quotedLines s).Pairwise (· < ·) := by
  have hstop := s.stop.line.toNat_lt
  rw [quotedLines, List.pairwise_map]
  refine (List.pairwise_lt_range' 1).imp_of_mem fun {i j} hi hj hlt => ?_
  rw [List.mem_range'_1] at hi hj
  rw [UInt32.lt_iff_toNat_lt, UInt32.toNat_ofNat_of_lt' (by simp only [UInt32.size]; omega),
    UInt32.toNat_ofNat_of_lt' (by simp only [UInt32.size]; omega)]
  exact hlt

theorem render_eq (h : 0 < d.span.start.line.toNat) : d.render name (Line.ofBytes bytes) =
    String.join ((d.rows name bytes).map (· ++ "\n")) := by
  -- lines are counted from 1, so the text of each is the one that is cut out of the source
  have hquote : (quotedLines d.span).map (fun n => alignRight d.gutter (toString n.toNat)
    ++ " | " ++
      lineText (Line.ofBytes bytes) n ++ "\n") =
      ((quotedLines d.span).map (d.quote bytes)).map (· ++ "\n") := by
    rw [List.map_map]
    refine List.map_congr_left fun n hn => ?_
    have hpos : n ≠ 0 := by
      rintro rfl
      exact Nat.not_lt_zero _ (Nat.lt_of_lt_of_le h (mem_quotedLines.mp hn).1)
    rw [Line.own_eq hpos]
    rfl
  rw [rows, List.map_append, List.map_append, ← hquote, String.join_append, String.join_append]
  simp [render, underline, String.append_assoc, gutter]

theorem toNat_included (n : UInt32) : (included n).toNat = n.toNat - 1 := by
  rw [included]
  split
  · rename_i hn
    rw [hn, UInt32.toNat_zero]
  · rename_i hn
    have hle : (1 : UInt32) ≤ n := Nat.pos_of_ne_zero fun h => hn (UInt32.toNat_inj.mp h)
    exact UInt32.toNat_sub_of_le _ _ hle

theorem toNat_caretColumns (s : Span) :
    (caretColumns s).1.toNat = max 1 (min s.start.column.toNat (s.stop.column.toNat - 1)) ∧
      (caretColumns s).2.toNat = max s.start.column.toNat (s.stop.column.toNat - 1) := by
  rw [← toNat_included, ← UInt32.toNat_min, ← UInt32.toNat_max, ← UInt32.toNat_one,
    ← UInt32.toNat_max]
  exact ⟨rfl, rfl⟩

/-- The row of carets begins in the first of the columns, and the last is not in front of it. -/
theorem caretColumns_le (h : 0 < d.span.start.column.toNat) :
    1 ≤ (caretColumns d.span).1 ∧ (caretColumns d.span).1 ≤ (caretColumns d.span).2 := by
  obtain ⟨hfirst, hlast⟩ := toNat_caretColumns d.span
  rw [UInt32.le_iff_toNat_le, UInt32.le_iff_toNat_le, hfirst, hlast, UInt32.toNat_one]
  omega

/-- The widths of the row of carets are those of unbounded numbers. -/
theorem carets_eq (h : 0 < d.span.start.column.toNat) :
    carets d.span = fill ((caretColumns d.span).1.toNat - 1) ' ' ++
      fill ((caretColumns d.span).2.toNat - (caretColumns d.span).1.toNat + 1) '^' := by
  obtain ⟨hfirst, hlast⟩ := caretColumns_le h
  have hindent := UInt32.toNat_sub_of_le _ _ hfirst
  have hwidth := UInt32.toNat_sub_of_le _ _ hlast
  have hsize := (caretColumns d.span).2.toNat_lt
  rw [UInt32.le_iff_toNat_le, UInt32.toNat_one] at hfirst
  rw [carets]
  dsimp only
  rw [hindent, UInt32.toNat_one, UInt32.toNat_add, hwidth, UInt32.toNat_one,
    Nat.mod_eq_of_lt (by omega)]

theorem render?_eq (h : 0 < d.span.start.column.toNat) (lines : List Line) :
    d.render? name lines = some (d.render name lines) := by
  obtain ⟨hfirst, hlast⟩ := caretColumns_le h
  rw [render?, minus?_of_le d.gutter_pos]
  dsimp only
  rw [minus?_of_le hlast, minus?_of_le hfirst, render, carets_eq h]
  simp [UInt32.toNat_sub_of_le _ _ hfirst, UInt32.toNat_sub_of_le _ _ hlast, String.append_assoc,
    gutter]

/-- A run of `n` equal elements behind others. -/
theorem getElem?_run {α : Type} {x : α} {xs : List α} (h : x ∉ xs) (n i : Nat) :
    (xs ++ List.replicate n x)[i]? = some x ↔ xs.length ≤ i ∧ i < xs.length + n := by
  by_cases hi : i < xs.length
  · rw [List.getElem?_append_left hi]
    exact ⟨fun hx => absurd (List.mem_of_getElem? hx) h, fun hle =>
      absurd hi (Nat.not_lt.mpr hle.1)⟩
  · rw [List.getElem?_append_right (Nat.not_lt.mp hi), List.getElem?_replicate,
      Option.ite_none_right_eq_some, and_iff_left rfl]
    omega

/-- The carets are one run. -/
theorem getElem?_underline (hstart : 0 < d.span.start.column.toNat)
    (hstop : 1 < d.span.stop.column.toNat) (i : Nat) :
    d.underline.toList[i]? = some '^' ↔
      d.margin + min d.span.start.column.toNat (d.span.stop.column.toNat - 1) ≤ i + 1 ∧
        i + 1 ≤ d.margin + max d.span.start.column.toNat (d.span.stop.column.toNat - 1) := by
  obtain ⟨hfirst, hlast⟩ := toNat_caretColumns d.span
  have hrow : d.underline.toList =
      (List.replicate d.gutter ' ' ++ [' ', '|', ' '] ++
        List.replicate ((caretColumns d.span).1.toNat - 1) ' ') ++
      List.replicate ((caretColumns d.span).2.toNat - (caretColumns d.span).1.toNat + 1) '^' := by
    simp [underline, carets_eq hstart, fill]
  have hfront : '^' ∉ List.replicate d.gutter ' ' ++ [' ', '|', ' '] ++
      List.replicate ((caretColumns d.span).1.toNat - 1) ' ' := by
    simp
  rw [hrow, getElem?_run hfront, List.length_append, List.length_append, List.length_replicate,
    List.length_replicate, margin, hfirst, hlast]
  have hbar : [' ', '|', ' '].length = " | ".length := rfl
  omega

/-- The carets of a region of one line stand under its characters. -/
structure Below (bytes : List UInt8) (d : Diagnostic) : Prop where
  /-- a character of the line, or the line feed, is where its column says, and above a caret if it
  is in the region -/
  above : ∀ q c, (q, c) ∈ characters bytes → q.line = d.span.stop.line →
    ((d.quote bytes q.line).toList ++ ['\n'])[d.margin + (q.column.toNat - 1)]? = some c ∧
      (d.underline.toList[d.margin + (q.column.toNat - 1)]? = some '^' ↔ d.span.Covers q)
  /-- every caret is below a character of the region, or below the place where it would be if there
  were any on the line -/
  below : ∀ i, d.underline.toList[i]? = some '^' →
    (∃ q c, (q, c) ∈ characters bytes ∧ d.span.Covers q ∧
      i = d.margin + (q.column.toNat - 1)) ∨
    (∀ q c, (q, c) ∈ characters bytes → q.line ≠ d.span.stop.line) ∧ i = d.margin

/-- The region of an error is shown and underlined. -/
structure Underlined (bytes : List UInt8) (name : String) (d : Diagnostic) : Prop where
  /-- no number is below zero -/
  checked : d.render? name (Line.ofBytes bytes) = some (d.render name (Line.ofBytes bytes))
  /-- what is shown consists of rows -/
  rows : d.render name (Line.ofBytes bytes) = String.join ((d.rows name bytes).map (· ++ "\n"))
  /-- the lines of the region, and no others, are quoted; there are none if it is reversed -/
  lines : ∀ n, n ∈ quotedLines d.span ↔ d.span.start.line ≤ n ∧ n ≤ d.span.stop.line
  /-- each of them is quoted once, and in order -/
  ordered : (quotedLines d.span).Pairwise (· < ·)
  /-- their texts stand under each other -/
  texts : ∀ n ∈ quotedLines d.span,
    (d.quote bytes n).toList.drop d.margin = (Line.own bytes n).toList
  /-- there is a last column that belongs to the region -/
  included : 1 < d.span.stop.column
  /-- the carets are one run, from the smaller of the two columns to the larger -/
  run : 0 < min d.span.start.column.toNat (d.span.stop.column.toNat - 1) ∧
    ∀ i, d.underline.toList[i]? = some '^' ↔
      d.margin + min d.span.start.column.toNat (d.span.stop.column.toNat - 1) ≤ i + 1 ∧
        i + 1 ≤ d.margin + max d.span.start.column.toNat (d.span.stop.column.toNat - 1)
  /-- they stand under the characters of a region that goes forward on a line without tabulators -/
  characters : d.span.start.line = d.span.stop.line → d.span.start.column < d.span.stop.column →
    '\t' ∉ (Line.own bytes d.span.stop.line).toList → d.Below bytes

section Forward

variable {p q r : Position} (hspan : d.span = (Span.single p).upTo (.single q))
  (hline : p.line = q.line) (hp : p.Room 0) (hq : q.Room 0)
include hspan

include hp hq in
/-- The carets of a region that goes forward. -/
theorem getElem?_underline_forward (hforward : p.column.toNat ≤ q.column.toNat) (i : Nat) :
    d.underline.toList[i]? = some '^' ↔
      d.margin + p.column.toNat ≤ i + 1 ∧ i + 1 ≤ d.margin + q.column.toNat := by
  have hpos := hp.pos
  have hstart : d.span.start.column = p.column := by rw [hspan]; rfl
  have hstop : d.span.stop.column.toNat = q.column.toNat + 1 := by rw [hspan]; exact hq.toNat_stop
  have hrun := d.getElem?_underline (hstart ▸ hpos) (by omega) i
  rwa [hstart, hstop, Nat.add_sub_cancel, Nat.min_eq_left hforward, Nat.max_eq_right hforward]
    at hrun

include hq hline in
theorem covers_iff (hr : r.line = q.line) :
    d.span.Covers r ↔
      p.column.toNat ≤ r.column.toNat ∧ r.column.toNat ≤ q.column.toNat := by
  have hend := hq.toNat_stop
  have hstop : (Span.single q).stop.line = q.line := rfl
  have hstart : (Span.single p).start = p := rfl
  rw [hspan, Span.Covers, Span.upTo, hstart, ← not_lt, Position.lt_iff, Position.lt_iff,
    hend, hstop,
    hr, hline]
  simp only [Nat.lt_irrefl, false_or, true_and]
  omega

variable (hforward : p.column.toNat ≤ q.column.toNat)
include hp hq hforward

include hline in
/-- A caret stands in a column of the region. -/
theorem caret_iff (hr : r.line = q.line) (hcolumn : 0 < r.column.toNat) :
    d.underline.toList[d.margin + (r.column.toNat - 1)]? = some '^' ↔ d.span.Covers r := by
  rw [getElem?_underline_forward hspan hp hq hforward, covers_iff hspan hline hq hr]
  omega

/-- A caret of a region on one line stands in the column of a position of that line. -/
theorem exists_position_of_caret {i : Nat} (hi : d.underline.toList[i]? = some '^') :
    ∃ r : Position, r.line = q.line ∧ 0 < r.column.toNat ∧ r.column.toNat ≤ q.column.toNat ∧
      i = d.margin + (r.column.toNat - 1) := by
  obtain ⟨hle, hge⟩ := (getElem?_underline_forward hspan hp hq hforward i).mp hi
  have hpos := hp.pos
  have hlast := q.column.toNat_lt
  have hcolumn : (UInt32.ofNat (i + 1 - d.margin)).toNat = i + 1 - d.margin :=
    UInt32.toNat_ofNat_of_lt' (by simp only [UInt32.size]; omega)
  refine ⟨⟨q.line, .ofNat (i + 1 - d.margin)⟩, rfl, ?_⟩
  dsimp only
  omega

end Forward

/-! ## Regions between two places -/

section Between

variable {p q : Position} (hspan : d.span = (Span.single p).upTo (.single q))
  (hline : p.line = q.line) (hsize : bytes.length < 2 ^ 30 - 1)
  (hp : Span.single p ∈ places bytes) (hq : Span.single q ∈ places bytes)
include hspan hline hsize hp hq

/-- A region of a line that can be read. -/
theorem below_of_readable (hforward : p.column.toNat ≤ q.column.toNat) {s : String}
    (hs : (Line.ofBytes bytes)[q.line.toNat - 1]? = some (some s)) (htab : '\t' ∉ s.toList) :
    d.Below bytes := by
  have hroom₁ : p.Room 0 := room_of_mem_places hsize hp
  have hroom₂ : q.Room 0 := room_of_mem_places hsize hq
  have hstop : d.span.stop.line = q.line := by rw [hspan]; rfl
  constructor
  · intro r c hr hrline
    rw [hstop] at hrline
    rw [← hrline] at hs
    obtain ⟨-, hcolumn, hget⟩ := (mem_characters_plain hsize hs htab).mp hr
    refine ⟨?_, caret_iff hspan hline hroom₁ hroom₂ hforward hrline hcolumn⟩
    have hquoted : r.line.toNat ≤ d.span.stop.line.toNat := by rw [hstop, hrline]
    obtain ⟨front, hfront, hquote⟩ := d.quote_eq bytes hquoted
    rw [hquote, Line.own_of_getElem? hs, List.append_assoc,
      List.getElem?_append_right (by omega), hfront, Nat.add_sub_cancel_left, hget]
  · intro i hi
    obtain ⟨r, hrline, hcolumn, hlast, rfl⟩ :=
      exists_position_of_caret hspan hroom₁ hroom₂ hforward hi
    have hcovers := (caret_iff hspan hline hroom₁ hroom₂ hforward hrline hcolumn).mp hi
    -- the line feed is the last character that a region can reach
    have hend : q.column.toNat ≤ (s.toList ++ ['\n']).length :=
      column_le_of_mem_places hsize hq hs htab
    obtain ⟨c, hc⟩ : ∃ c, (s.toList ++ ['\n'])[r.column.toNat - 1]? = some c :=
      ⟨_, List.getElem?_eq_getElem (by omega)⟩
    rw [← hrline] at hs
    have hlinePos : 0 < r.line.toNat := hrline ▸ line_pos_of_mem_places hsize hq
    exact .inl ⟨r, c, (mem_characters_plain hsize hs htab).mpr ⟨hlinePos, hcolumn, hc⟩,
      hcovers, rfl⟩

/-- A region of a line where no character stands. -/
theorem below_of_unreadable
    (hs : ¬ ∃ s, (Line.ofBytes bytes)[q.line.toNat - 1]? = some (some s)) : d.Below bytes := by
  have hstop : d.span.stop.line = q.line := by rw [hspan]; rfl
  have hnone (r : Position) (c : Char) (hr : (r, c) ∈ characters bytes) : r.line ≠ q.line := by
    intro hrline
    obtain ⟨s, -, hget, -⟩ := (mem_characters_iff hsize).mp hr
    exact hs ⟨s, hrline ▸ hget⟩
  -- both places are in the first column, and so is the only caret
  have hfirst : p.column = 1 :=
    column_eq_one_of_mem_places hp fun r c hr => hline ▸ hnone r c hr
  have hlast : q.column = 1 := column_eq_one_of_mem_places hq hnone
  have hforward : p.column.toNat ≤ q.column.toNat := by rw [hfirst, hlast]
  constructor
  · exact fun r c hr hrline => absurd (hrline.trans hstop) (hnone r c hr)
  · intro i hi
    obtain ⟨r, -, hcolumn, hle, rfl⟩ := exists_position_of_caret hspan
      (room_of_mem_places hsize hp) (room_of_mem_places hsize hq) hforward hi
    rw [hlast, UInt32.toNat_one] at hle
    exact .inr ⟨fun r c hr => hstop ▸ hnone r c hr, by omega⟩

end Between

/-- **Reports underline the right place.** Whichever two places of a source a region reaches
between, nothing goes below zero when it is shown; the lines of the region are quoted with their own
texts; the carets are one run from the smaller to the larger of its first and last columns; and if
it goes forward on a line without tabulators, they stand under its characters. The source is so
small that no column of it begins anew at zero, which a line of `2 ^ 30` tabulators would make one
do. -/
theorem underlined_places (hsize : bytes.length < 2 ^ 30 - 1) {a b : Span} (ha : a ∈ places bytes)
    (hb : b ∈ places bytes) (name : String) (phase : Phase) (message : String) :
    Underlined bytes name ⟨phase, message, a.upTo b⟩ := by
  have hline := line_pos_of_mem_places hsize ha
  have hcolumn := (room_of_mem_places hsize ha).pos
  have hroom := room_of_mem_places hsize hb
  have hb' := single_of_mem_places hb
  have hend : b.stop.column.toNat = b.start.column.toNat + 1 := by
    rw [hb']
    exact hroom.toNat_stop
  have hstop : 1 < b.stop.column.toNat := hend ▸ Nat.succ_lt_succ hroom.pos
  constructor
  case checked => exact render?_eq hcolumn _
  case rows => exact render_eq hline
  case lines => exact fun n => mem_quotedLines
  case ordered => exact pairwise_quotedLines _
  case texts =>
    intro n hn
    obtain ⟨-, hle⟩ := mem_quotedLines.mp hn
    obtain ⟨front, hfront, hquote⟩ := quote_eq (d := ⟨phase, message, a.upTo b⟩) bytes hle
    rw [hquote, ← hfront, List.drop_left]
  case included => exact hstop
  case run => exact ⟨by dsimp only [Span.upTo]; omega, getElem?_underline hcolumn hstop⟩
  case characters =>
    intro hsame hforward htab
    have ha' := single_of_mem_places ha
    have hspan : a.upTo b = (Span.single a.start).upTo (.single b.start) := by rw [← ha', ← hb']
    have hstopLine : b.stop.line = b.start.line := congrArg (Position.line ∘ Span.stop) hb'
    have hsame : a.start.line = b.start.line := hsame.trans hstopLine
    have hforward : a.start.column.toNat ≤ b.start.column.toNat :=
      Nat.le_of_lt_succ (Nat.lt_of_lt_of_eq (UInt32.lt_iff_toNat_lt.mp hforward) hend)
    have htab : '\t' ∉ (Line.own bytes b.start.line).toList := hstopLine ▸ htab
    by_cases hs : ∃ s, (Line.ofBytes bytes)[b.start.line.toNat - 1]? = some (some s)
    · obtain ⟨s, hs⟩ := hs
      rw [Line.own_of_getElem? hs] at htab
      exact below_of_readable hspan hsame hsize (ha' ▸ ha) (hb' ▸ hb) hforward hs htab
    · exact below_of_unreadable hspan hsame hsize (ha' ▸ ha) (hb' ▸ hb) hs

/-- One character of a line. -/
theorem underlined_places_character :
    let source := Text.encode "int a @ 1;\n"
    let place := Span.single ⟨1, 7⟩
    place ∈ places source ∧
      Underlined source "test.cm" ⟨.lexical, "unexpected character", place.upTo place⟩ := by
  have hplace : Span.single ⟨1, 7⟩ ∈ places (Text.encode "int a @ 1;\n") := by decide +kernel
  exact ⟨hplace, underlined_places (by decide +kernel) hplace hplace _ _ _⟩

/-- Two lines, whose numbers differ in width. -/
example : Diagnostic.render "test.cm" (List.replicate 8 (some "") ++ [some "int @", some "ab;"])
    ⟨.lexical, "message", (Span.single ⟨9, 5⟩).upTo (.single ⟨10, 2⟩)⟩ =
      "lexical error: message\n  --> test.cm:9:5\n   |\n 9 | int @\n10 | ab;\n   |  ^^^^\n" := by
  decide +kernel

end Diagnostic

end OnePass
