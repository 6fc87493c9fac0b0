import Mathlib.Data.Prod.Lex
import OnePass.Text.Source

/-!
# The text that reading delivers

Positions are ordered as they are passed: as long as there is room for their numbers, every
character leads strictly onwards (`Position.Room.lt_after`). A readable source is delivered as one
text (`readings_eq_ofChars`), which is the stored one with its line endings made uniform: a carriage
return before a line feed is dropped, and the last line is ended like the others
(`delivery_encode`). -/

namespace OnePass

namespace Position

/-- Positions are ordered by line, and by column within a line. -/
instance : LinearOrder Position :=
  LinearOrder.lift' (fun p => toLex (p.line.toNat, p.column.toNat)) fun p q h => by
    obtain ⟨l, c⟩ := p
    obtain ⟨l', c'⟩ := q
    simpa [UInt32.toNat_inj] using h

/-- Positions are ordered by line and then by column, as numbers. -/
theorem lt_iff {p q : Position} :
    p < q ↔ p.line.toNat < q.line.toNat ∨ p.line = q.line ∧ p.column.toNat < q.column.toNat := by
  rw [← UInt32.toNat_inj]
  exact Prod.Lex.toLex_lt_toLex

/-- The position behind a text that stands at `p`. -/
def advance (p : Position) (cs : List Char) : Position := cs.foldl after p

@[simp] theorem advance_nil (p : Position) : p.advance [] = p := rfl

@[simp] theorem advance_cons (p : Position) (c : Char) (cs : List Char) :
    p.advance (c :: cs) = (p.after c).advance cs := rfl

/-- To go on over two texts is to go over one and then over the other. -/
@[simp] theorem advance_append (p : Position) (cs ds : List Char) :
    p.advance (cs ++ ds) = (p.advance cs).advance ds :=
  List.foldl_append

/-- From `p` on, `n` characters and one more can stand without their numbers beginning anew. -/
structure Room (p : Position) (n : Nat) : Prop where
  line : p.line.toNat + n < UInt32.size
  column : p.column.toNat + tabStop.toNat * n + 1 < UInt32.size
  pos : 0 < p.column.toNat

section

variable {p : Position} {m n : Nat}

/-- A source begins with room for as many characters as a 32-bit number counts, with four columns
for each. -/
theorem room_origin (h : n < 1073741824) : origin.Room n := by
  constructor <;> simp only [origin, tabStop, UInt32.size, UInt32.toNat_one, UInt32.reduceToNat]
    <;> omega

/-- Room for many characters is room for few. -/
theorem Room.mono (h : p.Room n) (hle : m ≤ n) : p.Room m where
  line := by have := h.line; omega
  column := by
    have hcolumn := h.column
    have hwidth := Nat.mul_le_mul_left tabStop.toNat hle
    omega
  pos := h.pos

/-- Where there is room, a character leads to another line, or onwards on its own one by at most
the width of a tabulator. -/
theorem Room.after_cases (h : p.Room 1) (c : Char) :
    (c = '\n' ∧ (p.after c).line.toNat = p.line.toNat + 1 ∧ (p.after c).column = 1) ∨
      (c ≠ '\n' ∧ (p.after c).line = p.line ∧ p.column.toNat < (p.after c).column.toNat ∧
        (p.after c).column.toNat ≤ p.column.toNat + tabStop.toNat) := by
  have hline := h.line
  have hcolumn := h.column
  have hpos := h.pos
  simp only [tabStop, UInt32.size, UInt32.reduceToNat] at hline hcolumn ⊢
  by_cases hfeed : c = '\n'
  · refine .inl ⟨hfeed, ?_, ?_⟩ <;> rw [after, if_pos hfeed]
    simp only [UInt32.toNat_add, UInt32.toNat_one]
    omega
  · refine .inr ⟨hfeed, ?_⟩
    rw [after, if_neg hfeed]
    split
    · refine ⟨rfl, ?_⟩
      simp only [tabStop, UInt32.toNat_add, UInt32.toNat_mul, UInt32.toNat_div, UInt32.toNat_sub,
        UInt32.toNat_one, UInt32.reduceToNat]
      omega
    · refine ⟨rfl, ?_⟩
      simp only [UInt32.toNat_add, UInt32.toNat_one]
      omega

/-- A character takes the room of one. -/
theorem Room.after (h : p.Room (n + 1)) (c : Char) : (p.after c).Room n := by
  have hline := h.line
  have hcolumn := h.column
  have hpos := h.pos
  rw [Nat.mul_succ] at hcolumn
  obtain ⟨-, hl, hc⟩ | ⟨-, hl, hlt, hle⟩ := (h.mono (Nat.le_add_left 1 n)).after_cases c
  · exact ⟨by omega, by rw [hc, UInt32.toNat_one]; omega, by rw [hc]; decide⟩
  · exact ⟨by rw [hl]; omega, by omega, by omega⟩

/-- A text takes as much room as it has characters. -/
theorem Room.advance {cs : List Char} (h : p.Room (cs.length + n)) : (p.advance cs).Room n := by
  induction cs generalizing p with
  | nil => simpa using h
  | cons c cs ih =>
    rw [List.length_cons, Nat.add_right_comm] at h
    exact ih (h.after c)

/-- Room for two texts is room for the first. -/
theorem Room.left {cs ds : List Char} (h : p.Room (cs ++ ds).length) : p.Room cs.length :=
  h.mono (by rw [List.length_append]; exact Nat.le_add_right _ _)

/-- Room for two texts is room for the second behind the first. -/
theorem Room.right {cs ds : List Char} (h : p.Room (cs ++ ds).length) :
    (p.advance cs).Room ds.length := by
  rw [List.length_append] at h
  exact h.advance

/-- The end of a character that there is room for. -/
theorem Room.toNat_stop (h : p.Room n) :
    (Span.single p).stop.column.toNat = p.column.toNat + 1 := by
  have hcolumn := h.column
  simp only [Span.single, UInt32.size, UInt32.toNat_add, UInt32.toNat_one] at hcolumn ⊢
  omega

/-- While there is room, every character goes on. -/
theorem Room.lt_after (h : p.Room 1) (c : Char) : p < p.after c := by
  rw [lt_iff]
  obtain ⟨-, hl, -⟩ | ⟨-, hl, hlt, -⟩ := h.after_cases c
  · exact .inl (by omega)
  · exact .inr ⟨hl.symm, hlt⟩

/-- While there is room, no text goes back. -/
theorem Room.le_advance {cs : List Char} (h : p.Room cs.length) : p ≤ p.advance cs := by
  induction cs generalizing p with
  | nil => exact le_refl p
  | cons c cs ih => exact ((h.mono (Nat.le_add_left 1 _)).lt_after c).le.trans (ih (h.after c))

/-- While there is room, a text that is not empty goes on. -/
theorem Room.lt_advance {cs : List Char} (h : p.Room cs.length) (hne : cs ≠ []) :
    p < p.advance cs := by
  cases cs with
  | nil => exact absurd rfl hne
  | cons c cs =>
    exact lt_of_lt_of_le ((h.mono (Nat.le_add_left 1 _)).lt_after c) (h.after c).le_advance

end

/-- Without a line feed there is no other line. -/
theorem advance_line (p : Position) {cs : List Char} (h : '\n' ∉ cs) :
    (p.advance cs).line = p.line := by
  induction cs generalizing p with
  | nil => rfl
  | cons c cs ih =>
    rw [List.mem_cons, not_or] at h
    rw [advance_cons, ih _ h.2, after, if_neg (Ne.symm h.1)]
    split <;> rfl

/-- A character other than a tabulator or a line feed takes one column. -/
theorem after_eq_single_stop (p : Position) {c : Char} (h₁ : c ≠ '\n') (h₂ : c ≠ '\t') :
    p.after c = (Span.single p).stop := by
  rw [after, if_neg h₁, if_neg h₂, Span.single]

end Position

namespace Reading

/-! ## Readings of a text -/

@[simp] theorem ofChars_nil (p : Position) : ofChars p [] = ([], p) := rfl

/-- The first character is read in front of the others. -/
theorem ofChars_cons (p : Position) (c : Char) (cs : List Char) :
    (ofChars p (c :: cs)).1 = .char c (.single (p.after c)) :: (ofChars (p.after c) cs).1 := rfl

/-- What is read ends where the text does. -/
theorem ofChars_snd (p : Position) (cs : List Char) : (ofChars p cs).2 = p.advance cs := by
  induction cs generalizing p with
  | nil => rfl
  | cons c cs ih => exact ih _

/-- There is one reading for every character. -/
theorem length_ofChars (p : Position) (cs : List Char) : (ofChars p cs).1.length = cs.length := by
  induction cs generalizing p with
  | nil => rfl
  | cons c cs ih => exact congrArg (· + 1) (ih _)

/-- Two texts are read one after the other. -/
theorem ofChars_append (p : Position) (cs ds : List Char) :
    (ofChars p (cs ++ ds)).1 = (ofChars p cs).1 ++ (ofChars (p.advance cs) ds).1 := by
  induction cs generalizing p with
  | nil => rfl
  | cons c cs ih =>
    rw [List.cons_append, ofChars_cons, ofChars_cons, ih, List.cons_append, Position.advance_cons]

end Reading

/-! ## Lines of a source -/

/-- The characters delivered of lines, each ended by a line feed. -/
def Line.delivery (lines : List Line) : List Char :=
  lines.flatMap fun l => l.text.toList ++ ['\n']

/-- Whether all lines of a source can be read. -/
def Line.Readable (lines : List Line) : Prop := ∀ l ∈ lines, l.isSome

/-- A readable source is read as its text. -/
theorem Reading.ofLines_readable {lines : List Line} (h : Line.Readable lines) (p : Position) :
    ofLines p lines = (ofChars p (Line.delivery lines)).1 := by
  induction lines generalizing p with
  | nil => rfl
  | cons l ls ih =>
    obtain ⟨s, rfl⟩ := Option.isSome_iff_exists.mp (h l List.mem_cons_self)
    have hrest := ih fun l hl => h l (List.mem_cons_of_mem _ hl)
    change (ofChars p (s.toList ++ ['\n'])).1 ++ ofLines (ofChars p (s.toList ++ ['\n'])).2 ls = _
    rw [ofChars_snd, hrest, ← ofChars_append]
    rfl

/-- A readable source is delivered as one text. -/
theorem readings_eq_ofChars {bytes : List UInt8} (h : Line.Readable (Line.ofBytes bytes)) :
    readings bytes = (Reading.ofChars .origin (Line.delivery (Line.ofBytes bytes))).1 :=
  Reading.ofLines_readable h .origin

/-- Where nothing unreadable is delivered, all lines are readable. -/
theorem Reading.readable_of_ofLines {lines : List Line} {p : Position}
    (h : Reading.unreadable ∉ ofLines p lines) : Line.Readable lines := by
  induction lines generalizing p with
  | nil => exact fun l hl => absurd hl List.not_mem_nil
  | cons l ls ih =>
    cases l with
    | none => exact absurd List.mem_cons_self h
    | some s =>
      rw [ofLines, List.mem_append, not_or] at h
      intro l hl
      cases hl with
      | head => rfl
      | tail _ hl => exact ih h.2 l hl

/-! ## Stored text -/

namespace Text

/-- A byte below 128 is the whole of the character it stands for. -/
theorem utf8EncodeChar_of_mem {c : Char} {b : UInt8} (h : b ∈ String.utf8EncodeChar c)
    (hb : b.toNat < 128) : String.utf8EncodeChar c = [b] ∧ c.toNat = b.toNat := by
  simp only [String.utf8EncodeChar] at h ⊢
  split at h
  · next hc =>
    obtain rfl := List.mem_singleton.mp h
    rw [if_pos hc]
    refine ⟨rfl, ?_⟩
    rw [UInt8.toNat_ofNat']
    exact (Nat.mod_eq_of_lt (Nat.lt_of_le_of_lt hc (by decide))).symm
  · -- every byte of a longer code has its top bit set
    exfalso
    have hbyte : ∀ {n : Nat}, b = UInt8.ofNat n → b.toNat = n % 256 := fun hn => by
      rw [hn, UInt8.toNat_ofNat']
    split at h
    · simp only [List.mem_cons, List.not_mem_nil, or_false] at h
      rcases h with h | h <;> have := hbyte h <;> omega
    · split at h <;> simp only [List.mem_cons, List.not_mem_nil, or_false] at h
      · rcases h with h | h | h <;> have := hbyte h <;> omega
      · rcases h with h | h | h | h <;> have := hbyte h <;> omega

theorem encode_ofList (cs : List Char) :
    encode (String.ofList cs) = cs.flatMap String.utf8EncodeChar := by
  rw [encode, String.toUTF8, String.toByteArray_ofList, List.utf8Encode,
    List.toList_data_toByteArray]

/-- A text without its last character if that is a carriage return. -/
def withoutReturn (cs : List Char) : List Char :=
  if cs.getLast? = some '\r' then cs.dropLast else cs

/-- A text with uniform line endings: no carriage return stands before a line feed, and the last
line is ended too. -/
def normalLines : List Char → List Char
  | [] => []
  | '\r' :: '\n' :: cs => '\n' :: normalLines cs
  | '\n' :: cs => '\n' :: normalLines cs
  | [c] => [c, '\n']
  | c :: cs => c :: normalLines cs

/-- A character in front of a text, unless the two make one line ending. -/
theorem normalLines_cons {c : Char} {text : List Char}
    (hreturn : c = '\r' → text.head? ≠ some '\n') (htext : text ≠ []) :
    normalLines (c :: text) = c :: normalLines text := by
  obtain ⟨d, ds, rfl⟩ := List.exists_cons_of_ne_nil htext
  by_cases hline : c = '\n'
  · rw [hline]
    rfl
  · by_cases hc : c = '\r'
    · have hd : d ≠ '\n' := fun e => hreturn hc (congrArg some e)
      simp [normalLines, hd]
    · simp [normalLines, hc]

/-- The first line and those behind it. -/
theorem normalLines_append {line : List Char} (h : '\n' ∉ line) (rest : List Char) :
    normalLines (line ++ '\n' :: rest) = withoutReturn line ++ '\n' :: normalLines rest := by
  induction line with
  | nil => rfl
  | cons c cs ih =>
    rw [List.mem_cons, not_or] at h
    have htail := ih h.2
    cases cs with
    | nil =>
      by_cases hc : c = '\r'
      · rw [hc]
        rfl
      · simp [normalLines, withoutReturn, hc, Ne.symm h.1]
    | cons d ds =>
      have hd : d ≠ '\n' := fun e => h.2 (e ▸ List.mem_cons_self)
      have hdrop : withoutReturn (c :: d :: ds) = c :: withoutReturn (d :: ds) := by
        simp only [withoutReturn, List.getLast?_cons_cons, List.dropLast_cons_cons]
        split <;> rfl
      have hcons : normalLines (c :: (d :: ds ++ '\n' :: rest))
          = c :: normalLines (d :: ds ++ '\n' :: rest) :=
        normalLines_cons (fun _ => by simpa using hd) (List.cons_ne_nil _ _)
      rw [hdrop, List.cons_append, hcons, htail]
      rfl

/-- A last line that is not ended. -/
theorem normalLines_of_not_mem {line : List Char} (h : '\n' ∉ line) (hne : line ≠ []) :
    normalLines line = line ++ ['\n'] := by
  induction line with
  | nil => exact absurd rfl hne
  | cons c cs ih =>
    rw [List.mem_cons, not_or] at h
    cases cs with
    | nil => simp [normalLines, Ne.symm h.1]
    | cons d ds =>
      have hd : d ≠ '\n' := fun e => h.2 (e ▸ List.mem_cons_self)
      have hcons : normalLines (c :: d :: ds) = c :: normalLines (d :: ds) :=
        normalLines_cons (fun _ => by simpa using hd) (List.cons_ne_nil _ _)
      rw [hcons, ih h.2 (List.cons_ne_nil _ _)]
      rfl

/-- Only line feeds are encoded as such. -/
theorem not_mem_encode {cs : List Char} (h : '\n' ∉ cs) :
    (0x0a : UInt8) ∉ encode (String.ofList cs) := by
  rw [encode_ofList]
  intro hmem
  obtain ⟨c, hc, hb⟩ := List.mem_flatMap.mp hmem
  have hval : c.toNat = '\n'.toNat := (utf8EncodeChar_of_mem hb (by decide)).2
  exact h (Char.toNat_inj.mp hval ▸ hc)

/-- A carriage return is dropped from the bytes exactly if it is dropped from the text. -/
theorem dropReturn_encode (cs : List Char) :
    Line.dropReturn (encode (String.ofList cs)) = encode (String.ofList (withoutReturn cs)) := by
  rcases List.eq_nil_or_concat cs with rfl | ⟨ds, c, rfl⟩
  · rfl
  · have hbytes : encode (String.ofList (ds ++ [c]))
        = encode (String.ofList ds) ++ String.utf8EncodeChar c := by
      rw [encode_ofList, encode_ofList, List.flatMap_append, List.flatMap_singleton]
    rw [List.concat_eq_append]
    by_cases hc : c = '\r'
    · have hcode : String.utf8EncodeChar '\r' = [0x0d] := by decide
      rw [hbytes, hc, hcode, Line.dropReturn, if_pos List.getLast?_concat, withoutReturn,
        if_pos List.getLast?_concat, List.dropLast_concat, List.dropLast_concat]
    · have hbyte : (encode (String.ofList (ds ++ [c]))).getLast? ≠ some 0x0d := fun hlast => by
        rw [hbytes, List.getLast?_append,
          List.getLast?_eq_some_getLast String.utf8EncodeChar_ne_nil,
          Option.some_or] at hlast
        have hcode := utf8EncodeChar_of_mem (Option.some.inj hlast ▸ List.getLast_mem _) (by decide)
        exact hc (Char.toNat_inj.mp hcode.2)
      have hchar : (ds ++ [c]).getLast? ≠ some '\r' := fun hlast => by
        rw [List.getLast?_concat] at hlast
        exact hc (Option.some.inj hlast)
      rw [Line.dropReturn, if_neg hbyte, withoutReturn, if_neg hchar]

end Text

namespace Line

open Text

/-- A line ends at its line feed, and loses a carriage return before it. -/
theorem ofBytes_append {piece rest : List UInt8} (h : 0x0a ∉ piece) :
    ofBytes (piece ++ 0x0a :: rest) = decode? (dropReturn piece) :: ofBytes rest := by
  have hsplit : (piece ++ 0x0a :: rest).splitOn 0x0a = piece :: rest.splitOn 0x0a :=
    List.splitOnP_append_cons_of_forall_mem
      (fun b hb => beq_eq_false_iff_ne.mpr (ne_of_mem_of_not_mem hb h)) _ rfl _
  obtain ⟨p, ps, hrest⟩ := List.exists_cons_of_ne_nil (List.splitOn_ne_nil 0x0a rest)
  simp only [ofBytes, hsplit, hrest, List.dropLast_cons_cons, List.map_cons,
    List.getLast?_cons_cons]
  cases (p :: ps).getLast? with
  | none => rfl
  | some last => cases last <;> rfl

/-- Without a line feed there is one line. -/
theorem ofBytes_of_not_mem {piece : List UInt8} (h : 0x0a ∉ piece) (hpiece : piece ≠ []) :
    ofBytes piece = [decode? piece] := by
  simp only [ofBytes, List.splitOn_eq_singleton h, List.dropLast_singleton, List.map_nil,
    List.getLast?_singleton]
  cases piece with
  | nil => exact absurd rfl hpiece
  | cons b bs => rfl

/-- What is delivered of a stored text: the text with its line endings made uniform. -/
theorem delivery_encode (cs : List Char) :
    Readable (ofBytes (encode (String.ofList cs)))
      ∧ delivery (ofBytes (encode (String.ofList cs))) = normalLines cs := by
  induction h : cs.length using Nat.strong_induction_on generalizing cs with
  | h n ih =>
    by_cases hmem : '\n' ∈ cs
    · -- the first line, and what stands behind its line feed
      obtain ⟨line, rest, rfl, hline⟩ := List.eq_append_cons_of_mem hmem
      have hlength : rest.length < n := by
        rw [← h, List.length_append, List.length_cons]
        omega
      obtain ⟨hreadable, hdelivery⟩ := ih _ hlength rest rfl
      have hbytes : encode (String.ofList (line ++ '\n' :: rest))
          = encode (String.ofList line) ++ 0x0a :: encode (String.ofList rest) := by
        rw [encode_ofList, encode_ofList, encode_ofList, List.flatMap_append, List.flatMap_cons]
        rfl
      rw [hbytes, ofBytes_append (not_mem_encode hline), dropReturn_encode, decode?_encode,
        normalLines_append hline, ← hdelivery]
      refine ⟨fun l hl => ?_, ?_⟩
      · rcases List.mem_cons.mp hl with rfl | hl
        · rfl
        · exact hreadable l hl
      · rw [delivery, List.flatMap_cons, text, Option.getD_some, String.toList_ofList,
          List.append_assoc]
        rfl
    · cases cs with
      | nil => exact ⟨fun l hl => absurd hl List.not_mem_nil, rfl⟩
      | cons c cs =>
        have hne : encode (String.ofList (c :: cs)) ≠ [] := by
          rw [encode_ofList, List.flatMap_cons]
          exact List.append_ne_nil_of_left_ne_nil String.utf8EncodeChar_ne_nil _
        rw [ofBytes_of_not_mem (not_mem_encode hmem) hne, decode?_encode,
          normalLines_of_not_mem hmem (List.cons_ne_nil _ _)]
        refine ⟨fun l hl => ?_, ?_⟩
        · rw [List.mem_singleton.mp hl]
          rfl
        · rw [delivery, List.flatMap_singleton, text, Option.getD_some, String.toList_ofList]

end Line

end OnePass
