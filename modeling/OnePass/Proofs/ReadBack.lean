import OnePass.Proofs.CallIsolation
import OnePass.Proofs.FormatGrammar
import OnePass.Proofs.InputRuns
import OnePass.Proofs.QuotedText
import OnePass.Proofs.ValidWords
import OnePass.Proofs.WrittenTokens

/-!
# What is printed is read back

A word is shown as a value of its type, and a line of input is understood as one. Main statement:
the text that a value is shown as, with a line ending behind it, is read as that value again, and
nothing of the input behind that line is used up (`Calls.advance_reads_rendered`). The two
characters that are left out there are those that line endings are made of, and they are lost
(`Calls.advance_reads_lineBreak`).

White space is dropped around integers and truth values only, and their texts have none; line breaks
are dropped at the end of every line, and no text has one but those of the two characters.
-/

namespace OnePass

namespace Text

/-! ## Trimmed texts -/

theorem dropWhile_eq_self {p : Char → Bool} {cs : List Char} (h : ∀ c ∈ cs, p c = false) :
    cs.dropWhile p = cs := by
  cases cs with
  | nil => rfl
  | cons c cs => rw [List.dropWhile_cons_of_neg (by simp [h c List.mem_cons_self])]

/-- What is dropped at the end is what stands behind a text that has nothing of the kind. -/
theorem trimEnd_append {p : Char → Bool} {cs ending : List Char} (h : ∀ c ∈ cs, p c = false)
    (hending : ∀ c ∈ ending, p c) : trimEnd p (cs ++ ending) = cs := by
  have hback : ending.reverse.dropWhile p = [] :=
    List.dropWhile_eq_nil_iff.mpr fun c hc => hending c (List.mem_reverse.mp hc)
  rw [trimEnd, List.reverse_append, List.dropWhile_append, hback, List.isEmpty_nil, if_pos rfl,
    dropWhile_eq_self fun c hc => h c (List.mem_reverse.mp hc), List.reverse_reverse]

/-- A text without white space loses nothing when it is trimmed. -/
theorem trim_eq_self {cs : List Char} (h : ∀ c ∈ cs, isBlank c = false) : trim cs = cs := by
  have hback := trimEnd_append h (List.forall_mem_nil _)
  rw [List.append_nil] at hback
  rw [trim, dropWhile_eq_self h, hback]

/-! ## Numerals -/

theorem isBlank_of_isDigit {c : Char} (h : c.isDigit) : isBlank c = false := by
  rw [Bool.eq_false_iff]
  intro hblank
  have hdigit := Lexer.digit?_of_isBlank hblank
  rw [Lexer.digit?_eq_some.mpr ⟨h, rfl⟩] at hdigit
  cases hdigit

theorem natural?_repr (n : Nat) : natural? n.repr.toList = some n := by
  have hne : n.repr.toList ≠ [] := by
    rw [Nat.toList_repr]
    exact Nat.toDigits_ne_nil
  rw [Format.natural?_eq hne fun _ => isDigit_of_mem_repr, decimalValue, Nat.toList_repr,
    Nat.ofDigitChars_ten_toDigits]

/-- A sign is no digit. -/
theorem integer?_of_isDigit {cs : List Char} (h : ∀ c ∈ cs, c.isDigit) :
    integer? cs = (natural? cs).map fun n => (n : Int) := by
  unfold integer?
  split
  · exact absurd (h '-' List.mem_cons_self) (by decide)
  · exact absurd (h '+' List.mem_cons_self) (by decide)
  · rfl

/-- The numeral of an integer stands for it. -/
theorem integer?_repr (i : Int) : integer? i.repr.toList = some i := by
  cases i with
  | ofNat n =>
    rw [Int.repr, integer?_of_isDigit fun _ => isDigit_of_mem_repr, natural?_repr]
    rfl
  | negSucc n =>
    have hsign : (Int.negSucc n).repr.toList = '-' :: (n + 1).repr.toList := by
      rw [Int.repr, String.toList_append]
      rfl
    rw [hsign, integer?, natural?_repr]
    rfl

/-- The numeral of a word is read as that word. -/
theorem word?_renderWord (w : Int32) : word? (renderWord w).toList = some w := by
  have hinteger : integer? (renderWord w).toList = some w.toInt := integer?_repr w.toInt
  have hrange : -2147483648 ≤ w.toInt ∧ w.toInt ≤ 2147483647 := ⟨w.le_toInt, w.toInt_le⟩
  rw [word?, hinteger]
  dsimp only
  rw [if_pos hrange, Int32.ofInt_toInt]

/-! ## Line endings -/

/-- What ends a line. -/
def LineEnding (ending : String) : Prop := ending = "\n" ∨ ending = "\r\n"

/-- The characters that are dropped at the end of a line that is read. -/
def isLineBreak (c : Char) : Bool := c = '\r' || c = '\n'

theorem isLineBreak_iff {c : Char} : isLineBreak c ↔ c = '\r' ∨ c = '\n' := by
  rw [isLineBreak, Bool.or_eq_true, decide_eq_true_iff, decide_eq_true_iff]

theorem encode_append (s t : String) : encode (s ++ t) = encode s ++ encode t := by
  have hencode (u : String) : encode u = u.toList.flatMap String.utf8EncodeChar := by
    rw [← encode_ofList, String.ofList_toList]
  rw [hencode, hencode s, hencode t, String.toList_append, List.flatMap_append]

end Text

namespace Exec

open Text

/-- The first line ends with the first line feed. -/
theorem splitLine_append {line : List UInt8} (h : 0x0a ∉ line) (rest : List UInt8) :
    splitLine (line ++ 0x0a :: rest) = (line ++ [0x0a], rest) := by
  have hline : ∀ b ∈ line, (b != 0x0a) = true := fun b hb =>
    bne_iff_ne.mpr (ne_of_mem_of_not_mem hb h)
  unfold splitLine
  rw [List.span_eq_takeWhile_dropWhile, List.takeWhile_append_of_pos hline,
    List.dropWhile_append_of_pos hline, List.takeWhile_cons_of_neg (by decide),
    List.dropWhile_cons_of_neg (by decide), List.append_nil]
  rfl

theorem lineRead_of_line {st : Store} {line rest : List UInt8} {text : String}
    (hline : 0x0a ∉ line) (htext : lineText? (line ++ [0x0a]) = some text)
    (hinput : st.input = line ++ 0x0a :: rest) :
    lineRead st = (.ok text, { st with input := rest }) := by
  have hne : st.input ≠ [] := by
    rw [hinput]
    exact List.append_ne_nil_of_right_ne_nil _ (List.cons_ne_nil _ _)
  rw [lineRead_of_ne hne, hinput, splitLine_append hline]
  dsimp only
  rw [htext]

/-- A text without line breaks and a line ending behind it are read as that text. -/
theorem lineRead_append {st : Store} {text ending : String} {rest : List UInt8}
    (htext : ∀ c ∈ text.toList, isLineBreak c = false) (hending : LineEnding ending)
    (hinput : st.input = encode (text ++ ending) ++ rest) :
    lineRead st = (.ok text, { st with input := rest }) := by
  have hbreaks : ∀ c ∈ ending.toList, isLineBreak c :=
    List.all_eq_true.mp (by rcases hending with rfl | rfl <;> decide)
  have hfeed : '\n' ∉ text.toList := fun hmem => absurd (htext _ hmem) (by decide)
  -- the line feed is the last byte of the line, and no byte in front of it is one
  obtain ⟨line, hline, hbytes⟩ : ∃ line, 0x0a ∉ line ∧ encode (text ++ ending) = line ++
    [0x0a] := by
    rcases hending with rfl | rfl
    · refine ⟨encode text, ?_, encode_append text "\n"⟩
      rw [← String.ofList_toList (s := text)]
      exact not_mem_encode hfeed
    · refine ⟨encode (String.ofList (text.toList ++ ['\r'])), not_mem_encode ?_, ?_⟩
      · rw [List.mem_append, not_or]
        exact ⟨hfeed, by decide⟩
      · rw [String.ofList_append, String.ofList_toList, encode_append, encode_append]
        exact (List.append_assoc _ [0x0d] [0x0a]).symm
  have hread : lineText? (line ++ [0x0a]) = some text := by
    rw [← hbytes, lineText?, decode?_encode, Option.map_some, String.toList_append]
    rw [show (fun c : Char => decide (c = '\r') || decide (c = '\n')) = isLineBreak from rfl]
    rw [trimEnd_append htext hbreaks, String.ofList_toList]
  refine lineRead_of_line hline hread ?_
  rw [hinput, hbytes, List.append_assoc]
  rfl

end Exec

/-! ## Words as text -/

namespace WordType

open Text

/-- A word is a value of its type, and is shown without line breaks. -/
structure Printable (t : WordType) (w : Int32) : Prop where
  valid : t.Valid w
  line : t = .char → w ≠ Word.ofChar '\r' ∧ w ≠ Word.ofChar '\n'

/-- What a value is shown as is understood as that value. -/
theorem parse?_render (caseless : Caseless) {t : WordType} {w : Int32} (h : t.Valid w) :
    t.parse? caseless (t.render w).toList = some w := by
  cases t with
  | int =>
    have hblank : ∀ c ∈ (renderWord w).toList, isBlank c = false := fun c hc => by
      rcases isDigit_of_mem_renderWord hc with rfl | hdigit
      · decide
      · exact isBlank_of_isDigit hdigit
    rw [parse?, render, trim_eq_self hblank, word?_renderWord]
  | bool =>
    -- the names of truth values are ASCII, for which it is said which texts are the same
    have hsame (s t : List Char) (h : (s ++ t).all (·.toNat < 128)) :
        caseless.same s t = decide (s.map Char.toLower = t.map Char.toLower) := by
      obtain ⟨hs, ht⟩ : (∀ c ∈ s, c.toNat < 128) ∧ ∀ c ∈ t, c.toNat < 128 := by simpa using h
      rw [Bool.eq_iff_iff, caseless.ascii s t hs ht, decide_eq_true_iff]
    rcases h with rfl | rfl
    · rw [parse?, hsame _ _ (by decide), hsame _ _ (by decide)]
      decide
    · rw [parse?, hsame _ _ (by decide)]
      exact if_pos (by decide)
  | char =>
    obtain ⟨c, rfl, hrender⟩ := render_char h
    rw [hrender, String.toList_singleton]
    rfl

theorem isLineBreak_of_mem_render {t : WordType} {w : Int32} (h : t.Printable w) {c : Char}
    (hc : c ∈ (t.render w).toList) : isLineBreak c = false := by
  cases t with
  | int =>
    rcases isDigit_of_mem_renderWord hc with rfl | hdigit
    · decide
    · rw [Bool.eq_false_iff]
      intro hbreak
      rcases isLineBreak_iff.mp hbreak with rfl | rfl
      · exact absurd hdigit (by decide)
      · exact absurd hdigit (by decide)
  | bool =>
    have hnone : (bool.render w).toList.all (!isLineBreak ·) := by
      rcases h.valid with rfl | rfl <;> decide
    simpa using List.all_eq_true.mp hnone c hc
  | char =>
    obtain ⟨d, rfl, hrender⟩ := render_char h.valid
    obtain ⟨hreturn, hfeed⟩ := h.line rfl
    rw [hrender, String.toList_singleton, List.mem_singleton] at hc
    subst hc
    rw [Bool.eq_false_iff]
    intro hbreak
    rcases isLineBreak_iff.mp hbreak with rfl | rfl
    · exact hreturn rfl
    · exact hfeed rfl

end WordType

/-! ## Reading a line as a value -/

namespace Calls

open Text

variable {image : Image} {below : Nat} {c : Calls} {t : WordType} {text : String} {st : Store}

/-- The instructions that read a line and understand it as a value of a type come next. -/
structure Reads (c : Calls) (t : WordType) : Prop where
  line : c.top.next? = some .readLine
  value : c.top.code.instructions[c.top.position + 1]? = some (.parse t)

/-- Calls behind those two instructions, with a word on the stack. -/
def behindReading (c : Calls) (w : Int32) (st : Store) : Calls :=
  ⟨{ c.top with position := c.top.position + 2, stack := .word w :: c.top.stack }, c.callers, st⟩

theorem step_readLine (h : c.top.next? = some .readLine)
    (hline : Exec.lineRead c.store = (.ok text, st)) : c.step image below =
      .active ⟨{ c.top with position := c.top.position + 1, stack := .str text :: c.top.stack },
        c.callers, st⟩ := by
  let d : Context := ⟨{ c.top with position := c.top.position + 1 }, c.store⟩
  have houtcome : Exec.outcome image .readLine (d.withStack c.top.stack) = _ :=
    Exec.outcome_readLine
  rw [show d.store = c.store from rfl, hline] at houtcome
  rw [step_of_next h, show Exec.outcome image .readLine d = _ from houtcome]
  rfl

theorem step_parse {s : List Value} (h : c.top.next? = some (.parse t))
    (hstack : c.top.stack = .str text :: s) : c.step image below =
      match t.parse? c.store.caseless text.toList with
      | some w =>
        .active ⟨{ c.top with position := c.top.position + 1, stack := .word w :: s }, c.callers,
          c.store⟩
      | none => .done (.error (.badInput text t)) c.store := by
  let d : Context := ⟨{ c.top with position := c.top.position + 1 }, c.store⟩
  have hd : d.withStack (.str text :: s) = d := hstack ▸ rfl
  have houtcome : Exec.outcome image (.parse t) (d.withStack (.str text :: s)) = _ :=
    Exec.outcome_parse
  rw [hd] at houtcome
  rw [step_of_next h, houtcome, show d.store = c.store from rfl]
  cases t.parse? c.store.caseless text.toList <;> rfl

theorem advance_reads (h : c.Reads t) (hline : Exec.lineRead c.store = (.ok text, st)) :
    advance image below 2 (.active c) =
      match t.parse? st.caseless text.toList with
      | some w => .active (c.behindReading w st)
      | none => .done (.error (.badInput text t)) st := by
  rw [advance_succ, step_readLine h.line hline]
  exact step_parse (c := ⟨{ c.top with
    position := c.top.position + 1, stack := .str text :: c.top.stack }, c.callers, st⟩) h.value rfl

/-- **What is printed is read back.** The text that a value is shown as, with a line ending behind
it, is read as that value, whatever comes behind it in the input; that is not read. -/
theorem advance_reads_rendered {w : Int32} (h : c.Reads t) (hw : t.Printable w) {ending : String}
    (hending : LineEnding ending) {rest : List UInt8}
    (hinput : c.store.input = encode (t.render w ++ ending) ++ rest) :
    advance image below 2 (.active c) =
      .active (c.behindReading w { c.store with input := rest }) := by
  have hline := Exec.lineRead_append (fun _ => WordType.isLineBreak_of_mem_render hw) hending hinput
  rw [advance_reads h hline, WordType.parse?_render _ hw.valid]

/-- The line separator, white space of three bytes, with a line ending of two characters. -/
theorem advance_reads_rendered_separator :
    let code : Code := ⟨#[.readLine, .parse .char], #[]⟩
    let input := Text.encode "\u2028\r\n 7\n"
    let st : Store := ⟨#[], #[], input, ⟨#[], none⟩, .ofSeed 0, .simple⟩
    let c : Calls := ⟨⟨"main", code, 0, #[], #[], [.word 5]⟩, [], st⟩
    WordType.char.render 0x2028 = "\u2028" ∧
    advance ⟨true, [], .empty, #[], 0⟩ 0 2 (.active c) =
      .active ⟨⟨"main", code, 2, #[], #[], [.word 0x2028, .word 5]⟩, [],
        { st with input := Text.encode " 7\n" }⟩ := by
  intro code input st c
  refine ⟨by decide, ?_⟩
  have hending : LineEnding "\r\n" := .inr rfl
  exact advance_reads_rendered (t := .char) (w := 0x2028) ⟨rfl, rfl⟩
    ⟨(by decide : (Word.toChar? 0x2028).isSome), by decide⟩ hending (by decide)

/-- A character that ends lines is lost: what is read of it is an empty line, and that is no
character. -/
theorem advance_reads_lineBreak {d : Char} (h : c.Reads .char) (hd : isLineBreak d)
    {ending : String} (hending : LineEnding ending) {rest : List UInt8}
    (hinput : c.store.input = encode (String.singleton d ++ ending) ++ rest) :
    ∃ st, advance image below 2 (.active c) = .done (.error (.badInput "" .char)) st := by
  -- the first line consists of line breaks only
  obtain ⟨line, rest', hline, htext, hsplit⟩ : ∃ line rest', 0x0a ∉ line ∧
      Exec.lineText? (line ++ [0x0a]) = some "" ∧ c.store.input = line ++ 0x0a :: rest' := by
    rcases isLineBreak_iff.mp hd with rfl | rfl
    · rcases hending with rfl | rfl
      · exact ⟨[0x0d], rest, by decide, by decide, hinput⟩
      · exact ⟨[0x0d, 0x0d], rest, by decide, by decide, hinput⟩
    · refine ⟨[], encode ending ++ rest, by decide, by decide, ?_⟩
      rw [hinput, encode_append, List.append_assoc]
      rfl
  exact ⟨_, advance_reads h (Exec.lineRead_of_line hline htext hsplit)⟩

end Calls

end OnePass
