import Mathlib.Data.Bool.AllAny
import Mathlib.Data.Nat.Digits.Defs
import OnePass.Token.Lexer

/-!
# Spellings

What a token may be written as, said without reference to how it is read. `Spells t w`: the
characters `w` are a lexeme of the token `t`. A numeral may have leading zeros, and a character in
a literal may stand for itself or be escaped, so most tokens have more than one spelling. Every
token that a source can hold has one (`Token.Writable.exists_spelling`), and all are `Inline`: no
line ends in one of them.
-/

namespace OnePass

/-- The texts that match `[A-Za-z_][A-Za-z0-9_]*`. -/
def IsWord (w : List Char) : Prop :=
  ∃ c rest, w = c :: rest ∧ (c.isAlpha ∨ c = '_') ∧ ∀ d ∈ rest, d.isAlphanum ∨ d = '_'

theorem isWord_cons {c : Char} {rest : List Char} (hc : c.isAlpha ∨ c = '_')
    (hrest : rest.all fun d => d.isAlphanum ∨ d = '_') : IsWord (c :: rest) :=
  ⟨c, rest, rfl, hc, List.all_iff_forall_prop.mp hrest⟩

/-- A word goes on with one more of its characters. -/
theorem IsWord.concat {w : List Char} {c : Char} (h : IsWord w) (hc : c.isAlphanum ∨ c = '_') :
    IsWord (w ++ [c]) := by
  obtain ⟨d, rest, rfl, hd, hrest⟩ := h
  exact ⟨d, rest ++ [c], rfl, hd,
    List.forall_mem_append.mpr ⟨hrest, List.forall_mem_singleton.mpr hc⟩⟩

/-- The words that name nothing. -/
def reservedWords : List String := "true" :: "false" :: Keyword.table.map Prod.fst

/-- The names that an identifier may have. -/
def IsName (name : String) : Prop := IsWord name.toList ∧ name ∉ reservedWords

/-- The number that decimal digits stand for. -/
def decimalValue (digits : List Char) : Nat := Nat.ofDigitChars 10 digits 0

/-- The characters that may stand behind a back slash, and what they stand for there. -/
def escapes : List (Char × Char) :=
  [('n', '\n'), ('t', '\t'), ('0', '\x00'), ('\\', '\\'), ('\'', '\''), ('"', '"')]

/-- How a character is written in a literal between two marks `quote`. -/
inductive Writes (quote : Char) : Char → List Char → Prop where
  | plain {c : Char} (hquote : c ≠ quote) (hslash : c ≠ '\\') (hline : c ≠ '\n') :
      Writes quote c [c]
  | escaped {e c : Char} (h : (e, c) ∈ escapes) : Writes quote c ['\\', e]

/-- How characters are written one after the other in a literal between two marks `quote`. -/
inductive WritesAll (quote : Char) : List Char → List Char → Prop where
  | nil : WritesAll quote [] []
  | cons {c : Char} {cs w v : List Char} (hc : Writes quote c w) (hcs : WritesAll quote cs v) :
      WritesAll quote (c :: cs) (w ++ v)

theorem WritesAll.concat {quote : Char} {cs v u : List Char} (h : WritesAll quote cs v)
    (hc : Writes quote c u) : WritesAll quote (cs ++ [c]) (v ++ u) := by
  induction h with
  | nil => simpa using WritesAll.cons hc .nil
  | cons hd _ ih =>
    rw [List.append_assoc]
    exact .cons hd ih

/-- The spelling of an operator or of a mark of punctuation, which is the only one it has. -/
def Token.symbol? : Token → Option String
  | .assign op => some op.spelling
  | .step op => some op.spelling
  | .relation op => some op.spelling
  | .bound op => some op.spelling
  | .plus => some "+"
  | .minus => some "-"
  | .times => some "*"
  | .divide => some "/"
  | .percent => some "%"
  | .question => some "?"
  | .colon => some ":"
  | .comma => some ","
  | .semicolon => some ";"
  | .openParen => some "("
  | .closeParen => some ")"
  | .openSquare => some "["
  | .closeSquare => some "]"
  | .openCurly => some "\x7b"
  | .closeCurly => some "\x7d"
  | .ident _ | .keyword _ | .int _ | .bool _ | .char _ | .str _ => none

/-- The characters `w` are a lexeme of the token `t`. -/
inductive Spells : Token → List Char → Prop where
  | ident {name : String} (h : IsName name) : Spells (.ident name) name.toList
  | keyword (k : Keyword) : Spells (.keyword k) k.spelling.toList
  | bool (b : Bool) : Spells (.bool b) (if b then "true" else "false").toList
  | int {digits : List Char} (hne : digits ≠ []) (hdigits : ∀ d ∈ digits, d.isDigit)
      (hrange : decimalValue digits ≤ 2147483647) :
      Spells (.int (Int32.ofNat (decimalValue digits))) digits
  | char {c : Char} {w : List Char} (h : Writes '\'' c w) :
      Spells (.char c) ('\'' :: w ++ ['\''])
  | str {s : String} {w : List Char} (h : WritesAll '"' s.toList w) :
      Spells (.str s) ('"' :: w ++ ['"'])
  | symbol {t : Token} {s : String} (h : t.symbol? = some s) : Spells t s.toList

/-- The tokens that a source can hold: names are not reserved, and numerals have no sign. -/
def Token.Writable : Token → Prop
  | .ident name => IsName name
  | .int n => 0 ≤ n.toInt
  | _ => True

/-! ## Every token has a spelling -/

/-- Every character can be written between quotes. -/
theorem exists_writes (quote c : Char) (hquote : quote = '\'' ∨ quote = '"') :
    ∃ w, Writes quote c w := by
  by_cases h : (c, c) ∈ escapes ∨ c = '\n'
  · rcases h with h | rfl
    · exact ⟨_, .escaped h⟩
    · exact ⟨_, .escaped (e := 'n') (by decide)⟩
  · rw [not_or] at h
    refine ⟨_, .plain (fun e => h.1 ?_) (fun e => h.1 ?_) h.2⟩
    · rcases hquote with rfl | rfl <;> rw [e] <;> decide
    · rw [e]
      decide

theorem exists_writesAll (quote : Char) (hquote : quote = '\'' ∨ quote = '"') (cs : List Char) :
    ∃ w, WritesAll quote cs w := by
  induction cs with
  | nil => exact ⟨_, .nil⟩
  | cons c cs ih =>
    obtain ⟨w, hw⟩ := exists_writes quote c hquote
    obtain ⟨v, hv⟩ := ih
    exact ⟨_, .cons hw hv⟩

/-- A word without a sign is the value of its decimal digits. -/
theorem spells_toDigits {n : Int32} (h : 0 ≤ n.toInt) :
    Spells (.int n) (Nat.toDigits 10 n.toInt.toNat) := by
  have hvalue : decimalValue (Nat.toDigits 10 n.toInt.toNat) = n.toInt.toNat :=
    Nat.ofDigitChars_toDigits (by decide) (by decide)
  have hlt := n.toInt_lt
  have hspells := Spells.int (Nat.toDigits_ne_nil (n := n.toInt.toNat) (b := 10))
    (fun d hd => Nat.isDigit_of_mem_toDigits (by decide) (by decide) hd) (by omega)
  have hn : Int32.ofNat n.toInt.toNat = n := by
    rw [← Int32.toInt_inj, Int32.toInt_ofNat_of_lt] <;> omega
  rwa [hvalue, hn] at hspells

/-- Every token that a source can hold has a spelling. -/
theorem Token.Writable.exists_spelling {t : Token} (h : t.Writable) : ∃ w, Spells t w := by
  cases t with
  | ident name => exact ⟨_, .ident h⟩
  | keyword k => exact ⟨_, .keyword k⟩
  | int n => exact ⟨_, spells_toDigits h⟩
  | bool b => exact ⟨_, .bool b⟩
  | char c =>
    obtain ⟨w, hw⟩ := exists_writes '\'' c (.inl rfl)
    exact ⟨_, .char hw⟩
  | str s =>
    obtain ⟨w, hw⟩ := exists_writesAll '"' (.inr rfl) s.toList
    exact ⟨_, .str hw⟩
  | _ => exact ⟨_, .symbol rfl⟩

/-! ## No spelling is empty, crosses a line or could be taken for a part of a line ending -/

/-- A text on one line, not empty, that is whole whatever follows it. -/
structure Inline (w : List Char) : Prop where
  ne_nil : w ≠ []
  newline_not_mem : '\n' ∉ w
  getLast?_ne : w.getLast? ≠ some '\r'

/-- Characters of a class that holds no character of a line ending. -/
theorem inline_of_forall {w : List Char} {q : Char → Prop} (hne : w ≠ []) (h : ∀ c ∈ w, q c)
    (hline : ¬ q '\n') (hreturn : ¬ q '\r') : Inline w where
  ne_nil := hne
  newline_not_mem hmem := hline (h _ hmem)
  getLast?_ne hlast := hreturn (h _ (List.mem_of_getLast? hlast))

theorem IsWord.inline {w : List Char} (h : IsWord w) : Inline w := by
  obtain ⟨c, rest, rfl, hc, hrest⟩ := h
  refine inline_of_forall (q := fun c => c.isAlphanum ∨ c = '_') (List.cons_ne_nil _ _) ?_
    (by decide) (by decide)
  intro d hd
  rcases List.mem_cons.mp hd with rfl | hd
  · rw [Char.isAlphanum, Bool.or_eq_true]
    exact hc.imp_left .inl
  · exact hrest d hd

/-- What stands between quotes. -/
theorem inline_quoted {quote : Char} {w : List Char} (hw : '\n' ∉ w) (hline : quote ≠ '\n')
    (hreturn : quote ≠ '\r') : Inline (quote :: w ++ [quote]) where
  ne_nil := List.cons_ne_nil _ _
  newline_not_mem := by simp [hw, hline.symm]
  getLast?_ne := by
    rw [List.getLast?_concat]
    simpa using hreturn

theorem Writes.newline_not_mem {quote c : Char} {w : List Char} (h : Writes quote c w) :
    '\n' ∉ w := by
  cases h with
  | plain _ _ hline =>
    rw [List.mem_singleton]
    exact Ne.symm hline
  | @escaped e _ h =>
    intro hmem
    have hcodes : ∀ x ∈ escapes, x.1 ≠ '\n' := by decide
    rcases List.mem_cons.mp hmem with hmem | hmem
    · exact absurd hmem (by decide)
    · exact hcodes _ h (List.mem_singleton.mp hmem).symm

theorem WritesAll.newline_not_mem {quote : Char} {cs w : List Char} (h : WritesAll quote cs w) :
    '\n' ∉ w := by
  induction h with
  | nil => exact List.not_mem_nil
  | cons hc _ ih =>
    rw [List.mem_append, not_or]
    exact ⟨hc.newline_not_mem, ih⟩

theorem Token.inline_symbol {t : Token} {s : String} (h : t.symbol? = some s) :
    Inline s.toList := by
  cases t with
  | assign op => cases op <;> (obtain rfl := Option.some.inj h; constructor <;> decide)
  | step op => cases op <;> (obtain rfl := Option.some.inj h; constructor <;> decide)
  | relation op => cases op <;> (obtain rfl := Option.some.inj h; constructor <;> decide)
  | bound op => cases op <;> (obtain rfl := Option.some.inj h; constructor <;> decide)
  | ident | keyword | int | bool | char | str => exact absurd h (by simp [Token.symbol?])
  | _ => obtain rfl := Option.some.inj h; constructor <;> decide

theorem Keyword.spelling_isWord (k : Keyword) : IsWord k.spelling.toList := by
  cases k <;> exact isWord_cons (by decide) (by decide)

/-- The shape of a lexeme. -/
theorem Spells.inline {t : Token} {w : List Char} (h : Spells t w) : Inline w := by
  cases h with
  | ident h => exact h.1.inline
  | keyword k => exact k.spelling_isWord.inline
  | bool b => cases b <;> constructor <;> decide
  | int hne hdigits _ =>
    exact inline_of_forall (q := fun d => d.isDigit) hne hdigits (by decide) (by decide)
  | char h => exact inline_quoted h.newline_not_mem (by decide) (by decide)
  | str h => exact inline_quoted h.newline_not_mem (by decide) (by decide)
  | symbol h => exact Token.inline_symbol h

end OnePass
