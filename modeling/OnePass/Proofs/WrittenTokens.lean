import OnePass.Proofs.Lexing

/-!
# Written tokens are read back

Main statement: tokens that a source can hold can be written, and whichever of their spellings is
written, with white space between them, they are read back, and nothing else (`tokenize_written`).

One lexeme in front of white space, or of the end of the text, is read as its token and as nothing
more (`Spells.lex_eq`): no character of white space continues anything. The rest is an induction on
the tokens.
-/

namespace OnePass

/-- A text that does not continue a lexeme in front of it: it is empty or begins with white
space. -/
def Apart (text : List Char) : Prop := ∀ c ∈ text.head?, Text.isBlank c

/-- The text holds one lexeme of each token, in order, with white space between them, and possibly
in front of them and behind them. -/
inductive Written : List Token → List Char → Prop where
  | nil : Written [] []
  | blank {ts : List Token} {c : Char} {text : List Char} (hc : Text.isBlank c)
      (h : Written ts text) : Written ts (c :: text)
  | token {t : Token} {ts : List Token} {w text : List Char} (ht : Spells t w)
      (hapart : Apart text) (h : Written ts text) : Written (t :: ts) (w ++ text)

/-! ## White space -/

/-- White space lies outside the visible characters of ASCII. -/
theorem Text.toNat_of_isBlank {c : Char} (h : isBlank c) : c.toNat ≤ 0x20 ∨ 0x85 ≤ c.toNat := by
  simp only [isBlank, blankRanges, List.any_cons, List.any_nil, Bool.or_false, Bool.or_eq_true,
    Bool.and_eq_true, decide_eq_true_eq] at h
  omega

namespace Lexer

variable {p start : Position} {c : Char} {rest : List Char}

theorem isWordChar_of_isBlank (h : Text.isBlank c) : isWordChar c = false := by
  have hc := Text.toNat_of_isBlank h
  rw [← Bool.not_eq_true, isWordChar_iff, Char.isAlphanum, Bool.or_eq_true, isAlpha_iff,
    isDigit_iff]
  rintro (halnum | rfl)
  · omega
  · revert hc
    decide

theorem isWordStart_of_isBlank (h : Text.isBlank c) : isWordStart c = false := by
  have hchar := isWordChar_of_isBlank h
  rw [← Bool.not_eq_true, isWordChar_iff, Char.isAlphanum, Bool.or_eq_true] at hchar
  rw [← Bool.not_eq_true, isWordStart_iff]
  exact fun hstart => hchar (hstart.imp_left .inl)

theorem digit?_of_isBlank (h : Text.isBlank c) : Text.digit? c = none := by
  rw [Option.eq_none_iff_forall_ne_some]
  intro d hd
  have hdigit := isDigit_iff.mp (digit?_eq_some.mp hd).1
  have hc := Text.toNat_of_isBlank h
  omega

theorem digit?_of_isWordStart (h : isWordStart c) : Text.digit? c = none := by
  rw [Option.eq_none_iff_forall_ne_some]
  intro d hd
  have hdigit := isDigit_iff.mp (digit?_eq_some.mp hd).1
  rcases isWordStart_iff.mp h with halpha | rfl
  · have hletter := isAlpha_iff.mp halpha
    omega
  · exact absurd hdigit (by decide)

/-- The characters that stand for something by themselves, or begin something that does. -/
def marks : List Char :=
  [',', ';', '(', ')', '[', ']', '\x7b', '\x7d', '%', '?', '+', '-', '*', '=', '<', '>', '/', '!',
   ':', '\'', '"']

theorem extend?_of_not_mark (h : c ∉ marks) (t : Token) : extend? t c = none := by
  unfold extend?
  split <;> first | rfl | exact absurd h (by decide)

/-- What stands between tokens and is no mark begins a numeral or a word, or is passed over. -/
theorem begin_of_not_mark (h : c ∉ marks) (here : Span) :
    begin c here =
      match Text.digit? c with
      | some d => .into (.integer d here)
      | none =>
        if isWordStart c then .into (.word [c] here)
        else if Text.isBlank c then .into .fresh
        else .fault (.badChar c) := by
  have hsingle : single? c = none := by
    unfold single?
    split <;> first | rfl | exact absurd h (by decide)
  have hoperator : operator? c = none := by
    unfold operator?
    split <;> first | rfl | exact absurd h (by decide)
  have hne : ∀ d ∈ marks, c ≠ d := fun d hd => ne_of_mem_of_not_mem hd h |>.symm
  unfold begin
  rw [hsingle, hoperator]
  cases Text.digit? c with
  | some d => rfl
  | none =>
    simp only [hne '/' (by decide), hne '!' (by decide), hne ':' (by decide),
      hne '\'' (by decide), hne '"' (by decide), if_false]

theorem not_mark_of_isBlank (h : Text.isBlank c) : c ∉ marks := fun hmem => by
  have hmarks : ∀ d ∈ marks, Text.isBlank d = false := List.all_iff_forall_prop.mp (by decide)
  rw [hmarks c hmem] at h
  cases h

theorem begin_of_isBlank (h : Text.isBlank c) (here : Span) : begin c here = .into .fresh := by
  rw [begin_of_not_mark (not_mark_of_isBlank h), digit?_of_isBlank h]
  simp only [isWordStart_of_isBlank h, h, if_true, Bool.false_eq_true, if_false]

theorem begin_of_isWordStart (h : isWordStart c) (here : Span) :
    begin c here = .into (.word [c] here) := by
  have hmarks : ∀ d ∈ marks, isWordStart d = false := List.all_iff_forall_prop.mp (by decide)
  have hc : c ∉ marks := fun hmem => by
    rw [hmarks c hmem] at h
    cases h
  rw [begin_of_not_mark hc, digit?_of_isWordStart h]
  simp only [h, if_true]

theorem begin_of_digit {d : Nat} (h : Text.digit? c = some d) (here : Span) :
    begin c here = .into (.integer d here) := by
  have hmarks : ∀ d ∈ marks, Text.digit? d = none := List.all_iff_forall_prop.mp (by decide)
  have hc : c ∉ marks := fun hmem => by
    rw [hmarks c hmem] at h
    cases h
  rw [begin_of_not_mark hc, h]

/-! ## Runs over one lexeme -/

theorem lex_blank (h : Text.isBlank c) : lex .fresh p (c :: rest) = lex .fresh (p.after c) rest :=
  lex_into (begin_of_isBlank h _)

/-- A character that takes one column moves the end of what has been seen onwards. -/
theorem upTo_single {q : Position} (h₁ : c ≠ '\n') (h₂ : c ≠ '\t') :
    (⟨start, q⟩ : Span).upTo (.single p) = ⟨start, p.after c⟩ := by
  rw [Span.upTo, p.after_eq_single_stop h₁ h₂]

theorem single_eq (h₁ : c ≠ '\n') (h₂ : c ≠ '\t') : Span.single p = ⟨p, p.after c⟩ := by
  rw [p.after_eq_single_stop h₁ h₂]
  rfl

theorem lex_apart {s : State} {t : Token} {span : Span} (h : Apart rest)
    (hfinish : finish s (.single p) = [.ok ⟨t, span⟩])
    (hmove : ∀ c, Text.isBlank c → move s c (.single p) = .behind t span) :
    lex s p rest = .ok ⟨t, span⟩ :: lex .fresh p rest :=
  lex_behind hfinish fun c hc => hmove c (h c hc)

theorem lex_word {v : List Char} (hv : ∀ d ∈ v, isWordChar d) (hrest : Apart rest)
    (text : List Char) :
    lex (.word text ⟨start, p⟩) p (v ++ rest) =
      .ok ⟨wordToken (v.reverse ++ text), ⟨start, p.advance v⟩⟩
        :: lex .fresh (p.advance v) rest := by
  induction v generalizing p text with
  | nil =>
    refine lex_apart hrest rfl fun c hc => ?_
    rw [move, isWordChar_of_isBlank hc]
    rfl
  | cons d v ih =>
    have hd := hv d List.mem_cons_self
    have hne : ∀ e, isWordChar e = false → d ≠ e := by
      rintro e he rfl
      rw [hd] at he
      cases he
    rw [List.cons_append, lex_into (r := .word (d :: text) ⟨start, p.after d⟩),
      ih fun e he => hv e (List.mem_cons_of_mem _ he)]
    · rw [List.reverse_cons, List.append_assoc]
      rfl
    · rw [move, if_pos hd, upTo_single (hne '\n' (by decide)) (hne '\t' (by decide))]

/-- Reading on makes a number no smaller. -/
theorem le_ofDigitChars (digits : List Char) (n : Nat) : n ≤ Nat.ofDigitChars 10 digits n := by
  induction digits generalizing n with
  | nil => exact Nat.le_refl n
  | cons d digits ih =>
    rw [Nat.ofDigitChars_cons]
    have := ih (10 * n + (d.toNat - '0'.toNat))
    omega

theorem lex_integer {v : List Char} (hv : ∀ d ∈ v, d.isDigit) (hrest : Apart rest) {n : Nat}
    (hrange : Nat.ofDigitChars 10 v n ≤ 2147483647) :
    lex (.integer n ⟨start, p⟩) p (v ++ rest) =
      .ok ⟨.int (Int32.ofNat (Nat.ofDigitChars 10 v n)), ⟨start, p.advance v⟩⟩
        :: lex .fresh (p.advance v) rest := by
  induction v generalizing p n with
  | nil =>
    refine lex_apart hrest rfl fun c hc => ?_
    rw [move, digit?_of_isBlank hc]
    rfl
  | cons d v ih =>
    have hd := hv d List.mem_cons_self
    have hvalue : Text.digit? d = some (d.toNat - '0'.toNat) := digit?_eq_some.mpr ⟨hd, rfl⟩
    have hne : ∀ e : Char, e.isDigit = false → d ≠ e := by
      rintro e he rfl
      rw [hd] at he
      cases he
    rw [Nat.ofDigitChars_cons] at hrange ⊢
    have hle := (le_ofDigitChars v _).trans hrange
    rw [Nat.mul_comm] at hrange hle ⊢
    rw [List.cons_append, lex_into (r := .integer (n * 10 + (d.toNat - '0'.toNat))
        ⟨start, p.after d⟩), ih (fun e he => hv e (List.mem_cons_of_mem _ he)) hrange]
    · rfl
    · simp only [move, hvalue, hle, if_true]
      rw [upTo_single (hne '\n' (by decide)) (hne '\t' (by decide))]

theorem lex_charClose (v : Char) (q : Position) :
    lex (.charClose v ⟨start, q⟩) p ('\'' :: rest) =
      .ok ⟨.char v, ⟨start, p.after '\''⟩⟩ :: lex .fresh (p.after '\'') rest := by
  refine lex_complete ?_
  rw [move, if_pos rfl]
  exact congrArg _ (upTo_single (by decide) (by decide))

/-- From behind the opening quote of a character literal. -/
theorem lex_char {v : Char} {w : List Char} (h : Writes '\'' v w) (q : Position) :
    lex (.charOpen ⟨start, q⟩) p (w ++ '\'' :: rest) =
      .ok ⟨.char v, ⟨start, (p.advance w).after '\''⟩⟩
        :: lex .fresh ((p.advance w).after '\'') rest := by
  cases h with
  | plain hquote hslash hline =>
    have hplain : move (.charOpen ⟨start, q⟩) v (.single p)
        = .into (.charClose v ⟨start, (Span.single p).stop⟩) := by
      rw [move, if_neg hslash, if_neg hquote, if_neg hline]
      rfl
    rw [List.singleton_append, lex_into hplain]
    exact lex_charClose v _
  | @escaped e _ h =>
    have hescaped : move (.charEscape ⟨start, (Span.single p).stop⟩) e (.single (p.after '\\'))
        = .into (.charClose v ⟨start, (Span.single (p.after '\\')).stop⟩) := by
      rw [move, escape?_eq_some.mpr h]
      rfl
    rw [List.cons_append, List.singleton_append,
      lex_into (r := .charEscape ⟨start, (Span.single p).stop⟩) rfl, lex_into hescaped]
    exact lex_charClose v _

/-- From anywhere inside a string. -/
theorem lex_string {cs w : List Char} (h : WritesAll '"' cs w) (text : List Char) (q : Position) :
    lex (.string text ⟨start, q⟩) p (w ++ '"' :: rest) =
      .ok ⟨.str (String.ofList (text.reverse ++ cs)), ⟨start, (p.advance w).after '"'⟩⟩
        :: lex .fresh ((p.advance w).after '"') rest := by
  induction h generalizing p text q with
  | nil =>
    rw [List.nil_append, List.append_nil]
    refine lex_complete ?_
    rw [move, if_pos rfl]
    exact congrArg _ (upTo_single (by decide) (by decide))
  | @cons c cs w v hc _ ih =>
    have hwritten : ∀ q, lex (.string (c :: text) ⟨start, q⟩) (p.advance w) (v ++ '"' :: rest) =
        .ok ⟨.str (String.ofList (text.reverse ++ c :: cs)),
            ⟨start, (p.advance (w ++ v)).after '"'⟩⟩
          :: lex .fresh ((p.advance (w ++ v)).after '"') rest := fun q => by
      rw [ih, List.reverse_cons, List.append_assoc, List.singleton_append, Position.advance_append]
    rw [List.append_assoc]
    cases hc with
    | plain hquote hslash hline =>
      rw [List.singleton_append, lex_into (r := .string (c :: text) ⟨start, (Span.single p).stop⟩)]
      · exact hwritten _
      · rw [move, if_neg hquote, if_neg hslash, if_neg hline]
        rfl
    | @escaped e _ h =>
      rw [List.cons_append, List.singleton_append,
        lex_into (r := .stringEscape text ⟨start, (Span.single p).stop⟩),
        lex_into (r := .string (c :: text) ⟨start, (Span.single (p.after '\\')).stop⟩)]
      · exact hwritten _
      · rw [move, escape?_eq_some.mpr h]
        rfl
      · rfl

/-! ## Operators and punctuation -/

theorem lex_single {t : Token} (h : single? c = some t) :
    lex .fresh p (c :: rest) = .ok ⟨t, .single p⟩ :: lex .fresh (p.after c) rest := by
  refine lex_complete ?_
  rw [move, begin, h]

/-- An operator of one character that nothing extends. -/
theorem lex_operator {t : Token} (hsingle : single? c = none) (h : operator? c = some t)
    (hrest : Apart rest) :
    lex .fresh p (c :: rest) = .ok ⟨t, .single p⟩ :: lex .fresh (p.after c) rest := by
  rw [lex_into (r := .operator t (.single p))]
  · refine lex_apart hrest rfl fun d hd => ?_
    rw [move, extend?_of_not_mark (not_mark_of_isBlank hd)]
  · rw [move, begin, hsingle, h]

/-- An operator of two characters. -/
theorem lex_extended {d : Char} {t longer : Token} (hsingle : single? c = none)
    (h : operator? c = some t) (hextend : extend? t d = some longer) (hd : d ∈ marks) :
    lex .fresh p (c :: d :: rest) =
      .ok ⟨longer, ⟨p, (p.after c).after d⟩⟩ :: lex .fresh ((p.after c).after d) rest := by
  have hne : ∀ e, e ∉ marks → d ≠ e := fun e he => ne_of_mem_of_not_mem hd he
  rw [lex_into (r := .operator t (.single p))]
  · refine lex_complete ?_
    rw [move, hextend]
    exact congrArg _ (upTo_single (hne '\n' (by decide)) (hne '\t' (by decide)))
  · rw [move, begin, hsingle, h]

/-- A slash that begins no comment. -/
theorem lex_divide (hrest : Apart rest) :
    lex .fresh p ('/' :: rest) = .ok ⟨.divide, .single p⟩ :: lex .fresh (p.after '/') rest := by
  rw [lex_into (r := .slash (.single p)) rfl]
  refine lex_apart hrest rfl fun c hc => ?_
  have hne := fun d hd => (ne_of_mem_of_not_mem (a := d) hd (not_mark_of_isBlank hc)).symm
  rw [move, if_neg (hne '/' (by decide)), if_neg (hne '*' (by decide)),
    if_neg (hne '=' (by decide))]

/-- A colon that begins no choosing operator. -/
theorem lex_colon (hrest : Apart rest) :
    lex .fresh p (':' :: rest) = .ok ⟨.colon, .single p⟩ :: lex .fresh (p.after ':') rest := by
  rw [lex_into (r := .colon (.single p)) rfl]
  refine lex_apart hrest rfl fun c hc => ?_
  have hne := fun d hd => (ne_of_mem_of_not_mem (a := d) hd (not_mark_of_isBlank hc)).symm
  rw [move, if_neg (hne '>' (by decide)), if_neg (hne '<' (by decide))]

theorem lex_symbol {t : Token} {s : String} (h : t.symbol? = some s) (hrest : Apart rest) :
    lex .fresh p (s.toList ++ rest) =
      .ok ⟨t, ⟨p, p.advance s.toList⟩⟩ :: lex .fresh (p.advance s.toList) rest := by
  cases t with
  | ident | keyword | int | bool | char | str => exact absurd h (by simp [Token.symbol?])
  | plus => obtain rfl := Option.some.inj h; exact lex_operator rfl rfl hrest
  | minus => obtain rfl := Option.some.inj h; exact lex_operator rfl rfl hrest
  | times => obtain rfl := Option.some.inj h; exact lex_operator rfl rfl hrest
  | divide => obtain rfl := Option.some.inj h; exact lex_divide hrest
  | colon => obtain rfl := Option.some.inj h; exact lex_colon hrest
  | assign op =>
    cases op with
    | set => obtain rfl := Option.some.inj h; exact lex_operator rfl rfl hrest
    | div =>
      obtain rfl := Option.some.inj h
      exact (lex_into (r := .slash (.single p)) rfl).trans (lex_complete rfl)
    | _ => obtain rfl := Option.some.inj h; exact lex_extended rfl rfl rfl (by decide)
  | step op =>
    cases op <;> (obtain rfl := Option.some.inj h; exact lex_extended rfl rfl rfl (by decide))
  | relation op =>
    cases op with
    | lt => obtain rfl := Option.some.inj h; exact lex_operator rfl rfl hrest
    | gt => obtain rfl := Option.some.inj h; exact lex_operator rfl rfl hrest
    | ne =>
      obtain rfl := Option.some.inj h
      exact (lex_into (r := .bang (.single p)) rfl).trans (lex_complete rfl)
    | _ => obtain rfl := Option.some.inj h; exact lex_extended rfl rfl rfl (by decide)
  | bound op =>
    cases op <;>
      (obtain rfl := Option.some.inj h
       exact (lex_into (r := .colon (.single p)) rfl).trans ((lex_into rfl).trans
         (lex_complete rfl)))
  | _ => obtain rfl := Option.some.inj h; exact lex_single rfl

end Lexer

/-! ## Runs over written tokens -/

open Lexer

/-- A lexeme that nothing continues is read as its token, which covers exactly the lexeme. -/
theorem Spells.lex_eq {t : Token} {w rest : List Char} (h : Spells t w) (hrest : Apart rest)
    (p : Position) :
    lex .fresh p (w ++ rest) = .ok ⟨t, ⟨p, p.advance w⟩⟩ :: lex .fresh (p.advance w) rest := by
  -- Names, keywords and truth values are all read as words.
  have hword : ∀ {w}, IsWord w → lex .fresh p (w ++ rest) =
      .ok ⟨wordToken w.reverse, ⟨p, p.advance w⟩⟩ :: lex .fresh (p.advance w) rest := by
    rintro _ ⟨c, v, rfl, hc, hv⟩
    have hne : ∀ d, isWordStart d = false → c ≠ d := by
      rintro d hd rfl
      rw [isWordStart_iff.mpr hc] at hd
      cases hd
    have hbegin : move .fresh c (.single p) = .into (.word [c] (.single p)) :=
      begin_of_isWordStart (isWordStart_iff.mpr hc) _
    rw [List.cons_append, lex_into hbegin, single_eq (hne '\n' (by decide)) (hne '\t' (by decide)),
      lex_word (fun d hd => isWordChar_iff.mpr (hv d hd)) hrest, List.reverse_cons]
    rfl
  cases h with
  | ident h =>
    rw [hword h.1, wordToken_name h]
  | keyword k =>
    rw [hword k.spelling_isWord, wordToken_keyword]
  | bool b => cases b <;> exact hword (isWord_cons (by decide) (by decide))
  -- A number begins with a digit and collects the value of the others.
  | int hne hdigits hrange =>
    obtain ⟨c, v, rfl⟩ := List.exists_cons_of_ne_nil hne
    have hc := hdigits c List.mem_cons_self
    have hbegin : move .fresh c (.single p) = .into (.integer (c.toNat - '0'.toNat) (.single p)) :=
      begin_of_digit (digit?_eq_some.mpr ⟨hc, rfl⟩) _
    have hvalue : decimalValue (c :: v) = Nat.ofDigitChars 10 v (c.toNat - '0'.toNat) := by
      rw [decimalValue, Nat.ofDigitChars_cons, Nat.mul_zero, Nat.zero_add]
    have hne : ∀ d : Char, d.isDigit = false → c ≠ d := by
      rintro d hd rfl
      rw [hc] at hd
      cases hd
    rw [hvalue] at hrange ⊢
    rw [List.cons_append, lex_into hbegin, single_eq (hne '\n' (by decide)) (hne '\t' (by decide)),
      lex_integer (fun d hd => hdigits d (List.mem_cons_of_mem _ hd)) hrest hrange]
    rfl
  | @char c w h =>
    rw [List.cons_append, List.cons_append, List.append_assoc, lex_into rfl]
    exact (lex_char h _).trans (by rw [Position.advance_cons, Position.advance_append]; rfl)
  | @str s w h =>
    rw [List.cons_append, List.cons_append, List.append_assoc, lex_into rfl]
    refine (lex_string h [] _).trans ?_
    rw [List.reverse_nil, List.nil_append, String.ofList_toList, Position.advance_cons,
      Position.advance_append]
    rfl
  | symbol h => exact lex_symbol h hrest

/-- The tokens of a text that holds one lexeme of each. -/
theorem Written.lex_eq {ts : List Token} {text : List Char} (h : Written ts text) (p : Position) :
    ∃ located : List (Located Token),
      lex .fresh p text = located.map .ok ∧ located.map Located.value = ts := by
  induction h generalizing p with
  | nil => exact ⟨[], rfl, rfl⟩
  | @blank ts c text hc _ ih =>
    obtain ⟨located, hlex, hvalues⟩ := ih (p.after c)
    exact ⟨located, (lex_blank hc).trans hlex, hvalues⟩
  | @token t ts w text ht hapart _ ih =>
    obtain ⟨located, hlex, hvalues⟩ := ih (p.advance w)
    refine ⟨⟨t, ⟨p, p.advance w⟩⟩ :: located, ?_, congrArg (t :: ·) hvalues⟩
    rw [ht.lex_eq hapart, hlex]
    rfl

/-! ## Line endings -/

/-- Making line endings uniform leaves a lexeme alone. -/
theorem Inline.normalLines {w text : List Char} (hw : Inline w) (htext : text ≠ []) :
    Text.normalLines (w ++ text) = w ++ Text.normalLines text := by
  obtain ⟨hne, hline, hlast⟩ := hw
  induction w with
  | nil => exact absurd rfl hne
  | cons c w ih =>
    rw [List.mem_cons, not_or] at hline
    cases w with
    | nil =>
      exact Text.normalLines_cons (fun hc => absurd (congrArg some hc) hlast) htext
    | cons d w =>
      have hd : d ≠ '\n' := fun e => hline.2 (e ▸ List.mem_cons_self)
      rw [List.cons_append, Text.normalLines_cons (fun _ => by simpa using hd)
        (List.append_ne_nil_of_right_ne_nil _ htext),
          ih (List.cons_ne_nil _ _) hline.2 (by rwa [List.getLast?_cons_cons] at hlast)]
      rfl

/-- White space stays white space when line endings are made uniform. -/
theorem Written.normalLines {ts : List Token} {text : List Char} (h : Written ts text) :
    Written ts (Text.normalLines text) ∧ (Apart text → Apart (Text.normalLines text)) := by
  induction h with
  | nil => exact ⟨.nil, id⟩
  | @blank ts c text hc h ih =>
    have hblank : Written ts (c :: Text.normalLines text) := .blank hc ih.1
    have hapart : Apart (c :: Text.normalLines text) := fun d hd => Option.some.inj hd ▸ hc
    by_cases hreturn : c = '\r' ∧ text.head? = some '\n'
    · -- the two characters of one line ending
      obtain ⟨rfl, hhead⟩ := hreturn
      obtain ⟨rest, rfl⟩ := List.head?_eq_some_iff.mp hhead
      exact ⟨ih.1, fun _ => ih.2 fun d hd => Option.some.inj hd ▸ rfl⟩
    · rw [not_and] at hreturn
      cases text with
      | nil =>
        by_cases hline : c = '\n'
        · rw [hline] at hblank hapart ⊢
          exact ⟨hblank, fun _ => hapart⟩
        · have hlast : Text.normalLines [c] = [c, '\n'] := by simp [Text.normalLines]
          rw [hlast]
          exact ⟨.blank hc (.blank rfl h), fun _ d hd => Option.some.inj hd ▸ hc⟩
      | cons d text =>
        rw [Text.normalLines_cons hreturn (List.cons_ne_nil _ _)]
        exact ⟨hblank, fun _ => hapart⟩
  | @token t ts w text ht hapart htext ih =>
    obtain ⟨c, v, rfl⟩ := List.exists_cons_of_ne_nil ht.inline.ne_nil
    have hhead : ∀ rest, Apart (c :: v ++ text) → Apart (c :: v ++ rest) := fun _ happend => happend
    by_cases hnil : text = []
    · -- a lexeme at the very end is closed by a line feed
      subst hnil
      have hlast : Text.normalLines (c :: v ++ []) = c :: v ++ ['\n'] := by
        rw [List.append_nil]
        exact Text.normalLines_of_not_mem ht.inline.newline_not_mem ht.inline.ne_nil
      rw [hlast]
      exact ⟨.token ht (fun d hd => Option.some.inj hd ▸ rfl) (.blank rfl htext), hhead _⟩
    · rw [ht.inline.normalLines hnil]
      exact ⟨.token ht (ih.2 hapart) ih.1, hhead _⟩

/-- **Written tokens are read back.** Tokens that a source can hold can be written, and however
they are spelled and whatever white space separates them, lexing makes exactly these tokens and no
fault of the text. -/
theorem tokenize_written (ts : List Token) (h : ∀ t ∈ ts, t.Writable) :
    (∃ text, Written ts text) ∧
      ∀ text, Written ts text →
        (tokenize (readings (Text.encode (String.ofList text)))).map (·.map Located.value)
          = .ok ts := by
  refine ⟨?_, fun text htext => ?_⟩
  · induction ts with
    | nil => exact ⟨[], .nil⟩
    | cons t ts ih =>
      obtain ⟨text, htext⟩ := ih fun t' ht' => h t' (List.mem_cons_of_mem _ ht')
      obtain ⟨w, hw⟩ := (h t List.mem_cons_self).exists_spelling
      have hapart : Apart (' ' :: text) := fun c hc => Option.some.inj hc ▸ rfl
      exact ⟨_, .token hw hapart (.blank rfl htext)⟩
  · obtain ⟨hreadable, hdelivery⟩ := Line.delivery_encode text
    obtain ⟨located, hlex, hvalues⟩ := htext.normalLines.1.lex_eq .origin
    rw [← hdelivery, ← lexemes_eq_lex hreadable] at hlex
    rw [tokenize_eq_ok_iff.mpr hlex, ← hvalues]
    rfl

/-- An identifier, an operator, a numeral with leading zeros and a string that holds a quote. -/
theorem tokenize_written_string :
    ∃ text, Written [.ident "x_1", .assign .add, .int 7, .str "\"\n"] text ∧
      (tokenize (readings (Text.encode (String.ofList text)))).map (·.map Located.value)
        = .ok [.ident "x_1", .assign .add, .int 7, .str "\"\n"] := by
  have hx : Spells (.ident "x_1") ['x', '_', '1'] :=
    .ident ⟨isWord_cons (by decide) (by decide), by decide⟩
  have hadd : Spells (.assign .add) "+=".toList := .symbol rfl
  have hvalue : decimalValue ['0', '0', '7'] = 7 := by decide
  have hseven := Spells.int (List.cons_ne_nil '0' ['0', '7'])
    (List.all_eq_true.mp (by decide)) (by decide)
  rw [hvalue] at hseven
  have hquotes : WritesAll '"' ['"', '\n'] ['\\', '"', '\\', 'n'] :=
    .cons (w := ['\\', '"']) (.escaped (by decide))
      (.cons (w := ['\\', 'n']) (.escaped (by decide)) .nil)
  have hstring := Spells.str (s := "\"\n") hquotes
  have hblank : ∀ c cs, Text.isBlank c → Apart (c :: cs) :=
    fun c cs hc d hd => Option.some.inj hd ▸ hc
  have hwritten := Written.token hx (hblank _ _ rfl) <| .blank (c := '\n') rfl <|
    .token hadd (hblank _ _ rfl) <| .blank (c := '\t') rfl <|
    .token hseven (hblank _ _ rfl) <| .blank (c := ' ') rfl <|
    Written.token hstring (fun c hc => absurd hc (by simp)) .nil
  refine ⟨_, hwritten, (tokenize_written _ ?_).2 _ hwritten⟩
  intro t ht
  simp only [List.mem_cons, List.not_mem_nil, or_false] at ht
  rcases ht with rfl | rfl | rfl | rfl
  · exact ⟨isWord_cons (by decide) (by decide), by decide⟩
  · trivial
  · change 0 ≤ (7 : Int32).toInt
    decide
  · trivial

end OnePass
