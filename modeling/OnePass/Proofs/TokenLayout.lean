import OnePass.Proofs.ReadingPlaces

/-!
# Tokens account for the text

Main statement: the tokens of a source stand in it in order, each on one line of it and covering
exactly one of its lexemes, and what no token covers is white space or belongs to a comment
(`tokenize_accounts`).

`Layout p text ts` says it piece by piece: a text that begins at `p` falls into characters of white
space, comments and lexemes, and `ts` are the tokens of the lexemes where they stand. While a token
or a comment is being read, the state of the lexer says what has been read of it (`Lexer.Seen`);
every move keeps that true, or ends a piece (`Seen.move_sound`).
-/

namespace OnePass

/-! ## Comments -/

/-- What follows the `/*` of a block comment, up to its own `*/`. Openings and closings are taken
from left to right, and the comments inside are nested. -/
inductive Nest : List Char → Prop where
  | close : Nest ['*', '/']
  | level {u v : List Char} (hu : Nest u) (hv : Nest v) : Nest ('/' :: '*' :: (u ++ v))
  | other {c : Char} {u : List Char} (hopen : c = '/' → u.head? ≠ some '*')
      (hclose : c = '*' → u.head? ≠ some '/') (hu : Nest u) : Nest (c :: u)

/-- A comment in front of the text `rest`: from `//` to the end of its line, or from `/*` to the
`*/` that belongs to it. -/
inductive Comment : List Char → List Char → Prop where
  | line {w rest : List Char} (h : '\n' ∉ w) (hrest : ∀ c ∈ rest.head?, c = '\n') :
      Comment ('/' :: '/' :: w) rest
  | block {w rest : List Char} (h : Nest w) : Comment ('/' :: '*' :: w) rest

/-- What ends `n` block comments that are nested in one another. -/
def Closes : Nat → List Char → Prop
  | 0, w => w = []
  | n + 1, w => ∃ u v, w = u ++ v ∧ Nest u ∧ Closes n v

namespace Closes

/-- One level of comments closes where a comment ends. -/
theorem one_iff {w : List Char} : Closes 1 w ↔ Nest w := by
  constructor
  · rintro ⟨u, v, rfl, hu, rfl⟩
    rwa [List.append_nil]
  · intro h
    exact ⟨w, [], (List.append_nil w).symm, h, rfl⟩

/-- An opening mark opens one more level. -/
theorem opening {n : Nat} {w : List Char} (h : Closes (n + 2) w) :
    Closes (n + 1) ('/' :: '*' :: w) := by
  obtain ⟨u, _, rfl, hu, v, x, rfl, hv, hx⟩ := h
  exact ⟨_, x, by simp, .level hu hv, hx⟩

/-- A closing mark closes one level. -/
theorem closing {n : Nat} {w : List Char} (h : Closes n w) : Closes (n + 1) ('*' :: '/' :: w) :=
  ⟨_, w, rfl, .close, h⟩

/-- Other characters open and close nothing. -/
theorem other {n : Nat} {c : Char} {w : List Char} (hopen : c = '/' → w.head? ≠ some '*')
    (hclose : c = '*' → w.head? ≠ some '/') (h : Closes (n + 1) w) : Closes (n + 1) (c :: w) := by
  obtain ⟨u, v, rfl, hu, hv⟩ := h
  have hhead : (u ++ v).head? = u.head? := by
    cases hu <;> rfl
  rw [hhead] at hopen hclose
  exact ⟨c :: u, v, rfl, .other hopen hclose hu, hv⟩

end Closes

/-! ## Layouts -/

/-- The text `text`, which begins at `p`, is white space, comments and the lexemes of the tokens
`ts`, each of which covers its lexeme. -/
inductive Layout : Position → List Char → List (Located Token) → Prop where
  | done {p : Position} : Layout p [] []
  | blank {p : Position} {c : Char} {text : List Char} {ts : List (Located Token)}
      (hc : Text.isBlank c) (h : Layout (p.after c) text ts) : Layout p (c :: text) ts
  | comment {p : Position} {w text : List Char} {ts : List (Located Token)} (hw : Comment w text)
      (h : Layout (p.advance w) text ts) : Layout p (w ++ text) ts
  | token {p : Position} {t : Token} {w text : List Char} {ts : List (Located Token)}
      (ht : Spells t w) (h : Layout (p.advance w) text ts) :
      Layout p (w ++ text) (⟨t, ⟨p, p.advance w⟩⟩ :: ts)

namespace Lexer

/-! ## What has been read -/

/-- The state `s` of the lexer behind the characters `w`, the first of which stands at `start`. -/
inductive Seen (start : Position) : State → List Char → Prop where
  | operator {c : Char} {t : Token} (h : operator? c = some t) :
      Seen start (.operator t ⟨start, start.advance [c]⟩) [c]
  | slash : Seen start (.slash ⟨start, start.advance ['/']⟩) ['/']
  | bang {stop : Position} : Seen start (.bang ⟨start, stop⟩) ['!']
  | colon : Seen start (.colon ⟨start, start.advance [':']⟩) [':']
  | max {stop : Position} : Seen start (.bound .max ⟨start, stop⟩) [':', '>']
  | min {stop : Position} : Seen start (.bound .min ⟨start, stop⟩) [':', '<']
  | lineComment {w : List Char} (h : '\n' ∉ w) : Seen start .lineComment ('/' :: '/' :: w)
  | comment {depth : UInt32} {n : Nat} {last : Option Char} {w : List Char}
      (hdepth : depth.toNat = n + 1) (hle : n ≤ w.length)
      (h : ∀ u, Closes (n + 1) (last.toList ++ u) → Nest (w ++ u)) :
      Seen start (.comment depth last) ('/' :: '*' :: w)
  | integer {w : List Char} (hne : w ≠ []) (hdigits : ∀ d ∈ w, d.isDigit)
      (hrange : decimalValue w ≤ 2147483647) :
      Seen start (.integer (decimalValue w) ⟨start, start.advance w⟩) w
  | word {w : List Char} (h : IsWord w) : Seen start (.word w.reverse ⟨start, start.advance w⟩) w
  | charOpen {stop : Position} : Seen start (.charOpen ⟨start, stop⟩) ['\'']
  | charEscape {stop : Position} : Seen start (.charEscape ⟨start, stop⟩) ['\'', '\\']
  | charClose {stop : Position} {c : Char} {w : List Char} (h : Writes '\'' c w) :
      Seen start (.charClose c ⟨start, stop⟩) ('\'' :: w)
  | string {stop : Position} {text w : List Char} (h : WritesAll '"' text.reverse w) :
      Seen start (.string text ⟨start, stop⟩) ('"' :: w)
  | stringEscape {stop : Position} {text w : List Char} (h : WritesAll '"' text.reverse w) :
      Seen start (.stringEscape text ⟨start, stop⟩) ('"' :: w ++ ['\\'])

/-- What a move at the character `c`, behind the characters `w`, makes of them: more of the same
piece, the end of a comment, or a lexeme. -/
def Move.Sound (start : Position) (w : List Char) (c : Char) : Move → Prop
  | .into s => Seen start s (w ++ [c]) ∨ s = .fresh ∧
      ((∀ rest, Comment (w ++ [c]) rest) ∨ Text.isBlank c ∧ ∀ rest, Comment w (c :: rest))
  | .complete t span => Spells t (w ++ [c]) ∧ span = ⟨start, start.advance (w ++ [c])⟩
  | .behind t span => Spells t w ∧ span = ⟨start, start.advance w⟩
  | .fault _ => True

variable {start : Position} {s : State} {w : List Char} {c : Char}

/-- A comment that is open stays so, one character further on. -/
theorem Seen.comment_snoc {depth : UInt32} {n : Nat} {last : Option Char}
    (hdepth : depth.toNat = n + 1) (hle : n ≤ w.length + 1)
    (h : ∀ u, Closes (n + 1) (last.toList ++ u) → Nest (w ++ c :: u)) :
    Seen start (.comment depth last) ('/' :: '*' :: w ++ [c]) := by
  refine .comment (w := w ++ [c]) hdepth (by simpa using hle) fun u hu => ?_
  rw [List.append_assoc]
  exact h u hu

/-- What a move inside a block comment makes of it. There are fewer comments in one another than
characters, so that their number does not begin anew. -/
theorem commentMove_sound {depth : UInt32} {n : Nat} {last : Option Char}
    (hdepth : depth.toNat = n + 1) (hle : n ≤ w.length) (hsize : w.length + 2 < UInt32.size)
    (h : ∀ u, Closes (n + 1) (last.toList ++ u) → Nest (w ++ u)) :
    (commentMove depth last c).Sound start ('/' :: '*' :: w) c := by
  unfold commentMove
  split
  · next hlast =>
    simp only [Bool.and_eq_true, decide_eq_true_eq] at hlast
    obtain ⟨rfl, rfl⟩ := hlast
    have hdeeper : (depth + 1).toNat = n + 1 + 1 := by
      rw [UInt32.toNat_add, UInt32.toNat_one, hdepth]
      exact Nat.mod_eq_of_lt (by simp only [UInt32.size] at hsize; omega)
    exact .inl (.comment_snoc hdeeper (by omega) fun u hu => h _ (Closes.opening hu))
  · next hopen =>
    split
    · next hlast =>
      simp only [Bool.and_eq_true, decide_eq_true_eq] at hlast
      obtain ⟨rfl, rfl⟩ := hlast
      split
      · next hone =>
        obtain rfl : n = 0 := by
          rw [hone, UInt32.toNat_one] at hdepth
          omega
        refine .inr ⟨rfl, .inl fun rest => .block ?_⟩
        exact h ['/'] (Closes.one_iff.mpr .close)
      · next hone =>
        have hn : n ≠ 0 := by
          rintro rfl
          exact hone (UInt32.toNat_inj.mp hdepth)
        obtain ⟨m, rfl⟩ := Nat.exists_eq_succ_of_ne_zero hn
        have hless : (depth - 1).toNat = m + 1 := by
          rw [UInt32.toNat_sub_of_le _ _ (by rw [UInt32.le_iff_toNat_le, hdepth]; simp), hdepth]
          rfl
        exact .inl (.comment_snoc hless (by omega) fun u hu => h _ (Closes.closing hu))
    · next hclose =>
      -- `c` makes no pair with the character before it
      have hpair : ∀ u, Closes (n + 1) (c :: u) → Closes (n + 1) (last.toList ++ c :: u) := by
        intro u hu
        cases last with
        | none => exact hu
        | some d =>
          simp only [Bool.and_eq_true, decide_eq_true_eq, Option.some.injEq,
            not_and] at hopen hclose
          refine Closes.other (fun hd hc => hopen hd (Option.some.inj hc))
            (fun hd hc => hclose hd (Option.some.inj hc)) hu
      split
      · exact .inl (.comment_snoc hdepth (by omega) fun u hu => h _ (hpair u hu))
      · next hc =>
        simp only [Bool.or_eq_true, decide_eq_true_eq, not_or] at hc
        exact .inl (.comment_snoc hdepth (by omega) fun u hu =>
          h _ (hpair u (Closes.other (fun e => absurd e hc.1) (fun e => absurd e hc.2) hu)))

/-- What has been seen up to a character that takes one column. -/
theorem upTo_advance {q : Position} (h₁ : c ≠ '\n') (h₂ : c ≠ '\t') :
    (⟨start, q⟩ : Span).upTo (.single (start.advance w)) = ⟨start, start.advance (w ++ [c])⟩ := by
  rw [Span.upTo, ← Position.after_eq_single_stop _ h₁ h₂, Position.advance_append]
  rfl

/-- A character that is neither a line feed nor a tab takes one column. -/
theorem single_eq_advance (h₁ : c ≠ '\n') (h₂ : c ≠ '\t') :
    Span.single start = ⟨start, start.advance [c]⟩ := by
  rw [Position.advance_cons, Position.advance_nil, Position.after_eq_single_stop _ h₁ h₂]
  rfl

/-- Operators are neither line feeds nor tabs. -/
theorem operator?_ne {t : Token} (h : operator? c = some t) : c ≠ '\n' ∧ c ≠ '\t' := by
  constructor <;> (rintro rfl; cases h)

/-- The operators of one character. -/
theorem operator?_cases {t : Token} (h : operator? c = some t) :
    (c, t) ∈ [('+', .plus), ('-', .minus), ('*', .times), ('=', .assign .set),
      ('<', .relation .lt), ('>', .relation .gt)] := by
  unfold operator? at h
  split at h <;> cases h <;> decide

/-- An operator is spelled by its character. -/
theorem spells_operator {t : Token} (h : operator? c = some t) : Spells t [c] := by
  have hcases := operator?_cases h
  simp only [List.mem_cons, Prod.mk.injEq, List.not_mem_nil, or_false] at hcases
  rcases hcases with ⟨rfl, rfl⟩ | ⟨rfl, rfl⟩ | ⟨rfl, rfl⟩ | ⟨rfl, rfl⟩ | ⟨rfl, rfl⟩ | ⟨rfl, rfl⟩
  · exact .symbol (s := "+") rfl
  · exact .symbol (s := "-") rfl
  · exact .symbol (s := "*") rfl
  · exact .symbol (s := "=") rfl
  · exact .symbol (s := "<") rfl
  · exact .symbol (s := ">") rfl

/-- The operators of two characters that begin with another operator. -/
theorem spells_extended {t longer : Token} {d : Char} (h : operator? c = some t)
    (hlonger : extend? t d = some longer) : Spells longer [c, d] := by
  have hcases := operator?_cases h
  unfold extend? at hlonger
  split at hlonger <;> cases hlonger <;>
    simp only [List.mem_cons, Prod.mk.injEq, List.not_mem_nil, or_false, and_false, false_or,
      and_true, reduceCtorEq, Token.relation.injEq] at hcases <;> subst hcases
  · exact .symbol (s := "++") rfl
  · exact .symbol (s := "+=") rfl
  · exact .symbol (s := "--") rfl
  · exact .symbol (s := "-=") rfl
  · exact .symbol (s := "*=") rfl
  · exact .symbol (s := "==") rfl
  · exact .symbol (s := "<=") rfl
  · exact .symbol (s := ">=") rfl

/-- One more digit. -/
theorem decimalValue_concat (digits : List Char) (d : Char) :
    decimalValue (digits ++ [d]) = decimalValue digits * 10 + (d.toNat - '0'.toNat) := by
  rw [decimalValue, Nat.ofDigitChars_append, Nat.ofDigitChars_cons, Nat.ofDigitChars_nil,
    Nat.mul_comm]
  rfl

/-- Where only the character `d` may stand, it completes a token. -/
theorem sound_of_expected {t : Token} {d : Char} {e : LexicalError} {stop : Position}
    (hd : d ≠ '\n' ∧ d ≠ '\t') (ht : Spells t (w ++ [d])) :
    (if c = d then .complete t ((⟨start, stop⟩ : Span).upTo (.single (start.advance w)))
      else .fault e : Move).Sound start w c := by
  split
  · next hc =>
    subst hc
    exact ⟨ht, upTo_advance hd.1 hd.2⟩
  · trivial

/-- Behind an operator an equals sign makes another one of it, and anything else ends it. -/
theorem sound_operator {d : Char} {t : Token} (h : operator? d = some t) :
    (move (.operator t ⟨start, start.advance [d]⟩) c (.single (start.advance [d]))).Sound
      start [d] c := by
  rw [move]
  split
  · next longer hlonger =>
    have hc : c ≠ '\n' ∧ c ≠ '\t' := by
      constructor <;> (rintro rfl; unfold extend? at hlonger; split at hlonger <;> simp_all)
    exact ⟨spells_extended h hlonger, upTo_advance hc.1 hc.2⟩
  · exact ⟨spells_operator h, rfl⟩

/-- Behind a slash a comment may begin, or a division ends. -/
theorem sound_slash :
    (move (.slash ⟨start, start.advance ['/']⟩) c (.single (start.advance ['/']))).Sound
      start ['/'] c := by
  rw [move]
  split
  · next hc =>
    subst hc
    exact .inl (.lineComment List.not_mem_nil)
  · split
    · next hc => exact .inl (hc ▸ .comment rfl le_rfl fun u hu => Closes.one_iff.mp hu)
    · split
      · next hc =>
        subst hc
        exact ⟨.symbol (s := "/=") rfl, upTo_advance (by decide) (by decide)⟩
      · exact ⟨.symbol (s := "/") rfl, rfl⟩

/-- Behind a colon there may be an equals sign or anything else. -/
theorem sound_colon :
    (move (.colon ⟨start, start.advance [':']⟩) c (.single (start.advance [':']))).Sound
      start [':'] c := by
  rw [move]
  split
  · next hc => exact .inl (hc ▸ .max)
  · split
    · next hc => exact .inl (hc ▸ .min)
    · exact ⟨.symbol (s := ":") rfl, rfl⟩

/-- A comment goes on to the end of its line. -/
theorem sound_lineComment {v : List Char} (h : '\n' ∉ v) :
    (move .lineComment c (.single (start.advance ('/' :: '/' :: v)))).Sound
      start ('/' :: '/' :: v) c := by
  rw [move]
  split
  · next hc =>
    subst hc
    exact .inr ⟨rfl, .inr ⟨rfl, fun rest => .line h fun d hd => (Option.some.inj hd).symm⟩⟩
  · next hc =>
    refine .inl (.lineComment (w := v ++ [c]) ?_)
    rw [List.mem_append, List.mem_singleton, not_or]
    exact ⟨h, Ne.symm hc⟩

/-- A number goes on as long as digits follow and it can be stored. -/
theorem sound_integer (hne : w ≠ []) (hdigits : ∀ d ∈ w, d.isDigit)
    (hrange : decimalValue w ≤ 2147483647) :
    (move (.integer (decimalValue w) ⟨start, start.advance w⟩) c
      (.single (start.advance w))).Sound start w c := by
  rw [move]
  split
  · next d hd =>
    obtain ⟨hc, rfl⟩ := digit?_eq_some.mp hd
    have hline : c ≠ '\n' ∧ c ≠ '\t' := by constructor <;> (rintro rfl; cases hd)
    split
    · next hle =>
      rw [← decimalValue_concat] at hle ⊢
      rw [upTo_advance hline.1 hline.2]
      exact .inl (.integer (List.append_ne_nil_of_left_ne_nil hne _)
        (List.forall_mem_append.mpr ⟨hdigits, List.forall_mem_singleton.mpr hc⟩) hle)
    · trivial
  · exact ⟨.int hne hdigits hrange, rfl⟩

/-- A word goes on as long as it is one. -/
theorem sound_word (h : IsWord w) :
    (move (.word w.reverse ⟨start, start.advance w⟩) c (.single (start.advance w))).Sound
      start w c := by
  rw [move]
  split
  · next hc =>
    have hline : c ≠ '\n' ∧ c ≠ '\t' := by constructor <;> (rintro rfl; revert hc; decide)
    rw [upTo_advance hline.1 hline.2]
    have hseen : Seen start _ (w ++ [c]) := .word (h.concat (isWordChar_iff.mp hc))
    rw [List.reverse_concat] at hseen
    exact .inl hseen
  · exact ⟨spells_wordToken h, rfl⟩

/-- Behind a single quote stands a character or an escape. -/
theorem sound_charOpen {stop : Position} :
    (move (.charOpen ⟨start, stop⟩) c (.single (start.advance ['\'']))).Sound start ['\''] c := by
  rw [move]
  split
  · next hc => exact .inl (hc ▸ .charEscape)
  · next hslash =>
    split
    · trivial
    · next hquote =>
      split
      · trivial
      · next hline => exact .inl (.charClose (.plain hquote hslash hline))

/-- Behind a backslash a character stands for another one. -/
theorem sound_charEscape {stop : Position} :
    (move (.charEscape ⟨start, stop⟩) c (.single (start.advance ['\'', '\\']))).Sound
      start ['\'', '\\'] c := by
  rw [move]
  split
  · next e he => exact .inl (.charClose (.escaped (escape?_eq_some.mp he)))
  · trivial

/-- A text goes on to its closing quote. -/
theorem sound_string {stop : Position} {text v : List Char} (h : WritesAll '"' text.reverse v) :
    (move (.string text ⟨start, stop⟩) c (.single (start.advance ('"' :: v)))).Sound
      start ('"' :: v) c := by
  rw [move]
  split
  · next hc =>
    subst hc
    refine ⟨.str ?_, upTo_advance (by decide) (by decide)⟩
    rwa [String.toList_ofList]
  · next hquote =>
    split
    · next hc => exact .inl (hc ▸ .stringEscape h)
    · next hslash =>
      split
      · trivial
      · next hline =>
        refine .inl (.string (w := v ++ [c]) ?_)
        rw [List.reverse_cons]
        exact h.concat (.plain hquote hslash hline)

/-- Behind a backslash in a text a character stands for another one. -/
theorem sound_stringEscape {stop : Position} {text v : List Char}
    (h : WritesAll '"' text.reverse v) :
    (move (.stringEscape text ⟨start, stop⟩) c
      (.single (start.advance ('"' :: v ++ ['\\'])))).Sound start ('"' :: v ++ ['\\']) c := by
  rw [move]
  split
  · next e he =>
    left
    have hwritten : WritesAll '"' (e :: text).reverse (v ++ ['\\', c]) := by
      rw [List.reverse_cons]
      exact h.concat (.escaped (escape?_eq_some.mp he))
    have hlist : '"' :: v ++ ['\\'] ++ [c] = '"' :: (v ++ ['\\', c]) := by simp
    rw [hlist]
    exact .string hwritten
  · trivial

/-- A move keeps what has been read of a piece, or ends the piece. -/
theorem Seen.move_sound (h : Seen start s w) (hsize : w.length < UInt32.size) :
    (move s c (.single (start.advance w))).Sound start w c := by
  cases h with
  | operator h => exact sound_operator h
  | slash => exact sound_slash
  | bang => exact sound_of_expected (by decide) (.symbol (s := "!=") rfl)
  | colon => exact sound_colon
  | max => exact sound_of_expected (by decide) (.symbol (s := ":>:") rfl)
  | min => exact sound_of_expected (by decide) (.symbol (s := ":<:") rfl)
  | lineComment h => exact sound_lineComment h
  | comment hdepth hle h => exact commentMove_sound hdepth hle hsize h
  | integer hne hdigits hrange => exact sound_integer hne hdigits hrange
  | word h => exact sound_word h
  | charOpen => exact sound_charOpen
  | charEscape => exact sound_charEscape
  | charClose h => exact sound_of_expected (by decide) (.char h)
  | string h => exact sound_string h
  | stringEscape h => exact sound_stringEscape h

/-- A token of one character is spelled by it. -/
theorem spells_single {t : Token} (h : single? c = some t) : Spells t [c] := by
  unfold single? at h
  split at h <;> cases h
  · exact .symbol (s := ",") rfl
  · exact .symbol (s := ";") rfl
  · exact .symbol (s := "(") rfl
  · exact .symbol (s := ")") rfl
  · exact .symbol (s := "[") rfl
  · exact .symbol (s := "]") rfl
  · exact .symbol (s := "\x7b") rfl
  · exact .symbol (s := "\x7d") rfl
  · exact .symbol (s := "%") rfl
  · exact .symbol (s := "?") rfl

/-- What a move at the character `c` between tokens makes of it: the beginning of a piece, or a
piece of its own. -/
def Move.Begun (start : Position) (c : Char) : Move → Prop
  | .into s => Seen start s [c] ∨ s = .fresh ∧ Text.isBlank c
  | .complete t span => Spells t [c] ∧ span = ⟨start, start.advance [c]⟩
  | .behind _ _ => False
  | .fault _ => True

/-- At its first character a token is what begins with it. -/
theorem begin_sound (start : Position) (c : Char) :
    (begin c (.single start)).Begun start c := by
  -- The characters are asked for in the order in which the lexer asks.
  cases hsingle : single? c with
  | some t =>
    have hline : c ≠ '\n' ∧ c ≠ '\t' := by constructor <;> (rintro rfl; cases hsingle)
    simp only [begin, hsingle]
    exact ⟨spells_single hsingle, single_eq_advance hline.1 hline.2⟩
  | none =>
    cases hoperator : operator? c with
    | some t =>
      have hline := operator?_ne hoperator
      simp only [begin, hsingle, hoperator]
      rw [single_eq_advance hline.1 hline.2]
      exact .inl (.operator hoperator)
    | none =>
      cases hdigit : Text.digit? c with
      | some d =>
        have hline : c ≠ '\n' ∧ c ≠ '\t' := by constructor <;> (rintro rfl; cases hdigit)
        obtain ⟨hc, hd⟩ := digit?_eq_some.mp hdigit
        -- One digit is a number, and never too large.
        have hvalue : d = decimalValue [c] := by
          rw [hd]
          exact (Nat.zero_add _).symm
        have hrange : decimalValue [c] ≤ 2147483647 := by
          have := isDigit_iff.mp hc
          rw [← hvalue, hd]
          omega
        simp only [begin, hsingle, hoperator, hdigit]
        rw [single_eq_advance hline.1 hline.2, hvalue]
        exact .inl (.integer (List.cons_ne_nil _ _) (fun e he => List.mem_singleton.mp he ▸ hc)
          hrange)
      | none =>
        simp only [begin, hsingle, hoperator, hdigit]
        split
        -- a slash
        · next hc =>
          subst hc
          exact .inl .slash
        · split
          -- an exclamation mark, a colon and quotes
          · next hc => exact .inl (hc ▸ .bang)
          · split
            · next hc =>
              subst hc
              exact .inl .colon
            · split
              · next hc => exact .inl (hc ▸ .charOpen)
              · split
                · next hc => exact .inl (hc ▸ .string .nil)
                · split
                  · next hc =>
                    -- a letter or an underscore
                    have hline : c ≠ '\n' ∧ c ≠ '\t' := by
                      constructor <;> (rintro rfl; revert hc; decide)
                    rw [single_eq_advance hline.1 hline.2]
                    have hword : IsWord [c] :=
                      ⟨c, [], rfl, isWordStart_iff.mp hc, fun d hd => absurd hd List.not_mem_nil⟩
                    exact .inl (.word hword)
                  · split
                    -- blanks, and what is no character of the language
                    · next hc => exact .inr ⟨rfl, hc⟩
                    · trivial

/-! ## Runs -/

theorem ok_cons_eq_map {x : Located Token} {ls : List Lexeme} {ts : List (Located Token)} :
    .ok x :: ls = ts.map .ok ↔ ∃ ts', ts = x :: ts' ∧ ls = ts'.map .ok := by
  rw [eq_comm, List.map_eq_cons_iff]
  constructor
  · rintro ⟨y, ts', rfl, hy, hts⟩
    cases hy
    exact ⟨ts', rfl, hts.symm⟩
  · rintro ⟨ts', rfl, hts⟩
    exact ⟨x, ts', rfl, rfl, hts.symm⟩

theorem error_cons_ne_map {e : Located LexicalError} {ls : List Lexeme}
    {ts : List (Located Token)} : .error e :: ls ≠ ts.map .ok := by
  intro h
  obtain ⟨y, ts', rfl, hy, hts⟩ := List.map_eq_cons_iff.mp h.symm
  cases hy

/-- At the end of a text, what has been seen of a piece is the whole of it. -/
theorem Seen.layout_of_finish (h : Seen start s w) {p : Position} {ts : List (Located Token)}
    (hts : finish s (.single p) = ts.map .ok) : Layout start w ts := by
  have htoken : ∀ {t : Token}, Spells t w →
      ([.ok ⟨t, ⟨start, start.advance w⟩⟩] : List Lexeme) = ts.map .ok → Layout start w ts := by
    intro t ht hts
    obtain ⟨ts', rfl, hts'⟩ := ok_cons_eq_map.mp hts
    obtain rfl := List.map_eq_nil_iff.mp hts'.symm
    have hlayout := Layout.token ht (.done (p := start.advance w))
    rwa [List.append_nil] at hlayout
  cases h with
  | operator h => exact htoken (spells_operator h) hts
  | slash => exact htoken (.symbol (s := "/") rfl) hts
  | colon => exact htoken (.symbol (s := ":") rfl) hts
  | integer hne hdigits hrange => exact htoken (.int hne hdigits hrange) hts
  | word h => exact htoken (spells_wordToken h) hts
  | lineComment h =>
    obtain rfl := List.map_eq_nil_iff.mp hts.symm
    have hcomment : Comment ('/' :: '/' :: _) [] :=
      .line h fun c hc => absurd hc (Option.not_mem_none c)
    have hlayout := Layout.comment hcomment (.done (p := start.advance _))
    rwa [List.append_nil] at hlayout
  | _ => exact absurd hts error_cons_ne_map

/-- A text that lexes without a fault falls into pieces, and so does one that begins with what has
been seen of a piece, unless it is larger than the numbers of comments. -/
theorem layout_of_lex (text : List Char) :
    (∀ p ts, text.length < UInt32.size → lex .fresh p text = ts.map .ok → Layout p text ts) ∧
      ∀ start s w ts, Seen start s w → (w ++ text).length < UInt32.size →
        lex s (start.advance w) text = ts.map .ok → Layout start (w ++ text) ts := by
  induction text with
  | nil =>
    -- Both statements are proved at once: a token that ends before its next character is followed
    -- by a token from the beginning.
    refine ⟨fun p ts _ hts => ?_, fun start s w ts hseen _ hts => ?_⟩
    · obtain rfl := List.map_eq_nil_iff.mp hts.symm
      exact .done
    · rw [List.append_nil]
      exact hseen.layout_of_finish hts
  | cons c text ih =>
    obtain ⟨ihfresh, ihseen⟩ := ih
    have hfresh : ∀ p ts, (c :: text).length < UInt32.size →
        lex .fresh p (c :: text) = ts.map .ok → Layout p (c :: text) ts := by
      intro p ts hsize hts
      have hrest : text.length < UInt32.size := Nat.lt_of_succ_lt hsize
      have hsound := begin_sound p c
      rw [lex_cons, move] at hts
      split at hts <;> rename_i hbegin <;> rw [hbegin] at hsound
      · rcases hsound with hseen | ⟨rfl, hblank⟩
        · exact ihseen p _ [c] ts hseen hsize hts
        · exact .blank hblank (ihfresh _ _ hrest hts)
      · obtain ⟨ts', rfl, hts'⟩ := ok_cons_eq_map.mp hts
        obtain ⟨ht, rfl⟩ := hsound
        exact .token ht (ihfresh _ _ hrest hts')
      · exact hsound.elim
      · exact absurd hts error_cons_ne_map
    refine ⟨hfresh, fun start s w ts hseen hsize hts => ?_⟩
    have hlength := hsize
    rw [List.length_append, List.length_cons] at hlength
    have hrest : text.length < UInt32.size := by omega
    have hsound := hseen.move_sound (c := c) (by omega)
    -- A token that goes on takes one more character.
    have hadvance : start.advance (w ++ [c]) = (start.advance w).after c := by
      rw [Position.advance_append]
      rfl
    have hlist : w ++ c :: text = w ++ [c] ++ text := by simp
    rw [lex_cons] at hts
    split at hts <;> rename_i hmove <;> rw [hmove] at hsound
    · rw [← hadvance] at hts
      rcases hsound with hseen | ⟨rfl, hcomment | ⟨hblank, hcomment⟩⟩
      · rw [hlist] at hsize ⊢
        exact ihseen _ _ _ _ hseen hsize hts
      · rw [hlist]
        exact .comment (hcomment _) (ihfresh _ _ hrest hts)
      · rw [hadvance] at hts
        exact .comment (hcomment _) (.blank hblank (ihfresh _ _ hrest hts))
    · obtain ⟨ts', rfl, hts'⟩ := ok_cons_eq_map.mp hts
      obtain ⟨ht, rfl⟩ := hsound
      rw [← hadvance] at hts'
      rw [hlist]
      exact .token ht (ihfresh _ _ hrest hts')
    -- The character behind a token begins the next one, so it is looked at again.
    · obtain ⟨ts', rfl, hts'⟩ := ok_cons_eq_map.mp hts
      obtain ⟨ht, rfl⟩ := hsound
      exact .token ht (hfresh _ _ (by rw [List.length_cons]; omega) hts')
    · exact absurd hts error_cons_ne_map

end Lexer

/-! ## Characters and spans -/

/-- The characters of a text that begins at `p`, each with the position where it stands. -/
def Text.placed (p : Position) : List Char → List (Position × Char)
  | [] => []
  | c :: cs => (p, c) :: placed (p.after c) cs

/-- A position inside of a span. -/
def Span.Covers (s : Span) (p : Position) : Prop := s.start ≤ p ∧ p < s.stop

instance (s : Span) (p : Position) : Decidable (s.Covers p) :=
  inferInstanceAs (Decidable (_ ∧ _))

/-- The characters that stand inside of a span, in a text that begins at `p`. -/
def Text.within (p : Position) (text : List Char) (s : Span) : List Char :=
  ((placed p text).filter fun x => s.Covers x.1).map Prod.snd

/-- The character that `n` others precede belongs to a comment, which no token reaches into. -/
def Commented (p : Position) (text : List Char) (ts : List (Located Token)) (n : Nat) : Prop :=
  ∃ before comment rest, text = before ++ comment ++ rest ∧ Comment comment rest ∧
    before.length ≤ n ∧ n < (before ++ comment).length ∧
      ∀ t ∈ ts, t.span.stop ≤ p.advance before ∨ p.advance (before ++ comment) ≤ t.span.start

/-- The tokens `ts` account for a text that begins at `p`. -/
structure Accounts (p : Position) (text : List Char) (ts : List (Located Token)) : Prop where
  /-- the tokens come in order, and no two of them overlap -/
  ordered : ts.Pairwise fun a b => a.span.stop ≤ b.span.start
  nonempty : ∀ t ∈ ts, t.span.start < t.span.stop
  singleLine : ∀ t ∈ ts, t.span.start.line = t.span.stop.line
  /-- what stands inside of the span of a token is a lexeme of it -/
  spelled : ∀ t ∈ ts, Spells t.value (Text.within p text t.span)
  /-- what stands outside of all spans is white space or belongs to a comment -/
  outside : ∀ front c back, text = front ++ c :: back →
    (∀ t ∈ ts, ¬ t.span.Covers (p.advance front)) →
      Text.isBlank c ∨ Commented p text ts front.length

namespace Text

variable {p : Position} {w text : List Char} {s : Span}

theorem placed_append : placed p (w ++ text) = placed p w ++ placed (p.advance w) text := by
  induction w generalizing p with
  | nil => rfl
  | cons c w ih =>
    rw [List.cons_append, placed, placed, ih, List.cons_append, Position.advance_cons]

/-- Characters stand from where their text begins up to where it ends. -/
theorem mem_placed (hroom : p.Room w.length) {x : Position × Char} (h : x ∈ placed p w) :
    p ≤ x.1 ∧ x.1 < p.advance w := by
  induction w generalizing p with
  | nil => exact absurd h List.not_mem_nil
  | cons c w ih =>
    rcases List.mem_cons.mp h with rfl | h
    · exact ⟨le_refl _, hroom.lt_advance (List.cons_ne_nil c w)⟩
    · have hx := ih (hroom.after c) h
      exact ⟨((hroom.mono (Nat.le_add_left 1 _)).lt_after c).le.trans hx.1, hx.2⟩

/-- Characters with their places are the characters. -/
theorem map_placed : (placed p w).map Prod.snd = w := by
  induction w generalizing p with
  | nil => rfl
  | cons c w ih => exact congrArg (c :: ·) ih

/-- Nothing in front of a span stands inside of it. -/
theorem within_append (hroom : p.Room (w ++ text).length) (h : p.advance w ≤ s.start) :
    within p (w ++ text) s = within (p.advance w) text s := by
  have hfilter : (placed p w).filter (fun x => s.Covers x.1) = [] := by
    rw [List.filter_eq_nil_iff]
    intro x hx hcovers
    have hcovers := of_decide_eq_true hcovers
    exact absurd (lt_of_lt_of_le (mem_placed hroom.left hx).2 (h.trans hcovers.1)) (lt_irrefl _)
  rw [within, placed_append, List.filter_append, hfilter, List.nil_append]
  rfl

/-- Inside of the span of the beginning of a text stands this beginning. -/
theorem within_self (hroom : p.Room (w ++ text).length) :
    within p (w ++ text) ⟨p, p.advance w⟩ = w := by
  have hfront : (placed p w).filter (fun x => (⟨p, p.advance w⟩ : Span).Covers x.1)
      = placed p w := by
    rw [List.filter_eq_self]
    exact fun x hx => decide_eq_true (mem_placed hroom.left hx)
  have hback : (placed (p.advance w) text).filter
      (fun x => (⟨p, p.advance w⟩ : Span).Covers x.1) = [] := by
    rw [List.filter_eq_nil_iff]
    intro x hx hcovers
    have hcovers := of_decide_eq_true hcovers
    exact absurd (lt_of_lt_of_le hcovers.2 (mem_placed hroom.right hx).1) (lt_irrefl _)
  rw [within, placed_append, List.filter_append, hfront, hback, List.append_nil, map_placed]

end Text

/-! ## From layouts to positions -/

/-- Tokens of a layout stand behind its beginning, if there is room for all its characters. -/
theorem Layout.le_start {p : Position} {text : List Char} {ts : List (Located Token)}
    (h : Layout p text ts) (hroom : p.Room text.length) : ∀ t ∈ ts, p ≤ t.span.start := by
  induction h with
  | done => exact fun t ht => absurd ht List.not_mem_nil
  | @blank p c text ts _ _ ih =>
    have hlt := (hroom.mono (Nat.le_add_left 1 _)).lt_after c
    exact fun t ht => hlt.le.trans (ih (hroom.after c) t ht)
  | @comment p w text ts _ _ ih =>
    exact fun t ht => hroom.left.le_advance.trans (ih hroom.right t ht)
  | @token p _ w text ts _ _ ih =>
    intro t ht
    rcases List.mem_cons.mp ht with rfl | ht
    · exact le_refl p
    · exact hroom.left.le_advance.trans (ih hroom.right t ht)

variable {p : Position} {w text : List Char} {ts : List (Located Token)}

/-- A comment stays one behind more text and behind the tokens in there. -/
theorem Commented.behind {n : Nat} (hroom : (p.advance w).Room text.length)
    (h : Commented (p.advance w) text ts n)
    {front : List (Located Token)} (hfront : ∀ t ∈ front, t.span.stop ≤ p.advance w) :
    Commented p (w ++ text) (front ++ ts) (w.length + n) := by
  obtain ⟨before, comment, rest, rfl, hcomment, hle, hlt, hts⟩ := h
  refine ⟨w ++ before, comment, rest, by simp, hcomment, ?_, ?_, fun t ht => ?_⟩
  · rw [List.length_append]
    omega
  · rw [List.length_append] at hlt
    simp only [List.length_append]
    omega
  · rw [List.append_assoc, Position.advance_append, Position.advance_append]
    rcases List.mem_append.mp ht with ht | ht
    · exact .inl ((hfront t ht).trans hroom.left.left.le_advance)
    · exact hts t ht

/-- A piece in front of a text that tokens account for: nothing but white space and comments, if
the tokens `front` do not cover it. -/
theorem Accounts.outside_behind (hroom : (p.advance w).Room text.length)
    (h : Accounts (p.advance w) text ts)
    {front : List (Located Token)} (hfront : ∀ t ∈ front, t.span.stop ≤ p.advance w)
    (hw : ∀ u c v, w = u ++ c :: v → (∀ t ∈ front ++ ts, ¬ t.span.Covers (p.advance u)) →
      Text.isBlank c ∨ Commented p (w ++ text) (front ++ ts) u.length)
    (u : List Char) (c : Char) (v : List Char) (huv : w ++ text = u ++ c :: v)
    (hcovers : ∀ t ∈ front ++ ts, ¬ t.span.Covers (p.advance u)) :
    Text.isBlank c ∨ Commented p (w ++ text) (front ++ ts) u.length := by
  rcases List.append_eq_append_iff.mp huv with ⟨x, rfl, htext⟩ | ⟨x, hx, htext⟩
  · -- the character stands in the text behind the piece
    have hcovers : ∀ t ∈ ts, ¬ t.span.Covers ((p.advance w).advance x) := fun t ht => by
      rw [← Position.advance_append]
      exact hcovers t (List.mem_append_right _ ht)
    rw [List.length_append]
    exact (h.outside x c v htext hcovers).imp_right fun hc => hc.behind hroom hfront
  · cases x with
    | nil =>
      rw [List.append_nil] at hx
      subst hx
      have hcovers : ∀ t ∈ ts, ¬ t.span.Covers ((p.advance w).advance []) :=
        fun t ht => hcovers t (List.mem_append_right _ ht)
      exact (h.outside [] c v htext.symm hcovers).imp_right fun hc => hc.behind hroom hfront
    | cons d x =>
      obtain ⟨rfl, -⟩ := List.cons.inj htext
      exact hw u c x hx hcovers

/-- The pieces of a text account for it, if there is room for the places in it. -/
theorem Layout.accounts (h : Layout p text ts) (hroom : p.Room text.length) :
    Accounts p text ts := by
  induction h with
  | done =>
    exact ⟨.nil, by simp, by simp, by simp, fun front c back h => absurd h (by simp)⟩
  | @blank p c text ts hc h ih =>
    have hrest := hroom.after c
    have hstart := h.le_start hrest
    have ih := ih hrest
    refine ⟨ih.ordered, ih.nonempty, ih.singleLine, fun t ht => ?_, ?_⟩
    · rw [← List.singleton_append, Text.within_append (w := [c]) hroom (hstart t ht)]
      exact ih.spelled t ht
    · refine ih.outside_behind (w := [c]) hrest (fun t ht => absurd ht List.not_mem_nil)
        fun u d v huv _ => .inl ?_
      have hd : d ∈ [c] := by simp [huv]
      exact List.mem_singleton.mp hd ▸ hc
  | @comment p w text ts hw h ih =>
    have hstart := h.le_start hroom.right
    have ih := ih hroom.right
    refine ⟨ih.ordered, ih.nonempty, ih.singleLine, fun t ht => ?_, ?_⟩
    · rw [Text.within_append hroom (hstart t ht)]
      exact ih.spelled t ht
    · refine ih.outside_behind hroom.right (fun t ht => absurd ht List.not_mem_nil)
        fun u d v huv _ => .inr ?_
      refine ⟨[], w, text, rfl, hw, Nat.zero_le _, ?_, fun t ht => .inr (hstart t ht)⟩
      rw [List.nil_append, huv, List.length_append, List.length_cons]
      omega
  | @token p t w text ts ht h ih =>
    have hstart := h.le_start hroom.right
    have ih := ih hroom.right
    refine ⟨.cons hstart ih.ordered, ?_, ?_, ?_, ?_⟩
    · exact List.forall_mem_cons.mpr ⟨hroom.left.lt_advance ht.inline.ne_nil, ih.nonempty⟩
    · exact List.forall_mem_cons.mpr
        ⟨(p.advance_line ht.inline.newline_not_mem).symm, ih.singleLine⟩
    · refine List.forall_mem_cons.mpr ⟨?_, fun t ht => ?_⟩
      · rwa [Text.within_self hroom]
      · rw [Text.within_append hroom (hstart t ht)]
        exact ih.spelled t ht
    · have hfront : ∀ t' ∈ [(⟨t, ⟨p, p.advance w⟩⟩ : Located Token)], t'.span.stop ≤ p.advance w :=
        fun t' ht' => by rw [List.mem_singleton.mp ht']
      refine ih.outside_behind hroom.right hfront fun u d v huv hcovers => ?_
      -- inside of a lexeme, a character is covered
      have hinside : p.Room (u ++ d :: v).length := huv ▸ hroom.left
      refine absurd ⟨hinside.left.le_advance, ?_⟩ (hcovers _ List.mem_cons_self)
      rw [huv, Position.advance_append]
      exact hinside.right.lt_advance (List.cons_ne_nil d v)

/-- What is delivered of a source that can be read has room, if the source is not too large. -/
theorem room_delivery {bytes : List UInt8} (h : Line.Readable (Line.ofBytes bytes))
    (hsize : bytes.length < 2 ^ 30 - 1) :
    Position.origin.Room (Line.delivery (Line.ofBytes bytes)).length := by
  have hroom := room_readings hsize
  rwa [readings_eq_ofChars h, Reading.length_ofChars] at hroom

/-- The tokens of a source lay out its text, if that is short enough for its positions. -/
theorem layout_of_tokenize {bytes : List UInt8} {ts : List (Located Token)}
    (hsize : bytes.length < 2 ^ 30 - 1) (h : tokenize (readings bytes) = .ok ts) :
    Layout .origin (Line.delivery (Line.ofBytes bytes)) ts := by
  have hreadable := readable_of_tokenize h
  have hlexemes := tokenize_eq_ok_iff.mp h
  rw [lexemes_eq_lex hreadable] at hlexemes
  refine (Lexer.layout_of_lex _).1 _ _ ?_ hlexemes
  have hline := (room_delivery hreadable hsize).line
  omega

/-- **Tokens account for their source.** Of a source that the lexer accepts every line can be read,
and it falls into white space, comments and the lexemes of its tokens. The tokens come in order,
without overlaps, each on one line and on exactly one of its lexemes; the characters outside of all
tokens are white space or stand in comments. The numbers of places begin anew only in sources larger
than this. -/
theorem tokenize_accounts {bytes : List UInt8} {ts : List (Located Token)}
    (hsize : bytes.length < 2 ^ 30 - 1) (h : tokenize (readings bytes) = .ok ts) :
    Line.Readable (Line.ofBytes bytes) ∧
      Layout .origin (Line.delivery (Line.ofBytes bytes)) ts ∧
      Accounts .origin (Line.delivery (Line.ofBytes bytes)) ts := by
  have hreadable := readable_of_tokenize h
  have hlayout := layout_of_tokenize hsize h
  exact ⟨hreadable, hlayout, hlayout.accounts (room_delivery hreadable hsize)⟩

/-- Nested comments, a tabulator and two lines. -/
theorem tokenize_accounts_nested :
    tokenize (readings (Text.encode "a /* /* b */ */ <=\n\t'\\n' // d")) = .ok
        [⟨.ident "a", ⟨1, 1⟩, ⟨1, 2⟩⟩, ⟨.relation .le, ⟨1, 17⟩, ⟨1, 19⟩⟩,
          ⟨.char '\n', ⟨2, 5⟩, ⟨2, 9⟩⟩] ∧
      Accounts .origin (Line.delivery
        (Line.ofBytes (Text.encode "a /* /* b */ */ <=\n\t'\\n' // d")))
        [⟨.ident "a", ⟨1, 1⟩, ⟨1, 2⟩⟩, ⟨.relation .le, ⟨1, 17⟩, ⟨1, 19⟩⟩,
          ⟨.char '\n', ⟨2, 5⟩, ⟨2, 9⟩⟩] := by
  have h : tokenize (readings (Text.encode "a /* /* b */ */ <=\n\t'\\n' // d")) = .ok
      [⟨.ident "a", ⟨1, 1⟩, ⟨1, 2⟩⟩, ⟨.relation .le, ⟨1, 17⟩, ⟨1, 19⟩⟩,
        ⟨.char '\n', ⟨2, 5⟩, ⟨2, 9⟩⟩] := by
    decide +kernel
  exact ⟨h, (tokenize_accounts (by decide +kernel) h).2.2⟩

end OnePass
