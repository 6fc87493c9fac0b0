import OnePass.Proofs.SourceText
import OnePass.Proofs.Spelling

/-!
# The lexer on a text

`Lexer.lex s p cs` is what the lexer makes of the characters `cs` from the state `s` on, the first
of them standing at `p`. What one character does is a `Move` (`lex_cons`), so that a run is followed
move by move. For a readable source this is all there is to lexing (`lexemes_eq_lex`), and tokens
come of it exactly if no fault does (`tokenize_eq_ok_iff`).

The classes of characters that the lexer tells apart are those that spellings are made of
(`digit?_eq_some`, `escape?_eq_some`, `isWordStart_iff`, `spells_wordToken`).
-/

namespace OnePass

namespace Lexer

/-- What the lexer makes of the characters `cs`, the first of which stands at `p`. -/
def lex (s : State) (p : Position) (cs : List Char) : List Lexeme :=
  run s (.single p) (Reading.ofChars p cs).1

/-! ## Moves -/

theorem lex_nil (s : State) (p : Position) : lex s p [] = finish s (.single p) := rfl

/-- Between tokens, no character stands behind one. -/
theorem begin_ne_behind (c : Char) (here span : Span) (t : Token) :
    begin c here ≠ .behind t span := by
  unfold begin
  split
  · exact Move.noConfusion
  · exact Move.noConfusion
  · exact Move.noConfusion
  · repeat' split
    all_goals exact Move.noConfusion

/-- What is made of readings is what the first character does, and what is made of the rest. A
character that stands behind a token is looked at again. -/
theorem run_char (s : State) (here : Span) (c : Char) (next : Span) (rest : List Reading) :
    run s here (.char c next :: rest) =
      match move s c here with
      | .into s' => run s' next rest
      | .complete t span => .ok ⟨t, span⟩ :: run .fresh next rest
      | .behind t span => .ok ⟨t, span⟩ :: run .fresh here (.char c next :: rest)
      | .fault e => .error ⟨e, here⟩ :: run (recover c) next rest := by
  have hrun : ∀ s, run s here (.char c next :: rest) =
      (feed s c here).1 ++ run (feed s c here).2 next rest := fun s => rfl
  rw [hrun, feed]
  cases hmove : move s c here with
  | into s' => rfl
  | complete t span => rfl
  | fault e => rfl
  | behind t span =>
    rw [hrun .fresh, feed, move]
    cases hbegin : begin c here with
    | behind t' span' => exact absurd hbegin (begin_ne_behind c _ _ t')
    | into s' => rfl
    | complete t' span' => rfl
    | fault e => rfl

theorem lex_cons (s : State) (p : Position) (c : Char) (cs : List Char) :
    lex s p (c :: cs) =
      match move s c (.single p) with
      | .into s' => lex s' (p.after c) cs
      | .complete t span => .ok ⟨t, span⟩ :: lex .fresh (p.after c) cs
      | .behind t span => .ok ⟨t, span⟩ :: lex .fresh p (c :: cs)
      | .fault e => .error ⟨e, .single p⟩ :: lex (recover c) (p.after c) cs :=
  run_char s (.single p) c (.single (p.after c)) (Reading.ofChars (p.after c) cs).1

variable {s r : State} {p : Position} {c : Char} {cs : List Char} {t : Token} {span : Span}

theorem lex_into (h : move s c (.single p) = .into r) :
    lex s p (c :: cs) = lex r (p.after c) cs := by
  rw [lex_cons, h]

theorem lex_complete (h : move s c (.single p) = .complete t span) :
    lex s p (c :: cs) = .ok ⟨t, span⟩ :: lex .fresh (p.after c) cs := by
  rw [lex_cons, h]

/-- A token that nothing of the rest of the text belongs to. -/
theorem lex_behind (hfinish : finish s (.single p) = [.ok ⟨t, span⟩])
    (hmove : ∀ c ∈ cs.head?, move s c (.single p) = .behind t span) :
    lex s p cs = .ok ⟨t, span⟩ :: lex .fresh p cs := by
  cases cs with
  | nil => exact hfinish
  | cons c cs => rw [lex_cons, hmove c rfl]

/-! ## Classes of characters -/

theorem isAlpha_iff :
    c.isAlpha ↔ 65 ≤ c.toNat ∧ c.toNat ≤ 90 ∨ 97 ≤ c.toNat ∧ c.toNat ≤ 122 := by
  unfold Char.isAlpha Char.isUpper Char.isLower
  simp [UInt32.le_iff_toNat_le, ← Char.toNat_val]

theorem isDigit_iff : c.isDigit ↔ 48 ≤ c.toNat ∧ c.toNat ≤ 57 := by
  simp [Char.isDigit, UInt32.le_iff_toNat_le, ← Char.toNat_val]

theorem digit?_eq_some {d : Nat} :
    Text.digit? c = some d ↔ c.isDigit ∧ d = c.toNat - '0'.toNat := by
  have hiff : ('0' ≤ c ∧ c ≤ '9') ↔ c.isDigit = true := by
    rw [Char.isDigit, Bool.and_eq_true, decide_eq_true_iff, decide_eq_true_iff]
    rfl
  rw [Text.digit?]
  split
  · next h => rw [Option.some.injEq, eq_comm, and_iff_right (hiff.mp h)]
  · next h =>
    refine iff_of_false (fun h' => ?_) fun h' => h (hiff.mpr h'.1)
    cases h'

theorem escape?_eq_some {e : Char} : escape? c = some e ↔ (c, e) ∈ escapes := by
  by_cases h : c ∈ escapes.map Prod.fst
  · simp only [escapes, List.map_cons, List.map_nil, List.mem_cons, List.not_mem_nil, or_false] at h
    rcases h with rfl | rfl | rfl | rfl | rfl | rfl <;> simp [escape?, escapes, eq_comm]
  · have hmem : (c, e) ∉ escapes := fun hmem => h (List.mem_map.mpr ⟨_, hmem, rfl⟩)
    simp only [escapes, List.map_cons, List.map_nil, List.mem_cons, List.not_mem_nil, or_false,
      not_or] at h
    simp [escape?, h, hmem]

theorem isWordStart_iff : isWordStart c = true ↔ c.isAlpha ∨ c = '_' := by
  rw [isWordStart, Bool.or_eq_true, beq_iff_eq]

theorem isWordChar_iff : isWordChar c = true ↔ c.isAlphanum ∨ c = '_' := by
  rw [isWordChar, Bool.or_eq_true, beq_iff_eq]

/-- The spelling of a reserved word. -/
theorem spelling_of_ofSpelling? {s : String} {k : Keyword} (h : Keyword.ofSpelling? s = some k) :
    k.spelling = s := by
  have htable : ∀ entry ∈ Keyword.table, entry.2.spelling = entry.1 := by decide
  obtain ⟨front, back, hentry, -⟩ := List.lookup_eq_some_iff.mp h
  have hmem : (s, k) ∈ Keyword.table := by
    rw [hentry]
    exact List.mem_append_right _ List.mem_cons_self
  exact htable _ hmem

theorem ofSpelling?_eq_none {s : String} :
    Keyword.ofSpelling? s = none ↔ s ∉ Keyword.table.map Prod.fst := by
  rw [Keyword.ofSpelling?, List.lookup_eq_none_iff, List.mem_map]
  simp only [bne_iff_ne, not_exists, not_and]
  exact forall₂_congr fun entry _ => ne_comm

/-- A word is a lexeme of the token that the lexer takes it for. -/
theorem spells_wordToken {w : List Char} (hw : IsWord w) : Spells (wordToken w.reverse) w := by
  have hlist : (String.ofList w).toList = w := String.toList_ofList
  simp only [wordToken, List.reverse_reverse]
  split
  · next h =>
    rw [← hlist, h]
    exact .bool true
  · next h₁ =>
    split
    · next h =>
      rw [← hlist, h]
      exact .bool false
    · next h₂ =>
      split
      · next k hk =>
        rw [← hlist, ← spelling_of_ofSpelling? hk]
        exact .keyword k
      · next hk =>
        have hname : IsName (String.ofList w) := by
          refine ⟨hlist.symm ▸ hw, ?_⟩
          rw [reservedWords, List.mem_cons, List.mem_cons, not_or, not_or]
          exact ⟨h₁, h₂, ofSpelling?_eq_none.mp hk⟩
        have hspells := Spells.ident hname
        rwa [hlist] at hspells

theorem wordToken_name {name : String} (h : IsName name) :
    wordToken name.toList.reverse = .ident name := by
  have h₂ := h.2
  rw [reservedWords, List.mem_cons, List.mem_cons, not_or, not_or] at h₂
  simp only [wordToken, List.reverse_reverse, String.ofList_toList, h₂.1, h₂.2.1, if_false,
    ofSpelling?_eq_none.mpr h₂.2.2]

theorem wordToken_keyword (k : Keyword) : wordToken k.spelling.toList.reverse = .keyword k := by
  cases k <;> rfl

end Lexer

/-! ## Tokens and faults -/

/-- A source has tokens exactly if the lexer makes nothing but tokens of it. -/
theorem tokenize_eq_ok_iff {rs : List Reading} {ts : List (Located Token)} :
    tokenize rs = .ok ts ↔ lexemes rs = ts.map .ok := by
  have hfaults : ∀ ls, faults ls = [] → ls = (tokensOf ls).map .ok := by
    intro ls
    induction ls with
    | nil => exact fun _ => rfl
    | cons l ls ih =>
      cases l with
      | error e => exact fun h => absurd h (List.cons_ne_nil e _)
      | ok t => exact fun h => congrArg (.ok t :: ·) (ih h)
  have htokens : ∀ ts : List (Located Token),
      faults (ts.map .ok) = [] ∧ tokensOf (ts.map .ok) = ts := by
    intro ts
    induction ts with
    | nil => exact ⟨rfl, rfl⟩
    | cons t ts ih => exact ⟨ih.1, congrArg (t :: ·) ih.2⟩
  rw [tokenize]
  constructor
  · intro h
    split at h
    · next hnone =>
      rw [← Except.ok.inj h]
      exact hfaults _ hnone
    · cases h
  · intro h
    rw [h, (htokens ts).1, (htokens ts).2]

/-- An unreadable line is a fault. -/
theorem Lexer.run_unreadable {rs : List Reading} (h : .unreadable ∈ rs) (s : State) (here : Span) :
    ∃ e, .error e ∈ run s here rs := by
  induction rs generalizing s here with
  | nil => exact absurd h List.not_mem_nil
  | cons r rs ih =>
    cases r with
    | unreadable => exact ⟨_, List.mem_cons_self⟩
    | char c next =>
      obtain ⟨e, he⟩ := ih (List.mem_of_ne_of_mem Reading.noConfusion h) (feed s c here).2 next
      exact ⟨e, List.mem_append_right _ he⟩

/-- Every line of a source with tokens can be read. -/
theorem readable_of_tokenize {bytes : List UInt8} {ts : List (Located Token)}
    (h : tokenize (readings bytes) = .ok ts) : Line.Readable (Line.ofBytes bytes) := by
  refine Reading.readable_of_ofLines (p := .origin) fun hmem => ?_
  obtain ⟨e, he⟩ := Lexer.run_unreadable hmem .fresh Reader.start
  have hlexemes : .error e ∈ lexemes (readings bytes) := he
  rw [tokenize_eq_ok_iff.mp h] at hlexemes
  obtain ⟨t, -, ht⟩ := List.mem_map.mp hlexemes
  cases ht

/-- The lexer on a source that can be read. -/
theorem lexemes_eq_lex {bytes : List UInt8} (h : Line.Readable (Line.ofBytes bytes)) :
    lexemes (readings bytes) = Lexer.lex .fresh .origin (Line.delivery (Line.ofBytes bytes)) := by
  rw [lexemes, readings_eq_ofChars h]
  rfl

end OnePass
