import OnePass.Machine.Format
import OnePass.Proofs.Lexing

/-!
# The grammar of format strings

A format string is a sequence of `Piece`s: characters that stand for themselves, braces written
twice, and digits in braces. Main statement: `compose` takes exactly the strings that are written
in valid pieces, and puts together what each of them stands for (`compose_grammar`).

The function reads one character at a time and keeps what it has read of the present piece as a
`Mode`; so both directions are about what is still to be read behind a `Mode.read`.
-/

namespace OnePass

namespace Format

/-- Whether a character is a brace. -/
def isBrace (c : Char) : Bool := c = '\x7b' || c = '\x7d'

/-- A piece of a format string. -/
inductive Piece where
  /-- a character -/
  | plain (c : Char)
  /-- a brace written twice -/
  | twice (brace : Char)
  /-- the number of a value in braces -/
  | place (digits : List Char)
  deriving DecidableEq, Repr

namespace Piece

/-- What a piece is written as. -/
def spelling : Piece → List Char
  | plain c => [c]
  | twice c => [c, c]
  | place digits => '\x7b' :: digits ++ ['\x7d']

/-- A piece may stand in a format for the values `args`: what is written once is no brace, what is
written twice is one, and a place names a value that has a text. -/
def Valid (args : List Value) : Piece → Prop
  | plain c => isBrace c = false
  | twice c => isBrace c = true
  | place digits => digits ≠ [] ∧ (∀ d ∈ digits, d.isDigit) ∧
      ∃ v, args[decimalValue digits]? = some v ∧ v.kind ≠ .array

/-- What a piece stands for. The text of a value is taken as it is. -/
def text (args : List Value) : Piece → List Char
  | plain c => [c]
  | twice c => [c]
  | place digits => ((args[decimalValue digits]?).bind valueText).getD []

end Piece

/-- What has been read of the present piece. -/
def Mode.read : Mode → List Char
  | .text => []
  | .opened => ['\x7b']
  | .digits read => '\x7b' :: read
  | .closed => ['\x7d']

/-- What has been read between braces are digits, and there is at least one. -/
def Mode.Sound : Mode → Prop
  | .digits read => read ≠ [] ∧ ∀ d ∈ read, d.isDigit
  | _ => True

variable {args : List Value} {digits cs out : List Char} {m : Mode} {c : Char}

/-! ## Values -/

/-- Only arrays have no text. -/
theorem isSome_valueText (v : Value) : (valueText v).isSome ↔ v.kind ≠ .array := by
  cases v <;> simp [valueText, Value.kind]

/-- The number that digits stand for. -/
theorem natural?_eq (hne : digits ≠ []) (hdigits : ∀ d ∈ digits, d.isDigit) :
    Text.natural? digits = some (decimalValue digits) := by
  have hvalue (n : Nat) : Text.digitsValue? n digits = some (Nat.ofDigitChars 10 digits n) := by
    clear hne
    induction digits generalizing n with
    | nil => rfl
    | cons d ds ih =>
      have hd : Text.digit? d = some (d.toNat - '0'.toNat) :=
        Lexer.digit?_eq_some.mpr ⟨hdigits d (.head _), rfl⟩
      rw [Text.digitsValue?, hd, Nat.ofDigitChars_cons, Nat.mul_comm]
      exact ih (fun e he => hdigits e (.tail _ he)) _
  rw [Text.natural?, if_neg (by simpa using hne)]
  exact hvalue 0

/-- A place is filled exactly if it is valid. -/
theorem placeholder_eq_some (hne : digits ≠ []) (hdigits : ∀ d ∈ digits, d.isDigit) :
    placeholder args digits = some out ↔
      (Piece.place digits).Valid args ∧ (Piece.place digits).text args = out := by
  have heq : placeholder args digits = (args[decimalValue digits]?).bind valueText := by
    rw [placeholder, natural?_eq hne hdigits]
    rfl
  rw [heq, Piece.Valid, Piece.text]
  cases args[decimalValue digits]? with
  | none => simp
  | some v =>
    have hsome := isSome_valueText v
    cases ht : valueText v with
    | none => simp_all
    | some t => simp_all

/-! ## Steps -/

/-- A character either goes on with a piece or ends one. -/
theorem next_eq_some {t : List Char} {m' : Mode} (hm : m.Sound)
    (h : next args m c = some (t, m')) :
    (t = [] ∧ m'.Sound ∧ m'.read = m.read ++ [c]) ∨
      (m' = .text ∧ ∃ p : Piece, p.Valid args ∧ p.spelling = m.read ++ [c] ∧ t = p.text args) := by
  -- What has been read inside a placeholder decides what a character means there.
  cases m with
  | text =>
    simp only [next] at h
    split at h
    · next hc =>
      cases h
      exact .inl ⟨rfl, trivial, by rw [hc]; rfl⟩
    · split at h
      · next hc =>
        cases h
        exact .inl ⟨rfl, trivial, by rw [hc]; rfl⟩
      · next hopen hclose =>
        cases h
        exact .inr ⟨rfl, .plain c, by simp [Piece.Valid, isBrace, hopen, hclose], rfl, rfl⟩
  -- Behind a brace stands another one, or a digit of a placeholder.
  | opened =>
    simp only [next] at h
    split at h
    · next hc =>
      cases h
      exact .inr ⟨rfl, .twice c, by rw [hc]; rfl, by rw [hc]; rfl, rfl⟩
    · split at h
      · next hdigit =>
        cases h
        exact .inl ⟨rfl, ⟨List.cons_ne_nil _ _, by simpa using hdigit⟩, rfl⟩
      · cases h
  -- A placeholder ends at its closing brace, and refers to an argument then.
  | digits read =>
    simp only [next] at h
    split at h
    · next hc =>
      obtain ⟨out, hout, hstep⟩ := Option.map_eq_some_iff.mp h
      cases hstep
      obtain ⟨hvalid, htext⟩ := (placeholder_eq_some hm.1 hm.2).mp hout
      exact .inr ⟨rfl, .place read, hvalid, by rw [hc]; rfl, htext.symm⟩
    · split at h
      · next hdigit =>
        cases h
        refine .inl ⟨rfl, ⟨by simp, fun d hd => ?_⟩, rfl⟩
        rcases List.mem_append.mp hd with hd | hd
        · exact hm.2 d hd
        · rw [List.mem_singleton.mp hd]
          exact hdigit
      · cases h
  -- A closing brace outside of placeholders stands for itself only if it is doubled.
  | closed =>
    simp only [next] at h
    split at h
    · next hc =>
      cases h
      exact .inr ⟨rfl, .twice c, by rw [hc]; rfl, by rw [hc]; rfl, rfl⟩
    · cases h

theorem fill_cons : fill args m (c :: cs) =
    (next args m c).bind fun step => (fill args step.2 cs).map (step.1 ++ ·) := by
  show (do
    let step ← next args m c
    let rest ← fill args step.2 cs
    return step.1 ++ rest) = _
  cases next args m c with
  | none => rfl
  | some step => cases h : fill args step.2 cs <;> simp [h]

/-- A character that ends a piece. -/
theorem fill_cons_of_ends {t : List Char} (h : next args m c = some (t, .text)) :
    fill args m (c :: cs) = (fill args .text cs).map (t ++ ·) := by
  rw [fill_cons, h]
  rfl

/-- A character that goes on with a piece. -/
theorem fill_cons_of_into {m' : Mode} (h : next args m c = some ([], m')) :
    fill args m (c :: cs) = fill args m' cs := by
  rw [fill_cons, h]
  exact Option.map_id_apply

theorem fill_opening : fill args .text ('\x7b' :: cs) = fill args .opened cs :=
  fill_cons_of_into rfl

theorem fill_closing : fill args .text ('\x7d' :: cs) = fill args .closed cs :=
  fill_cons_of_into rfl

/-! ## Runs -/

/-- What is read is valid pieces, the first of which begins with what has been read of it. -/
theorem exists_pieces (hm : m.Sound) (h : fill args m cs = some out) :
    ∃ ps : List Piece, (∀ p ∈ ps, p.Valid args) ∧ m.read ++ cs = ps.flatMap Piece.spelling ∧
      ps.flatMap (Piece.text args) = out := by
  -- the next character either belongs to the piece that has been begun or is the last one of it
  induction cs generalizing m out with
  | nil =>
    rw [fill] at h
    split at h
    · next hm =>
      cases h
      exact ⟨[], nofun, by rw [hm]; rfl, rfl⟩
    · cases h
  | cons c cs ih =>
    rw [fill_cons] at h
    obtain ⟨⟨t, m'⟩, hnext, hstep⟩ := Option.bind_eq_some_iff.mp h
    obtain ⟨rest, hrest, rfl⟩ := Option.map_eq_some_iff.mp hstep
    obtain ⟨rfl, hm', hread⟩ | ⟨rfl, p, hp, hspelling, rfl⟩ := next_eq_some hm hnext
    · obtain ⟨ps, hvalid, hps, htext⟩ := ih hm' hrest
      exact ⟨ps, hvalid, by rw [← hps, hread, List.append_assoc]; rfl, htext⟩
    · obtain ⟨ps, hvalid, hps, htext⟩ := ih (m := .text) trivial hrest
      refine ⟨p :: ps, List.forall_mem_cons.mpr ⟨hp, hvalid⟩, ?_, ?_⟩
      · rw [List.flatMap_cons, hspelling, ← hps, List.append_assoc]
        rfl
      · rw [List.flatMap_cons, htext]

/-- Digits are kept until the brace is closed. -/
theorem fill_digits (read : List Char) (hdigits : ∀ d ∈ digits, d.isDigit) :
    fill args (.digits read) (digits ++ cs) = fill args (.digits (read ++ digits)) cs := by
  induction digits generalizing read with
  | nil => rw [List.nil_append, List.append_nil]
  | cons d ds ih =>
    have hd : d.isDigit := hdigits d (.head _)
    have hne : d ≠ '\x7d' := by
      rintro rfl
      cases hd
    have hnext : next args (.digits read) d = some ([], .digits (read ++ [d])) := by
      simp [next, hd, hne]
    rw [List.cons_append, fill_cons_of_into hnext, ih _ fun e he => hdigits e (.tail _ he),
      List.append_assoc]
    rfl

/-- A valid piece is read as what it stands for. -/
theorem fill_spelling {p : Piece} (hp : p.Valid args) :
    fill args .text (p.spelling ++ cs) = (fill args .text cs).map (p.text args ++ ·) := by
  cases p with
  | plain c =>
    have hnext : next args .text c = some ([c], .text) := by
      simp_all [Piece.Valid, isBrace, next]
    exact fill_cons_of_ends hnext
  | twice c =>
    have hc : c = '\x7b' ∨ c = '\x7d' := by simpa [Piece.Valid, isBrace] using hp
    rw [Piece.spelling, List.cons_append, List.singleton_append]
    rcases hc with rfl | rfl
    · rw [fill_opening, fill_cons_of_ends rfl]
      rfl
    · rw [fill_closing, fill_cons_of_ends rfl]
      rfl
  | place digits =>
    obtain ⟨hne, hdigits, -⟩ := id hp
    obtain ⟨d, ds, rfl⟩ := List.exists_cons_of_ne_nil hne
    have hd : d.isDigit := hdigits d (.head _)
    have hopen : d ≠ '\x7b' := by
      rintro rfl
      cases hd
    have hfirst : next args .opened d = some ([], .digits [d]) := by simp [next, hd, hopen]
    have hlast : next args (.digits (d :: ds)) '\x7d' =
        some ((Piece.place (d :: ds)).text args, .text) := by
      simp [next, (placeholder_eq_some hne hdigits).mpr ⟨hp, rfl⟩]
    rw [Piece.spelling, List.append_assoc, List.cons_append, List.cons_append, fill_opening,
      fill_cons_of_into hfirst, fill_digits _ fun e he => hdigits e (.tail _ he)]
    exact fill_cons_of_ends hlast

/-- Valid pieces are read as what they stand for, whatever stands behind them. -/
theorem fill_spellings {ps : List Piece} (hps : ∀ p ∈ ps, p.Valid args) :
    fill args .text (ps.flatMap Piece.spelling ++ cs) =
      (fill args .text cs).map (ps.flatMap (Piece.text args) ++ ·) := by
  induction ps with
  | nil => exact Option.map_id_apply.symm
  | cons p ps ih =>
    obtain ⟨hp, hps⟩ := List.forall_mem_cons.mp hps
    rw [List.flatMap_cons, List.append_assoc, fill_spelling hp, ih hps, Option.map_map,
      List.flatMap_cons]
    congr 1
    funext rest
    exact (List.append_assoc ..).symm

/-- The strings that are taken are those that are written in valid pieces. -/
theorem fill_text_eq_some : fill args .text cs = some out ↔
    ∃ ps : List Piece, (∀ p ∈ ps, p.Valid args) ∧ cs = ps.flatMap Piece.spelling ∧
      ps.flatMap (Piece.text args) = out := by
  constructor
  · exact exists_pieces (m := .text) trivial
  · rintro ⟨ps, hps, rfl, rfl⟩
    rw [← List.append_nil (ps.flatMap Piece.spelling), fill_spellings hps, fill, if_pos rfl,
      Option.map_some, List.append_nil]

/-! ## There is only one way to cut a format string -/

/-- Digits end where a brace is closed. -/
theorem digits_inj {ds es ds' es' : List Char} (hd : ∀ d ∈ ds, d.isDigit)
    (he : ∀ e ∈ es, e.isDigit) (h : ds ++ '\x7d' :: ds' = es ++ '\x7d' :: es') :
    ds = es ∧ ds' = es' := by
  induction ds generalizing es with
  | nil =>
    cases es with
    | nil => exact ⟨rfl, (List.cons.inj h).2⟩
    | cons e es =>
      obtain ⟨rfl, -⟩ := List.cons.inj h
      cases he _ (.head _)
  | cons d ds ih =>
    cases es with
    | nil =>
      obtain ⟨rfl, -⟩ := List.cons.inj h
      cases hd _ (.head _)
    | cons e es =>
      obtain ⟨rfl, hrest⟩ := List.cons.inj h
      obtain ⟨rfl, rfl⟩ := ih (fun d h => hd d (.tail _ h)) (fun e h => he e (.tail _ h)) hrest
      exact ⟨rfl, rfl⟩

/-- What stands behind the opening brace of a place is a digit. -/
theorem digits_of_place (h : (Piece.place digits).Valid args) :
    ∃ d ds, digits = d :: ds ∧ d ≠ '\x7b' := by
  obtain ⟨hne, hdigits, -⟩ := h
  obtain ⟨d, ds, rfl⟩ := List.exists_cons_of_ne_nil hne
  refine ⟨d, ds, rfl, ?_⟩
  rintro rfl
  cases hdigits _ (.head _)

/-- The first piece is known from what it is written as. -/
theorem spelling_inj {p q : Piece} {ds : List Char} (hp : p.Valid args) (hq : q.Valid args)
    (h : p.spelling ++ cs = q.spelling ++ ds) : p = q ∧ cs = ds := by
  cases p with
  | plain c =>
    cases q with
    | plain e => simpa [Piece.spelling] using h
    -- Braces and other characters are told apart by the first character.
    | twice e =>
      obtain ⟨rfl, -⟩ := List.cons.inj h
      cases hp.symm.trans hq
    | place es =>
      obtain ⟨rfl, -⟩ := List.cons.inj h
      cases hp
  | twice c =>
    cases q with
    | plain e =>
      obtain ⟨rfl, -⟩ := List.cons.inj h
      cases hp.symm.trans hq
    | twice e => simpa [Piece.spelling] using h
    -- A doubled brace and a placeholder are told apart by the second character.
    | place es =>
      obtain ⟨d, ds', rfl, hne⟩ := digits_of_place hq
      obtain ⟨rfl, hrest⟩ := List.cons.inj h
      exact absurd (List.cons.inj hrest).1.symm hne
  | place es =>
    cases q with
    | plain e =>
      obtain ⟨rfl, -⟩ := List.cons.inj h
      cases hq
    | twice e =>
      obtain ⟨d, ds', rfl, hne⟩ := digits_of_place hp
      obtain ⟨rfl, hrest⟩ := List.cons.inj h
      exact absurd (List.cons.inj hrest).1 hne
    -- Two placeholders are told apart by their digits, which end at the closing brace.
    | place es' =>
      have hdigits : es ++ '\x7d' :: cs = es' ++ '\x7d' :: ds := by
        simpa [Piece.spelling] using h
      obtain ⟨rfl, rfl⟩ := digits_inj hp.2.1 hq.2.1 hdigits
      exact ⟨rfl, rfl⟩

/-- Pieces are known from what they are written as. -/
theorem spellings_inj {ps qs : List Piece} (hps : ∀ p ∈ ps, p.Valid args)
    (hqs : ∀ q ∈ qs, q.Valid args)
    (h : ps.flatMap Piece.spelling = qs.flatMap Piece.spelling) : ps = qs := by
  have hne (p : Piece) : p.spelling ≠ [] := by cases p <;> exact List.cons_ne_nil _ _
  induction ps generalizing qs with
  | nil =>
    cases qs with
    | nil => rfl
    | cons q qs => exact absurd (List.append_eq_nil_iff.mp h.symm).1 (hne q)
  | cons p ps ih =>
    cases qs with
    | nil => exact absurd (List.append_eq_nil_iff.mp h).1 (hne p)
    | cons q qs =>
      obtain ⟨hp, hps⟩ := List.forall_mem_cons.mp hps
      obtain ⟨hq, hqs'⟩ := List.forall_mem_cons.mp hqs
      obtain ⟨rfl, hrest⟩ := spelling_inj hp hq h
      rw [ih hps hqs' hrest]

/-! ## Texts with doubled braces -/

/-- A text with each of its braces written twice. -/
def doubled (s : String) : String :=
  .ofList (s.toList.flatMap fun c => if isBrace c then [c, c] else [c])

/-- The piece that a character of a text is written as. -/
def Piece.ofChar (c : Char) : Piece := if isBrace c then twice c else plain c

theorem Piece.valid_ofChar (c : Char) : (ofChar c).Valid args := by
  unfold ofChar
  split
  · assumption
  · next h => simpa [Valid] using h

theorem Piece.spelling_ofChar (c : Char) :
    (ofChar c).spelling = if isBrace c then [c, c] else [c] := by
  unfold ofChar
  split <;> rfl

theorem Piece.text_ofChar (c : Char) : (ofChar c).text args = [c] := by
  unfold ofChar
  split <;> rfl

end Format

variable {args : List Value} {format out : String}

theorem compose_eq_some : compose format args = some out ↔
    Format.fill args .text format.toList = some out.toList := by
  rw [compose, Option.map_eq_some_iff]
  constructor
  · rintro ⟨text, htext, rfl⟩
    rwa [String.toList_ofList]
  · intro h
    exact ⟨_, h, String.ofList_toList⟩

/-- What stands behind a format string is read on its own. -/
theorem compose_append {f g x : String} (h : compose f args = some x) :
    compose (f ++ g) args = (compose g args).map (x ++ ·) := by
  obtain ⟨ps, hps, hf, hx⟩ := Format.fill_text_eq_some.mp (compose_eq_some.mp h)
  rw [compose, compose, String.toList_append, hf, Format.fill_spellings hps, Option.map_map,
    Option.map_map, hx]
  congr 1
  funext rest
  simp

/-- A text whose braces are written twice is a format string of that text. -/
theorem compose_doubled (s : String) : compose (Format.doubled s) args = some s := by
  rw [compose_eq_some, Format.fill_text_eq_some]
  refine ⟨s.toList.map Format.Piece.ofChar, fun p hp => ?_, ?_, ?_⟩
  · obtain ⟨c, -, rfl⟩ := List.mem_map.mp hp
    exact Format.Piece.valid_ofChar c
  · simp only [Format.doubled, String.toList_ofList, List.flatMap_map,
      Format.Piece.spelling_ofChar]
  · simp only [List.flatMap_map, Format.Piece.text_ofChar, List.flatMap_singleton']

/-- **Format strings are what is written in valid pieces.** A format string is taken exactly if it
can be cut into characters that are no braces, braces written twice, and numbers in braces of values
that have a text; there is one way to cut it, and the result is what the pieces stand for. So what
stands behind a format string is read on its own, and a text whose braces are written twice comes
out as it is. -/
theorem compose_grammar (args : List Value) :
    (∀ format out : String, compose format args = some out ↔
      ∃! ps : List Format.Piece, (∀ p ∈ ps, p.Valid args) ∧
        format.toList = ps.flatMap Format.Piece.spelling ∧
        ps.flatMap (Format.Piece.text args) = out.toList) ∧
    (∀ f g x : String, compose f args = some x →
      compose (f ++ g) args = (compose g args).map (x ++ ·)) ∧
    ∀ s : String, compose (Format.doubled s) args = some s := by
  refine ⟨fun format out => ?_, fun f g x => compose_append, compose_doubled⟩
  rw [compose_eq_some, Format.fill_text_eq_some]
  constructor
  · rintro ⟨ps, hps, hformat, hout⟩
    exact ⟨ps, ⟨hps, hformat, hout⟩, fun qs ⟨hqs, hformat', _⟩ =>
      Format.spellings_inj hqs hps (hformat'.symm.trans hformat)⟩
  · rintro ⟨ps, h, -⟩
    exact ⟨ps, h⟩

/-- A brace written twice, with a place and another such brace behind it. -/
theorem compose_grammar_braces :
    compose "\x7b\x7b" [.boxed .bool 1] = some "\x7b" ∧
      compose ("\x7b\x7b" ++ "\x7b0\x7d\x7d\x7d") [.boxed .bool 1] = some "\x7bTrue\x7d" := by
  have hfirst : compose "\x7b\x7b" [.boxed .bool 1] = some "\x7b" := by decide
  have hrest : compose "\x7b0\x7d\x7d\x7d" [.boxed .bool 1] = some "True\x7d" := by decide
  refine ⟨hfirst, ?_⟩
  rw [(compose_grammar [.boxed .bool 1]).2.1 _ _ _ hfirst, hrest]
  rfl

end OnePass
