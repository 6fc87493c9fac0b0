import OnePass.Proofs.LineStreams
import OnePass.Proofs.TokenLayout

/-!
# Block comments nest and are white space

Main statement: behind lines without a fault, a block comment is as good as a blank, whatever
follows it, and one that is not ended is the one fault of its text (`lexemes_blockComment`).

Where a comment ends is said of the text alone, by a scan that takes openings and closings from left
to right (`behindComments`); it ends a comment where the grammar of nested comments does
(`nest_iff`). The lexer, which keeps a depth and one character, goes along with the scan
(`Lexer.made_inside`), and uniform line endings have no part in it (`Delivered.behindComments`).
-/

namespace OnePass

/-! ## The end of a comment -/

/-- What stands behind the ends of `depth` block comments, nested in one another. Openings and
closings are taken from left to right, and no character belongs to two of them. -/
def behindComments : Nat → List Char → Option (List Char)
  | 0, text => some text
  | _ + 1, [] => none
  | depth + 1, '/' :: '*' :: text => behindComments (depth + 2) text
  | depth + 1, '*' :: '/' :: text => behindComments depth text
  | depth + 1, _ :: text => behindComments (depth + 1) text

/-- How deep the scan that ends `depth` comments is inside of comments at most. -/
def deepest : Nat → List Char → Nat
  | 0, _ => 0
  | depth + 1, [] => depth + 1
  | depth + 1, '/' :: '*' :: text => deepest (depth + 2) text
  | depth + 1, '*' :: '/' :: text => max (depth + 1) (deepest depth text)
  | depth + 1, _ :: text => deepest (depth + 1) text

variable {depth : Nat} {c d : Char} {text more rest w cs ds : List Char}

theorem behindComments_other (hopen : c = '/' → text.head? ≠ some '*')
    (hclose : c = '*' → text.head? ≠ some '/') :
    behindComments (depth + 1) (c :: text) = behindComments (depth + 1) text := by
  rw [behindComments]
  · rintro more rfl rfl
    exact hopen rfl rfl
  · rintro more rfl rfl
    exact hclose rfl rfl

theorem deepest_other (hopen : c = '/' → text.head? ≠ some '*')
    (hclose : c = '*' → text.head? ≠ some '/') :
    deepest (depth + 1) (c :: text) = deepest (depth + 1) text := by
  rw [deepest]
  · rintro more rfl rfl
    exact hopen rfl rfl
  · rintro more rfl rfl
    exact hclose rfl rfl

/-- What stands behind the end of comments does not count. -/
theorem deepest_append (h : behindComments depth text = some rest) (more : List Char) :
    deepest depth (text ++ more) = deepest depth text := by
  fun_induction behindComments depth text with
  | case1 text => rw [deepest, deepest]
  | case2 depth => cases h
  | case3 depth text ih => exact ih h
  | case4 depth text ih => exact congrArg (max (depth + 1)) (ih h)
  | case5 depth c text hopen hclose ih =>
    have htext : text ≠ [] := by
      rintro rfl
      cases h
    obtain ⟨d, text, rfl⟩ := List.exists_cons_of_ne_nil htext
    have hopen' : c = '/' → (d :: text).head? ≠ some '*' := fun hc hd =>
      hopen _ hc (congrArg (· :: text) (Option.some.inj hd))
    have hclose' : c = '*' → (d :: text).head? ≠ some '/' := fun hc hd =>
      hclose _ hc (congrArg (· :: text) (Option.some.inj hd))
    rw [List.cons_append, deepest_other hopen' hclose', deepest_other, ih h]
    · exact hopen'
    · exact hclose'

/-- What ends comments ends them in front of any text. -/
theorem behindComments_append (h : behindComments depth text = some rest) (more : List Char) :
    behindComments depth (text ++ more) = some (rest ++ more) := by
  fun_induction behindComments depth text with
  | case1 text =>
    rw [Option.some.inj h, behindComments]
  | case2 depth => cases h
  | case3 depth text ih => exact ih h
  | case4 depth text ih => exact ih h
  | case5 depth c text hopen hclose ih =>
    have htext : text ≠ [] := by
      rintro rfl
      cases h
    obtain ⟨d, text, rfl⟩ := List.exists_cons_of_ne_nil htext
    rw [List.cons_append, behindComments_other, ih h]
    · rintro rfl hd
      exact hopen _ rfl (congrArg (· :: text) (Option.some.inj hd))
    · rintro rfl hd
      exact hclose _ rfl (congrArg (· :: text) (Option.some.inj hd))

theorem Nest.behindComments (h : Nest w) (rest : List Char) :
    behindComments (depth + 1) (w ++ rest) = OnePass.behindComments depth rest := by
  induction h generalizing depth rest with
  | close => rfl
  | level _ _ ihu ihv =>
    rw [List.cons_append, List.cons_append, List.append_assoc, OnePass.behindComments, ihu, ihv]
  | @other c u hopen hclose hu ih =>
    have hhead : (u ++ rest).head? = u.head? := by
      cases hu <;> rfl
    rw [List.cons_append, behindComments_other (hhead ▸ hopen) (hhead ▸ hclose), ih]

theorem closes_of_behindComments (h : behindComments depth w = some []) : Closes depth w := by
  fun_induction behindComments depth w with
  | case1 w => exact Option.some.inj h
  | case2 depth => cases h
  | case3 depth w ih => exact (ih h).opening
  | case4 depth w ih => exact (ih h).closing
  | case5 depth c w hopen hclose ih =>
    refine (ih h).other (fun hc hw => ?_) fun hc hw => ?_
    · obtain ⟨more, rfl⟩ := List.head?_eq_some_iff.mp hw
      exact hopen more hc rfl
    · obtain ⟨more, rfl⟩ := List.head?_eq_some_iff.mp hw
      exact hclose more hc rfl

/-- The scan and the grammar agree on what follows the `/*` of a comment up to its own `*/`. -/
theorem nest_iff : Nest w ↔ behindComments 1 w = some [] := by
  constructor
  · intro h
    have hbehind : behindComments 1 (w ++ []) = some [] := h.behindComments []
    rwa [List.append_nil] at hbehind
  · intro h
    exact Closes.one_iff.mp (closes_of_behindComments h)

/-! ## Line endings -/

/-- `ds` is delivered of what is left of a text, `cs`. Where nothing is left, the end of the last
line may be. -/
def Delivered (cs ds : List Char) : Prop := ds = Text.normalLines cs ∨ cs = [] ∧ ds = ['\n']

namespace Delivered

/-- A character is delivered, unless it is a carriage return before a line feed. -/
theorem of_cons (h : Delivered (c :: cs) ds) :
    (c = '\r' ∧ ds.head? = some '\n' ∧ Delivered cs ds) ∨ ∃ es, ds = c :: es ∧ Delivered cs es := by
  obtain rfl | ⟨hnil, -⟩ := h
  · by_cases hnil : cs = []
    · subst hnil
      by_cases hc : c = '\n'
      · subst hc
        exact .inr ⟨[], rfl, .inl rfl⟩
      · exact .inr ⟨['\n'], Text.normalLines_of_not_mem (by simpa using Ne.symm hc) (by simp),
          .inr ⟨rfl, rfl⟩⟩
    · by_cases hreturn : c = '\r' ∧ cs.head? = some '\n'
      · obtain ⟨rfl, hhead⟩ := hreturn
        obtain ⟨more, rfl⟩ := List.head?_eq_some_iff.mp hhead
        exact .inl ⟨rfl, rfl, .inl rfl⟩
      · exact .inr ⟨_, Text.normalLines_cons (not_and.mp hreturn) hnil, .inl rfl⟩
  · cases hnil

theorem cons_of_ne (h : Delivered (c :: cs) ds) (hc : c ≠ '\r') :
    ∃ es, ds = c :: es ∧ Delivered cs es :=
  h.of_cons.resolve_left fun hreturn => hc hreturn.1

/-- Only a line feed may stand in front that did not before. -/
theorem head?_eq (h : Delivered cs ds) (hd : d ≠ '\n') (hhead : ds.head? = some d) :
    cs.head? = some d := by
  cases cs with
  | nil =>
    obtain rfl | ⟨-, rfl⟩ := h
    · exact hhead
    · exact absurd (Option.some.inj hhead).symm hd
  | cons c cs =>
    obtain ⟨-, hline, -⟩ | ⟨es, rfl, -⟩ := h.of_cons
    · exact absurd (Option.some.inj (hhead.symm.trans hline)) hd
    · exact hhead

/-- Comments end in what is delivered where they end in the text. -/
theorem behindComments (h : Delivered cs ds) :
    Option.Rel Delivered (behindComments depth cs) (OnePass.behindComments depth ds) := by
  fun_induction OnePass.behindComments depth cs generalizing ds with
  | case1 cs =>
    rw [OnePass.behindComments]
    exact .some h
  | case2 depth =>
    obtain rfl | ⟨-, rfl⟩ := h <;> exact .none
  | case3 depth cs ih =>
    obtain ⟨_, rfl, h₁⟩ := h.cons_of_ne (by decide)
    obtain ⟨_, rfl, h₂⟩ := h₁.cons_of_ne (by decide)
    exact ih h₂
  | case4 depth cs ih =>
    obtain ⟨_, rfl, h₁⟩ := h.cons_of_ne (by decide)
    obtain ⟨_, rfl, h₂⟩ := h₁.cons_of_ne (by decide)
    exact ih h₂
  | case5 depth c cs hopen hclose ih =>
    -- a carriage return that is left out is no part of a pair, and no pair arises in its place
    obtain ⟨-, -, hrest⟩ | ⟨es, rfl, hrest⟩ := h.of_cons
    · exact ih hrest
    · rw [behindComments_other]
      · exact ih hrest
      · intro hc hhead
        obtain ⟨more, rfl⟩ := List.head?_eq_some_iff.mp (hrest.head?_eq (by decide) hhead)
        exact hopen more hc rfl
      · intro hc hhead
        obtain ⟨more, rfl⟩ := List.head?_eq_some_iff.mp (hrest.head?_eq (by decide) hhead)
        exact hclose more hc rfl

/-- And the scan is as deep inside of them on the way. -/
theorem deepest_eq (h : Delivered cs ds) : deepest depth ds = deepest depth cs := by
  fun_induction deepest depth cs generalizing ds with
  | case1 cs => rw [deepest]
  | case2 depth =>
    obtain rfl | ⟨-, rfl⟩ := h
    · rfl
    · exact deepest_other (by decide : _ → [].head? ≠ some '*') (by decide)
  | case3 depth cs ih =>
    obtain ⟨_, rfl, h₁⟩ := h.cons_of_ne (by decide)
    obtain ⟨_, rfl, h₂⟩ := h₁.cons_of_ne (by decide)
    exact ih h₂
  | case4 depth cs ih =>
    obtain ⟨_, rfl, h₁⟩ := h.cons_of_ne (by decide)
    obtain ⟨_, rfl, h₂⟩ := h₁.cons_of_ne (by decide)
    exact congrArg (max (depth + 1)) (ih h₂)
  | case5 depth c cs hopen hclose ih =>
    obtain ⟨-, -, hrest⟩ | ⟨es, rfl, hrest⟩ := h.of_cons
    · exact ih hrest
    · rw [deepest_other]
      · exact ih hrest
      · intro hc hhead
        obtain ⟨more, rfl⟩ := List.head?_eq_some_iff.mp (hrest.head?_eq (by decide) hhead)
        exact hopen more hc rfl
      · intro hc hhead
        obtain ⟨more, rfl⟩ := List.head?_eq_some_iff.mp (hrest.head?_eq (by decide) hhead)
        exact hclose more hc rfl

end Delivered

/-! ## Comments and the lexer -/

namespace Lexer

variable {s r : State} {p : Position} {last : Option Char}

/-- What the lexer makes of a text from the state `s` on, without any places. -/
def made (s : State) (text : List Char) : List Lexeme := (lex s .origin text).map Lexeme.unplaced

theorem map_unplaced_lex (s : State) (p : Position) (text : List Char) :
    (lex s p text).map Lexeme.unplaced = made s text :=
  lex_unplaced rfl text

theorem made_into (h : move s c (.single .origin) = .into r) :
    made s (c :: text) = made r text := by
  rw [made, lex_into h, map_unplaced_lex]

/-- Inside `depth` block comments, behind characters that neither open nor close one any more. -/
def State.inside : Nat → State
  | 0 => .fresh
  | depth + 1 => .comment (.ofNat (depth + 1)) none

/-- A character that makes no pair with the next one is forgotten. -/
theorem made_forget {depth : UInt32} (hopen : last = some '/' → text.head? ≠ some '*')
    (hclose : last = some '*' → text.head? ≠ some '/') :
    made (.comment depth last) text = made (.comment depth none) text := by
  cases text with
  | nil => rfl
  | cons c text =>
    have hpair {d e : Char} (h : last = some d → (c :: text).head? ≠ some e) :
        (decide (last = some d) && decide (c = e)) = false := by
      rw [Bool.and_eq_false_iff, decide_eq_false_iff_not, decide_eq_false_iff_not, ← not_and_or]
      exact fun ⟨hlast, hc⟩ => h hlast (congrArg some hc)
    have hfeed : feed (.comment depth last) c = feed (.comment depth none) c := by
      funext here
      simp [feed, move, commentMove, hpair hopen, hpair hclose]
    rw [made, made, lex_feed, lex_feed, hfeed]

/-- A star and a slash end one comment, as long as their number has not begun anew. -/
theorem move_close (h : depth + 1 < UInt32.size) :
    move (.comment (.ofNat (depth + 1)) (some '*')) '/' (.single .origin)
      = .into (.inside depth) := by
  cases depth with
  | zero => rfl
  | succ depth =>
    have hne : UInt32.ofNat (depth + 1 + 1) ≠ 1 := by
      intro he
      have htoNat := congrArg UInt32.toNat he
      rw [UInt32.toNat_ofNat_of_lt' h, UInt32.toNat_one] at htoNat
      omega
    have hless : UInt32.ofNat (depth + 1 + 1) - 1 = .ofNat (depth + 1) := by
      rw [UInt32.ofNat_add (depth + 1)]
      exact UInt32.add_sub_cancel _ _
    have hmove : move (.comment (.ofNat (depth + 1 + 1)) (some '*')) '/' (.single .origin)
        = if UInt32.ofNat (depth + 1 + 1) = 1 then .into .fresh
          else .into (.comment (.ofNat (depth + 1 + 1) - 1) none) := rfl
    rw [hmove, if_neg hne, hless]
    rfl

/-- Inside of comments nothing is made of a text, up to where the scan ends them. -/
theorem made_inside (depth : Nat) (text : List Char) (h : deepest depth text < UInt32.size) :
    made (.inside depth) text =
      match behindComments depth text with
      | some rest => made .fresh rest
      | none => [.error ⟨.unterminatedComment, .anywhere⟩] := by
  fun_induction behindComments depth text with
  | case1 text => rfl
  | case2 depth => rfl
  | case3 depth text ih =>
    have hopen : UInt32.ofNat (depth + 1) + 1 = .ofNat (depth + 2) :=
      (UInt32.ofNat_add (depth + 1) 1).symm
    rw [State.inside, made_into (r := .comment (.ofNat (depth + 1)) (some '/')) rfl,
      made_into (r := .comment (.ofNat (depth + 1) + 1) none) rfl, hopen]
    exact ih h
  | case4 depth text ih =>
    rw [deepest, max_lt_iff] at h
    rw [State.inside, made_into (r := .comment (.ofNat (depth + 1)) (some '*')) rfl,
      made_into (move_close h.1)]
    exact ih h.2
  | case5 depth c text hopen hclose ih =>
    -- a slash or a star is remembered, but what follows does not make a pair of it
    have hmove : ∃ last, move (.comment (.ofNat (depth + 1)) none) c (.single .origin)
        = .into (.comment (.ofNat (depth + 1)) last) ∧ ∀ d, last = some d → c = d := by
      by_cases hc : c = '/' ∨ c = '*'
      · exact ⟨some c, by simp [move, commentMove, hc], fun d => Option.some.inj⟩
      · refine ⟨none, by simp [move, commentMove, hc], fun d hd => ?_⟩
        cases hd
    have hopen' : c = '/' → text.head? ≠ some '*' := fun hc hhead => by
      obtain ⟨more, rfl⟩ := List.head?_eq_some_iff.mp hhead
      exact hopen more hc rfl
    have hclose' : c = '*' → text.head? ≠ some '/' := fun hc hhead => by
      obtain ⟨more, rfl⟩ := List.head?_eq_some_iff.mp hhead
      exact hclose more hc rfl
    obtain ⟨last, hmove, hlast⟩ := hmove
    rw [deepest_other hopen' hclose'] at h
    rw [State.inside, made_into hmove, made_forget]
    · exact ih h
    · exact fun he => hopen' (hlast _ he)
    · exact fun he => hclose' (hlast _ he)

/-- The line feed that ends the last line has no part in what is made of a text. -/
theorem made_delivered (h : Delivered cs ds) :
    made .fresh ds = made .fresh (Text.normalLines cs) := by
  obtain rfl | ⟨rfl, rfl⟩ := h <;> rfl

/-- Lines without a fault take no part in what follows them. -/
theorem lex_lines (hline : text.getLast? = some '\n') (hok : faults (lex s p text) = [])
    (more : List Char) :
    lex s p (text ++ more) = lex s p text ++ lex .fresh (p.advance text) more := by
  induction text generalizing s p with
  | nil => cases hline
  | cons c text ih =>
    rw [lex_feed, faults_append, List.append_eq_nil_iff] at hok
    rw [List.cons_append, lex_feed, lex_feed]
    by_cases hnil : text = []
    · subst hnil
      obtain rfl : c = '\n' := Option.some.inj hline
      have houtside : s.Outside '/' := by
        cases s with
        | comment depth last =>
          -- a comment that goes on behind the line would be a fault at its end
          simp [feed, move, commentMove, settle, lex_nil, finish, faults] at hok
        | slash seen => rfl
        | _ => trivial
      rw [feed_newline houtside, lex_nil, finish, List.append_nil]
      rfl
    · rw [List.getLast?_cons_of_ne_nil hnil] at hline
      rw [ih hline hok.2, List.append_assoc]
      rfl

end Lexer

/-! ## Sources -/

namespace Text

/-- Ended lines are made uniform on their own. -/
theorem normalLines_append_of_ended (h : text = [] ∨ text.getLast? = some '\n')
    (more : List Char) : normalLines (text ++ more) = normalLines text ++ normalLines more := by
  induction hn : text.length using Nat.strong_induction_on generalizing text with
  | h n ih =>
    by_cases hmem : '\n' ∈ text
    · -- the first line, and those behind it
      obtain ⟨line, rest, rfl, hline⟩ := List.eq_append_cons_of_mem hmem
      have hlength : rest.length < n := by
        rw [← hn, List.length_append, List.length_cons]
        omega
      have hrest : rest = [] ∨ rest.getLast? = some '\n' := by
        have hlast := h.resolve_left (by simp)
        rw [List.getLast?_append, List.getLast?_cons, Option.some_or] at hlast
        cases hback : rest.getLast? with
        | none => exact .inl (List.getLast?_eq_none_iff.mp hback)
        | some d =>
          rw [hback, Option.getD_some] at hlast
          exact .inr hlast
      rw [List.append_assoc, List.cons_append, normalLines_append hline, normalLines_append hline,
        ih _ hlength hrest rfl, List.append_assoc]
      rfl
    · obtain rfl | hlast := h
      · rfl
      · exact absurd (List.mem_of_getLast? hlast) hmem

theorem getLast?_normalLines (h : text ≠ []) : (normalLines text).getLast? = some '\n' := by
  have hcons {c : Char} {cs : List Char} (hc : cs = [] → c = '\n')
      (ih : cs ≠ [] → (normalLines cs).getLast? = some '\n') :
      (c :: normalLines cs).getLast? = some '\n' := by
    by_cases hnil : cs = []
    · rw [hnil, hc hnil]
      rfl
    · rw [List.getLast?_cons, ih hnil, Option.getD_some]
  fun_induction normalLines text with
  | case1 => exact absurd rfl h
  | case2 cs ih => exact hcons (fun _ => rfl) ih
  | case3 cs ih => exact hcons (fun _ => rfl) ih
  | case4 c => rfl
  | case5 c cs _ _ hcs ih => exact hcons (fun hnil => absurd hnil hcs) ih

end Text

/-- The tokens and the faults of a text in order, without their places. -/
def unplacedLexemes (text : List Char) : List Lexeme :=
  (lexemes (readings (Text.encode (String.ofList text)))).map Lexeme.unplaced

theorem lexemes_encode (text : List Char) :
    lexemes (readings (Text.encode (String.ofList text)))
      = Lexer.lex .fresh .origin (Text.normalLines text) := by
  obtain ⟨hreadable, hdelivery⟩ := Line.delivery_encode text
  rw [lexemes_eq_lex hreadable, hdelivery]

/-- Behind ended lines without a fault, a text is lexed as if it stood alone. -/
theorem unplacedLexemes_append (hline : text = [] ∨ text.getLast? = some '\n')
    (hok : faults (lexemes (readings (Text.encode (String.ofList text)))) = [])
    (more : List Char) :
    unplacedLexemes (text ++ more)
      = unplacedLexemes text ++ Lexer.made .fresh (Text.normalLines more) := by
  rw [lexemes_encode] at hok
  rw [unplacedLexemes, unplacedLexemes, lexemes_encode, lexemes_encode,
    Text.normalLines_append_of_ended hline]
  by_cases hnil : text = []
  · rw [hnil]
    rfl
  · rw [Lexer.lex_lines (Text.getLast?_normalLines hnil) hok, List.map_append,
      Lexer.map_unplaced_lex, Lexer.map_unplaced_lex]

theorem made_blank (rest : List Char) :
    Lexer.made .fresh (Text.normalLines (' ' :: rest))
      = Lexer.made .fresh (Text.normalLines rest) := by
  obtain ⟨ds, hds, hrest⟩ := Delivered.cons_of_ne (.inl rfl : Delivered (' ' :: rest) _) (by decide)
  rw [hds, Lexer.made_into (r := .fresh) rfl, Lexer.made_delivered hrest]

/-- What is made of a text that begins with a block comment. -/
theorem made_comment (w : List Char) (h : deepest 1 w < UInt32.size) :
    Lexer.made .fresh (Text.normalLines ('/' :: '*' :: w)) =
      match behindComments 1 w with
      | some rest => Lexer.made .fresh (Text.normalLines rest)
      | none => [.error ⟨.unterminatedComment, .anywhere⟩] := by
  obtain ⟨_, hds, h₁⟩ := Delivered.cons_of_ne (.inl rfl : Delivered ('/' :: '*' :: w) _) (by decide)
  obtain ⟨ds, rfl, h₂⟩ := h₁.cons_of_ne (by decide)
  have hrel : Option.Rel Delivered (behindComments 1 w) (behindComments 1 ds) :=
    h₂.behindComments
  rw [hds, Lexer.made_into (r := .slash (.single .origin)) rfl,
    Lexer.made_into (r := .inside 1) rfl, Lexer.made_inside _ _ (h₂.deepest_eq.trans_lt h)]
  generalize behindComments 1 w = a, behindComments 1 ds = b at hrel
  cases hrel with
  | some h => exact Lexer.made_delivered h
  | none => rfl

/-- **Block comments nest and are white space.** Let lines stand in front that have no fault. A
block comment behind them, however deep and over however many lines, is as good as a blank in front
of any text; `w` is what follows its `/*`, and the scan ends with it. A text with a comment that the
scan does not end has the tokens of the lines, and then this one fault. All this is so as long as
the number of comments inside one another does not begin anew. -/
theorem lexemes_blockComment {ts : List (Located Token)}
    (hline : text = [] ∨ text.getLast? = some '\n')
    (hok : tokenize (readings (Text.encode (String.ofList text))) = .ok ts) :
    (∀ w rest, deepest 1 w < UInt32.size → behindComments 1 w = some [] →
      unplacedLexemes (text ++ '/' :: '*' :: w ++ rest) = unplacedLexemes (text ++ ' ' :: rest)) ∧
    ∀ w, deepest 1 w < UInt32.size → behindComments 1 w = none →
      unplacedLexemes (text ++ '/' :: '*' :: w)
        = ts.map (fun t => .ok t.unplaced) ++ [.error ⟨.unterminatedComment, .anywhere⟩] := by
  have hts := tokenize_eq_ok_iff.mp hok
  have hfaults : faults (lexemes (readings (Text.encode (String.ofList text)))) = [] := by
    rw [hts, faults, List.filterMap_map]
    exact List.filterMap_eq_nil_iff.mpr fun t _ => rfl
  refine ⟨fun w rest hdepth hw => ?_, fun w hdepth hw => ?_⟩
  · have hrest : behindComments 1 (w ++ rest) = some rest := behindComments_append hw rest
    have hcons : text ++ '/' :: '*' :: w ++ rest = text ++ '/' :: '*' :: (w ++ rest) := by simp
    rw [hcons, unplacedLexemes_append hline hfaults, unplacedLexemes_append hline hfaults,
      made_comment _ (deepest_append hw rest ▸ hdepth), hrest, made_blank]
  · have htokens : unplacedLexemes text = ts.map fun t => .ok t.unplaced := by
      rw [unplacedLexemes, hts, List.map_map]
      rfl
    rw [unplacedLexemes_append hline hfaults, made_comment _ hdepth, hw, htokens]

/-- A comment whose stars and slashes overlap, over two lines, and one that only seems to end. -/
theorem lexemes_blockComment_overlapping :
    unplacedLexemes ("a\n".toList ++ "/*/**/\n**/".toList ++ "b".toList)
      = unplacedLexemes ("a\n".toList ++ " b".toList) ∧
    unplacedLexemes ("a\n".toList ++ "/*/**/\n*b".toList)
      = [.ok ⟨.ident "a", .anywhere⟩, .error ⟨.unterminatedComment, .anywhere⟩] := by
  have hok : tokenize (readings (Text.encode (String.ofList "a\n".toList)))
      = .ok [⟨.ident "a", ⟨⟨1, 1⟩, ⟨1, 2⟩⟩⟩] := by decide +kernel
  obtain ⟨hended, hopen⟩ := lexemes_blockComment (.inr rfl) hok
  exact ⟨hended "/**/\n**/".toList "b".toList (by decide +kernel) (by decide +kernel),
    hopen "/**/\n*b".toList (by decide +kernel) (by decide +kernel)⟩

end OnePass
