import OnePass.Proofs.Lexing
import OnePass.Proofs.Unplaced

/-!
# The lexer does not look at places

Whatever is made of the regions of a text, the lexer makes of the text with other regions what it
makes of the text, with the other regions; all that is needed is that regions are still joined as
before (`Span.Joins`). This is said of each function of the lexer once, up to `Lexer.feed_place`.

Two such changes are of use. Moved down, a text is lexed alike (`Lexer.lex_place`). Without any
places, what is made of a text does not depend on where it stands (`Lexer.lex_unplaced`).
-/

namespace OnePass

/-- A change of regions under which joined regions stay joined. -/
def Span.Joins (f : Span → Span) : Prop := ∀ a b : Span, (f a).upTo (f b) = f (a.upTo b)

theorem Span.Joins.upTo {f : Span → Span} (hf : Joins f) (a b : Span) :
    (f a).upTo (f b) = f (a.upTo b) :=
  hf a b

theorem Span.joins_anywhere : Joins fun _ => anywhere := fun _ _ => rfl

/-- The same value, at another place. -/
def Located.place {α : Type} (f : Span → Span) (x : Located α) : Located α := ⟨x.value, f x.span⟩

namespace Lexeme

/-- The same token or fault, at another place. -/
def place (f : Span → Span) : Lexeme → Lexeme
  | .ok t => .ok (t.place f)
  | .error e => .error (e.place f)

/-- A token or a fault, somewhere. -/
def unplaced : Lexeme → Lexeme
  | .ok t => .ok t.unplaced
  | .error e => .error e.unplaced

theorem unplaced_eq_place : unplaced = place fun _ => .anywhere := by
  funext l
  cases l <;> rfl

end Lexeme

namespace Lexer

/-- The same state, at another place. -/
def State.place (f : Span → Span) : State → State
  | .operator t seen => .operator t (f seen)
  | .slash seen => .slash (f seen)
  | .bang seen => .bang (f seen)
  | .colon seen => .colon (f seen)
  | .bound op seen => .bound op (f seen)
  | .integer value seen => .integer value (f seen)
  | .word text seen => .word text (f seen)
  | .charOpen seen => .charOpen (f seen)
  | .charEscape seen => .charEscape (f seen)
  | .charClose c seen => .charClose c (f seen)
  | .string text seen => .string text (f seen)
  | .stringEscape text seen => .stringEscape text (f seen)
  | .fresh => .fresh
  | .skipping => .skipping
  | .lineComment => .lineComment
  | .comment depth last => .comment depth last

/-- The same move, at another place. -/
def Move.place (f : Span → Span) : Move → Move
  | .into s => .into (s.place f)
  | .complete t span => .complete t (f span)
  | .behind t span => .behind t (f span)
  | .fault e => .fault e

section

variable (f : Span → Span) (s : State) (c : Char) (here : Span)

theorem begin_place : begin c (f here) = (begin c here).place f := by
  unfold begin
  split
  · rfl
  · rfl
  · rfl
  · repeat' split
    all_goals rfl

theorem settle_place (m : Move) :
    settle (m.place f) c (f here)
      = ((settle m c here).1.map (Lexeme.place f), (settle m c here).2.place f) := by
  cases m with
  | fault e =>
    simp only [Move.place, settle, recover]
    split <;> rfl
  | _ => rfl

theorem finish_place : finish (s.place f) (f here) = (finish s here).map (Lexeme.place f) := by
  cases s <;> rfl

variable {f}

theorem move_place (hf : Span.Joins f) : move (s.place f) c (f here) = (move s c here).place f := by
  cases s with
  | fresh => exact begin_place f c here
  | comment depth last =>
    simp only [move, State.place, commentMove]
    repeat' split
    all_goals rfl
  | _ =>
    simp only [move, State.place, hf.upTo]
    repeat' split
    all_goals rfl

theorem feed_place (hf : Span.Joins f) :
    feed (s.place f) c (f here)
      = ((feed s c here).1.map (Lexeme.place f), (feed s c here).2.place f) := by
  rw [feed, feed, move_place s c here hf]
  cases move s c here with
  | behind t span =>
    have hrest := settle_place f c here (begin c here)
    rw [← begin_place] at hrest
    simp only [Move.place, hrest]
    rfl
  | into s => exact settle_place f c here (.into s)
  | complete t span => exact settle_place f c here (.complete t span)
  | fault e => exact settle_place f c here (.fault e)

end

variable {s s' : State} {p p' : Position}

/-- One character, and what stands behind it. -/
theorem lex_feed (s : State) (c : Char) (p : Position) (cs : List Char) :
    lex s p (c :: cs)
      = (feed s c (.single p)).1 ++ lex (feed s c (.single p)).2 (p.after c) cs := rfl

/-- A text is lexed alike wherever it is moved as a whole. -/
theorem lex_place {f : Span → Span} (hf : Span.Joins f) {g : Position → Position}
    (hsingle : ∀ p, Span.single (g p) = f (.single p))
    (hafter : ∀ p c, (g p).after c = g (p.after c)) (cs : List Char) :
    lex (s.place f) (g p) cs = (lex s p cs).map (Lexeme.place f) := by
  induction cs generalizing s p with
  | nil =>
    rw [lex_nil, lex_nil, hsingle]
    exact finish_place f s (.single p)
  | cons c cs ih =>
    have hfeed := feed_place s c (.single p) hf
    rw [lex_feed, lex_feed, hsingle, hfeed, hafter, ih, List.map_append]

/-- Without its places, what is made of a text does not depend on where the text stands. -/
theorem lex_unplaced (h : s.place (fun _ => .anywhere) = s'.place fun _ => .anywhere)
    (cs : List Char) :
    (lex s p cs).map Lexeme.unplaced = (lex s' p' cs).map Lexeme.unplaced := by
  rw [Lexeme.unplaced_eq_place]
  induction cs generalizing s s' p p' with
  | nil =>
    have hfinish := finish_place (fun _ => .anywhere) s (.single p)
    have hfinish' := finish_place (fun _ => .anywhere) s' (.single p')
    rw [lex_nil, lex_nil, ← hfinish, h, hfinish']
  | cons c cs ih =>
    have hfeed := feed_place s c (.single p) Span.joins_anywhere
    have hfeed' := feed_place s' c (.single p') Span.joins_anywhere
    rw [h, hfeed', Prod.mk.injEq] at hfeed
    rw [lex_feed, lex_feed, List.map_append, List.map_append, hfeed.1, ih hfeed.2.symm]

end Lexer

end OnePass
