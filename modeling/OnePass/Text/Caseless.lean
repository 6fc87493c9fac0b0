/-!
# Texts in letters of either case

Some texts are compared without regard to the case of their letters. For texts of ASCII that is what
everyone takes it for (`Caseless.ascii`); how far other letters count as the same is a matter of
tables that nothing here depends on. `Caseless.simple` is such a comparison to run programs with.
-/

namespace OnePass

/-- A comparison of texts that does not mind the case of letters. -/
structure Caseless where
  /-- whether two texts are the same up to the case of letters -/
  same : List Char → List Char → Bool
  /-- texts of ASCII are the same if they are in small letters -/
  ascii : ∀ s t, (∀ c ∈ s, c.toNat < 128) → (∀ c ∈ t, c.toNat < 128) →
    (same s t = true ↔ s.map Char.toLower = t.map Char.toLower)

namespace Caseless

/-- A character with the difference of case taken away, as far as it matters for texts of which
one is ASCII: beside the letters of ASCII, the long s is an s and the sign for kelvin a k. -/
def fold (c : Char) : Char :=
  if c = '\u017f' then 's' else if c = '\u212a' then 'k' else c.toLower

theorem fold_of_ascii {c : Char} (h : c.toNat < 128) : fold c = c.toLower := by
  unfold fold
  rw [if_neg, if_neg] <;>
  · rintro rfl
    exact absurd h (by decide)

theorem map_fold_of_ascii {s : List Char} (h : ∀ c ∈ s, c.toNat < 128) :
    s.map fold = s.map Char.toLower :=
  List.map_congr_left fun c hc => fold_of_ascii (h c hc)

/-- Texts are the same if they are the same character by character. -/
def simple : Caseless where
  same s t := s.map fold = t.map fold
  ascii s t hs ht := by
    rw [map_fold_of_ascii hs, map_fold_of_ascii ht, decide_eq_true_iff]

end Caseless

end OnePass
