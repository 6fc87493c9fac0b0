import OnePass.Proofs.Sketch
import OnePass.Proofs.Growth

/-!
# Streams under construction, typed

A stream under construction is `Charted` if its instructions fit each other so far. What may
be added is said by the sketch of its end: `Charted.emit` adds an instruction that takes it,
`Charted.addLabel` a label with any sketch, and `Charted.mark` lets a label mark the end if
the end is good enough for it. Once all labels are marked, a return makes it a typed stream
(`Charted.finish`).
-/

namespace OnePass

/-- `S` is a sketch for every position of the stream `d` up to its end, and `L` one for every
label, such that the instructions fit each other. -/
structure Draft.ChartedBy (P : Plan) (o : Outline) (d : Draft) (S : Nat → Sketch)
    (L : List Sketch) : Prop where
  start : o.start.Meets (S 0)
  length : L.length = d.labels.size
  takes : ∀ (p : Nat) (i : Instruction), d.instructions[p]? = some i →
    ∃ next, Takes P o L i (S p) next ∧ ∀ τ : Sketch, next = some τ → τ.Meets (S (p + 1))
  labels : ∀ (n : Nat) (p : UInt32), d.labels[n]? = some (some p) → p.toNat ≤ d.position ∧
    ∃ τ, L[n]? = some τ ∧ τ.Meets (S p.toNat)

/-- The instructions of the stream `d` fit each other. The labels may be gone to with the
sketches `L`, and the end is reached with `σ`. -/
def Draft.Charted (P : Plan) (o : Outline) (d : Draft) (L : List Sketch) (σ : Sketch) : Prop :=
  ∃ S, d.ChartedBy P o S L ∧ S d.position = σ

namespace Draft.Charted

variable {P : Plan} {o : Outline} {d : Draft} {L : List Sketch} {σ τ : Sketch} {i : Instruction}

theorem length (h : d.Charted P o L σ) : L.length = d.labels.size := by
  obtain ⟨S, hS, -⟩ := h
  exact hS.length

/-- A stream without instructions. -/
theorem empty (P : Plan) (o : Outline) : Draft.empty.Charted P o [] o.start :=
  ⟨fun _ => o.start, ⟨.refl _, rfl, fun _ _ h => by simp [Draft.empty] at h,
    fun _ _ h => by simp [Draft.empty] at h⟩, rfl⟩

/-- Knowing less of the end is always possible. -/
theorem weaken (h : d.Charted P o L σ) (hm : σ.Meets τ) : d.Charted P o L τ := by
  obtain ⟨S, hS, rfl⟩ := h
  have hmeets (p : Nat) : (S p).Meets (Function.update S d.position τ p) := by
    rcases eq_or_ne p d.position with rfl | hne
    · rwa [Function.update_self]
    · rw [Function.update_of_ne hne]
      exact .refl _
  refine ⟨Function.update S d.position τ, ⟨hS.start.trans (hmeets 0), hS.length, ?_, ?_⟩,
    Function.update_self ..⟩
  · intro p i hi
    obtain ⟨next, ht, hn⟩ := hS.takes p i hi
    have hp : p ≠ d.position := ((Array.getElem?_eq_some_iff.mp hi).1).ne
    rw [Function.update_of_ne hp]
    exact ⟨next, ht, fun υ hυ => (hn υ hυ).trans (hmeets _)⟩
  · intro n p hl
    obtain ⟨hp, υ, hυ, hm⟩ := hS.labels n p hl
    exact ⟨hp, υ, hυ, hm.trans (hmeets _)⟩

/-- An instruction that takes the sketch of the end, and another sketch behind it. -/
theorem emitTo (h : d.Charted P o L σ) {next : Option Sketch} (hi : Takes P o L i σ next)
    (hn : ∀ υ : Sketch, next = some υ → υ.Meets τ) : (d.emit i).Charted P o L τ := by
  obtain ⟨S, hS, rfl⟩ := h
  have hsame {p : Nat} (hp : p ≤ d.position) :
      Function.update S (d.position + 1) τ p = S p :=
    Function.update_of_ne (Nat.lt_succ_of_le hp).ne _ _
  have hsize : (d.emit i).position = d.position + 1 := d.position_emit i
  refine ⟨Function.update S (d.position + 1) τ, ⟨?_, hS.length, ?_, ?_⟩, ?_⟩
  · rw [hsame (Nat.zero_le _)]
    exact hS.start
  · intro p j hj
    rcases Nat.lt_trichotomy p d.position with hp | rfl | hp
    · have hj' : d.instructions[p]? = some j := by
        rwa [Draft.emit, Array.getElem?_push, if_neg (show p ≠ d.instructions.size from hp.ne)]
          at hj
      obtain ⟨next', ht, hn'⟩ := hS.takes p j hj'
      rw [hsame hp.le]
      exact ⟨next', ht, fun υ hυ => by rw [hsame hp]; exact hn' υ hυ⟩
    · obtain rfl : i = j := by simpa [Draft.emit, Draft.position] using hj
      rw [hsame le_rfl]
      exact ⟨next, hi, fun υ hυ => by rw [Function.update_self]; exact hn υ hυ⟩
    · have hlt := (Array.getElem?_eq_some_iff.mp hj).1
      rw [show (d.emit i).instructions.size = d.position + 1 from hsize] at hlt
      omega
  · intro n p hl
    obtain ⟨hp, υ, hυ, hm⟩ := hS.labels n p hl
    rw [hsame hp, hsize]
    exact ⟨hp.trans (Nat.le_succ _), υ, hυ, hm⟩
  · rw [hsize, Function.update_self]

/-- An instruction that takes the sketch of the end to the next one. -/
theorem emit (h : d.Charted P o L σ) (hi : Takes P o L i σ (some τ)) :
    (d.emit i).Charted P o L τ :=
  h.emitTo hi fun _ hυ => Option.some.inj hυ ▸ .refl _

/-- Behind an instruction that never goes on, anything may be taken to be known. -/
theorem leap (h : d.Charted P o L σ) (hi : Takes P o L i σ none) (τ : Sketch) :
    (d.emit i).Charted P o L τ :=
  h.emitTo hi fun _ hυ => nomatch hυ

/-- A new label, to be gone to with any sketch. -/
theorem addLabel (h : d.Charted P o L σ) (τ : Sketch) :
    d.addLabel.Charted P o (L ++ [τ]) σ := by
  obtain ⟨S, hS, rfl⟩ := h
  refine ⟨S, ⟨hS.start, ?_, ?_, ?_⟩, rfl⟩
  · rw [List.length_append, hS.length]
    exact (Array.size_push ..).symm
  · intro p i hi
    obtain ⟨next, ht, hn⟩ := hS.takes p i hi
    exact ⟨next, ht.mono (List.prefix_append ..), hn⟩
  · intro n p hl
    have hl' : d.labels[n]? = some (some p) := by
      rw [Draft.addLabel, Array.getElem?_push] at hl
      split at hl
      · cases Option.some.inj hl
      · exact hl
    obtain ⟨hp, υ, hυ, hm⟩ := hS.labels n p hl'
    have hn : n < L.length := (List.getElem?_eq_some_iff.mp hυ).1
    exact ⟨hp, υ, by rw [List.getElem?_append_left hn, hυ], hm⟩

/-- A label marks the end, which is good enough for it. From there on only what is known at
the label is known. -/
theorem mark (h : d.Charted P o L σ) {n : Nat} (hn : L[n]? = some τ) (hm : σ.Meets τ)
    (hsize : d.position < UInt32.size) : (d.mark n).Charted P o L τ := by
  obtain ⟨S, hS, hend⟩ := h.weaken hm
  refine ⟨S, ⟨hS.start, hS.length.trans Array.size_setIfInBounds.symm, hS.takes, ?_⟩, hend⟩
  intro k p hl
  rw [Draft.mark, Array.getElem?_setIfInBounds] at hl
  split at hl
  · rename_i hk
    subst hk
    split at hl
    · obtain rfl := Option.some.inj (Option.some.inj hl)
      rw [UInt32.toNat_ofNat_of_lt' hsize]
      exact ⟨le_rfl, τ, hn, hend ▸ .refl _⟩
    · cases hl
  · exact hS.labels k p hl

/-- A stream that ends in a return and has all its labels marked is typed. -/
theorem finish (h : d.Charted P o L σ) (hret : Takes P o L .ret σ none)
    (hmarked : ∀ m ∈ d.labels, m.isSome) : (d.emit .ret).toCode.Typed P o := by
  obtain ⟨S, hS, rfl⟩ := h
  have hsize : (d.emit .ret).instructions.size = d.position + 1 := d.position_emit .ret
  refine ⟨S, L, hS.start, hsize ▸ Nat.succ_pos _, ?_, ?_⟩
  · intro p i hi
    have hi' : (d.instructions.push .ret)[p]? = some i := hi
    rw [Array.getElem?_push] at hi'
    split at hi'
    · rename_i hp
      obtain rfl := Option.some.inj hi'
      exact ⟨none, hp ▸ hret, fun _ h => nomatch h⟩
    · obtain ⟨next, ht, hn⟩ := hS.takes p i hi'
      have hp : p < d.position := (Array.getElem?_eq_some_iff.mp hi').1
      exact ⟨next, ht, fun τ hτ => ⟨hsize ▸ Nat.succ_lt_succ hp, hn τ hτ⟩⟩
  · intro n τ hn
    have hlt : n < d.labels.size := hS.length ▸ (List.getElem?_eq_some_iff.mp hn).1
    obtain ⟨p, hp⟩ := Option.isSome_iff_exists.mp (hmarked _ (d.labels.getElem_mem hlt))
    have hl : d.labels[n]? = some (some p) := by rw [Array.getElem?_eq_getElem hlt, hp]
    obtain ⟨hle, υ, hυ, hm⟩ := hS.labels n p hl
    obtain rfl : τ = υ := Option.some.inj (hn.symm.trans hυ)
    refine ⟨p.toNat, ?_, hsize ▸ Nat.lt_succ_of_le hle, hm⟩
    simp [Draft.toCode, Draft.emit, hl]

end Draft.Charted

end OnePass
