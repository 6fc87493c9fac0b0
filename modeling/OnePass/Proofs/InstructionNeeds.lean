import OnePass.Proofs.CallSoundness

/-!
# What instructions need

Each instruction takes values of certain kinds from the stack, and may refer to slots, labels or
a routine. Calls are `Sound` if the next instruction exists and finds as many values as it takes
and all that it refers to, and if a return finds exactly what its stream returns. They are
`Suited` if the values are of the kinds that the instruction takes as well.

Calls that are as sketched are sound, whether anything is loose or not (`Calls.Fits.sound`).
Where nothing is, they are suited (`Calls.Fits.suited`).
-/

namespace OnePass

namespace Instruction

/-- What an instruction takes from the stack, the top first: a value of a kind, or any value. -/
def needs (image : Image) : Instruction → List (Option Kind)
  | .pushInt _ | .pushStr _ | .loadLocal _ | .loadArg _ | .loadField _ | .newArray _ | .jump _
  | .ret | .readLine => []
  | .pop | .dup | .storeLocal _ | .storeArg _ | .storeField _ => [none]
  | .swap => [none, none]
  | .neg | .jumpIfFalse _ | .jumpIfTrue _ | .random | .box _ | .print _ => [some .word]
  | .binary _ => [some .word, some .word]
  | .printStr | .parse _ => [some .str]
  | .arrayLen => [some .array]
  | .loadElem => [some .word, some .array]
  | .storeElem => [some .word, some .word, some .array]
  | .call n => List.replicate ((image.routines[n.toNat]?).elim 0 fun r => r.params.length) none
  | .printFormat n => List.replicate n.toNat none ++ [some .str]

/-- What an instruction refers to exists. A label has to stand before an instruction. -/
def Refers (image : Image) (c : Context) : Instruction → Prop
  | .loadLocal i | .storeLocal i => i.toNat < c.frame.locals.size
  | .loadArg i | .storeArg i => i.toNat < c.frame.args.size
  | .loadField i | .storeField i => i.toNat < c.store.fields.size
  | .jump l | .jumpIfFalse l | .jumpIfTrue l =>
    ∃ p, c.frame.code.target? l = some p ∧ p < c.frame.code.instructions.size
  | .call n => n.toNat < image.routines.size
  | _ => True

end Instruction

/-- Whether values of these kinds, the top first, are what is needed. -/
def Kind.meet : List (Option Kind) → List Kind → Bool
  | [], _ => true
  | _ :: _, [] => false
  | n :: ns, k :: ks => n.all (· = k) && meet ns ks

/-- A frame is in a stream of an image that returns a value of a type, or nothing. -/
inductive Frame.In (image : Image) (f : Frame) : Option WordType → Prop where
  | initializer : f.code = image.initializer → In image f none
  | routine {n : Nat} {r : Routine} : image.routines[n]? = some r → f.name = r.name →
      f.code = r.code → In image f r.returns

/-- There is a next instruction, it finds as many values as it takes, and all that it refers to
exists. A return finds what its stream returns, and nothing else. -/
def Calls.Sound (image : Image) (c : Calls) : Prop :=
  ∃ i returns, c.top.code.instructions[c.top.position]? = some i ∧ c.top.In image returns ∧
    (i.needs image).length ≤ c.top.stack.length ∧ i.Refers image ⟨c.top, c.store⟩ ∧
    (i = .ret → c.top.stack.length = returns.toList.length)

/-- The next instruction finds values of the kinds that it takes. -/
def Calls.Suited (image : Image) (c : Calls) : Prop :=
  ∃ i, c.top.code.instructions[c.top.position]? = some i ∧
    Kind.meet (i.needs image) (c.top.stack.map Value.kind) = true

/-! ## From sketches -/

/-- The kind of the values that a cell is about. -/
def Cell.kind : Cell → Kind
  | .word _ => .word
  | .array _ | .fresh _ => .array
  | .str => .str
  | .boxed => .boxed

/-- Where nothing is loose, values are of the kinds of their cells. -/
theorem Value.Fits.kind {H : Heap} {v : Value} {c : Cell} (h : v.Fits H False c) :
    v.kind = c.kind := by
  cases c with
  | word t => obtain ⟨w, rfl, -⟩ := h; rfl
  | array t => obtain ⟨ref, rfl, -⟩ := h.resolve_right fun h => h.1; rfl
  | fresh t => obtain ⟨ref, rfl, -⟩ := h; rfl
  | str => obtain ⟨s, rfl⟩ := h; rfl
  | boxed => obtain ⟨t, w, rfl⟩ := h; rfl

namespace Kind

theorem length_le_of_meet {ns : List (Option Kind)} {ks : List Kind} (h : meet ns ks = true) :
    ns.length ≤ ks.length := by
  fun_induction meet ns ks with
  | case1 => exact Nat.zero_le _
  | case2 => cases h
  | case3 n ns k ks ih => exact Nat.succ_le_succ (ih (Bool.and_eq_true_iff.mp h).2)

/-- Values that can be of any kind come first. -/
theorem meet_replicate {n : Nat} {ns : List (Option Kind)} {ks ks' : List Kind}
    (hn : ks.length = n) (h : meet ns ks' = true) :
    meet (List.replicate n none ++ ns) (ks ++ ks') = true := by
  subst hn
  induction ks with
  | nil => exact h
  | cons k ks ih => exact ih

end Kind

section

variable {P : Plan} {image : Image} {H : Heap} {loose : Prop} {r bottom : Role} {c : Calls}
  {L : List Sketch} {i : Instruction} {σ : Sketch} {after : Option Sketch}

/-- The cells of a sketch are of the kinds that the instruction takes. -/
theorem Takes.meet (h : Takes P r.outline L i σ after) (hlinked : image.Linked P) :
    Kind.meet (i.needs image) (σ.stack.map Cell.kind) = true := by
  cases h with
  | @call n o s l f ho =>
    have hlt : n.toNat < image.routines.size := hlinked.size ▸ (List.getElem?_eq_some_iff.mp ho).1
    have hrt := Array.getElem?_eq_getElem hlt
    have hargs := (hlinked.routines _ o _ ho hrt).args
    dsimp only [Instruction.needs]
    rw [hrt, Option.elim_some, List.map_append, ← List.append_nil (List.replicate _ _)]
    refine Kind.meet_replicate ?_ rfl
    rw [List.length_map, List.length_reverse, List.length_map, hargs]
  | @printFormat n cs s l f hlen =>
    dsimp only [Instruction.needs]
    rw [List.map_append]
    exact Kind.meet_replicate ((List.length_map _).trans hlen) rfl
  | _ => rfl

/-- What an instruction of a sketched frame refers to exists. -/
theorem Takes.refers {ctx : Context} {S : Nat → Sketch}
    (h : Takes P r.outline L i σ after) (hlinked : image.Linked P)
    (ht : ctx.frame.code.TypedBy P r.outline S L) (hc : ctx.Fits P H loose r σ) :
    i.Refers image ctx := by
  have hlabel {n : UInt32} {τ : Sketch} (hn : L[n.toNat]? = some τ) :
      ∃ p, ctx.frame.code.target? n = some p ∧ p < ctx.frame.code.instructions.size :=
    (ht.labels _ _ hn).imp fun _ h => ⟨h.1, h.2.1⟩
  have hlocal {n : UInt32} {slot : Slot} (hn : r.outline.locals[n.toNat]? = some slot) :
      n.toNat < ctx.frame.locals.size := by
    obtain ⟨v, hv, -⟩ := hc.frame.locals _ _ hn
    exact (Array.getElem?_eq_some_iff.mp hv).1
  have harg {n : UInt32} {slot : Slot} (hn : r.outline.args[n.toNat]? = some slot) :
      n.toNat < ctx.frame.args.size := by
    obtain ⟨v, hv, -⟩ := hc.frame.args _ _ hn
    exact (Array.getElem?_eq_some_iff.mp hv).1
  have hfield {n : UInt32} {slot : Slot} (hn : P.fields[n.toNat]? = some slot) :
      n.toNat < ctx.store.fields.size := by
    obtain ⟨v, hv, -⟩ := hc.store.field hn
    exact (Array.getElem?_eq_some_iff.mp hv).1
  cases h with
  | loadLocal hn | storeLocal hn | setLocal hn => exact hlocal hn
  | loadArg hn | storeArg hn => exact harg hn
  | loadField hn | storeField hn | setField hn => exact hfield hn
  | jump hn | jumpIfFalse hn | jumpIfTrue hn => exact hlabel hn
  | @call n o s l f ho =>
    show n.toNat < image.routines.size
    exact hlinked.size ▸ (List.getElem?_eq_some_iff.mp ho).1
  | _ => trivial

/-- A frame in the role of a stream is in that stream. -/
theorem Frame.Runs.in {f : Frame} (h : f.Runs P image r) (hlinked : image.Linked P) :
    f.In image r.outline.returns := by
  cases h with
  | initializer hcode hr => exact hr ▸ .initializer hcode
  | routine ho hrt hname hcode hr =>
    subst hr
    dsimp only
    rw [(hlinked.routines _ _ _ ho hrt).returns]
    exact .routine hrt hname hcode

namespace Calls.Fits

/-- What is known of the next instruction. -/
theorem next (h : c.Fits P image H loose bottom) :
    ∃ r S L i after, c.top.Stands P image H loose c.store [] r ∧
      c.top.code.TypedBy P r.outline S L ∧
      c.top.code.instructions[c.top.position]? = some i ∧
      Takes P r.outline L i (S c.top.position) after ∧
      (⟨c.top, c.store⟩ : Context).Fits P H loose r (S c.top.position) := by
  obtain ⟨r, htop, -⟩ := h.frames
  obtain ⟨S, L, s, l, a, ht, hp, hm, hf⟩ := htop.sketched
  have hi := Array.getElem?_eq_getElem hp
  obtain ⟨after, htakes, -⟩ := ht.takes _ _ hi
  exact ⟨r, S, L, _, after, htop, ht, hi, htakes, h.store, hf.weaken hm⟩

/-- **Calls as sketched are sound.** -/
theorem sound (h : c.Fits P image H loose bottom) (hlinked : image.Linked P) : c.Sound image := by
  obtain ⟨r, S, L, i, after, htop, ht, hi, htakes, hc⟩ := h.next
  have hlen := hc.frame.stack.length_eq
  refine ⟨i, r.outline.returns, hi, htop.runs.in hlinked, ?_, htakes.refers hlinked ht hc, ?_⟩
  · rw [show c.top.stack.length = _ from hlen, ← List.length_map (f := Cell.kind)]
    exact Kind.length_le_of_meet (htakes.meet hlinked)
  · rintro rfl
    cases hσ : S c.top.position
    rw [hσ] at htakes hlen
    cases htakes with
    | ret hresult =>
      rw [show c.top.stack.length = _ from hlen, hresult, Outline.result, List.length_map]

/-- **Where nothing is loose they are suited as well.** -/
theorem suited (h : c.Fits P image H False bottom) (hlinked : image.Linked P) : c.Suited image := by
  obtain ⟨r, S, L, i, after, -, -, hi, htakes, hc⟩ := h.next
  refine ⟨i, hi, ?_⟩
  have hkinds : List.Forall₂ (fun v c => v.kind = c.kind) c.top.stack (S c.top.position).stack :=
    hc.frame.stack.imp fun _ _ h => h.kind
  have heq : c.top.stack.map Value.kind = (S c.top.position).stack.map Cell.kind := by
    rw [← List.forall₂_eq_eq_eq, List.forall₂_map_left_iff, List.forall₂_map_right_iff]
    exact hkinds
  rw [heq]
  exact htakes.meet hlinked

/-- **A field of an array that is loaded is ready or exposed.** -/
theorem ready_or_exposed (h : c.Fits P image H loose bottom) {k : Nat}
    (hk : c.LoadsArray P.fields k) : c.store.Ready k ∨ k ∈ P.exposed := by
  obtain ⟨n, slot, hn, rfl, hslot, ha⟩ := hk
  obtain ⟨r, S, L, i, after, htop, -, hi, htakes, hc⟩ := h.next
  obtain rfl := Option.some.inj (hn.symm.trans hi)
  cases hσ : S c.top.position
  rw [hσ] at htakes hc
  cases htakes with
  | loadField hslot' hready =>
    obtain rfl := Option.some.inj (hslot.symm.trans hslot')
    rcases hready ha with hk | hk
    · exact (hc.frame.fields _ hk).imp_right fun hk => htop.lax hk
    · exact .inr hk

end Calls.Fits

end

end OnePass
