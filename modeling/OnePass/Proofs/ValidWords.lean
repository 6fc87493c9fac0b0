import OnePass.Proofs.Safety

/-!
# Truth values and characters

`and`, `or` and the jumps take their words for 0 or 1, and a word that is printed as a character
for the code point of one. That is so in all states that a compiled program can be in, since it is
so of every word that is kept: of those in the fields, in the slots of all functions that are
being called, and in their arrays (`compile_valid`).
-/

namespace OnePass

/-- A word that is a value of type `char` is shown as the character that it is. -/
theorem WordType.render_char {w : Int32} (h : char.Valid w) :
    ∃ c, w = Word.ofChar c ∧ char.render w = String.singleton c := by
  obtain ⟨c, hc⟩ := Option.isSome_iff_exists.mp h
  refine ⟨c, Word.eq_ofChar_of_toChar? hc, ?_⟩
  rw [render, hc, Option.getD_some]

/-! ## Slots -/

/-- A slot holds a word of its type or an array of such words. An array slot holds the word 0 until
its array is made. -/
def Slot.Holds (st : Store) (s : Slot) (v : Value) : Prop :=
  if s.array then
    v = .zero ∨ ∃ ref a, v = .array ref ∧ st.arrays[ref]? = some a ∧ ∀ w ∈ a, s.type.Valid w
  else ∃ w, v = .word w ∧ s.type.Valid w

/-- Every field holds what it is declared to hold. -/
def Store.Valid (p : Program) (st : Store) : Prop :=
  List.Forall₂ (Slot.Holds st) p.fields st.fields.toList

/-- The functions of a program, in order. -/
def Program.functions (p : Program) : List (Header × Stmt) :=
  p.items.filterMap fun
    | .variables _ => none
    | .function h body => some (h, body)

/-- The arguments and locals of a frame are as those of the function that it runs are declared.
The initializer has none, and neither has the routine that stands in for an entry function. -/
def Frame.Valid (c : Compilation) (st : Store) (f : Frame) : Prop :=
  f.args = #[] ∧ f.locals = #[] ∨
    ∃ (k : Nat) (h : Header) (body : Stmt) (r : Routine), c.tree.functions[k]? = some (h, body) ∧
      c.image.routines[k]? = some r ∧ f.name = r.name ∧ f.code = r.code ∧
      List.Forall₂ (Slot.Holds st) h.parameterTypes f.args.toList ∧
      List.Forall₂ (Slot.Holds st) body.locals f.locals.toList

/-- The types that an instruction takes the topmost words to be of, the top first. -/
def Instruction.pops : Instruction → List WordType
  | .jumpIfFalse _ | .jumpIfTrue _ => [.bool]
  | .binary .and | .binary .or => [.bool, .bool]
  | .print t | .box t => [t]
  | _ => []

/-- All that is kept is as declared, and the next instruction finds words of the types that it
takes them for. A word that it shows as a character is one. -/
structure Calls.Valid (c : Compilation) (calls : Calls) : Prop where
  fields : calls.store.Valid c.tree
  frames : ∀ f ∈ calls.top :: calls.callers, f.Valid c calls.store
  popped : ∀ i, calls.top.code.instructions[calls.top.position]? = some i →
    ∃ words rest, calls.top.stack = words.map .word ++ rest ∧
      List.Forall₂ WordType.Valid i.pops words
  shown : ∀ i w rest, calls.top.code.instructions[calls.top.position]? = some i →
    i = .print .char ∨ i = .box .char → calls.top.stack = .word w :: rest →
      ∃ ch, w = Word.ofChar ch ∧ WordType.char.render w = String.singleton ch

section

variable {P : Plan} {image : Image} {H : Heap} {loose : Prop} {st : Store} {r bottom : Role}
  {f : Frame}

/-- A value that fits the cell of a slot is one that the slot holds. -/
theorem Value.Fits.holds {v : Value} {s : Slot} (hv : v.Fits H True (.ofSlot s))
    (hst : st.Fits P H) : s.Holds st v := by
  unfold Cell.ofSlot at hv
  unfold Slot.Holds
  split_ifs with ha
  · rw [if_pos ha] at hv
    rcases hv with ⟨ref, rfl, ht⟩ | ⟨-, rfl⟩
    · have hlt : ref < st.arrays.size := hst.arrays ▸ (List.getElem?_eq_some_iff.mp ht).1
      have harray := Array.getElem?_eq_getElem hlt
      exact .inr ⟨ref, _, rfl, harray, hst.words ref s.type _ ht harray⟩
    · exact .inl rfl
  · rwa [if_neg ha] at hv

/-- Slots hold values if there are as many, and each is as its slot says. -/
theorem Slot.holds_all {slots : List Slot} {vs : Array Value} (hsize : vs.size = slots.length)
    (h : ∀ (i : Nat) (s : Slot), slots[i]? = some s →
      ∃ v, vs[i]? = some v ∧ v.Fits H True (.ofSlot s)) (hst : st.Fits P H) :
    List.Forall₂ (Slot.Holds st) slots vs.toList := by
  refine List.forall₂_iff_get.mpr ⟨hsize.symm, fun i hi hi' => ?_⟩
  obtain ⟨v, hv, hfits⟩ := h i slots[i] (List.getElem?_eq_getElem hi)
  obtain ⟨hi', rfl⟩ := Array.getElem?_eq_some_iff.mp hv
  exact hfits.holds hst

theorem Store.Fits.valid {p : Program} (h : st.Fits p.plan H) : st.Valid p :=
  Slot.holds_all h.size (fun _ _ hs => h.field hs) h

/-- The outlines of the functions of a program say what is declared. -/
theorem Program.outlinesFrom_getElem? {fields : List Slot} {items : List TopLevel} {n k : Nat}
    {o : Outline} (h : (outlinesFrom fields n items)[k]? = some o) :
    ∃ header body, (⟨items⟩ : Program).functions[k]? = some (header, body) ∧
      o.args = header.parameterTypes ∧ o.locals = body.locals := by
  induction items generalizing n k with
  | nil => simp [outlinesFrom] at h
  | cons item items ih =>
    cases item with
    | «variables» d => exact ih h
    | function header body =>
      cases k with
      | zero =>
        obtain rfl := Option.some.inj h
        exact ⟨header, body, rfl, rfl, rfl⟩
      | succ k => exact ih h

/-- A frame that stands in a stream of a compiled program has the slots that are declared. -/
theorem Frame.Stands.valid {c : Compilation} {X : Set Nat} {awaited : List Cell}
    (h : f.Stands (c.tree.planWith X) c.image H loose st awaited r)
    (hst : st.Fits (c.tree.planWith X) H) : f.Valid c st := by
  obtain ⟨S, L, s, l, a, -, -, -, hf⟩ := h.sketched
  have hargs := Slot.holds_all hf.sizes.1
    (fun i s hs => (hf.args i s hs).imp fun v hv =>
      ⟨hv.1, hv.2.mono List.prefix_rfl fun _ => trivial⟩)
    hst
  have hlocals := Slot.holds_all hf.sizes.2 hf.locals hst
  have hnone (o : Outline) (ho : r.outline = o) (ha : o.args = []) (hl : o.locals = []) :
      f.Valid c st := by
    subst ho
    rw [ha] at hargs
    rw [hl] at hlocals
    cases hargs' : f.args.toList <;> rw [hargs'] at hargs <;> cases hargs
    cases hlocals' : f.locals.toList <;> rw [hlocals'] at hlocals <;> cases hlocals
    exact .inl ⟨by simpa using hargs', by simpa using hlocals'⟩
  cases h.runs with
  | initializer _ hr => exact hnone _ (congrArg Role.outline hr) rfl rfl
  | @routine n o rt ho hrt hname hcode hr =>
    subst hr
    have ho' : c.tree.outlines[n]? = some o := ho
    rw [Program.outlines, List.getElem?_append] at ho'
    split at ho'
    · obtain ⟨header, body, hget, ha, hl⟩ := Program.outlinesFrom_getElem? ho'
      exact .inr ⟨n, header, body, rt, hget, hrt, hname, hcode, ha ▸ hargs, hl ▸ hlocals⟩
    · have hempty := List.mem_of_getElem? ho'
      split at hempty
      · cases hempty
      · obtain rfl := List.mem_singleton.mp hempty
        exact hnone _ rfl rfl rfl

theorem Waiting.valid {c : Compilation} {X : Set Nat} {fs : List Frame}
    (h : Waiting (c.tree.planWith X) c.image H loose st bottom r fs)
    (hst : st.Fits (c.tree.planWith X) H) : ∀ f ∈ fs, f.Valid c st := by
  induction h with
  | nil => simp
  | cons hf _ ih => exact List.forall_mem_cons.mpr ⟨hf.valid hst, ih⟩

/-! ## Instructions -/

/-- What an instruction takes for values of its types are such values. -/
theorem Takes.pops {o : Outline} {L : List Sketch} {i : Instruction} {σ : Sketch}
    {next : Option Sketch} (h : Takes P o L i σ next) :
    ∃ rest, σ.stack = i.pops.map .word ++ rest := by
  cases h with
  | @binary op t u s l f hop =>
    cases op with
    | and | or => obtain ⟨rfl, -⟩ := hop; exact ⟨s, rfl⟩
    | _ => exact ⟨_, rfl⟩
  | _ => exact ⟨_, rfl⟩

theorem words_of_fits {vs : List Value} {ts : List WordType}
    (h : List.Forall₂ (Value.Fits H loose) vs (ts.map .word)) :
    ∃ words, vs = words.map .word ∧ List.Forall₂ WordType.Valid ts words := by
  induction ts generalizing vs with
  | nil =>
    cases h
    exact ⟨[], rfl, .nil⟩
  | cons t ts ih =>
    obtain ⟨_, rest, ⟨w, rfl, hw⟩, hrest, rfl⟩ := List.forall₂_cons_right_iff.mp h
    obtain ⟨words, rfl, hwords⟩ := ih hrest
    exact ⟨w :: words, rfl, .cons hw hwords⟩

/-- **Calls as sketched keep words of their types.** -/
theorem Calls.Fits.valid {c : Compilation} {calls : Calls} {X : Set Nat}
    (h : calls.Fits (c.tree.planWith X) c.image H loose bottom) : calls.Valid c := by
  have hst := h.store
  have hpopped (i : Instruction) (hi : calls.top.code.instructions[calls.top.position]? = some i) :
      ∃ words rest, calls.top.stack = words.map .word ++ rest ∧
        List.Forall₂ WordType.Valid i.pops words := by
    obtain ⟨r, S, L, i', after, -, -, hi', htakes, hc⟩ := h.next
    obtain rfl := Option.some.inj (hi.symm.trans hi')
    obtain ⟨cells, hcells⟩ := htakes.pops
    obtain ⟨vs, rest, hstack, hvs, -⟩ := forall₂_append_right (hcells ▸ hc.frame.stack)
    obtain ⟨words, rfl, hwords⟩ := words_of_fits hvs
    exact ⟨words, rest, hstack, hwords⟩
  refine ⟨Store.Fits.valid (hst.withExposed _), ?_, hpopped, fun i w rest hi hchar hstack => ?_⟩
  · obtain ⟨r, htop, hw⟩ := h.frames
    exact List.forall_mem_cons.mpr ⟨htop.valid hst, hw.valid hst⟩
  · obtain ⟨words, rest', hstack', hwords⟩ := hpopped i hi
    have hpops : i.pops = [.char] := by rcases hchar with rfl | rfl <;> rfl
    rw [hpops] at hwords
    obtain ⟨x, _, hx, -, rfl⟩ := List.forall₂_cons_left_iff.mp hwords
    rw [hstack] at hstack'
    obtain rfl : w = x := Value.word.inj (List.cons.inj hstack').1
    exact WordType.render_char hx

end

section

variable {name : String} {legacy : Bool} {source : List UInt8} {c : Compilation} {st : Store}

/-- **Words are of their types.** At every step of every run all truth values that are kept are 0
or 1, and all characters code points of characters; so are the words that the next instruction
takes for them. What a run returns is a value of the type that the function `main` returns. The
source and its code are within 32 bits. -/
theorem compile_valid (h : compile name legacy source = .ok c)
    (hsource : source.length < UInt32.size)
    (haddr : c.image.Addressable) (hst : st.AtRest c.image) (n : Nat) :
    match Run.advance c.image n (Execution.start c.image st) with
    | .active p => p.Valid c
    | .done result st' => st'.Valid c.tree ∧ ∀ w, result = .ok (some w) →
        ∃ k ∈ c.tree.headers, k.name.value = entryName ∧
          ∃ t, k.returnType = some t ∧ t.Valid w := by
  have haddr := compile_addressable h hsource haddr
  have hrun := hst.run_fits (compile_typed h haddr) n
  generalize Run.advance c.image n (Execution.start c.image st) = run at hrun
  cases run with
  | active p =>
    obtain ⟨H, hp⟩ := hrun
    obtain ⟨calls, stage⟩ := p
    cases stage with
    | initializer => exact Calls.Fits.valid (X := c.tree.exposed) hp
    | entry =>
      obtain ⟨o, -, hc⟩ := hp
      exact Calls.Fits.valid (X := ∅) hc
  | done result st' =>
    cases result with
    | error e =>
      obtain ⟨⟨H, hfits⟩, -⟩ := hrun
      exact ⟨hfits.valid, fun w hw => by cases hw⟩
    | ok v =>
      obtain ⟨⟨H, hfits⟩, o, ho, hsome, hv⟩ := hrun
      refine ⟨hfits.valid, fun w hw => ?_⟩
      obtain rfl : v = some w := Except.ok.inj hw
      obtain ⟨t, ht⟩ := Option.isSome_iff_exists.mp hsome.symm
      obtain ⟨k, hk, hname, hreturns⟩ := (compile_returns h haddr ho t).mp ht
      exact ⟨k, hk, hname, t, hreturns, hv w rfl t ht⟩

/-- A run in which a character and an array of truth values are passed on, and its result. -/
theorem compile_valid_flags :
    ∃ c, compile "" false (
        "bool f(char c; bool v[]) \x7b print(c); return v[1] and c == '?'; \x7d " ++
        "bool main() \x7b bool v[2]; v[1] = not v[0]; return f('?', v); \x7d").toUTF8.toList =
          .ok c ∧
      (∀ n p, Run.advance c.image n (Execution.start c.image (.trial c.image [])) = .active p →
        p.Valid c) ∧
      ∃ st, Run.advance c.image 40 (Execution.start c.image (.trial c.image [])) =
          .done (.ok (some 1)) st ∧ st.Valid c.tree := by
  obtain ⟨c, hc, haddr, hend⟩ := exists_compilation (q := fun c => (Run.advance c.image 40
    (Execution.start c.image (.trial c.image []))).endsIn (.ok (some 1)))
    (show (compile "" false (
      "bool f(char c; bool v[]) \x7b print(c); return v[1] and c == '?'; \x7d " ++
      "bool main() \x7b bool v[2]; v[1] = not v[0]; return f('?', v); \x7d"
      ).toUTF8.toList).toOption.any _ = true by decide +kernel)
  obtain ⟨st, hst⟩ := Run.eq_done_of_endsIn hend
  have hvalid (n : Nat) := compile_valid hc (by decide +kernel) haddr (Store.atRest_trial _ []) n
  refine ⟨c, hc, fun n p hp => ?_, st, hst, ?_⟩
  · have hp' := hvalid n
    rwa [hp] at hp'
  · have hst' := hvalid 40
    rw [hst] at hst'
    exact hst'.1

end

end OnePass
