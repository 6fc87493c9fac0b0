import Mathlib.Algebra.Group.Nat.Defs
import Mathlib.Data.List.Nodup
import OnePass.Proofs.EffectRuns

/-!
# Assignments change what they designate

An assignment is said a second time, as the list of what it changes (`Expr.change`): first all of
its parts are evaluated, then the spots in the list get their new words. Main statement: the code
for an assignment does what its list says, and changes nothing else (`compile_changes`).
-/

namespace OnePass

/-! ## Spots -/

namespace Memory

/-- What is at a spot. -/
def at? (m : Memory) : Spot → Option Value
  | .slot h => m.get? h
  | .element ref k => (m.words ref)[k]?.map Value.word

/-- The memory with words in some spots. -/
def putAll (m : Memory) (cs : List (Spot × Int32)) : Memory := cs.foldl (fun m c => m.put c.1 c.2) m

/-- Exactly the spots of a list have changed. -/
structure Changed (m : Memory) (cs : List (Spot × Int32)) (m' : Memory) : Prop where
  spots : ∀ p, m'.at? p = ((cs.lookup p).map Value.word).or (m.at? p)
  input : m'.store.input = m.store.input
  output : m'.store.output = m.store.output
  random : m'.store.random = m.store.random

variable {m : Memory} {p q : Spot} {y : Int32} {cs : List (Spot × Int32)}

theorem get?_set_ne {h h' : Handle} {v : Value} (hne : h' ≠ h) :
    (m.set h v).get? h' = m.get? h' := by
  cases h <;> cases h' <;> simp only [get?, set]
  all_goals
    rw [Array.getElem?_setIfInBounds, if_neg]
    intro heq
    exact hne (by rw [UInt32.toNat_inj.mp heq])

theorem get?_set {h : Handle} {v : Value} (hsome : (m.get? h).isSome) :
    (m.set h v).get? h = some v := by
  cases h <;> simp only [get?, set] at hsome ⊢
  all_goals
    obtain ⟨x, hx⟩ := Option.isSome_iff_exists.mp hsome
    rw [Array.getElem?_setIfInBounds, if_pos rfl, if_pos (Array.getElem?_eq_some_iff.mp hx).1]

theorem isSome_get?_set {h h' : Handle} {v : Value} :
    ((m.set h v).get? h').isSome = (m.get? h').isSome := by
  by_cases hne : h' = h
  · subst hne
    cases hs : m.get? h' with
    | some x => rw [get?_set (by rw [hs]; rfl)]; rfl
    | none =>
      cases h' <;> simp only [get?, set] at hs ⊢
      all_goals
        rw [Array.getElem?_eq_none_iff] at hs
        simp [hs]
  · rw [get?_set_ne hne]

theorem words_put {ref r k : Nat} : (m.put (.element r k) y).words ref =
    if r = ref then (m.words ref).setIfInBounds k y else m.words ref := by
  simp only [put, modifyWords, words, Array.getD_eq_getD_getElem?, Array.getElem?_modify]
  split
  · cases m.store.arrays[ref]? <;> simp
  · rfl

theorem at?_put (hsome : (m.at? p).isSome) : (m.put p y).at? p = some (.word y) := by
  cases p with
  | slot h => exact get?_set hsome
  | element ref k =>
    rw [at?, words_put, if_pos rfl, Array.getElem?_setIfInBounds, if_pos rfl, if_pos]
    · rfl
    · simpa [at?] using hsome

theorem at?_put_ne (hne : q ≠ p) : (m.put p y).at? q = m.at? q := by
  cases p with
  | slot h =>
    cases q with
    | slot h' => exact get?_set_ne fun heq => hne (heq ▸ rfl)
    | element ref k => cases h <;> rfl
  | element ref k =>
    cases q with
    | slot h' => cases h' <;> rfl
    | element ref' k' =>
      rw [at?, at?, words_put]
      split
      · rename_i href
        rw [Array.getElem?_setIfInBounds, if_neg]
        rintro rfl
        exact hne (href ▸ rfl)
      · rfl

/-- What is put into spots that are there is in them, and all others are as before. -/
theorem changed_putAll (hnodup : (cs.map Prod.fst).Nodup) (hsome : ∀ c ∈ cs, (m.at? c.1).isSome) :
    m.Changed cs (m.putAll cs) := by
  induction cs generalizing m with
  | nil => exact ⟨fun p => rfl, rfl, rfl, rfl⟩
  | cons c cs ih =>
    obtain ⟨p, y⟩ := c
    obtain ⟨hnew, hnodup⟩ := List.nodup_cons.mp hnodup
    have hothers (c : Spot × Int32) (hc : c ∈ cs) : c.1 ≠ p := fun heq =>
      hnew (List.mem_map.mpr ⟨c, hc, heq⟩)
    have hrest := ih (m := m.put p y) hnodup fun c hc => by
      rw [at?_put_ne (hothers c hc)]
      exact hsome c (.tail _ hc)
    have hsame : (m.put p y).store.input = m.store.input ∧
        (m.put p y).store.output = m.store.output ∧ (m.put p y).store.random = m.store.random := by
      cases p with
      | slot h => cases h <;> exact ⟨rfl, rfl, rfl⟩
      | element ref k => exact ⟨rfl, rfl, rfl⟩
    refine ⟨fun q => (hrest.spots q).trans ?_, hrest.input.trans hsame.1,
      hrest.output.trans hsame.2.1, hrest.random.trans hsame.2.2⟩
    by_cases hq : q = p
    · subst hq
      have hnone : cs.lookup q = none := List.lookup_eq_none_iff.mpr fun c hc => by
        simpa using (hothers c hc).symm
      rw [hnone, List.lookup_cons_self, at?_put (hsome _ (.head _))]
      rfl
    · rw [at?_put_ne hq, List.lookup_cons, beq_eq_false_iff_ne.mpr hq]

end Memory

/-! ## Assignments as lists -/

namespace Situation

/-- The word that an assignment stores, its right side having the value `y`. For a compound
assignment the present value is on the left; the index is evaluated once more for it. -/
def stored (s : Situation) (n : Name) (index : Option Expr) (op : AssignOp) (y : Int32) :
    Eval Int32 :=
  match op.arith? with
  | none => return y
  | some o => do o.meaning (← s.present n index) y

/-- What an assignment of a word changes. The index comes first, then the right side, and then what
else is to be known of the new word. Only then it is checked that there is such an element. -/
def assigned (s : Situation) (n : Name) (index : Option Expr) (op : AssignOp) (value : Expr) :
    Eval (List (Spot × Int32)) := do
  let d ← s.designate n index
  let y ← Eval.word (← value.evaluate s)
  let z ← s.stored n index op y
  return [(← Eval.spot d, z)]

/-- What a step changes. -/
def stepped (s : Situation) (n : Name) (index : Option Expr) (op : StepOp) :
    Eval (List (Spot × Int32)) := do
  let d ← s.designate n index
  let z ← op.arith.meaning (← s.present n index) 1
  return [(← Eval.spot d, z)]

end Situation

/-- The first `n` elements of an array get words. -/
def Spot.copies (ref : Nat) (words : Array Int32) (n : Nat) : List (Spot × Int32) :=
  (List.range n).map fun k => (.element ref k, words.getD k 0)

namespace Situation

/-- What an assignment of an array to another one changes: each element that both have. -/
def copied (a b : Symbol) : Eval (List (Spot × Int32)) :=
  if copyLength a b = 0 then return [] else do
    let source ← Eval.array (← Eval.read b.handle)
    let target ← Eval.array (← Eval.read a.handle)
    return Spot.copies target ((← get).words source) (copyLength a b)

/-- What an assignment of whole arrays changes. -/
def arrayAssigned (s : Situation) (a : Symbol) (value : Expr) : Eval (List (Spot × Int32)) :=
  match value.place? with
  | some (n, none) =>
    match s.scopes.lookup n.value with
    | some b => copied a b
    | none => Eval.nothing
  | _ => Eval.nothing

/-- Arrays have the lengths that they are declared with. -/
def Sized (s : Situation) (m : Memory) : Prop :=
  ∀ name v n ref, s.scopes.lookup name = some v → v.shape = .array (some n) →
    m.get? v.handle = some (.array ref) → (m.words ref).size = n.toNat ∧ n.toNat < 2 ^ 31

end Situation

namespace Expr

/-- Whether an expression is an assignment, or `++` or `--`. -/
def changes : Expr → Bool
  | .step _ _ | .assign _ _ _ => true
  | _ => false

/-- What an assignment changes. -/
def change (s : Situation) : Expr → Eval (List (Spot × Int32))
  | .step p op =>
    match p.place? with
    | some (n, index) => s.stepped n index op.value
    | none => Eval.nothing
  | .assign p op value =>
    match p.place? with
    | some (n, index) =>
      match s.scopes.lookup n.value, index with
      | some v, none =>
        if v.isArray then s.arrayAssigned v value else s.assigned n none op.value value
      | _, _ => s.assigned n index op.value value
    | none => Eval.nothing
  | _ => Eval.nothing

end Expr

/-! ## The same in two steps -/

namespace Situation

variable {s : Situation} {m : Memory}

/-- Putting a list into a memory. -/
theorem assign_eq (hmode : s.legacy = false) (n : Name) (index : Option Expr) (op : AssignOp)
    (value : Expr) : s.assign n index op value =
      s.assigned n index op value >>= fun cs => modify fun m => m.putAll cs := by
  cases op <;>
    simp [assign, assigned, stored, newValue, Eval.store, AssignOp.arith?, hmode, bind_assoc,
      Memory.putAll]

theorem step_eq (n : Name) (index : Option Expr) (op : StepOp) : s.step n index op =
    s.stepped n index op >>= fun cs => modify fun m => m.putAll cs := by
  simp [step, stepped, Eval.store, bind_assoc, Memory.putAll]

end Situation

/-! ## Copies -/

section Copies

variable {m : Memory} {a b : Handle} {target source n : Nat}

/-- The first elements of an array have got what another array holds. -/
def Memory.copied (m : Memory) (target source n : Nat) : Memory :=
  m.putAll (Spot.copies target (m.words source) n)

theorem Memory.copied_succ : m.copied target source (n + 1) =
    (m.copied target source n).put (.element target n) ((m.words source).getD n 0) := by
  rw [copied, Spot.copies, List.range_succ, List.map_append, putAll, List.foldl_append]
  rfl

theorem Memory.copied_changed (hn : n ≤ (m.words target).size) :
    m.Changed (Spot.copies target (m.words source) n) (m.copied target source n) := by
  refine changed_putAll ?_ fun c hc => ?_
  · rw [Spot.copies, List.map_map]
    exact List.Nodup.map (fun i j hij => by simpa using hij) List.nodup_range
  · obtain ⟨k, hk, rfl⟩ := List.mem_map.mp hc
    have hlt : k < (m.words target).size := Nat.lt_of_lt_of_le (List.mem_range.mp hk) hn
    simp [at?, hlt]

theorem Memory.size_copied (ref : Nat) :
    ((m.copied target source n).words ref).size = (m.words ref).size := by
  induction n with
  | zero => rfl
  | succ n ih =>
    rw [copied_succ, words_put]
    split
    · rw [Array.size_setIfInBounds, ih]
    · exact ih

/-- The slots are as before, and so is the rest of the array that is copied from, even if it is the
same. -/
theorem Memory.get?_copied (h : Handle) : (m.copied target source n).get? h = m.get? h := by
  induction n with
  | zero => rfl
  | succ n ih =>
    rw [copied_succ]
    exact (at?_put_ne (p := .element target n) (q := .slot h) nofun).trans ih

theorem Memory.words_copied_getD {k : Nat} (hk : n ≤ k) :
    ((m.copied target source n).words source).getD k 0 = (m.words source).getD k 0 := by
  induction n with
  | zero => rfl
  | succ n ih =>
    rw [copied_succ, words_put]
    split
    · rw [Array.getD_eq_getD_getElem?, Array.getElem?_setIfInBounds, if_neg (by omega),
        ← Array.getD_eq_getD_getElem?, ih (by omega)]
    · exact ih (by omega)

theorem UInt32.toInt_toInt32_ofNat {k : Nat} (hk : k < 2 ^ 31) :
    (UInt32.ofNat k).toInt32.toInt = k := by
  rw [UInt32.toInt32_ofNat']
  exact Int32.toInt_ofNat_of_lt hk

/-- Copying one element after another copies all of them. -/
theorem Eval.run_copy (ha : m.get? a = some (.array target)) (hb : m.get? b = some (.array source))
    (hn : n ≤ (m.words target).size) (hn' : n ≤ (m.words source).size) (hsmall : n ≤ 2 ^ 31)
    (k start : Nat) (hk : start + k = n) :
    (Eval.copy a b start k).run.run (m.copied target source start) =
      some (.ok ⟨⟩, m.copied target source n) := by
  induction k generalizing start with
  | zero =>
    obtain rfl : start = n := by omega
    rfl
  | succ k ih =>
    have hindex := UInt32.toInt_toInt32_ofNat (k := start) (by omega)
    have hread : (Eval.read a).run.run (m.copied target source start) = _ :=
      Eval.run_read ((Memory.get?_copied a).trans ha)
    have hread' : (Eval.read b).run.run (m.copied target source start) = _ :=
      Eval.run_read ((Memory.get?_copied b).trans hb)
    have helem : (Eval.element (.array source) (UInt32.ofNat start).toInt32).run.run
        (m.copied target source start) =
          some (.ok ((m.words source).getD start 0), m.copied target source start) := by
      rw [Eval.run_element, Memory.size_copied, if_pos (by omega), hindex, Int.toNat_natCast,
        Memory.words_copied_getD (Nat.le_refl _)]
    have hstore : (Eval.store (.element (.array target) (UInt32.ofNat start).toInt32)
        ((m.words source).getD start 0)).run.run (m.copied target source start) =
          some (.ok ⟨⟩, m.copied target source (start + 1)) := by
      rw [Eval.run_store_element, Memory.size_copied, if_pos (by omega), hindex, Int.toNat_natCast,
        Memory.copied_succ]
    rw [Eval.copy, run_bind_ok hread, run_bind_ok hread', run_bind_ok helem, run_bind_ok hstore]
    exact ih (start + 1) (by omega)

end Copies

/-! ## Code -/

namespace Site

variable {w : Site} {H : Heap} {m : Memory} {c : Calls} {α : Type} {ev : Eval α}
  {f : α → Memory → Memory} {dest : Memory → Progress} {Q : Memory → Prop}

/-- The last step of an evaluation may be seen as part of where it leads to. -/
theorem Does.of_modify
    (h : w.Does c ((ev >>= fun a => modify (f a) : Eval Unit).run.run m) (fun _ m' => dest m')
      fun _ m' => Q m') :
    w.Does c (ev.run.run m) (fun a m' => dest (f a m')) fun a m' => Q (f a m') := by
  rcases hev : ev.run.run m with - | ⟨e | a, m'⟩
  · rw [Eval.run_bind_none hev] at h
    exact h
  · rw [Eval.run_bind_error hev] at h
    exact h
  · rw [Eval.run_bind_ok hev] at h
    exact h

/-- Copying whole arrays, whose lengths are the declared ones, is one step. Where an array is not
ready, both ways fail alike. -/
theorem run_copyArray (hst : w.Consistent H m) (hsized : w.situation.Sized m)
    {a b : Symbol} {name name' : String} (ha : w.scopes.lookup name = some a)
    (hb : w.scopes.lookup name' = some b) (hoa : w.Offers a) (hob : w.Offers b)
    (haa : a.isArray = true) (hba : b.isArray = true) :
    (Eval.copy a.handle b.handle 0 (Situation.copyLength a b)).run.run m =
      (Situation.copied a b >>= fun cs => modify fun m => m.putAll cs : Eval Unit).run.run m := by
  obtain ⟨x, hx, hxa⟩ := hst.read hoa
  obtain ⟨z, hz, hzb⟩ := hst.read hob
  rw [Rules.cell_of_array haa] at hxa
  rw [Rules.cell_of_array hba] at hzb
  -- Without elements to copy neither side reads anything.
  by_cases hn : Situation.copyLength a b = 0
  · rw [Situation.copied, hn, if_pos rfl]
    rfl
  obtain ⟨p, q, hp, hq, hlength⟩ : ∃ p q, a.shape = .array (some p) ∧ b.shape = .array (some q) ∧
      Situation.copyLength a b ≤ min p.toNat q.toNat := by
    unfold Situation.copyLength at hn ⊢
    split at hn
    · rename_i p q hp hq
      exact ⟨p, q, hp, hq, Rules.copies_le p q⟩
    · exact absurd rfl hn
  -- Otherwise both read the source first and the target then, and fail where that fails.
  obtain ⟨k, hk⟩ := Nat.exists_eq_succ_of_ne_zero hn
  have hleft : (Eval.copy a.handle b.handle 0 (k + 1)).run.run m =
      (Eval.element z (UInt32.ofNat 0).toInt32 >>= fun y =>
        Eval.store (.element x (UInt32.ofNat 0).toInt32) y >>= fun _ =>
          Eval.copy a.handle b.handle 1 k : Eval Unit).run.run m := by
    rw [Eval.copy, Eval.run_bind_ok (Eval.run_read hx), Eval.run_bind_ok (Eval.run_read hz)]
  have hright : (Situation.copied a b).run.run m =
      (Eval.array z >>= fun source => Eval.read a.handle >>= fun x => Eval.array x >>=
        fun target => do
        return Spot.copies target ((← get).words source) (Situation.copyLength a b) :
          Eval (List (Spot × Int32))).run.run m := by
    rw [Situation.copied, if_neg hn, Eval.run_bind_ok (Eval.run_read hz)]
  obtain ⟨source, rfl, -⟩ | ⟨-, rfl⟩ := hzb
  -- Arrays that are ready are as long as declared, so no index is out of range.
  · obtain ⟨hsource, hsmall⟩ := hsized name' b q source hb hq hz
    have hread : (Situation.copied a b).run.run m = (Eval.array x >>= fun target => do
        return Spot.copies target ((← get).words source) (Situation.copyLength a b) :
          Eval (List (Spot × Int32))).run.run m :=
      hright.trans (Eval.run_bind_ok (Eval.run_read hx))
    obtain ⟨target, rfl, -⟩ | ⟨-, rfl⟩ := hxa
    · obtain ⟨htarget, -⟩ := hsized name a p target ha hp hx
      rw [Eval.run_bind_ok hread]
      exact Eval.run_copy (n := Situation.copyLength a b) hx hz (by omega) (by omega) (by omega) _ 0
        (Nat.zero_add _)
    -- A target that is not ready is found out by the first element.
    · have hindex := UInt32.toInt_toInt32_ofNat (k := 0) (by decide)
      have helem : (Eval.element (.array source) (UInt32.ofNat 0).toInt32).run.run m =
          some (.ok ((m.words source).getD 0 0), m) := by
        rw [Eval.run_element, if_pos (by omega), hindex]
        rfl
      rw [Eval.run_bind_error hread, hk, hleft, Eval.run_bind_ok helem]
      rfl
  · rw [Eval.run_bind_error hright, hk, hleft]
    rfl

/-- A spot that is designated is there. -/
theorem at?_of_spot {d : Designation} {p : Spot} {m' : Memory}
    (h : (Eval.spot d).run.run m = some (.ok p, m')) (hd : ∀ k, d = .slot k → (m.get? k).isSome) :
    m' = m ∧ (m.at? p).isSome := by
  cases d with
  | slot k =>
    cases h
    exact ⟨rfl, hd k rfl⟩
  | element a x =>
    obtain ⟨ref, m₁, href, hrest⟩ := Eval.of_run_bind h
    obtain ⟨k, m₂, hk, hlast⟩ := Eval.of_run_bind hrest
    cases hlast
    cases a <;> cases href
    rw [Eval.run_position] at hk
    split at hk
    · cases hk
      rename_i hin
      have hlt : x.toInt.toNat < (m.words ref).size := by omega
      refine ⟨rfl, ?_⟩
      rw [Memory.at?, Array.getElem?_eq_getElem hlt]
      rfl
    · cases hk

/-- What is designated by a variable is its slot, or an element. -/
theorem designate_slot {v : Symbol} {n : Name} {index : Option Expr} {d : Designation} {m' : Memory}
    {k : Handle} (hlookup : w.scopes.lookup n.value = some v)
    (h : (w.situation.designate n index).run.run m = some (.ok d, m')) (hd : d = .slot k) :
    k = v.handle := by
  cases index with
  | none =>
    unfold Situation.designate at h
    dsimp only at h
    rw [show w.situation.scopes.lookup n.value = some v from hlookup] at h
    cases h
    cases hd
    rfl
  | some i =>
    obtain ⟨a, m₁, -, hrest⟩ := Eval.of_run_bind h
    obtain ⟨x, m₂, -, hrest⟩ := Eval.of_run_bind hrest
    obtain ⟨y, m₃, -, hrest⟩ := Eval.of_run_bind hrest
    cases hrest
    cases hd

/-- One spot changes, if the variable has a slot. -/
theorem changed_of_spot {v : Symbol} {n : Name} {index : Option Expr} {d : Designation} {y : Int32}
    {cs : List (Spot × Int32)} {m₁ m₂ m' : Memory} (hlookup : w.scopes.lookup n.value = some v)
    (hd : (w.situation.designate n index).run.run m = some (.ok d, m₁))
    (hspot : (do return [(← Eval.spot d, y)] : Eval (List (Spot × Int32))).run.run m₂ =
      some (.ok cs, m'))
    (hslot : ((m'.putAll cs).get? v.handle).isSome) : m'.Changed cs (m'.putAll cs) := by
  obtain ⟨p, m₃, hp, hrest⟩ := Eval.of_run_bind hspot
  cases hrest
  refine Memory.changed_putAll (List.nodup_singleton _) fun c hc => ?_
  obtain rfl := List.mem_singleton.mp hc
  cases d with
  | slot k =>
    cases hp
    obtain rfl := designate_slot hlookup hd rfl
    exact (Memory.isSome_get?_set ▸ hslot :)
  | element a x =>
    obtain ⟨rfl, hsome⟩ := at?_of_spot hp nofun
    exact hsome

/-- The elements that are copied change. -/
theorem changed_of_copied {a b : Symbol} {name : String} {cs : List (Spot × Int32)} {m' : Memory}
    (hsized : w.situation.Sized m) (ha : w.scopes.lookup name = some a)
    (h : (Situation.copied a b).run.run m = some (.ok cs, m')) : m'.Changed cs (m'.putAll cs) := by
  unfold Situation.copied at h
  split at h
  · cases h
    exact ⟨fun p => rfl, rfl, rfl, rfl⟩
  · rename_i hn
    obtain ⟨z, m₁, hz, hrest⟩ := Eval.of_run_bind h
    obtain ⟨source, m₂, hsource, hrest⟩ := Eval.of_run_bind hrest
    obtain ⟨x, m₃, hx, hrest⟩ := Eval.of_run_bind hrest
    obtain ⟨target, m₄, htarget, hlast⟩ := Eval.of_run_bind hrest
    cases hlast
    obtain ⟨rfl, -⟩ := Eval.of_run_read hz
    obtain ⟨rfl, rfl⟩ := Eval.of_run_array hsource
    obtain ⟨rfl, hx⟩ := Eval.of_run_read hx
    obtain ⟨rfl, rfl⟩ := Eval.of_run_array htarget
    refine Memory.copied_changed ?_
    unfold Situation.copyLength at hn ⊢
    split
    · rename_i p q hp _
      have hsize := (hsized name a p target ha hp hx).1
      have hle := Rules.copies_le p q
      omega
    · exact Nat.zero_le _

section

variable {s : List Value} {g g' : Generator} {type : ExprType} (hw : w.Sound)
  (hp : w.program.image.Typed w.program.tree.plan) (hmode : w.legacy = false)

/-- What is done in two steps: first the evaluation of all parts, then the changes. -/
theorem does_change {e : Expr} (hacts : w.Acts (e.operand w.target).compile (e.perform w.situation))
    (heffect : type.hasValue = false) (hf : w.Fits g)
    (hm : Gen.Makes (e.operand w.target).compile g type g')
    (hcode : w.Continues (g'.draft w.target)) (hst : w.Consistent H m)
    (heq : (e.perform w.situation).run.run m =
      (e.change w.situation >>= fun cs => modify fun m => m.putAll cs : Eval Unit).run.run m)
    (hchanged : ∀ cs m', (e.change w.situation).run.run m = some (.ok cs, m') →
      w.Keeps H (m'.putAll cs) (fun _ => True) → m'.Changed cs (m'.putAll cs)) :
    w.Does (w.stand (g.draft w.target).position s m) ((e.change w.situation).run.run m)
      (fun cs m' => .active (w.stand (g'.draft w.target).position s (m'.putAll cs)))
      (fun cs m' => m'.Changed cs (m'.putAll cs) ∧ w.Keeps H (m'.putAll cs) fun _ => True) := by
  have hdoes := hacts g type g' H m s hf hm heffect hcode hst
  rw [heq] at hdoes
  exact hdoes.of_modify.imp_of_eq fun cs m' hrun hkeeps => ⟨hchanged cs m' hrun hkeeps, hkeeps⟩

include hw hp hmode

theorem does_change_assign (p : Expr) (op : Located AssignOp) (value : Expr) (hf : w.Fits g)
    (hm : Gen.Makes (Expr.operand w.target (.assign p op value)).compile g type g')
    (hcode : w.Continues (g'.draft w.target)) (hst : w.Consistent H m)
    (hsized : w.situation.Sized m) :
    w.Does (w.stand (g.draft w.target).position s m)
      (((Expr.assign p op value).change w.situation).run.run m)
      (fun cs m' => .active (w.stand (g'.draft w.target).position s (m'.putAll cs)))
      (fun cs m' => m'.Changed cs (m'.putAll cs) ∧ w.Keeps H (m'.putAll cs) fun _ => True) := by
  obtain ⟨rfl, name, index, v, hplace, hv, hrule⟩ := Rules.makes_assign hm
  obtain ⟨i, hp', rfl⟩ := Expr.place?_of_operand hplace
  obtain ⟨-, hlookup, hoffers⟩ := hw.offers hf hv
  have hacts := acts_assign hw hp p op value
  -- An assignment of arrays, told by its places.
  obtain ⟨hnone, harray, hset, hcopy⟩ | ⟨harray, -, -⟩ := hrule
  · obtain rfl : i = none := by simpa [Expr.indexCode] using hnone
    obtain ⟨source, b, hsource, hb, hba, -, -, -⟩ := Rules.makes_copyArray hcopy
    obtain ⟨j, hvalue, hnone'⟩ := Expr.place?_of_operand hsource
    obtain rfl : j = none := by simpa [Expr.indexCode] using hnone'.symm
    obtain ⟨-, hlookup', hoffers'⟩ := hw.offers hf hb
    have hperform : (Expr.assign p op value).perform w.situation =
        Eval.copy v.handle b.handle 0 (Situation.copyLength v b) := by
      rw [Expr.perform_assign, hp']
      dsimp only
      rw [show w.situation.scopes.lookup name.value = some v from hlookup]
      dsimp only
      rw [if_pos harray, Situation.assignArray, hvalue]
      dsimp only
      rw [show w.situation.scopes.lookup source.value = some b from hlookup']
    have hchange : (Expr.assign p op value).change w.situation = Situation.copied v b := by
      rw [Expr.change, hp']
      dsimp only
      rw [show w.situation.scopes.lookup name.value = some v from hlookup]
      dsimp only
      rw [if_pos harray, Situation.arrayAssigned, hvalue]
      dsimp only
      rw [show w.situation.scopes.lookup source.value = some b from hlookup']
    refine does_change hacts rfl hf hm hcode hst ?_ fun cs m' hrun _ => ?_
    · rw [hperform, hchange]
      exact run_copyArray hst hsized hlookup hlookup' hoffers hoffers' harray hba
    · rw [hchange] at hrun
      exact changed_of_copied hsized hlookup hrun
  -- An assignment of a word. What it changes is one place.
  · have harray' : v.isArray = i.isSome := by rw [harray, Expr.indexCode, Option.isSome_map]
    have hword : (Expr.assign p op value).perform w.situation =
          w.situation.assign name i op.value value ∧
        (Expr.assign p op value).change w.situation =
          w.situation.assigned name i op.value value := by
      rw [Expr.perform_assign, Expr.change, hp']
      dsimp only
      rw [show w.situation.scopes.lookup name.value = some v from hlookup]
      cases i with
      | none =>
        have hscalar : ¬ v.isArray = true := by rw [harray']; decide
        dsimp only
        rw [if_neg hscalar, if_neg hscalar]
        exact ⟨rfl, rfl⟩
      | some i => exact ⟨rfl, rfl⟩
    refine does_change hacts rfl hf hm hcode hst ?_ fun cs m' hrun hkeeps => ?_
    · rw [hword.1, hword.2, Situation.assign_eq hmode]
    · rw [hword.2] at hrun
      obtain ⟨d, m₁, hd, hrest⟩ := Eval.of_run_bind hrun
      obtain ⟨x, m₂, -, hrest⟩ := Eval.of_run_bind hrest
      obtain ⟨y, m₃, -, hrest⟩ := Eval.of_run_bind hrest
      obtain ⟨z, m₄, -, hspot⟩ := Eval.of_run_bind hrest
      obtain ⟨H', hst', -, -⟩ := hkeeps
      obtain ⟨old, hold, -⟩ := hst'.read hoffers
      exact changed_of_spot hlookup hd hspot (hold ▸ rfl)

omit hmode in
theorem does_change_step (p : Expr) (op : Located StepOp) (hf : w.Fits g)
    (hm : Gen.Makes (Expr.operand w.target (.step p op)).compile g type g')
    (hcode : w.Continues (g'.draft w.target)) (hst : w.Consistent H m) :
    w.Does (w.stand (g.draft w.target).position s m)
      (((Expr.step p op).change w.situation).run.run m)
      (fun cs m' => .active (w.stand (g'.draft w.target).position s (m'.putAll cs)))
      (fun cs m' => m'.Changed cs (m'.putAll cs) ∧ w.Keeps H (m'.putAll cs) fun _ => True) := by
  obtain ⟨rfl, name, index, v, hplace, hv, -⟩ := Rules.makes_step hm
  obtain ⟨i, hp', rfl⟩ := Expr.place?_of_operand hplace
  obtain ⟨-, hlookup, hoffers⟩ := hw.offers hf hv
  have hperform : (Expr.step p op).perform w.situation = w.situation.step name i op.value := by
    rw [Expr.perform_step, hp']
  have hchange : (Expr.step p op).change w.situation = w.situation.stepped name i op.value := by
    rw [Expr.change, hp']
  refine does_change (acts_step hw hp p op) rfl hf hm hcode hst ?_ fun cs m' hrun hkeeps => ?_
  · rw [hperform, hchange, Situation.step_eq]
  · rw [hchange] at hrun
    obtain ⟨d, m₁, hd, hrest⟩ := Eval.of_run_bind hrun
    obtain ⟨x, m₂, -, hrest⟩ := Eval.of_run_bind hrest
    obtain ⟨y, m₃, -, hspot⟩ := Eval.of_run_bind hrest
    obtain ⟨H', hst', -, -⟩ := hkeeps
    obtain ⟨old, hold, -⟩ := hst'.read hoffers
    exact changed_of_spot hlookup hd hspot (hold ▸ rfl)

end

end Site

section

variable {name : String} {legacy : Bool} {source : List UInt8} {w : Site} {H : Heap} {m : Memory}
  {g g' : Generator} {type : ExprType}

/-- **Assignments change exactly what they designate.** In a compiled program, not in legacy form,
running the code for an assignment, or for `++` or `--`, from a state that is as the visible
variables say, either gets behind that code with the stack as it was and with exactly the spots
changed that the assignment changes, each to the word that it says; or it fails as the evaluation of
the assignment does. That is so as long as 32 bits are enough for the program and for the positions
up to the end of the code. -/
theorem compile_changes (hprogram : compile name legacy source = .ok w.program)
    (hsource : source.length < UInt32.size) (haddr : w.program.image.Addressable) (hw : w.Sound)
    (hmode : w.legacy = false) (e : Expr) (he : e.changes = true) (hf : w.Fits g)
    (hm : Gen.Makes (e.compile w.target) g type g') (hcode : w.Continues (g'.draft w.target))
    (hst : w.Consistent H m) (hsized : w.situation.Sized m) (s : List Value) :
    w.Does (w.stand (g.draft w.target).position s m) ((e.change w.situation).run.run m)
      (fun cs m' => .active (w.stand (g'.draft w.target).position s (m'.putAll cs)))
      (fun cs m' => m'.Changed cs (m'.putAll cs) ∧ w.Keeps H (m'.putAll cs) fun _ => True) := by
  have hp := compile_typed hprogram (compile_addressable hprogram hsource haddr)
  cases e with
  | assign p op value =>
    exact Site.does_change_assign hw hp hmode p op value hf hm hcode hst hsized
  | step p op => exact Site.does_change_step hw hp p op hf hm hcode hst
  | _ => cases he

/-- What `main` is compiled to that subtracts 3 from `a[1]`. -/
def differenceCode : Code :=
  ⟨#[.loadField 0, .pushInt 1, .pushInt 3, .loadField 0, .pushInt 1, .loadElem, .swap, .binary .sub,
    .storeElem, .pushInt 0, .ret, .pushInt 0, .ret], #[]⟩

/-- Subtraction from an element of a global array. -/
theorem compile_changes_element :
    ∃ c r, compile "" false
        "int a[2]; int main() \x7b a[1] -= 3; return 0; \x7d".toUTF8.toList = .ok c ∧
      c.image.routines[0]? = some r ∧
      ∃ n, Calls.advance c.image 0 n (.active ⟨⟨"main", r.code, 0, #[], #[], [.word 1]⟩, [],
          ⟨#[.array 0], #[#[5, 7]], [], ⟨#[], none⟩, .ofSeed 0, .simple⟩⟩) =
        .active ⟨⟨"main", r.code, 9, #[], #[], [.word 1]⟩, [],
          ⟨#[.array 0], #[#[5, 4]], [], ⟨#[], none⟩, .ofSeed 0, .simple⟩⟩ := by
  obtain ⟨c, hc, haddr, hq⟩ := exists_compilation
    (q := fun c => c.tree.plan.fields = [.ofArray .int] ∧
      c.image.routines[0]?.map Routine.code = some differenceCode)
    (show (compile "" false "int a[2]; int main() \x7b a[1] -= 3; return 0; \x7d".toUTF8.toList
      ).toOption.any _ = true by decide +kernel)
  obtain ⟨hfields, hroutine⟩ := of_decide_eq_true hq
  obtain ⟨r, hr, hcode⟩ := Option.map_eq_some_iff.mp hroutine
  refine ⟨c, r, hc, hr, ?_⟩
  rw [hcode]
  let span : Span := .single .origin
  let a : Symbol := ⟨.int, .global, 0, .array (some 2), .field 0⟩
  let e : Expr := .assign (.elem ⟨"a", span⟩ (.literal ⟨.int 1, span⟩)) ⟨.sub, span⟩
    (.literal ⟨.int 3, span⟩)
  let w : Site := ⟨c, .function, ⟨[], Scope.empty.insert "a" a⟩, .new, false, "main",
    differenceCode,
    [], [], [], 0, 9, 0⟩
  let m : Memory := ⟨#[], #[], ⟨#[.array 0], #[#[5, 7]], [], ⟨#[], none⟩, .ofSeed 0, .simple⟩⟩
  have hw : w.Sound := by
    refine Site.sound_of_single (v := a) rfl rfl ?_
    show c.tree.plan.fields[0]? = some a.slot
    rw [hfields]
    rfl
  have hst : w.Consistent [.int] m :=
    Site.consistent_of_single hfields rfl rfl (fun x _ => WordType.valid_int x) ⟨rfl, rfl⟩
  have hsized : w.situation.Sized m := by
    intro name v n ref hv hshape href
    obtain rfl := Scopes.eq_of_lookup_single hv
    cases hshape
    cases href
    exact ⟨rfl, by decide⟩
  have hmakes : Gen.Makes (e.compile w.target) { Generator.new false with scopes := w.scopes }
    .effect
      _ := rfl
  -- the code for the assignment is the beginning of that of `main`
  have hbegins : w.code.instructions.toList.take 9 <+: w.code.instructions.toList :=
    List.take_prefix ..
  obtain ⟨n, hn, -⟩ := (compile_changes hc (by decide +kernel) haddr hw rfl e rfl (m := m)
    ⟨rfl, rfl, rfl, Nat.zero_le _⟩ hmakes
    ⟨⟨⟨show 9 < UInt32.size by decide, Nat.zero_le _⟩, hbegins, fun l p h => by cases h⟩, le_rfl⟩
    hst hsized [.word 1]).1
  exact ⟨n, hn⟩

end

end OnePass
