import Mathlib.Data.List.TakeDrop
import Mathlib.Data.List.TakeWhile
import OnePass.Proofs.CalmCode
import OnePass.Proofs.LineStreams
import OnePass.Proofs.Updates

/-!
# Input takes one line for each place

`put` handles its arguments from left to right. For each of them the index is evaluated, one line is
read and understood as a word, and the word is stored. `Situation.Takes` says what it is for an
argument to get its word, and `Situation.Fails` where that may end instead, and what has happened by
then.

Main statement: that is what the code for an input does (`compile_takes`).
-/

namespace OnePass

/-! ## Lines of the input -/

/-- The text that a line of the input is read as, without the line feeds and carriage returns at its
end; nothing if it is not UTF-8. -/
def Exec.lineText? (line : List UInt8) : Option String :=
  (Text.decode? line).map fun s =>
    String.ofList (Text.trimEnd (fun c => c = '\r' || c = '\n') s.toList)

/-- What is split off is the first line. -/
theorem Line.pieces_splitLine {bytes : List UInt8} (h : bytes ≠ []) :
    pieces bytes = (Exec.splitLine bytes).1 :: pieces (Exec.splitLine bytes).2 := by
  have hbytes := List.takeWhile_append_dropWhile (p := fun b : UInt8 => b != 0x0a) (l := bytes)
  have hline : 0x0a ∉ bytes.takeWhile (· != 0x0a) := fun hmem => by
    simpa using List.mem_takeWhile_imp hmem
  unfold Exec.splitLine
  rw [List.span_eq_takeWhile_dropWhile]
  dsimp only
  rcases hrest : bytes.dropWhile (· != 0x0a) with - | ⟨b, rest⟩
  · rw [hrest, List.append_nil] at hbytes
    rw [hbytes] at hline ⊢
    rw [List.take_nil, List.append_nil, pieces_of_not_mem hline h]
    rfl
  · have hfeed : b = 0x0a := by
      have hhead := List.head_dropWhile_not (fun b : UInt8 => b != 0x0a) (l := bytes)
        (hrest ▸ List.cons_ne_nil b rest)
      simpa [hrest] using hhead
    subst hfeed
    have hpieces := pieces_append hline rest
    rw [← hrest, hbytes] at hpieces
    exact hpieces

namespace Exec

variable {st : Store}

theorem lineRead_of_empty (h : st.input = []) : lineRead st = (.error .endOfInput, st) := by
  unfold lineRead
  rw [if_pos (List.isEmpty_iff.mpr h)]

/-- The line is used up also if it is not UTF-8. -/
theorem lineRead_of_ne (h : st.input ≠ []) : lineRead st =
    (match lineText? (splitLine st.input).1 with
      | some text => .ok text
      | none => .error (.channel .unreadableLine),
      { st with input := (splitLine st.input).2 }) := by
  unfold lineRead lineText?
  rw [if_neg (mt List.isEmpty_iff.mp h)]
  cases Text.decode? (splitLine st.input).1 <;> rfl

end Exec

/-- The memory with other input. -/
def Memory.withInput (m : Memory) (bytes : List UInt8) : Memory :=
  { m with store := { m.store with input := bytes } }

namespace Memory

theorem at?_withInput (m : Memory) (bytes : List UInt8) (p : Spot) :
    (m.withInput bytes).at? p = m.at? p := by
  cases p with
  | slot h => cases h <;> rfl
  | element ref k => rfl

end Memory

namespace Eval

theorem run_spot_element (ref : Nat) (x : Int32) (m : Memory) :
    (spot (.element (.array ref) x)).run.run m =
      if 0 ≤ x.toInt ∧ x.toInt < (m.words ref).size then
        some (.ok (.element ref x.toInt.toNat), m)
      else some (.error (.indexOutOfRange x (m.words ref).size), m) := by
  show (((if 0 ≤ x.toInt ∧ x.toInt < (m.words ref).size then pure x.toInt.toNat
    else throw (.indexOutOfRange x (m.words ref).size) : Eval Nat) >>= fun k =>
      pure (Spot.element ref k)) : Eval Spot).run.run m = _
  split <;> rfl

/-- What is designated does not depend on the input, and finding it changes nothing. -/
theorem run_spot_withInput (d : Designation) (m : Memory) (bytes : List UInt8) :
    ∃ r, (spot d).run.run m = some (r, m) ∧
      (spot d).run.run (m.withInput bytes) = some (r, m.withInput bytes) := by
  cases d with
  | slot h => exact ⟨_, rfl, rfl⟩
  | element a x =>
    cases a with
    | array ref =>
      have hwords : (m.withInput bytes).words ref = m.words ref := rfl
      rw [run_spot_element, run_spot_element, hwords]
      split <;> exact ⟨_, rfl, rfl⟩
    | word | str | boxed => exact ⟨_, rfl, rfl⟩

end Eval

/-! ## What is to be done with an argument -/

namespace Situation

/-- The argument `e` is a place of the variable `v`, designated by `d`. The evaluation of its index,
if it has one, takes the memory `m` to `m₁`. -/
def Aims (s : Situation) (e : Expr) (m : Memory) (v : Symbol) (d : Designation) (m₁ : Memory) :
    Prop :=
  ∃ name index, e.place? = some (name, index) ∧ s.scopes.lookup name.value = some v ∧
    (s.designate name index).run.run m = some (.ok d, m₁)

/-- Behind the index there is a line in the input, and `rest` behind that. -/
structure Reads (s : Situation) (e : Expr) (m : Memory) (v : Symbol) (d : Designation)
    (m₁ : Memory) (line rest : List UInt8) : Prop where
  aims : s.Aims e m v d m₁
  line : Line.pieces m₁.store.input = line :: Line.pieces rest

/-- The argument `e` gets its word. The index is evaluated; a line is read; it is understood as a
word of the type of the variable, or of its elements; and nothing changes then but the input, which
loses the line, and the spot that is designated, which gets the word. -/
inductive Takes (s : Situation) (e : Expr) (m : Memory) :
    List UInt8 → Spot × Int32 → Memory → Prop where
  | intro {v : Symbol} {d : Designation} {m₁ m' : Memory} {line rest : List UInt8} {text : String}
      {x : Int32} {p : Spot} (reads : s.Reads e m v d m₁ line rest)
      (decoded : Exec.lineText? line = some text) (parsed : v.type.parse? m₁.store.caseless
        text.toList = some x)
      (found : (Eval.spot d).run.run m₁ = some (.ok p, m₁))
      (changed : (m₁.withInput rest).Changed [(p, x)] m') : Takes s e m line (p, x) m'

/-- The argument `e` gets no word. Either the index fails, or there is no line, and then no line is
used up; or there is one, which is used up. Apart from that, and from what the evaluation of the
index has done, the memory is as before. -/
inductive Fails (s : Situation) (e : Expr) (m : Memory) :
    Option (List UInt8) → MachineError → Memory → Prop where
  /-- the evaluation of the index fails -/
  | index {name : Name} {index : Option Expr} {error : MachineError} {m' : Memory}
      (place : e.place? = some (name, index))
      (fails : (s.designate name index).run.run m = some (.error error, m')) :
      Fails s e m none error m'
  /-- there is no more input -/
  | endOfInput {v : Symbol} {d : Designation} {m₁ : Memory} (aims : s.Aims e m v d m₁)
      (input : m₁.store.input = []) : Fails s e m none .endOfInput m₁
  /-- the line is not UTF-8 -/
  | unreadable {v : Symbol} {d : Designation} {m₁ : Memory} {line rest : List UInt8}
      (reads : s.Reads e m v d m₁ line rest) (decoded : Exec.lineText? line = none) :
      Fails s e m (some line) (.channel .unreadableLine) (m₁.withInput rest)
  /-- the line does not denote a value of the type -/
  | malformed {v : Symbol} {d : Designation} {m₁ : Memory} {line rest : List UInt8} {text : String}
      (reads : s.Reads e m v d m₁ line rest) (decoded : Exec.lineText? line = some text)
      (parsed : v.type.parse? m₁.store.caseless text.toList = none) :
      Fails s e m (some line) (.badInput text v.type) (m₁.withInput rest)
  /-- what is designated is not there: the index is out of range, or the array is not ready -/
  | missing {v : Symbol} {d : Designation} {m₁ : Memory} {line rest : List UInt8} {text : String}
      {x : Int32} {error : MachineError} (reads : s.Reads e m v d m₁ line rest)
      (decoded : Exec.lineText? line = some text) (parsed : v.type.parse? m₁.store.caseless
        text.toList = some x)
      (found : (Eval.spot d).run.run m₁ = some (.error error, m₁)) :
      Fails s e m (some line) error (m₁.withInput rest)

/-- The arguments get their words, one after another, each from a line. -/
inductive TakesAll (s : Situation) : List Expr → Memory → List (List UInt8) →
    List (Spot × Int32) → Memory → Prop where
  | nil (m : Memory) : TakesAll s [] m [] [] m
  | cons {e : Expr} {es : List Expr} {m m₁ m' : Memory} {line : List UInt8}
      {lines : List (List UInt8)} {c : Spot × Int32} {cs : List (Spot × Int32)}
      (first : s.Takes e m line c m₁) (rest : s.TakesAll es m₁ lines cs m') :
      TakesAll s (e :: es) m (line :: lines) (c :: cs) m'

variable {s : Situation} {es : List Expr} {m m' : Memory} {lines : List (List UInt8)}
  {cs : List (Spot × Int32)}

/-- There are as many lines, and as many targets, as arguments. -/
theorem TakesAll.length (h : s.TakesAll es m lines cs m') :
    lines.length = es.length ∧ cs.length = es.length := by
  induction h with
  | nil => exact ⟨rfl, rfl⟩
  | cons _ _ ih => exact ⟨congrArg (· + 1) ih.1, congrArg (· + 1) ih.2⟩

/-- What one argument comes to. Where it gets its word, that has been put where it is designated to
be put. -/
theorem run_putOne {e : Expr} {name : Name} {index : Option Expr} {v : Symbol}
    {r : Except MachineError Unit} (hplace : e.place? = some (name, index))
    (hlookup : s.scopes.lookup name.value = some v) (h : (s.putOne e).run.run m = some (r, m')) :
    (∃ error line, r = .error error ∧ s.Fails e m line error m') ∨
      ∃ d m₁ line rest text x p, r = .ok ⟨⟩ ∧ s.Reads e m v d m₁ line rest ∧
        Exec.lineText? line = some text ∧ v.type.parse? m₁.store.caseless text.toList = some x ∧
        (Eval.spot d).run.run m₁ = some (.ok p, m₁) ∧ m' = (m₁.withInput rest).put p x := by
  -- Reading is done in four parts, and each of them can fail.
  have heq : s.putOne e = s.designate name index >>= fun d => Eval.line >>= fun text =>
      Eval.parsed v.type text >>= fun y => Eval.store d y := by
    unfold putOne
    rw [hplace]
    dsimp only
    rw [hlookup]
  rw [heq] at h
  -- the index of the target
  rcases hd : (s.designate name index).run.run m with - | ⟨error | d, m₁⟩
  · rw [Eval.run_bind_none hd] at h
    cases h
  · rw [Eval.run_bind_error hd] at h
    cases h
    exact .inl ⟨_, _, rfl, .index hplace hd⟩
  rw [Eval.run_bind_ok hd] at h
  have haims : s.Aims e m v d m₁ := ⟨name, index, hplace, hlookup, hd⟩
  have hline := Eval.run_line m₁
  -- the line, which may not be there
  by_cases hinput : m₁.store.input = []
  · rw [Exec.lineRead_of_empty hinput] at hline
    rw [Eval.run_bind_error hline] at h
    cases h
    exact .inl ⟨_, _, rfl, .endOfInput haims hinput⟩
  have hreads : s.Reads e m v d m₁ _ _ := ⟨haims, Line.pieces_splitLine hinput⟩
  rw [Exec.lineRead_of_ne hinput] at hline
  generalize (Exec.splitLine m₁.store.input).1 = line at hline hreads
  generalize (Exec.splitLine m₁.store.input).2 = rest at hline hreads
  change Eval.line.run.run m₁ = some (_, m₁.withInput rest) at hline
  -- the text of the line, which may not be valid
  rcases hdecoded : Exec.lineText? line with - | text <;> rw [hdecoded] at hline
  · rw [Eval.run_bind_error hline] at h
    cases h
    exact .inl ⟨_, _, rfl, .unreadable hreads hdecoded⟩
  rw [Eval.run_bind_ok hline] at h
  -- the value of the text, which may not be one of the type
  rcases hparsed : v.type.parse? m₁.store.caseless text.toList with - | x
  · have hbad : (Eval.parsed v.type text).run.run (m₁.withInput rest) =
        some (.error (.badInput text v.type), m₁.withInput rest) := by
      rw [Eval.run_parsed, show (m₁.withInput rest).store.caseless = m₁.store.caseless from rfl,
        hparsed]
    rw [Eval.run_bind_error hbad] at h
    cases h
    exact .inl ⟨_, _, rfl, .malformed hreads hdecoded hparsed⟩
  have hgood : (Eval.parsed v.type text).run.run (m₁.withInput rest) =
      some (.ok x, m₁.withInput rest) := by
    rw [Eval.run_parsed, show (m₁.withInput rest).store.caseless = m₁.store.caseless from rfl,
      hparsed]
  rw [Eval.run_bind_ok hgood, Eval.store] at h
  -- the element, which may not exist: that is found out last
  obtain ⟨found, hfound, hfound'⟩ := Eval.run_spot_withInput d m₁ rest
  cases found with
  | error error =>
    rw [Eval.run_bind_error hfound'] at h
    cases h
    exact .inl ⟨_, _, rfl, .missing hreads hdecoded hparsed hfound⟩
  | ok p =>
    rw [Eval.run_bind_ok hfound'] at h
    cases h
    exact .inr ⟨d, m₁, line, rest, text, x, p, rfl, hreads, hdecoded, hparsed, hfound, rfl⟩

end Situation

/-! ## Arguments whose indices do nothing else -/

namespace Eval

variable {α β : Type}

/-- An evaluation that leaves the memory as it was. -/
def Still (ev : Eval α) : Prop := ∀ m r m', ev.run.run m = some (r, m') → m' = m

theorem still_pure (a : α) : Still (pure a) := by
  rintro m r m' ⟨⟩
  rfl

theorem still_throw (e : MachineError) : Still (throw e : Eval α) := by
  rintro m r m' ⟨⟩
  rfl

theorem still_nothing : Still (nothing : Eval α) := fun _ _ _ h => by cases h

theorem still_get : Still (get : Eval Memory) := by
  rintro m r m' ⟨⟩
  rfl

theorem Still.bind {ev : Eval α} {f : α → Eval β} (h : Still ev) (hf : ∀ a, Still (f a)) :
    Still (ev >>= f) := by
  intro m r m' hrun
  rcases hev : ev.run.run m with - | ⟨e | a, m₁⟩
  · rw [run_bind_none hev] at hrun
    cases hrun
  · rw [run_bind_error hev] at hrun
    cases hrun
    exact h m _ _ hev
  · rw [run_bind_ok hev] at hrun
    exact (hf a m₁ r m' hrun).trans (h m _ _ hev)

theorem still_lift (x : Except MachineError α) : Still (liftM x : Eval α) := by
  cases x with
  | error e => exact still_throw e
  | ok a => exact still_pure a

theorem still_word (v : Value) : Still (word v) := by
  cases v with
  | word x => exact still_pure _
  | array | str | boxed => exact still_throw _

theorem still_array (v : Value) : Still (array v) := by
  cases v with
  | array ref => exact still_pure _
  | word | str | boxed => exact still_throw _

theorem still_read (h : Handle) : Still (read h) := by
  refine still_get.bind fun m => ?_
  split
  · exact still_pure _
  · exact still_nothing

theorem still_element (a : Value) (x : Int32) : Still (element a x) := by
  refine (still_array a).bind fun ref => .bind ?_ fun k => still_get.bind fun m => still_pure _
  refine still_get.bind fun m => ?_
  dsimp only
  split
  · exact still_pure _
  · exact still_throw _

theorem still_lead {op : LeadOp} (h : op ≠ .random) (v : Value) : Still (lead op v) := by
  cases op with
  | random => exact absurd rfl h
  | negative => exact (still_word v).bind fun x => still_pure _
  | length => exact (still_array v).bind fun ref => still_get.bind fun m => still_pure _

end Eval

namespace Situation

variable {s : Situation}

theorem still_valueOf (n : Name) : (s.valueOf n).Still := by
  unfold valueOf
  split
  · exact Eval.still_read _
  · exact Eval.still_nothing

/-- The index of an argument leaves the memory as it was, also if it fails. -/
def Quiet (s : Situation) (e : Expr) : Prop :=
  ∀ name index, e.place? = some (name, index) → (s.designate name index).Still

end Situation

/-- Where there is no call, and no random number, nothing changes. -/
theorem Expr.still_evaluate (s : Situation) {e : Expr} (h : e.calm) : (e.evaluate s).Still := by
  -- A calm expression has no call and draws no number, so its parts only read.
  induction e using Expr.induct with
  | literal v => exact Eval.still_pure _
  | var n => exact Situation.still_valueOf n
  | elem n i ih =>
    exact (Situation.still_valueOf n).bind fun a => (ih h).bind fun x => (Eval.still_word x).bind
      fun x => (Eval.still_element a x).bind fun y => Eval.still_pure _
  | paren e ih => exact ih h
  | call n args => cases h
  | lead op e ih =>
    rw [calm, Bool.and_eq_true] at h
    exact (ih h.2).bind fun v => (Eval.still_lead (of_decide_eq_true h.1) v).bind fun x =>
      Eval.still_pure _
  | arith l op r hl hr =>
    rw [calm, Bool.and_eq_true] at h
    exact (hl h.1).bind fun x => (Eval.still_word x).bind fun x => (hr h.2).bind fun y =>
      (Eval.still_word y).bind fun y => (Eval.still_lift _).bind fun z => Eval.still_pure _
  | compare l op r hl hr =>
    rw [calm, Bool.and_eq_true] at h
    exact (hl h.1).bind fun x => (Eval.still_word x).bind fun x => (hr h.2).bind fun y =>
      (Eval.still_word y).bind fun y => Eval.still_pure _
  | negate word e ih =>
    exact (ih h).bind fun x => (Eval.still_word x).bind fun x => Eval.still_pure _
  | logic op l r hl hr =>
    rw [calm, Bool.and_eq_true] at h
    exact (hl h.1).bind fun x => (Eval.still_word x).bind fun x => (hr h.2).bind fun y =>
      (Eval.still_word y).bind fun y => Eval.still_pure _
  -- Increments and assignments have no value.
  | step p op => exact Eval.still_nothing
  | assign p op v => exact Eval.still_nothing

/-- A variable is quiet, and so is an element whose index has no call and no `?`. -/
theorem Situation.quiet_of_calm (s : Situation) {e : Expr}
    (h : ∀ name i, e.place? = some (name, some i) → i.calm) : s.Quiet e := by
  rintro name (- | i) hplace
  · unfold designate
    dsimp only
    split
    · exact Eval.still_pure _
    · exact Eval.still_nothing
  · exact (still_valueOf name).bind fun a => (Expr.still_evaluate s (h name i hplace)).bind fun x =>
      (Eval.still_word x).bind fun x => Eval.still_pure _

namespace Memory

/-- Lines have been used up, and words have been put into spots, one after another. All the rest is
as before. -/
structure Fed (m : Memory) (lines : List (List UInt8)) (cs : List (Spot × Int32)) (m' : Memory) :
    Prop where
  input : Line.pieces m.store.input = lines ++ Line.pieces m'.store.input
  spots : ∀ p, m'.at? p = ((cs.reverse.lookup p).map Value.word).or (m.at? p)
  output : m'.store.output = m.store.output
  random : m'.store.random = m.store.random

variable {m m₁ m' : Memory} {lines lines' : List (List UInt8)} {cs cs' : List (Spot × Int32)}

theorem Fed.refl (m : Memory) : m.Fed [] [] m := ⟨rfl, fun _ => rfl, rfl, rfl⟩

/-- What is put later counts. -/
theorem Fed.trans (h : m.Fed lines cs m₁) (h' : m₁.Fed lines' cs' m') :
    m.Fed (lines ++ lines') (cs ++ cs') m' := by
  refine ⟨by rw [h.input, h'.input, List.append_assoc], fun p => ?_, h'.output.trans h.output,
    h'.random.trans h.random⟩
  rw [h'.spots, h.spots, List.reverse_append, List.lookup_append]
  cases cs'.reverse.lookup p <;> rfl

end Memory

namespace Situation

variable {s : Situation} {e : Expr} {es : List Expr} {m m₁ m' : Memory}

theorem Reads.same {v : Symbol} {d : Designation} {line rest : List UInt8} (hquiet : s.Quiet e)
    (h : s.Reads e m v d m₁ line rest) : m₁ = m := by
  obtain ⟨name, index, hplace, -, hd⟩ := h.aims
  exact hquiet name index hplace _ _ _ hd

theorem fed_withInput {line rest : List UInt8}
    (h : Line.pieces m.store.input = line :: Line.pieces rest) :
    m.Fed [line] [] (m.withInput rest) :=
  ⟨h, m.at?_withInput rest, rfl, rfl⟩

theorem Takes.fed {line : List UInt8} {c : Spot × Int32} (hquiet : s.Quiet e)
    (h : s.Takes e m line c m') : m.Fed [line] [c] m' := by
  cases h with
  | @intro _ _ m₁ _ _ rest _ x p hreads _ _ _ hchanged =>
    obtain rfl := hreads.same hquiet
    have hput : (m₁.withInput rest).Fed [] [(p, x)] m' :=
      ⟨by rw [hchanged.input, List.nil_append], hchanged.spots, hchanged.output, hchanged.random⟩
    exact (fed_withInput hreads.line).trans hput

theorem Fails.fed {line : Option (List UInt8)} {error : MachineError} (hquiet : s.Quiet e)
    (h : s.Fails e m line error m') : m.Fed line.toList [] m' := by
  cases h with
  | index place fails =>
    obtain rfl := hquiet _ _ place _ _ _ fails
    exact .refl _
  | endOfInput aims input =>
    obtain ⟨name, index, hplace, -, hd⟩ := aims
    obtain rfl := hquiet _ _ hplace _ _ _ hd
    exact .refl _
  | unreadable reads | malformed reads | missing reads =>
    obtain rfl := reads.same hquiet
    exact fed_withInput reads.line

theorem TakesAll.fed {lines : List (List UInt8)} {cs : List (Spot × Int32)}
    (hquiet : ∀ e ∈ es, s.Quiet e) (h : s.TakesAll es m lines cs m') : m.Fed lines cs m' := by
  induction h with
  | nil => exact .refl _
  | cons first _ ih =>
    exact (first.fed (hquiet _ (.head _))).trans (ih fun e he => hquiet e (.tail _ he))

end Situation

/-! ## Code -/

namespace Site

variable {w : Site} {H : Heap} {m m' : Memory} {g g' : Generator} {u : Unit}

/-- A word that has been put into a spot is the only change, if the variable has a slot. -/
theorem changed_of_put {e : Expr} {v : Symbol} {d : Designation} {m₁ : Memory}
    {rest : List UInt8} {x : Int32} {p : Spot} (haims : w.situation.Aims e m v d m₁)
    (hfound : (Eval.spot d).run.run m₁ = some (.ok p, m₁))
    (hslot : (((m₁.withInput rest).put p x).get? v.handle).isSome) :
    (m₁.withInput rest).Changed [(p, x)] ((m₁.withInput rest).put p x) := by
  obtain ⟨name, index, -, hlookup, hd⟩ := haims
  -- an element is there as its array has been found; a slot is there as it is that of the variable
  refine Memory.changed_putAll (List.nodup_singleton _) fun c hc => ?_
  obtain rfl := List.mem_singleton.mp hc
  rw [Memory.at?_withInput]
  refine (at?_of_spot hfound fun k hk => ?_).2
  subst hk
  cases hfound
  obtain rfl := designate_slot hlookup hd rfl
  have hsame : (m₁.withInput rest).get? v.handle = m₁.get? v.handle :=
    Memory.at?_withInput m₁ rest (.slot v.handle)
  rwa [Memory.put, Memory.isSome_get?_set, hsame] at hslot

/-- Either all arguments get their words, or all in front of one that fails. -/
theorem run_put (hw : w.Sound)
    (hc : ∀ e, w.Computes (Expr.operand w.target e).compile (e.evaluate w.situation))
    {args : List Expr} {r : Except MachineError Unit} (hf : w.Fits g)
    (hm : Gen.Makes ((Expr.operands w.target args).forM (Rules.putOne w.target)) g u g')
    (hcode : w.Continues (g'.draft w.target)) (hst : w.Consistent H m)
    (h : (w.situation.put args).run.run m = some (r, m')) :
    (∃ lines cs, r = .ok ⟨⟩ ∧ w.situation.TakesAll args m lines cs m') ∨
      ∃ before e after lines cs m₁ line error, args = before ++ e :: after ∧ r = .error error ∧
        w.situation.TakesAll before m lines cs m₁ ∧ w.situation.Fails e m₁ line error m' := by
  -- the arguments behind the first begin where its code ends, and in the memory that it leaves
  induction args generalizing g H m with
  | nil =>
    cases h
    exact .inl ⟨[], [], rfl, .nil _⟩
  | cons e es ih =>
    obtain ⟨g₁, hone, hrest⟩ := Gen.makes_forM_cons.mp hm
    have hesx : Gen.Extends w.target ((Expr.operands w.target es).forM (Rules.putOne w.target)) :=
      Gen.extends_forM fun o ho => Rules.extends_putOne (Expr.extends_operands w.target es o ho)
    have hf₁ := hf.extends (Rules.extends_putOne (Expr.operand_extends w.target e)) hone
    have hdoes := performs_putOne hw hc e g _ g₁ H m [] hf hone (hcode.extends hesx hrest) hst
    obtain ⟨name, index, v, hp, hv, -, -⟩ := Rules.makes_putOne hone
    obtain ⟨i, hplace, -⟩ := Expr.place?_of_operand hp
    obtain ⟨-, hlookup, hoffers⟩ := hw.offers hf hv
    have heq : w.situation.put (e :: es) = w.situation.putOne e >>= fun _ =>
      w.situation.put es := rfl
    rw [heq] at h
    rcases hrun : (w.situation.putOne e).run.run m with - | ⟨r₁, m₁⟩
    · rw [Eval.run_bind_none hrun] at h
      cases h
    rw [hrun] at hdoes
    obtain ⟨error, line, rfl, hfails⟩ | ⟨d, m₂, line, rest, text, x, p, rfl, hreads,
      hdecoded, hparsed,
      hfound, rfl⟩ := Situation.run_putOne hplace hlookup hrun
    · rw [Eval.run_bind_error hrun] at h
      cases h
      exact .inr ⟨[], e, es, [], [], m, line, error, rfl, rfl, .nil _, hfails⟩
    · rw [Eval.run_bind_ok hrun] at h
      obtain ⟨-, H₁, hst₁, -, -⟩ := hdoes
      obtain ⟨held, hheld, -⟩ := hst₁.read hoffers
      have htakes : w.situation.Takes e m line (p, x) ((m₂.withInput rest).put p x) :=
        .intro hreads hdecoded hparsed hfound (changed_of_put hreads.aims hfound (hheld ▸ rfl))
      obtain ⟨lines, cs, rfl, hall⟩ | ⟨before, e', after, lines, cs, m₁, line', error, rfl,
        rfl, hall,
        hfails⟩ := ih hf₁ hrest hst₁ h
      · exact .inl ⟨_, _, rfl, .cons htakes hall⟩
      · exact .inr ⟨e :: before, e', after, _, _, m₁, line', error, rfl, rfl,
          .cons htakes hall, hfails⟩

end Site

section

variable {name : String} {legacy : Bool} {source : List UInt8} {w : Site} {H : Heap} {m : Memory}
  {g g' : Generator} {type : ExprType}

/-- **Input takes one line for each place and stops where it fails.** In a compiled program, running
the code for a `put` from a state that is as the visible variables say either gets behind that code
with the stack as it was, every argument having got its word from a line of its own. Or it fails at
an argument: all arguments in front of it have got their words, and those behind it have not been
looked at. Where the indices leave the memory as it is, nothing changes but the input, by just these
lines, and the places that got words. That is so as long as 32 bits are enough for the program and
for the positions up to the end of the code. -/
theorem compile_takes (hprogram : compile name legacy source = .ok w.program)
    (hsource : source.length < UInt32.size) (haddr : w.program.image.Addressable) (hw : w.Sound)
    {n : Name} {args : List Expr}
    (hput : (w.functions.lookup n.value).map FunctionSymbol.body = some (.intrinsic .put))
    (hf : w.Fits g) (hm : Gen.Makes (Expr.compile w.target (.call n args)) g type g')
    (hcode : w.Continues (g'.draft w.target)) (hst : w.Consistent H m) (s : List Value) :
    w.Does (w.stand (g.draft w.target).position s m) ((w.situation.put args).run.run m)
      (fun _ m' => .active (w.stand (g'.draft w.target).position s m'))
      (fun _ m' => w.Keeps H m' (fun _ => True) ∧ ∃ lines cs,
        w.situation.TakesAll args m lines cs m' ∧
        lines.length = args.length ∧ cs.length = args.length ∧
        ((∀ e ∈ args, w.situation.Quiet e) → m.Fed lines cs m')) ∧
    ∀ error m', (w.situation.put args).run.run m = some (.error error, m') →
      ∃ before e after lines cs m₁ line, args = before ++ e :: after ∧
        w.situation.TakesAll before m lines cs m₁ ∧
        lines.length = before.length ∧ cs.length = before.length ∧
        w.situation.Fails e m₁ line error m' ∧
        ((∀ e ∈ args, w.situation.Quiet e) → m.Fed (lines ++ line.toList) cs m') := by
  have hc := Site.computes hw
    (compile_typed hprogram (compile_addressable hprogram hsource haddr))
  obtain ⟨f, hlookup, hrule⟩ := Rules.makes_call hm
  rw [hf.functions] at hlookup
  rw [hlookup, Option.map_some, Option.some.injEq] at hput
  rw [hput] at hrule
  unfold Rules.put Rules.putEach at hrule
  dsimp only at hrule
  rw [Gen.makes_check] at hrule
  obtain ⟨_, g₁, hcodes, hdone⟩ := Gen.makes_bind.mp hrule.2
  obtain ⟨-, rfl⟩ := Gen.makes_pure.mp hdone
  refine ⟨(Site.performs_put hw hc args g _ _ H m s hf hcodes hcode hst).imp_of_eq
    fun _ m' hrun hkeeps => ⟨hkeeps, ?_⟩, fun error m' hrun => ?_⟩
  · obtain ⟨lines, cs, -, hall⟩ | ⟨before, e, after, lines, cs, m₁, line, error, -, herror, -⟩ :=
      Site.run_put hw hc hf hcodes hcode hst hrun
    · exact ⟨lines, cs, hall, hall.length.1, hall.length.2, fun hquiet => hall.fed hquiet⟩
    · cases herror
  · obtain ⟨lines, cs, hok, -⟩ | ⟨before, e, after, lines, cs, m₁, line, error', rfl, herror, hall,
      hfails⟩ := Site.run_put hw hc hf hcodes hcode hst hrun
    · cases hok
    · cases herror
      refine ⟨before, e, after, lines, cs, m₁, line, rfl, hall, hall.length.1,
        hall.length.2, hfails,
        fun hquiet => ?_⟩
      have hfed := (hall.fed fun e he => hquiet e (List.mem_append_left _ he)).trans
        (hfails.fed (hquiet e (List.mem_append_right _ (.head _))))
      rwa [List.append_nil] at hfed

/-- What `main` is compiled to that reads into `a[0]` and then into `a[a[0]]`. -/
def readingCode : Code :=
  ⟨#[.loadField 0, .pushInt 0, .readLine, .parse .int, .storeElem, .loadField 0, .loadField 0,
    .pushInt 0, .loadElem, .readLine, .parse .int, .storeElem, .pushInt 0, .ret, .pushInt 0,
      .ret], #[]⟩

/-- The lines are 1, x and 9. The first one says where the word of the second one goes, which
denotes no integer; so that one is used up, and the third one is left. -/
theorem compile_takes_malformed :
    ∃ c r, compile "" false
        "int a[2]; int main() \x7b put(a[0], a[a[0]]); return 0; \x7d".toUTF8.toList = .ok c ∧
      c.image.routines[0]? = some r ∧
      ∃ n, Calls.advance c.image 0 n (.active ⟨⟨"main", r.code, 0, #[], #[], [.word 1]⟩, [],
          ⟨#[.array 0], #[#[3, 7]], [0x31, 0x0a, 0x78, 0x0a, 0x39, 0x0a], ⟨#[], none⟩,
            .ofSeed 0, .simple⟩⟩) =
        .done (.error (.badInput "x" .int)) ⟨#[.array 0], #[#[1, 7]], [0x39, 0x0a], ⟨#[], none⟩,
          .ofSeed 0, .simple⟩ := by
  obtain ⟨c, hc, haddr, hq⟩ := exists_compilation
    (q := fun c => c.tree.plan.fields = [.ofArray .int] ∧
      c.image.routines[0]?.map Routine.code = some readingCode)
    (show (compile "" false
      "int a[2]; int main() \x7b put(a[0], a[a[0]]); return 0; \x7d".toUTF8.toList
      ).toOption.any _ = true by decide +kernel)
  obtain ⟨hfields, hroutine⟩ := of_decide_eq_true hq
  obtain ⟨r, hr, hcode⟩ := Option.map_eq_some_iff.mp hroutine
  refine ⟨c, r, hc, hr, ?_⟩
  rw [hcode]
  let span : Span := .single .origin
  let a : Symbol := ⟨.int, .global, 0, .array (some 2), .field 0⟩
  let first : Expr := .elem ⟨"a", span⟩ (.literal ⟨.int 0, span⟩)
  let w : Site := ⟨c, .function, ⟨[], Scope.empty.insert "a" a⟩, .new, false, "main", readingCode,
    [], [], [], 0, 12, 0⟩
  let m : Memory := ⟨#[], #[], ⟨#[.array 0], #[#[3, 7]], [0x31, 0x0a, 0x78, 0x0a, 0x39, 0x0a],
    ⟨#[], none⟩, .ofSeed 0, .simple⟩⟩
  have hw : w.Sound := by
    refine Site.sound_of_single (v := a) rfl rfl ?_
    show c.tree.plan.fields[0]? = some a.slot
    rw [hfields]
    rfl
  have hst : w.Consistent [.int] m :=
    Site.consistent_of_single hfields rfl rfl (fun x _ => WordType.valid_int x) ⟨rfl, rfl⟩
  have hmakes : Gen.Makes
      (Expr.compile w.target (.call ⟨"put", span⟩ [first, .elem ⟨"a", span⟩ first]))
      { Generator.new false with scopes := w.scopes } .effect _ := rfl
  -- the code for the input is the beginning of that of `main`
  have hbegins : w.code.instructions.toList.take 12 <+: w.code.instructions.toList :=
    List.take_prefix ..
  have hruns := (compile_takes hc (by decide +kernel) haddr hw (m := m) rfl
    ⟨rfl, rfl, rfl, Nat.zero_le _⟩ hmakes
    ⟨⟨⟨show 12 < UInt32.size by decide, Nat.zero_le _⟩, hbegins, fun l p h => by cases h⟩, le_rfl⟩
    hst [.word 1]).1
  have hvalue : (w.situation.put [first, .elem ⟨"a", span⟩ first]).run.run m =
      some (.error (.badInput "x" .int), ⟨#[], #[], ⟨#[.array 0], #[#[1, 7]], [0x39, 0x0a],
        ⟨#[], none⟩, .ofSeed 0, .simple⟩⟩) := by
    dsimp only [w, m, first, a, Site.situation]
    rfl
  rw [hvalue] at hruns
  obtain ⟨n, hn, -⟩ := hruns
  exact ⟨n, hn⟩

end

end OnePass
