import OnePass.Proofs.StoredRoles

/-!
# Stored images that are cut off

Main statement: a stored image of which the end is missing is always refused, as having a text that
is longer than what is left if the first byte that is missing belongs to a text, and as ending too
early otherwise (`Image.decode_take`).

A decoder `Stops` in marked bytes if it refuses every beginning of them by the role of the first
byte that is missing. Like `Reads` it composes as decoders do: what has come in full is read, and
the decoder behind it stops in what has not.
-/

namespace OnePass

/-- Why bytes are refused that end in front of one with this role. -/
inductive ByteRole.Missing : ByteRole → ImageError → Prop where
  | text (n : UInt32) : Missing (.text n.toNat) (.shortString n)
  | arrayMark : Missing .arrayMark .truncated
  | other : Missing .other .truncated

namespace Decoding

open Marked

variable {α β : Type}

/-- `d` refuses the bytes in front of each of the marked ones, because that is missing. -/
def Stops (d : Decoder α) (ms : List MarkedByte) : Prop :=
  ∀ front m back, ms = front ++ m :: back →
    ∃ e, m.role.Missing e ∧ d.run (values front) = .error e

/-! ## Composed decoders -/

theorem stops_nil (d : Decoder α) : Stops d [] := fun _ _ _ h => absurd h (by simp)

/-- What has come in full is read, and what comes behind it stops. -/
theorem Stops.bind {d : Decoder α} {f : α → Decoder β} {ms ns : List MarkedByte} {bs : List UInt8}
    {x : α} (hd : Stops d ms) (hvalues : values ms = bs) (hreads : Reads d bs x)
    (hf : Stops (f x) ns) : Stops (d >>= f) (ms ++ ns) := by
  subst hvalues
  intro front m back h
  rw [StateT.run_bind]
  rcases List.append_eq_append_iff.mp h with ⟨as, rfl, hns⟩ | ⟨as, rfl, hback⟩
  · -- all that `d` takes has come, and the end of what is behind it is missing
    rw [values_append, hreads]
    exact hf as m back hns
  · cases as with
    | nil =>
      -- just what `d` takes has come
      have hrun := hreads []
      simp only [List.append_nil] at hrun
      rw [hrun]
      exact hf [] m back hback.symm
    | cons a as =>
      obtain ⟨rfl, -⟩ := List.cons.inj hback
      obtain ⟨e, he, hrun⟩ := hd front m as rfl
      rw [hrun]
      exact ⟨e, he, rfl⟩

/-- What takes no bytes may come last. -/
theorem Stops.map {d : Decoder α} {ms : List MarkedByte} (hd : Stops d ms) (f : α → Decoder β) :
    Stops (d >>= f) ms := by
  intro front m back h
  obtain ⟨e, he, hrun⟩ := hd front m back h
  rw [StateT.run_bind, hrun]
  exact ⟨e, he, rfl⟩

/-! ## Numbers -/

/-- The end of the bytes stops a decoder that takes one. -/
theorem stops_byte {m : MarkedByte} (h : m.role.Missing .truncated) : Stops byte [m] := by
  intro front m' back hms
  cases front with
  | nil =>
    obtain ⟨rfl, -⟩ := List.cons.inj hms
    exact ⟨_, h, rfl⟩
  | cons _ front => exact absurd hms (by simp)

theorem stops_word (n : UInt32) : Stops word (other (Encoding.word n)) :=
  (stops_byte .other).bind rfl (reads_byte _) ((stops_byte .other).bind rfl (reads_byte _)
    ((stops_byte .other).bind rfl (reads_byte _) ((stops_byte .other).map _)))

theorem stops_count (n : Nat) : Stops word (other (Encoding.count n)) := stops_word _

/-! ## Lists and strings -/

theorem stops_times {d : Decoder α} {f : α → List MarkedByte} {xs : List α}
    (h : ∀ x ∈ xs, Stops d (f x) ∧ Reads d (values (f x)) x) :
    Stops (times d xs.length) (xs.flatMap f) := by
  induction xs with
  | nil => exact stops_nil _
  | cons x xs ih =>
    obtain ⟨hstops, hreads⟩ := h x List.mem_cons_self
    exact hstops.bind rfl hreads ((ih fun y hy => h y (List.mem_cons_of_mem x hy)).map _)

theorem stops_list {d : Decoder α} {f : α → List MarkedByte} {xs : List α}
    (hcount : Countable xs.length) (h : ∀ x ∈ xs, Stops d (f x) ∧ Reads d (values (f x)) x) :
    Stops (list d) (Marked.list f xs) := by
  refine (stops_count _).bind (values_other _) (reads_count _) ?_
  rw [UInt32.toNat_ofNat_of_lt' hcount]
  exact stops_times h

/-- Of a text whose end is missing, the number of its bytes is more than there are. -/
theorem stops_string {s : String} (h : Text.Countable s) : Stops string (Marked.string s) := by
  refine (stops_count _).bind (values_other _) (reads_count _) ?_
  intro front m back hms
  have hlength : (UInt32.ofNat (Text.encode s).length).toNat = (Text.encode s).length :=
    UInt32.toNat_ofNat_of_lt' h
  have hrole : m.role = .text (Text.encode s).length := by
    have hm : m ∈ (Text.encode s).map fun b => (⟨b, .text (Text.encode s).length⟩ : MarkedByte) :=
      hms ▸ List.mem_append_right _ List.mem_cons_self
    obtain ⟨b, -, rfl⟩ := List.mem_map.mp hm
    rfl
  -- the number of bytes has come, so that what is missing is text
  have hlt : (values front).length < (Text.encode s).length := by
    have hall := congrArg List.length hms
    rw [List.length_map, List.length_append, List.length_cons] at hall
    rw [values, List.length_map]
    omega
  have hshort : ((values front).take (Text.encode s).length).length ≠ (Text.encode s).length := by
    rw [List.length_take]
    omega
  refine ⟨.shortString (.ofNat (Text.encode s).length), ?_, ?_⟩
  · have hmissing := ByteRole.Missing.text (.ofNat (Text.encode s).length)
    rwa [hlength, ← hrole] at hmissing
  · simp only [StateT.run, hlength, List.splitAt_eq, if_neg hshort]

/-! ## Types and slots -/

theorem stops_type (t : WordType) : Stops type (other [Encoding.typeTag t]) :=
  (stops_byte .other).map _

theorem stops_slot (s : Slot) : Stops slot (Marked.slot s) :=
  (stops_type s.type).bind rfl (reads_type s.type) ((stops_byte .arrayMark).map _)

theorem stops_returns (t : Option WordType) : Stops returns (other (Encoding.returns t)) := by
  cases t <;> exact (stops_byte .other).map _

/-! ## Instructions -/

theorem stops_plain {code : UInt8} : Stops instruction (other [code]) :=
  (stops_byte .other).map _

theorem stops_withWord {code : UInt8} {f : UInt32 → Instruction} (hplain : plain? code = none)
    (h : withWord? code = some f) (n : UInt32) :
    Stops instruction (other (code :: Encoding.word n)) := by
  refine (stops_byte .other).bind rfl (reads_byte code) ?_
  simp only [hplain, h]
  exact (stops_word n).map _

theorem stops_withType {code : UInt8} {f : WordType → Instruction} (hplain : plain? code = none)
    (hword : withWord? code = none) (h : withType? code = some f) (t : WordType) :
    Stops instruction (other [code, Encoding.typeTag t]) := by
  refine (stops_byte .other).bind rfl (reads_byte code) ?_
  simp only [hplain, hword, h]
  exact (stops_type t).map _

theorem stops_pushStr {s : String} (h : Text.Countable s) :
    Stops instruction (other [0x02] ++ Marked.string s) :=
  (stops_byte .other).bind rfl (reads_byte 0x02) ((stops_string h).map _)

theorem stops_instruction {i : Instruction} (h : i.Storable) :
    Stops instruction (Marked.instruction i) := by
  cases i with
  | pushInt value => exact stops_withWord rfl rfl value.toUInt32
  | pushStr s => exact stops_pushStr h
  | binary op => cases op <;> exact stops_plain
  | pop | dup | swap | loadElem | storeElem | arrayLen | neg | ret | random | printStr
  | readLine => exact stops_plain
  | loadLocal n | storeLocal n | loadArg n | storeArg n | loadField n | storeField n
  | newArray n | jump n | jumpIfFalse n | jumpIfTrue n | call n | printFormat n =>
    exact stops_withWord rfl rfl n
  | box t | print t | parse t => exact stops_withType rfl rfl rfl t

/-! ## Streams, fields, routines -/

theorem stops_code {c : Code} (h : c.Storable) : Stops code (Marked.code c) := by
  refine (stops_list h.instructions fun i hi => ?_).bind (values_list values_instruction _)
    (reads_list h.instructions fun i hi => reads_instruction (h.each i hi))
    ((stops_list h.labels fun n _ => ?_).map _)
  · rw [values_instruction]
    exact ⟨stops_instruction (h.each i hi), reads_instruction (h.each i hi)⟩
  · rw [values_other]
    exact ⟨stops_word n, reads_word n⟩

theorem stops_field {f : Field} (h : Text.Countable f.name) : Stops field (Marked.field f) :=
  (stops_string h).bind (values_string f.name) (reads_string h) ((stops_slot f.slot).map _)

theorem stops_routine {r : Routine} (h : r.Storable) : Stops routine (Marked.routine r) := by
  simp only [Marked.routine, List.append_assoc]
  refine (stops_string h.name).bind (values_string r.name) (reads_string h.name) ?_
  refine (stops_list h.params fun s _ => ⟨stops_slot s, reads_slot s⟩).bind
    (values_list values_slot _) (reads_list h.params fun s _ => reads_slot s) ?_
  refine (stops_returns r.returns).bind (values_other _) (reads_returns r.returns) ?_
  refine (stops_word r.locals).bind (values_other _) (reads_word r.locals) ?_
  exact (stops_code h.code).map _

/-! ## Images -/

theorem stops_magic : Stops magic (other Encoding.magic) := by
  have heach : ∀ b ∈ Encoding.magic, Stops byte (other [b]) ∧ Reads byte (values (other [b])) b :=
    fun b _ => ⟨stops_byte .other, reads_byte b⟩
  exact (stops_times heach).map _

theorem stops_image {i : Image} (h : i.Storable) : Stops image i.marked := by
  simp only [Image.marked, List.append_assoc]
  refine stops_magic.bind (values_other _) reads_magic ?_
  refine ((stops_word _).map _).bind (values_other _) reads_version ?_
  refine ((stops_word _).map _).bind (values_other _) (reads_userEntry i.userEntry) ?_
  refine (stops_word i.entry).bind (values_other _) (reads_word i.entry) ?_
  have hfields : ∀ f ∈ i.fields, Stops field (Marked.field f) ∧
      Reads field (values (Marked.field f)) f := fun f hf => by
    rw [values_field]
    exact ⟨stops_field (h.names f hf), reads_field (h.names f hf)⟩
  refine (stops_list h.fields hfields).bind (values_list values_field _)
    (reads_list h.fields fun f hf => reads_field (h.names f hf)) ?_
  refine (stops_code h.initializer).bind (values_code _) (reads_code h.initializer) ?_
  have hroutines : ∀ r ∈ i.routines.toList, Stops routine (Marked.routine r) ∧
      Reads routine (values (Marked.routine r)) r := fun r hr => by
    rw [values_routine]
    exact ⟨stops_routine (h.each r hr), reads_routine (h.each r hr)⟩
  exact (stops_list (by simpa using h.routines) hroutines).map _

end Decoding

/-- The first `k` bytes of a stored image end inside of a text of `n` bytes: the number of its bytes
has come, but not all of them. -/
def Image.EndsInText (i : Image) (k n : Nat) : Prop := i.roles[k]? = some (.text n)

instance (i : Image) (k n : Nat) : Decidable (i.EndsInText k n) :=
  inferInstanceAs (Decidable (_ = _))

/-- **Stored images that are cut off.** Of what an image that can be written is stored as, no part
is read from which the end is missing. It is refused as too short for a text of `n` bytes if it ends
inside of one, and as ending too early if it ends inside of none. -/
theorem Image.decode_take {i : Image} (hi : i.Storable) {k : Nat} (hk : k < i.encode.length) :
    (∃ n : UInt32, i.EndsInText k n.toNat ∧
      Image.decode (i.encode.take k) = .error (.shortString n)) ∨
    (∀ n, ¬ i.EndsInText k n) ∧ Image.decode (i.encode.take k) = .error .truncated := by
  have hlength : k < i.marked.length := by
    rwa [← Image.length_roles, Image.roles, List.length_map] at hk
  have hsplit : i.marked = i.marked.take k ++ i.marked[k] :: i.marked.drop (k + 1) := by
    rw [List.getElem_cons_drop, List.take_append_drop]
  -- the error is the one for the role of the byte at `k`
  obtain ⟨e, he, hrun⟩ := Decoding.stops_image hi _ _ _ hsplit
  have hvalues : Marked.values (i.marked.take k) = i.encode.take k := by
    rw [Marked.values, List.map_take, ← Image.values_marked, Marked.values]
  rw [hvalues] at hrun
  have hrole : i.roles[k]? = some i.marked[k].role := by
    rw [Image.roles, List.getElem?_map, List.getElem?_eq_getElem hlength, Option.map_some]
  simp only [Image.EndsInText, hrole, Option.some.injEq]
  generalize i.marked[k].role = role at he
  cases he with
  | text n => exact .inl ⟨n, rfl, hrun⟩
  | arrayMark => exact .inr ⟨fun n => by simp, hrun⟩
  | other => exact .inr ⟨fun n => by simp, hrun⟩

/-- The text of seven bytes that is printed is cut off in the middle of its first character. -/
theorem Image.decode_take_greeting :
    (greeting true).Storable ∧ 88 < (greeting true).encode.length ∧
      (greeting true).EndsInText 88 7 ∧
      Image.decode ((greeting true).encode.take 88) = .error (.shortString 7) := by
  have hk : 88 < (greeting true).encode.length := by decide
  have hends : (greeting true).EndsInText 88 7 := by decide
  refine ⟨greeting_storable true, hk, hends, ?_⟩
  rcases Image.decode_take (greeting_storable true) hk with ⟨n, hn, hrun⟩ | ⟨hnone, -⟩
  · have hseven : some (ByteRole.text n.toNat) = some (.text 7) := hn.symm.trans hends
    have hn : n = 7 := UInt32.toNat_inj.mp (ByteRole.text.inj (Option.some.inj hseven))
    rwa [hn] at hrun
  · exact absurd hends (hnone 7)

end OnePass
