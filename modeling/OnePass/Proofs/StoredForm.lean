import OnePass.Image.Decoding

/-!
# Images survive being stored

Main statement: an image whose counts can be written is read back as it was, and what stands behind
it is left alone; so no image is stored as the beginning of another one
(`Image.decode_encode_append`).

A decoder `Reads` bytes as a value if it takes just these bytes, whatever comes behind them. That
composes as decoders do, so that each part of the stored form gets one lemma: what is written of a
value is read as that value.
-/

namespace OnePass

/-! ## What can be written -/

/-- A count that 32 bits can hold. -/
abbrev Countable (n : Nat) : Prop := n < UInt32.size

/-- The bytes of a string can be counted. -/
abbrev Text.Countable (s : String) : Prop := OnePass.Countable (Text.encode s).length

/-- An instruction whose operand can be written. -/
def Instruction.Storable : Instruction → Prop
  | .pushStr s => Text.Countable s
  | _ => True

/-- A stream that can be written. -/
structure Code.Storable (c : Code) : Prop where
  instructions : Countable c.instructions.size
  labels : Countable c.labels.size
  each : ∀ i ∈ c.instructions.toList, i.Storable

/-- A routine that can be written. -/
structure Routine.Storable (r : Routine) : Prop where
  name : Text.Countable r.name
  params : Countable r.params.length
  code : r.code.Storable

/-- An image that can be written, and whose entry routine exists. -/
structure Image.Storable (i : Image) : Prop where
  entry : i.entry.toNat < i.routines.size
  fields : Countable i.fields.length
  names : ∀ f ∈ i.fields, Text.Countable f.name
  initializer : i.initializer.Storable
  routines : Countable i.routines.size
  each : ∀ r ∈ i.routines.toList, r.Storable

namespace Decoding

variable {α β : Type}

/-- `d` takes the bytes `bs`, whatever comes behind them, and makes `x` of them. -/
def Reads (d : Decoder α) (bs : List UInt8) (x : α) : Prop :=
  ∀ rest, d.run (bs ++ rest) = .ok (x, rest)

/-! ## Composed decoders -/

theorem reads_pure (x : α) : Reads (pure x) [] x := fun _ => rfl

theorem Reads.bind {d : Decoder α} {f : α → Decoder β} {bs cs : List UInt8} {x : α} {y : β}
    (hd : Reads d bs x) (hf : Reads (f x) cs y) : Reads (d >>= f) (bs ++ cs) y := by
  intro rest
  rw [StateT.run_bind, List.append_assoc, hd]
  exact hf rest

/-- What takes no bytes may come last. -/
theorem Reads.map {d : Decoder α} {f : α → Decoder β} {bs : List UInt8} {x : α} {y : β}
    (hd : Reads d bs x) (hf : Reads (f x) [] y) : Reads (d >>= f) bs y := by
  simpa using hd.bind hf

/-- What is read of bytes is read of whatever they are the beginning of. -/
theorem Reads.unique {d : Decoder α} {bs cs : List UInt8} {x y : α} (hx : Reads d bs x)
    (hy : Reads d cs y) (h : bs <+: cs) : x = y := by
  obtain ⟨rest, rfl⟩ := h
  have heq : (.ok (x, rest) : Except ImageError _) = .ok (y, []) := by
    rw [← hx rest, ← hy [], List.append_nil]
  exact (Prod.mk.inj (Except.ok.inj heq)).1

/-! ## Numbers -/

theorem reads_byte (b : UInt8) : Reads byte [b] b := fun _ => rfl

/-- A word is the sum of its bytes. -/
theorem word_of_bytes (n : Nat) (h : n < UInt32.size) :
    (UInt8.ofNat n).toNat + 256 * (UInt8.ofNat (n / 256)).toNat
      + 65536 * (UInt8.ofNat (n / 65536)).toNat
      + 16777216 * (UInt8.ofNat (n / 16777216)).toNat = n := by
  have hn : n < 4294967296 := h
  simp only [UInt8.toNat_ofNat']
  omega

theorem reads_word (n : UInt32) : Reads word (Encoding.word n) n := by
  refine (reads_byte _).bind ((reads_byte _).bind ((reads_byte _).bind ((reads_byte _).map ?_)))
  rw [word_of_bytes n.toNat n.toNat_lt, UInt32.ofNat_toNat]
  exact reads_pure n

theorem reads_count (n : Nat) : Reads word (Encoding.count n) (.ofNat n) := reads_word _

/-! ## Lists and strings -/

theorem reads_times {d : Decoder α} {f : α → List UInt8} {xs : List α}
    (h : ∀ x ∈ xs, Reads d (f x) x) : Reads (times d xs.length) (xs.flatMap f) xs := by
  induction xs with
  | nil => exact reads_pure []
  | cons x xs ih =>
    have hx := h x List.mem_cons_self
    have hxs := ih fun y hy => h y (List.mem_cons_of_mem x hy)
    exact hx.bind (hxs.map (reads_pure (x :: xs)))

/-- A list that can be counted is read as it was, if each of its elements is. -/
theorem reads_list {d : Decoder α} {f : α → List UInt8} {xs : List α}
    (hcount : Countable xs.length) (h : ∀ x ∈ xs, Reads d (f x) x) :
    Reads (list d) (Encoding.list f xs) xs := by
  refine (reads_count _).bind ?_
  rw [UInt32.toNat_ofNat_of_lt' hcount]
  exact reads_times h

theorem reads_string {s : String} (h : Text.Countable s) :
    Reads string (Encoding.string s) s := by
  refine (reads_count _).bind fun rest => ?_
  have hlength : (UInt32.ofNat (Text.encode s).length).toNat = (Text.encode s).length :=
    UInt32.toNat_ofNat_of_lt' h
  simp only [StateT.run, hlength, List.splitAt_eq, List.take_left, List.drop_left, if_true,
    Text.decode?_encode]

/-! ## Types and slots -/

theorem reads_ofTag (t : WordType) : Reads (ofTag (Encoding.typeTag t)) [] t := by
  cases t <;> exact reads_pure _

theorem reads_type (t : WordType) : Reads type [Encoding.typeTag t] t :=
  (reads_byte _).map (reads_ofTag t)

theorem reads_slot (s : Slot) : Reads slot (Encoding.slot s) s := by
  refine (reads_type s.type).bind ((reads_byte _).map ?_)
  obtain ⟨type, array⟩ := s
  cases array <;> exact reads_pure _

/-- No type has the tag that stands for the absence of one. -/
theorem typeTag_ne_noType (t : WordType) : Encoding.typeTag t ≠ Encoding.noType := by
  cases t <;> decide

theorem reads_returns (t : Option WordType) : Reads returns (Encoding.returns t) t := by
  cases t with
  | none => exact (reads_byte _).map (reads_pure none)
  | some t =>
    refine (reads_byte _).map ?_
    rw [if_neg (typeTag_ne_noType t)]
    exact (reads_ofTag t).map (reads_pure (some t))

/-! ## Instructions

Each kind of operand has its own table of codes; an instruction is found in the table of its kind
and in none before it. -/

theorem reads_plain {code : UInt8} {i : Instruction} (h : plain? code = some i) :
    Reads instruction [code] i := by
  refine (reads_byte code).map ?_
  simp only [h]
  exact reads_pure i

theorem reads_withWord {code : UInt8} {f : UInt32 → Instruction} (hplain : plain? code = none)
    (h : withWord? code = some f) (n : UInt32) :
    Reads instruction (code :: Encoding.word n) (f n) := by
  refine (reads_byte code).bind ?_
  simp only [hplain, h]
  exact (reads_word n).map (reads_pure (f n))

theorem reads_withType {code : UInt8} {f : WordType → Instruction} (hplain : plain? code = none)
    (hword : withWord? code = none) (h : withType? code = some f) (t : WordType) :
    Reads instruction [code, Encoding.typeTag t] (f t) := by
  refine (reads_byte code).bind ?_
  simp only [hplain, hword, h]
  exact (reads_type t).map (reads_pure (f t))

theorem reads_pushStr {s : String} (h : Text.Countable s) :
    Reads instruction (0x02 :: Encoding.string s) (.pushStr s) :=
  (reads_byte 0x02).bind ((reads_string h).map (reads_pure (Instruction.pushStr s)))

theorem reads_instruction {i : Instruction} (h : i.Storable) :
    Reads instruction (Encoding.instruction i) i := by
  cases i with
  | pushInt value =>
    exact reads_withWord (f := fun n => .pushInt n.toInt32) rfl rfl value.toUInt32
  | pushStr s => exact reads_pushStr h
  | binary op => cases op <;> exact reads_plain rfl
  | pop | dup | swap | loadElem | storeElem | arrayLen | neg | ret | random | printStr
  | readLine => exact reads_plain rfl
  | loadLocal n | storeLocal n | loadArg n | storeArg n | loadField n | storeField n
  | newArray n | jump n | jumpIfFalse n | jumpIfTrue n | call n | printFormat n =>
    exact reads_withWord rfl rfl n
  | box t | print t | parse t => exact reads_withType rfl rfl rfl t

/-! ## Streams, fields, routines -/

theorem reads_code {c : Code} (h : c.Storable) : Reads code (Encoding.code c) c :=
  (reads_list h.instructions fun i hi => reads_instruction (h.each i hi)).bind
    ((reads_list h.labels fun n _ => reads_word n).map (reads_pure c))

theorem reads_field {f : Field} (h : Text.Countable f.name) :
    Reads field (Encoding.field f) f :=
  (reads_string h).bind ((reads_slot f.slot).map (reads_pure f))

theorem reads_routine {r : Routine} (h : r.Storable) : Reads routine (Encoding.routine r) r := by
  simp only [Encoding.routine, List.append_assoc]
  refine (reads_string h.name).bind ?_
  refine (reads_list h.params fun s _ => reads_slot s).bind ?_
  refine (reads_returns r.returns).bind ?_
  refine (reads_word r.locals).bind ?_
  exact (reads_code h.code).map (reads_pure r)

/-! ## Images -/

theorem reads_magic : Reads magic Encoding.magic () :=
  Reads.map (fun _ => rfl) (reads_pure ())

theorem reads_version : Reads version (Encoding.word Encoding.formVersion) () :=
  (reads_word Encoding.formVersion).map (reads_pure ())

theorem reads_userEntry (user : Bool) :
    Reads userEntry (Encoding.word (if user then 1 else 0)) user := by
  cases user <;> exact (reads_word _).map (reads_pure _)

theorem reads_image {i : Image} (h : i.Storable) : Reads image i.encode i := by
  simp only [Image.encode, List.append_assoc]
  refine reads_magic.bind (reads_version.bind ?_)
  refine (reads_userEntry i.userEntry).bind ?_
  refine (reads_word i.entry).bind ?_
  refine (reads_list h.fields fun f hf => reads_field (h.names f hf)).bind ?_
  refine (reads_code h.initializer).bind ?_
  refine (reads_list (by simpa using h.routines) fun r hr => reads_routine (h.each r hr)).map ?_
  rw [if_pos (by simpa using h.entry)]
  exact reads_pure i

end Decoding

/-- **Stored images.** An image that can be written is read back as it was, and what stands behind
it is left alone. No other image is stored as the beginning of what it is stored as, or as the
same. -/
theorem Image.decode_encode_append {i : Image} (hi : i.Storable) :
    (∀ rest, Image.decode (i.encode ++ rest) = .ok (i, rest)) ∧
      ∀ j : Image, j.Storable → j ≠ i → ¬ j.encode <+: i.encode := by
  have hreads := Decoding.reads_image hi
  refine ⟨hreads, fun j hj hne hpre => hne ?_⟩
  exact (Decoding.reads_image hj).unique hreads hpre

/-- An image with a negative word, a text outside ASCII and a jump. -/
def Image.greeting (userEntry : Bool) : Image :=
  let main : Code := ⟨#[.jump 0, .pushStr "¡olé!", .printStr, .pushInt 0, .ret], #[1]⟩
  ⟨userEntry, [⟨"count", .scalar .int⟩], ⟨#[.pushInt (-7), .storeField 0, .ret], #[]⟩,
    #[⟨"main", [.ofArray .char], some .int, 2, main⟩], 0⟩

theorem Image.greeting_storable (userEntry : Bool) : (greeting userEntry).Storable where
  entry := by decide +revert
  fields := by decide +revert
  names := by decide +revert
  initializer := ⟨by decide +revert, by decide +revert, by simp [greeting, Instruction.Storable]⟩
  routines := by decide +revert
  each := by
    have hmain : Text.Countable "¡olé!" := by decide
    rintro r hr
    obtain rfl := List.mem_singleton.mp hr
    exact ⟨by decide, by decide, by decide, by decide, by simpa [Instruction.Storable] using hmain⟩

theorem Image.decode_encode_greeting :
    Image.decode ((greeting true).encode ++ [0x00]) = .ok (greeting true, [0x00]) ∧
      ¬ (greeting false).encode <+: (greeting true).encode := by
  obtain ⟨hback, hother⟩ := Image.decode_encode_append (greeting_storable true)
  exact ⟨hback _, hother _ (greeting_storable false) (by decide)⟩

end OnePass
