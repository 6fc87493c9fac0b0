import Mathlib.Data.List.Forall2
import OnePass.Proofs.StoredRoles

/-!
# Images are written back as they were read

Main statement: bytes that are read as an image are what that image is stored as, one thing apart:
any byte other than zero marks an array, and it is written back as one (`Image.encode_of_decode`).

A decoder `Restores` a part of the stored form if it makes nothing of other bytes than those that
stand for what is stored of the value it makes, and no value that cannot be stored. Each part gets
one lemma, in which the decoder is followed backwards from its success.
-/

namespace OnePass

/-- What is written back of a byte that is read in this role. -/
def ByteRole.writtenBack : ByteRole → UInt8 → UInt8
  | .arrayMark, b => if b = 0 then 0 else 1
  | _, b => b

namespace Decoding

open Marked

variable {α β : Type} {bytes mid rest : List UInt8} {ms ns : List MarkedByte}

/-- In front of `rest`, `bytes` hold what is written back as the marked bytes. -/
def Holds (bytes rest : List UInt8) (ms : List MarkedByte) : Prop :=
  ∃ own, bytes = own ++ rest ∧ List.Forall₂ (fun b m => m.value = m.role.writtenBack b) own ms

/-- What `d` takes is written back as the stored form of the value that it makes of it, which
satisfies `P`. -/
def Restores (d : Decoder α) (P : α → Prop) (f : α → List MarkedByte) : Prop :=
  ∀ ⦃bytes rest x⦄, d.run bytes = .ok (x, rest) → P x ∧ Holds bytes rest (f x)

theorem holds_nil : Holds bytes bytes [] := ⟨[], rfl, .nil⟩

/-- What holds in one piece and then in another holds in both. -/
theorem Holds.append (h₁ : Holds bytes mid ms) (h₂ : Holds mid rest ns) :
    Holds bytes rest (ms ++ ns) := by
  obtain ⟨own₁, rfl, hown₁⟩ := h₁
  obtain ⟨own₂, rfl, hown₂⟩ := h₂
  exact ⟨own₁ ++ own₂, (List.append_assoc own₁ own₂ rest).symm, List.rel_append hown₁ hown₂⟩

theorem holds_other (bs : List UInt8) : Holds (bs ++ rest) rest (other bs) := by
  refine ⟨bs, rfl, ?_⟩
  rw [Marked.other, List.forall₂_map_right_iff, List.forall₂_same]
  exact fun b _ => rfl

/-! ## Successes followed backwards -/

/-- A composition succeeds if both parts do. -/
theorem of_run_bind {d : Decoder α} {f : α → Decoder β} {y : β}
    (h : (d >>= f).run bytes = .ok (y, rest)) :
    ∃ x mid, d.run bytes = .ok (x, mid) ∧ (f x).run mid = .ok (y, rest) := by
  rw [StateT.run_bind] at h
  cases hd : d.run bytes with
  | error e =>
    rw [hd] at h
    cases h
  | ok p =>
    rw [hd] at h
    exact ⟨p.1, p.2, rfl, h⟩

theorem of_run_pure {x y : α} (h : (pure x : Decoder α).run bytes = .ok (y, rest)) :
    y = x ∧ bytes = rest := by
  cases h
  exact ⟨rfl, rfl⟩

/-- A byte that is read was there. -/
theorem of_run_byte {b : UInt8} (h : byte.run bytes = .ok (b, rest)) : bytes = b :: rest := by
  cases bytes with
  | nil => cases h
  | cons c cs =>
    cases h
    rfl

/-! ## Numbers -/

/-- A word is stored as the bytes that it is the sum of. -/
theorem word_ofNat (b₀ b₁ b₂ b₃ : UInt8) :
    Encoding.word (.ofNat (b₀.toNat + 256 * b₁.toNat + 65536 * b₂.toNat + 16777216 * b₃.toNat))
      = [b₀, b₁, b₂, b₃] := by
  have h₀ := b₀.toNat_lt
  have h₁ := b₁.toNat_lt
  have h₂ := b₂.toNat_lt
  have h₃ := b₃.toNat_lt
  rw [Encoding.word, UInt32.toNat_ofNat_of_lt' (by simp only [UInt32.size]; omega)]
  simp only [List.cons.injEq, ← UInt8.toNat_inj, UInt8.toNat_ofNat', and_true]
  omega

/-- A word is written as it was read. -/
theorem restores_word :
    Restores word (fun _ => True) fun n => other (Encoding.word n) := by
  intro bytes rest n h
  obtain ⟨b₀, r₀, h₀, h⟩ := of_run_bind h
  obtain ⟨b₁, r₁, h₁, h⟩ := of_run_bind h
  obtain ⟨b₂, r₂, h₂, h⟩ := of_run_bind h
  obtain ⟨b₃, r₃, h₃, h⟩ := of_run_bind h
  obtain ⟨rfl, rfl⟩ := of_run_pure h
  refine ⟨trivial, ?_⟩
  simp only [of_run_byte h₀, of_run_byte h₁, of_run_byte h₂, of_run_byte h₃, word_ofNat]
  exact holds_other [b₀, b₁, b₂, b₃]

/-! ## Lists and strings -/

/-- As many parts are read as there are to be. -/
theorem of_run_times {d : Decoder α} {P : α → Prop} {f : α → List MarkedByte}
    (hd : Restores d P f) {n : Nat} {xs : List α} (h : (times d n).run bytes = .ok (xs, rest)) :
    xs.length = n ∧ (∀ x ∈ xs, P x) ∧ Holds bytes rest (xs.flatMap f) := by
  induction n generalizing bytes xs with
  | zero =>
    obtain ⟨rfl, rfl⟩ := of_run_pure h
    exact ⟨rfl, fun x hx => absurd hx List.not_mem_nil, holds_nil⟩
  | succ n ih =>
    obtain ⟨x, mid, hx, h⟩ := of_run_bind h
    obtain ⟨ys, mid', hys, h⟩ := of_run_bind h
    obtain ⟨rfl, rfl⟩ := of_run_pure h
    obtain ⟨hP, hfirst⟩ := hd hx
    obtain ⟨hlength, hall, hothers⟩ := ih hys
    exact ⟨congrArg (· + 1) hlength, List.forall_mem_cons.mpr ⟨hP, hall⟩, hfirst.append hothers⟩

/-- A list is written as it was read, with its length in front. -/
theorem restores_list {d : Decoder α} {P : α → Prop} {f : α → List MarkedByte}
    (hd : Restores d P f) :
    Restores (list d) (fun xs => Countable xs.length ∧ ∀ x ∈ xs, P x) (Marked.list f) := by
  intro bytes rest xs h
  obtain ⟨n, mid, hn, h⟩ := of_run_bind h
  obtain ⟨hlength, hall, hothers⟩ := of_run_times hd h
  have hcount : Encoding.count xs.length = Encoding.word n := by
    rw [hlength, Encoding.count, UInt32.ofNat_toNat]
  refine ⟨⟨hlength ▸ n.toNat_lt, hall⟩, ?_⟩
  rw [Marked.list, hcount]
  exact (restores_word hn).2.append hothers

/-- A string is written as it was read, since what is no valid text is refused. -/
theorem restores_string : Restores string Text.Countable Marked.string := by
  intro bytes rest s h
  obtain ⟨n, mid, hn, h⟩ := of_run_bind h
  simp only [StateT.run, List.splitAt_eq] at h
  split at h
  · next hlength =>
    split at h
    · next t ht =>
      cases h
      have hbytes := Text.encode_of_decode? ht
      have hcount : Encoding.count (Text.encode s).length = Encoding.word n := by
        rw [hbytes, hlength, Encoding.count, UInt32.ofNat_toNat]
      have hcountable : Text.Countable s := by
        rw [Text.Countable, hbytes, hlength]
        exact n.toNat_lt
      refine ⟨hcountable, ?_⟩
      rw [Marked.string, hcount]
      refine (restores_word hn).2.append ⟨Text.encode s, ?_, ?_⟩
      · rw [hbytes, List.take_append_drop]
      · rw [List.forall₂_map_right_iff, List.forall₂_same]
        exact fun b _ => rfl
    · cases h
  · cases h

/-! ## Types and slots -/

/-- A type is read off its own tag. -/
theorem of_run_ofTag {tag : UInt8} {t : WordType} (h : (ofTag tag).run bytes = .ok (t, rest)) :
    tag = Encoding.typeTag t ∧ bytes = rest := by
  unfold ofTag at h
  split at h
  · next htag =>
    obtain ⟨rfl, rfl⟩ := of_run_pure h
    exact ⟨htag, rfl⟩
  · split at h
    · next htag =>
      obtain ⟨rfl, rfl⟩ := of_run_pure h
      exact ⟨htag, rfl⟩
    · split at h
      · next htag =>
        obtain ⟨rfl, rfl⟩ := of_run_pure h
        exact ⟨htag, rfl⟩
      · cases h

theorem restores_type : Restores type (fun _ => True) fun t => other [Encoding.typeTag t] := by
  intro bytes rest t h
  obtain ⟨tag, mid, htag, h⟩ := of_run_bind h
  obtain ⟨rfl, rfl⟩ := of_run_ofTag h
  rw [of_run_byte htag]
  exact ⟨trivial, holds_other [Encoding.typeTag t]⟩

/-- Any byte but zero marks an array. -/
theorem restores_slot : Restores slot (fun _ => True) Marked.slot := by
  intro bytes rest s h
  obtain ⟨t, mid, ht, h⟩ := of_run_bind h
  obtain ⟨b, mid', hb, h⟩ := of_run_bind h
  obtain ⟨rfl, rfl⟩ := of_run_pure h
  refine ⟨trivial, (restores_type ht).2.append ⟨[b], of_run_byte hb, .cons ?_ .nil⟩⟩
  by_cases hzero : b = 0 <;> simp [ByteRole.writtenBack, hzero]

theorem restores_returns :
    Restores returns (fun _ => True) fun t => other (Encoding.returns t) := by
  intro bytes rest t h
  obtain ⟨tag, mid, htag, h⟩ := of_run_bind h
  rw [of_run_byte htag]
  split at h
  · next hnone =>
    obtain ⟨rfl, rfl⟩ := of_run_pure h
    exact ⟨trivial, hnone ▸ holds_other [Encoding.noType]⟩
  · obtain ⟨t', mid', ht', h⟩ := of_run_bind h
    obtain ⟨rfl, rfl⟩ := of_run_pure h
    obtain ⟨rfl, rfl⟩ := of_run_ofTag ht'
    exact ⟨trivial, holds_other [Encoding.typeTag t']⟩

/-! ## Instructions

Where an instruction is found in the table of its kind, the code that it was looked up by is the one
it is stored with. -/

/-- An instruction without operand is its code. -/
theorem of_plain? {code : UInt8} {i : Instruction} (h : plain? code = some i) :
    i.Storable ∧ Marked.instruction i = other [code] := by
  unfold plain? at h
  split at h
  · next op hop =>
    obtain rfl := Option.some.inj h
    obtain rfl : Encoding.binaryCode op = code := by simpa using List.find?_some hop
    exact ⟨trivial, rfl⟩
  · have hcode : Encoding.instruction i = [code] := by simpa using List.find?_some h
    rw [← hcode]
    cases i with
    | pushStr s => exact absurd (List.mem_of_find?_eq_some h) (by simp)
    | _ => exact ⟨trivial, rfl⟩

/-- What a table offers is its first entry or stands in the rest of it. -/
theorem of_ite_some {p : Prop} [Decidable p] {x y : α} {o : Option α}
    (h : (if p then some x else o) = some y) : p ∧ x = y ∨ o = some y := by
  split at h
  · next hp => exact .inl ⟨hp, Option.some.inj h⟩
  · exact .inr h

/-- An instruction with a number is its code and the number. -/
theorem of_withWord? {code : UInt8} {f : UInt32 → Instruction} (h : withWord? code = some f)
    (n : UInt32) : (f n).Storable ∧ Marked.instruction (f n) = other (code :: Encoding.word n) := by
  unfold withWord? at h
  -- one entry of the table after the other
  repeat
    rcases of_ite_some h with ⟨rfl, rfl⟩ | h
    · exact ⟨trivial, rfl⟩
  cases h

/-- An instruction with a type is its code and the tag. -/
theorem of_withType? {code : UInt8} {f : WordType → Instruction} (h : withType? code = some f)
    (t : WordType) :
    (f t).Storable ∧ Marked.instruction (f t) = other [code, Encoding.typeTag t] := by
  unfold withType? at h
  repeat
    rcases of_ite_some h with ⟨rfl, rfl⟩ | h
    · exact ⟨trivial, rfl⟩
  cases h

/-- An instruction is written as it was read, but for the mark of an array. -/
theorem restores_instruction : Restores instruction Instruction.Storable Marked.instruction := by
  intro bytes rest i h
  obtain ⟨code, mid, hcode, h⟩ := of_run_bind h
  have hfirst : Holds bytes mid (other [code]) := of_run_byte hcode ▸ holds_other [code]
  split at h
  · next hi =>
    obtain ⟨rfl, rfl⟩ := of_run_pure h
    exact ⟨(of_plain? hi).1, (of_plain? hi).2 ▸ hfirst⟩
  · next f hf =>
    obtain ⟨n, mid', hn, h⟩ := of_run_bind h
    obtain ⟨rfl, rfl⟩ := of_run_pure h
    obtain ⟨hstorable, hbytes⟩ := of_withWord? hf n
    exact ⟨hstorable, hbytes ▸ hfirst.append (restores_word hn).2⟩
  · next f hf =>
    obtain ⟨t, mid', ht, h⟩ := of_run_bind h
    obtain ⟨rfl, rfl⟩ := of_run_pure h
    obtain ⟨hstorable, hbytes⟩ := of_withType? hf t
    exact ⟨hstorable, hbytes ▸ hfirst.append (restores_type ht).2⟩
  · split at h
    · next htext =>
      obtain ⟨s, mid', hs, h⟩ := of_run_bind h
      obtain ⟨rfl, rfl⟩ := of_run_pure h
      obtain ⟨hcountable, hbytes⟩ := restores_string hs
      exact ⟨hcountable, (htext ▸ hfirst).append hbytes⟩
    · cases h

/-! ## Streams, fields, routines -/

/-- A stream is written as it was read. -/
theorem restores_code : Restores code Code.Storable Marked.code := by
  intro bytes rest c h
  obtain ⟨instructions, mid, hinstructions, h⟩ := of_run_bind h
  obtain ⟨labels, mid', hlabels, h⟩ := of_run_bind h
  obtain ⟨rfl, rfl⟩ := of_run_pure h
  obtain ⟨⟨hcount, heach⟩, hfirst⟩ := restores_list restores_instruction hinstructions
  obtain ⟨⟨hlabelCount, -⟩, hsecond⟩ := restores_list restores_word hlabels
  exact ⟨⟨hcount, hlabelCount, heach⟩, hfirst.append hsecond⟩

theorem restores_field : Restores field (fun f => Text.Countable f.name) Marked.field := by
  intro bytes rest f h
  obtain ⟨name, mid, hname, h⟩ := of_run_bind h
  obtain ⟨s, mid', hs, h⟩ := of_run_bind h
  obtain ⟨rfl, rfl⟩ := of_run_pure h
  obtain ⟨hcountable, hfirst⟩ := restores_string hname
  exact ⟨hcountable, hfirst.append (restores_slot hs).2⟩

/-- A routine is written as it was read. -/
theorem restores_routine : Restores routine Routine.Storable Marked.routine := by
  intro bytes rest r h
  obtain ⟨name, _, hname, h⟩ := of_run_bind h
  obtain ⟨params, _, hparams, h⟩ := of_run_bind h
  obtain ⟨result, _, hresult, h⟩ := of_run_bind h
  obtain ⟨locals, _, hlocals, h⟩ := of_run_bind h
  obtain ⟨c, _, hc, h⟩ := of_run_bind h
  obtain ⟨rfl, rfl⟩ := of_run_pure h
  obtain ⟨hcountable, hnameBytes⟩ := restores_string hname
  obtain ⟨⟨hcount, -⟩, hparamBytes⟩ := restores_list restores_slot hparams
  obtain ⟨hcode, hcodeBytes⟩ := restores_code hc
  have hresultBytes := (restores_returns hresult).2
  have hlocalsBytes := (restores_word hlocals).2
  exact ⟨⟨hcountable, hcount, hcode⟩,
    (((hnameBytes.append hparamBytes).append hresultBytes).append hlocalsBytes).append hcodeBytes⟩

/-! ## Images -/

theorem restores_byte : Restores byte (fun _ => True) fun b => other [b] := by
  intro bytes rest b h
  rw [of_run_byte h]
  exact ⟨trivial, holds_other [b]⟩

theorem restores_magic :
    Restores magic (fun _ => True) fun _ => other Encoding.magic := by
  intro bytes rest _ h
  obtain ⟨found, mid, hfound, h⟩ := of_run_bind h
  obtain ⟨-, -, hbytes⟩ := of_run_times restores_byte hfound
  split at h
  · next hmagic =>
    obtain ⟨-, rfl⟩ := of_run_pure h
    subst hmagic
    exact ⟨trivial, hbytes⟩
  · cases h

theorem restores_version :
    Restores version (fun _ => True) fun _ => other (Encoding.word Encoding.formVersion) := by
  intro bytes rest _ h
  obtain ⟨found, mid, hfound, h⟩ := of_run_bind h
  split at h
  · next hversion =>
    obtain ⟨-, rfl⟩ := of_run_pure h
    exact ⟨trivial, hversion ▸ (restores_word hfound).2⟩
  · cases h

theorem restores_userEntry :
    Restores userEntry (fun _ => True) fun user =>
      other (Encoding.word (if user then 1 else 0)) := by
  intro bytes rest user h
  obtain ⟨flags, mid, hflags, h⟩ := of_run_bind h
  have hbytes := (restores_word hflags).2
  split at h
  · next hzero =>
    obtain ⟨rfl, rfl⟩ := of_run_pure h
    exact ⟨trivial, hzero ▸ hbytes⟩
  · split at h
    · next hone =>
      obtain ⟨rfl, rfl⟩ := of_run_pure h
      exact ⟨trivial, hone ▸ hbytes⟩
    · cases h

/-- An image is written as it was read. -/
theorem restores_image : Restores image Image.Storable Image.marked := by
  intro bytes rest i h
  obtain ⟨_, _, hmagic, h⟩ := of_run_bind h
  obtain ⟨_, _, hversion, h⟩ := of_run_bind h
  obtain ⟨user, _, huser, h⟩ := of_run_bind h
  obtain ⟨entry, _, hentry, h⟩ := of_run_bind h
  obtain ⟨fields, _, hfields, h⟩ := of_run_bind h
  obtain ⟨initializer, _, hinitializer, h⟩ := of_run_bind h
  obtain ⟨routines, _, hroutines, h⟩ := of_run_bind h
  split at h
  · next hexists =>
    obtain ⟨rfl, rfl⟩ := of_run_pure h
    have hheader := (restores_magic hmagic).2.append (restores_version hversion).2
    have hflags := hheader.append (restores_userEntry huser).2
    have hindex := hflags.append (restores_word hentry).2
    obtain ⟨⟨hfieldCount, hnames⟩, hfieldBytes⟩ := restores_list restores_field hfields
    obtain ⟨hcode, hcodeBytes⟩ := restores_code hinitializer
    obtain ⟨⟨hcount, heach⟩, hroutineBytes⟩ := restores_list restores_routine hroutines
    exact ⟨⟨hexists, hfieldCount, hnames, hcode, hcount, heach⟩,
      ((hindex.append hfieldBytes).append hcodeBytes).append hroutineBytes⟩
  · cases h

end Decoding

/-- What bytes are written back as is said by the roles alone. -/
theorem Marked.values_eq_zipWith {bytes : List UInt8} {ms : List MarkedByte}
    (h : List.Forall₂ (fun b m => m.value = m.role.writtenBack b) bytes ms) :
    values ms = List.zipWith ByteRole.writtenBack (ms.map MarkedByte.role) bytes := by
  induction h with
  | nil => rfl
  | cons hvalue _ ih => exact congrArg₂ List.cons hvalue ih

/-- **Images that are written back.** Whatever bytes are read as an image, the ones that it is made
of are those that it is stored as, except that other array marks than zero are written back as one.
They are as many, the entry routine exists, and of what is written back the same image is read,
whatever comes behind it. -/
theorem Image.encode_of_decode {bytes rest : List UInt8} {i : Image}
    (h : Image.decode bytes = .ok (i, rest)) :
    ∃ own, bytes = own ++ rest ∧ i.encode = List.zipWith ByteRole.writtenBack i.roles own ∧
      i.encode.length = own.length ∧ i.entryRoutine?.isSome ∧
      ∀ behind, Image.decode (i.encode ++ behind) = .ok (i, behind) := by
  obtain ⟨hstorable, own, hbytes, hown⟩ := Decoding.restores_image h
  refine ⟨own, hbytes, ?_, ?_, ?_, Decoding.reads_image hstorable⟩
  · rw [← Image.values_marked, Marked.values_eq_zipWith hown, Image.roles]
  · rw [← Image.length_roles, Image.roles, List.length_map, hown.length_eq]
  · rw [Image.entryRoutine?, Array.getElem?_eq_getElem hstorable.entry]
    rfl

/-- A parameter that is marked as an array by a seven is written back with a one. -/
theorem Image.encode_of_decode_greeting :
    Image.decode ((greeting true).encode.set 67 7 ++ [0x00]) = .ok (greeting true, [0x00]) ∧
      (greeting true).encode
        = List.zipWith ByteRole.writtenBack (greeting true).roles
            ((greeting true).encode.set 67 7) ∧
      (greeting true).entryRoutine?.isSome := by
  have hread :
      Image.decode ((greeting true).encode.set 67 7 ++ [0x00]) = .ok (greeting true, [0x00]) := by
    decide +kernel
  obtain ⟨own, hbytes, hback, -, hentry, -⟩ := Image.encode_of_decode hread
  obtain rfl := List.append_cancel_right hbytes
  exact ⟨hread, hback, hentry⟩

end OnePass
