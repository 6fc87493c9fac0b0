import Mathlib
import OnePass.Image.Listing
import OnePass.Proofs.QuotedText

/-!
# The listing of a stream determines it

The listing of a stream of instructions is made of `Row`s, each of which is one line: the name of a
label or an instruction. Main statement: the rows of a stream whose labels stand before one of its
instructions or behind the last show every instruction once and in order and every label once, where
it stands; the listing can be read in no other way, and no other stream has it
(`Listing.code_determines`).

What shows which stream is said by `Listing.Shows`, without reference to how rows are made. They are
made in one pass over the instructions and the labels, which are in the order of their targets: the
labels of a place are those in front (`Listing.lines_eq_of_sorted`). A row is known from its text
(`Listing.Row.text_inj`) because the name of an instruction fixes what its operand is
(`Listing.Form`).
-/

namespace OnePass

/-- The labels of a stream stand before one of its instructions or behind the last. -/
def Code.LabelsWithin (c : Code) : Prop :=
  ∀ target ∈ c.labels, target.toNat ≤ c.instructions.size

namespace Listing

/-- A line of the listing of a stream. -/
inductive Row where
  /-- a label -/
  | label (n : Nat)
  /-- an instruction -/
  | instruction (i : Instruction)
  deriving DecidableEq, Repr

namespace Row

/-- The text of a row. -/
def text : Row → String
  | .label n => labelName n ++ ":\n"
  | .instruction i => Listing.instruction i

/-- The label that a row is. -/
def label? : Row → Option Nat
  | .label n => some n
  | .instruction _ => none

/-- The instruction that a row is. -/
def instruction? : Row → Option Instruction
  | .label _ => none
  | .instruction i => some i

end Row

/-- The rows `rs` show the stream `c`: each instruction once and in order; each label once, with as
many instructions in front of it as its target says; and of labels with one target the lowest
number first. -/
structure Shows (rs : List Row) (c : Code) : Prop where
  instructions : rs.filterMap Row.instruction? = c.instructions.toList
  labels : (rs.filterMap Row.label?).Perm (List.range c.labels.size)
  placed : ∀ front n back, rs = front ++ .label n :: back →
    (c.labels[n]?).map UInt32.toNat = some (front.filterMap Row.instruction?).length
  ordered : (rs.filterMap Row.label?).Pairwise fun m n => c.labels[m]? = c.labels[n]? → m < n

/-- Rows show one stream at most. -/
theorem Shows.unique {rs : List Row} {c c' : Code} (h : Shows rs c) (h' : Shows rs c') :
    c = c' := by
  have hinstructions : c.instructions = c'.instructions :=
    Array.toList_inj.mp (h.instructions.symm.trans h'.instructions)
  have hsize : c.labels.size = c'.labels.size := by
    simpa using (h.labels.symm.trans h'.labels).length_eq
  have hlabels : c.labels = c'.labels := by
    refine Array.ext_getElem? fun n => ?_
    by_cases hn : n < c.labels.size
    · -- the label has a row, and that stands at one place
      have hmem : n ∈ rs.filterMap Row.label? := h.labels.mem_iff.mpr (List.mem_range.mpr hn)
      obtain ⟨r, hr, hlabel⟩ := List.mem_filterMap.mp hmem
      obtain rfl : r = .label n := by
        cases r with
        | label m => rw [Option.some.inj hlabel]
        | instruction i => cases hlabel
      obtain ⟨front, back, hsplit⟩ := List.append_of_mem hr
      have htarget := (h.placed front n back hsplit).trans (h'.placed front n back hsplit).symm
      exact Option.map_injective (fun a b => UInt32.toNat_inj.mp) htarget
    · rw [Array.getElem?_eq_none (by omega), Array.getElem?_eq_none (by omega)]
  obtain ⟨is, ls⟩ := c
  obtain ⟨is', ls'⟩ := c'
  exact congrArg₂ Code.mk hinstructions hlabels

/-! ## The rows of a stream -/

section

variable {labels : List UInt32} {ms : List (Nat × Nat)} {position : Nat} {is : List Instruction}

/-- The labels with the target `position`. -/
def standing (labels : List UInt32) (position : Nat) : List Nat :=
  labels.zipIdx.filterMap fun (target, n) => if target.toNat = position then some n else none

/-- The rows of the instructions from `position` on. -/
def rows (labels : List UInt32) (position : Nat) : List Instruction → List Row
  | [] => (standing labels position).map .label
  | i :: rest =>
    (standing labels position).map .label ++ .instruction i :: rows labels (position + 1) rest

theorem mem_standing {n : Nat} : n ∈ standing labels position ↔
    (labels[n]?).map UInt32.toNat = some position := by
  simp only [standing, List.mem_filterMap, Prod.exists, List.mem_zipIdx_iff_getElem?,
    Option.map_eq_some_iff]
  constructor
  · rintro ⟨target, m, hm, hn⟩
    split at hn
    · next htarget => exact ⟨target, Option.some.inj hn ▸ hm, htarget⟩
    · cases hn
  · rintro ⟨target, hn, htarget⟩
    exact ⟨target, n, hn, if_pos htarget⟩

theorem pairwise_standing : (standing labels position).Pairwise (· < ·) := by
  have hall : labels.zipIdx.Pairwise fun x y => x.2 < y.2 := by
    rw [← List.pairwise_map (R := (· < ·)), List.zipIdx_map_snd]
    exact List.pairwise_lt_range'
  have hsnd (x : UInt32 × Nat) (n : Nat)
      (h : (if x.1.toNat = position then some x.2 else none) = some n) : x.2 = n := by
    split at h
    · exact Option.some.inj h
    · cases h
  refine hall.filterMap _ fun x y hlt m hm n hn => ?_
  rwa [← hsnd x m hm, ← hsnd y n hn]

/-- Labels are sorted by their targets, and those of one target by their numbers. -/
theorem pairwise_marks (labels : List UInt32) :
    (marks labels).Pairwise fun a b => a.1 ≤ b.1 ∧ (a.1 = b.1 → a.2 ≤ b.2) := by
  refine (List.pairwise_mergeSort (fun a b c => ?_) (fun a b => ?_) _).imp fun {a b} h => ?_
  all_goals simp only [Bool.or_eq_true, Bool.and_eq_true, decide_eq_true_eq] at *
  all_goals omega

/-- The sorted labels with the target `position` are those in the order of their numbers. -/
theorem filter_marks (labels : List UInt32) (position : Nat) :
    ((marks labels).filter fun m => m.1 = position).map Prod.snd = standing labels position := by
  have hstanding : standing labels position =
      ((labels.zipIdx.map fun (target, n) => (target.toNat, n)).filter fun m =>
        m.1 = position).map Prod.snd := by
    rw [standing, List.filter_map, List.map_map, ← List.filterMap_eq_map, List.filterMap_filter]
    refine List.filterMap_congr fun x _ => ?_
    simp only [Function.comp_apply, decide_eq_true_eq]
  have hsorted : (((marks labels).filter fun m => m.1 = position).map Prod.snd).Pairwise
    (· ≤ ·) := by
    rw [List.pairwise_map, List.pairwise_filter]
    refine (pairwise_marks labels).imp fun {a b} h ha hb => ?_
    exact h.2 ((of_decide_eq_true ha).trans (of_decide_eq_true hb).symm)
  refine List.Perm.eq_of_pairwise (fun m n _ _ => Nat.le_antisymm) hsorted
    (pairwise_standing.imp Nat.le_of_lt) ?_
  rw [hstanding]
  exact ((List.mergeSort_perm _ _).filter _).map _

/-- Of sorted labels with targets from `position` on, those with this target come first. -/
theorem takeWhile_eq_filter (hsorted : ms.Pairwise fun a b => a.1 ≤ b.1)
    (hms : ∀ m ∈ ms, position ≤ m.1) :
    (ms.takeWhile fun m => m.1 = position) = (ms.filter fun m => m.1 = position) ∧
      (ms.dropWhile fun m => m.1 = position) = ms.filter fun m => position < m.1 := by
  induction ms with
  | nil => exact ⟨rfl, rfl⟩
  | cons m ms ih =>
    obtain ⟨hle, hsorted⟩ := List.pairwise_cons.mp hsorted
    obtain ⟨hm, hms⟩ := List.forall_mem_cons.mp hms
    by_cases hhere : m.1 = position
    · obtain ⟨htake, hdrop⟩ := ih hsorted hms
      simp [hhere, htake, hdrop]
    · -- the first target is behind `position`, and so are all others
      have hbehind : ∀ m' ∈ m :: ms, position < m'.1 := by
        have hlt : position < m.1 := Nat.lt_of_le_of_ne hm (Ne.symm hhere)
        exact List.forall_mem_cons.mpr ⟨hlt, fun m' hm' => Nat.lt_of_lt_of_le hlt (hle m' hm')⟩
      have hnone : (m :: ms).filter (fun m' => m'.1 = position) = [] :=
        List.filter_eq_nil_iff.mpr fun m' hm' heq =>
          Nat.ne_of_gt (hbehind m' hm') (of_decide_eq_true heq)
      have hall : (m :: ms).filter (fun m' => position < m'.1) = m :: ms :=
        List.filter_eq_self.mpr fun m' hm' => decide_eq_true (hbehind m' hm')
      rw [hnone, hall]
      simp [hhere]

theorem labelLines_eq :
    labelLines ms = String.join (((ms.map Prod.snd).map Row.label).map Row.text) := by
  rw [labelLines, List.map_map, List.map_map]
  rfl

/-- The listing of instructions is that of their rows, if the labels that were not shown yet are
those with targets from `position` on. -/
theorem lines_eq_of_sorted (hsorted : ms.Pairwise fun a b => a.1 ≤ b.1)
    (hms : ∀ m ∈ ms, position ≤ m.1)
    (hstanding : ∀ p, position ≤ p →
      (ms.filter fun m => m.1 = p).map Prod.snd = standing labels p) :
    lines ms position is = String.join ((rows labels position is).map Row.text) := by
  -- what is left of the labels behind `position` are those with targets from the next position on
  induction is generalizing ms position with
  | nil =>
    rw [lines, rows, (takeWhile_eq_filter hsorted hms).1, labelLines_eq,
      hstanding position (Nat.le_refl _)]
  | cons i is ih =>
    obtain ⟨htake, hdrop⟩ := takeWhile_eq_filter hsorted hms
    have hrest : lines (ms.filter fun m => position < m.1) (position + 1) is =
        String.join ((rows labels (position + 1) is).map Row.text) := by
      refine ih (hsorted.filter _) (fun m hm => ?_) fun p hp => ?_
      · exact of_decide_eq_true (List.mem_filter.mp hm).2
      · rw [← hstanding p (Nat.le_of_lt hp), List.filter_filter]
        congr 2
        funext m
        by_cases hm : m.1 = p
        · simp [hm, Nat.lt_of_succ_le hp]
        · simp [hm]
    rw [lines, rows, htake, hdrop, hrest, labelLines_eq, hstanding position (Nat.le_refl _),
      List.map_append, List.map_cons, String.join_append, String.join_cons, String.append_assoc]
    rfl

/-- The listing of a stream is that of its rows. -/
theorem code_eq (c : Code) : code c =
    String.join ((rows c.labels.toList 0 c.instructions.toList).map Row.text) :=
  lines_eq_of_sorted ((pairwise_marks _).imp And.left) (fun _ _ => Nat.zero_le _)
    fun p _ => filter_marks _ p

theorem instructions_standing : ((standing labels position).map Row.label).filterMap
    Row.instruction? = [] := by
  simp [List.filterMap_map, Function.comp_def, Row.instruction?]

theorem labels_standing : ((standing labels position).map Row.label).filterMap
    Row.label? = standing labels position := by
  simp [List.filterMap_map, Function.comp_def, Row.label?]

/-- The rows hold the instructions. -/
theorem instructions_rows : (rows labels position is).filterMap Row.instruction? = is := by
  induction is generalizing position with
  | nil => exact instructions_standing
  | cons i is ih =>
    rw [rows, List.filterMap_append, instructions_standing, List.nil_append,
      List.filterMap_cons_some (by rfl), ih]

/-- The rows hold the labels by their targets. -/
theorem labels_rows : (rows labels position is).filterMap Row.label? =
    (List.range' position (is.length + 1)).flatMap (standing labels) := by
  induction is generalizing position with
  | nil => rw [rows, labels_standing]; simp
  | cons i is ih =>
    rw [rows, List.filterMap_append, labels_standing, List.filterMap_cons_none (by rfl), ih,
      List.length_cons, List.range'_succ (n := is.length + 1), List.flatMap_cons]

variable {front back : List Row} {n : Nat}

/-- No instruction stands in front of a label among those of one target. -/
theorem placed_standing (h : (standing labels position).map Row.label = front ++ .label n :: back) :
    (labels[n]?).map UInt32.toNat = some position ∧ front.filterMap Row.instruction? = [] := by
  constructor
  · have hmem : Row.label n ∈ (standing labels position).map Row.label := by simp [h]
    obtain ⟨m, hm, hn⟩ := List.mem_map.mp hmem
    exact mem_standing.mp (Row.label.inj hn ▸ hm)
  · have hall : (front ++ .label n :: back).filterMap Row.instruction? = [] :=
      h ▸ instructions_standing
    rw [List.filterMap_append] at hall
    exact (List.append_eq_nil_iff.mp hall).1

/-- As many instructions stand in front of a label as its target says. -/
theorem placed_rows (h : rows labels position is = front ++ .label n :: back) :
    (labels[n]?).map UInt32.toNat =
      some (position + (front.filterMap Row.instruction?).length) := by
  induction is generalizing position front with
  | nil =>
    obtain ⟨htarget, hfront⟩ := placed_standing h
    rw [htarget, hfront]
    rfl
  | cons i is ih =>
    rcases List.append_eq_append_iff.mp h with ⟨front', rfl, hrest⟩ | ⟨middle, hmarks, hrest⟩
    · -- the label stands behind those of this position
      cases front' with
      | nil => cases hrest
      | cons r front' =>
        obtain ⟨rfl, hrows⟩ := List.cons.inj hrest
        rw [ih hrows, List.filterMap_append, instructions_standing, List.nil_append,
          List.filterMap_cons_some (by rfl), List.length_cons, Nat.add_right_comm, Nat.add_assoc]
    · cases middle with
      | nil => cases hrest
      | cons r middle =>
        obtain ⟨rfl, -⟩ := List.cons.inj hrest
        obtain ⟨htarget, hfront⟩ := placed_standing hmarks
        rw [htarget, hfront]
        rfl

/-- Of labels with one target the lowest number comes first. -/
theorem ordered_rows : ((rows labels position is).filterMap Row.label?).Pairwise fun m n =>
    labels[m]? = labels[n]? → m < n := by
  rw [labels_rows, List.pairwise_flatMap]
  constructor
  · intro p _
    refine pairwise_standing.imp ?_
    intro m n hlt _
    exact hlt
  · refine List.Pairwise.imp (fun {p q} hpq m hm n hn hsame => ?_) List.pairwise_lt_range'
    have hp := mem_standing.mp hm
    rw [hsame, mem_standing.mp hn] at hp
    exact absurd (Option.some.inj hp) (Nat.ne_of_gt hpq)

end

/-- The rows of a stream show it. -/
theorem shows_rows {c : Code} (h : c.LabelsWithin) :
    Shows (rows c.labels.toList 0 c.instructions.toList) c where
  instructions := instructions_rows
  labels := by
    refine (List.perm_ext_iff_of_nodup (ordered_rows.imp ?_) List.nodup_range).mpr fun n => ?_
    · rintro m _ hlt rfl
      exact Nat.lt_irrefl m (hlt rfl)
    · simp only [labels_rows, List.mem_flatMap, mem_standing, List.mem_range, List.mem_range'_1,
        Array.getElem?_toList, Option.map_eq_some_iff]
      constructor
      · rintro ⟨p, -, target, htarget, -⟩
        exact (Array.getElem?_eq_some_iff.mp htarget).1
      · intro hn
        have hwithin := h _ (Array.getElem_mem hn)
        rw [Array.length_toList]
        exact ⟨_, ⟨Nat.zero_le _, by omega⟩, _, Array.getElem?_eq_getElem hn, rfl⟩
  placed front n back hsplit := by
    have hplaced := placed_rows hsplit
    rwa [Array.getElem?_toList, Nat.zero_add] at hplaced
  ordered := by
    have hordered : ((rows c.labels.toList 0 c.instructions.toList).filterMap Row.label?).Pairwise
        fun m n => c.labels.toList[m]? = c.labels.toList[n]? → m < n := ordered_rows
    simpa only [Array.getElem?_toList] using hordered

/-! ## The text of a row -/

/-- What the name of an instruction says about its operand: there is none, or how the instruction is
made of it. -/
inductive Form where
  | plain (i : Instruction)
  | word (make : Int32 → Instruction)
  | text (make : String → Instruction)
  | index (make : UInt32 → Instruction)
  | label (make : UInt32 → Instruction)
  | type (make : WordType → Instruction)

/-- An instruction of a form, with the text of its operand. -/
inductive Form.Makes : Form → Option String → Instruction → Prop where
  | plain {i : Instruction} : Makes (.plain i) none i
  | word {make : Int32 → Instruction} (w : Int32) :
      Makes (.word make) (some (Text.renderWord w)) (make w)
  | text {make : String → Instruction} (s : String) :
      Makes (.text make) (some (Text.quotedString s)) (make s)
  | index {make : UInt32 → Instruction} (n : UInt32) :
      Makes (.index make) (some (toString n.toNat)) (make n)
  | label {make : UInt32 → Instruction} (n : UInt32) :
      Makes (.label make) (some (labelName n.toNat)) (make n)
  | type {make : WordType → Instruction} (t : WordType) : Makes (.type make) (some t.text) (make t)

/-- The names of instructions and their forms. -/
def forms : List (String × Form) :=
  [("push", .word .pushInt), ("push.str", .text .pushStr), ("pop", .plain .pop),
   ("dup", .plain .dup), ("swap", .plain .swap), ("ld.local", .index .loadLocal),
   ("st.local", .index .storeLocal), ("ld.arg", .index .loadArg), ("st.arg", .index .storeArg),
   ("ld.field", .index .loadField), ("st.field", .index .storeField), ("newarr", .index .newArray),
   ("ld.elem", .plain .loadElem), ("st.elem", .plain .storeElem), ("len", .plain .arrayLen),
   ("add", .plain (.binary .add)), ("sub", .plain (.binary .sub)), ("mul", .plain (.binary .mul)),
   ("div", .plain (.binary .div)), ("rem", .plain (.binary .rem)), ("neg", .plain .neg),
   ("min", .plain (.binary .min)), ("max", .plain (.binary .max)), ("and", .plain (.binary .and)),
   ("or", .plain (.binary .or)), ("eq", .plain (.binary .eq)), ("lt", .plain (.binary .lt)),
   ("gt", .plain (.binary .gt)), ("jmp", .label .jump), ("jmp.f", .label .jumpIfFalse),
   ("jmp.t", .label .jumpIfTrue), ("call", .index .call), ("ret", .plain .ret),
   ("rand", .plain .random), ("box", .type .box), ("print", .type .print),
   ("print.str", .plain .printStr), ("print.fmt", .index .printFormat),
     ("readln", .plain .readLine),
   ("parse", .type .parse)]

/-- Every instruction is of the form that its name has. -/
theorem exists_form (i : Instruction) :
    ∃ f, forms.lookup (parts i).1 = some f ∧ f.Makes (parts i).2 i := by
  cases i with
  | pushInt w => exact ⟨_, rfl, .word w⟩
  | pushStr s => exact ⟨_, rfl, .text s⟩
  | loadLocal n | storeLocal n | loadArg n | storeArg n | loadField n | storeField n | newArray n
  | call n | printFormat n => exact ⟨_, rfl, .index n⟩
  | jump n | jumpIfFalse n | jumpIfTrue n => exact ⟨_, rfl, .label n⟩
  | box t | print t | parse t => exact ⟨_, rfl, .type t⟩
  | binary op => cases op <;> exact ⟨_, rfl, .plain⟩
  | pop | dup | swap | loadElem | storeElem | arrayLen | neg | ret | random | printStr | readLine =>
    exact ⟨_, rfl, .plain⟩

theorem type_text_inj {t t' : WordType} (h : t.text = t'.text) : t = t' := by
  cases t <;> cases t' <;> first | rfl | exact absurd h (by decide)

theorem labelName_inj {m n : Nat} (h : labelName m = labelName n) : m = n :=
  Nat.repr_injective (String.append_right_inj ".L" |>.mp h)

/-- An instruction is known from its form and the text of its operand. -/
theorem Form.Makes.unique {f : Form} {operand : Option String} {i j : Instruction}
    (hi : f.Makes operand i) (hj : f.Makes operand j) : i = j := by
  generalize ho : operand = o at hj
  cases hi with
  | plain => cases hj; rfl
  | word w =>
    cases hj
    rw [Text.renderWord_inj (Option.some.inj ho)]
  | text s =>
    cases hj
    rw [Text.quotedString_inj (Option.some.inj ho)]
  | index n =>
    cases hj
    rw [UInt32.toNat_inj.mp (Nat.repr_injective (Option.some.inj ho))]
  | label n =>
    cases hj
    rw [UInt32.toNat_inj.mp (labelName_inj (Option.some.inj ho))]
  | type t =>
    cases hj
    rw [type_text_inj (Option.some.inj ho)]

/-- An instruction is known from its name and the text of its operand. -/
theorem parts_inj {i j : Instruction} (h : parts i = parts j) : i = j := by
  obtain ⟨f, hf, hi⟩ := exists_form i
  obtain ⟨f', hf', hj⟩ := exists_form j
  rw [h] at hf hi
  obtain rfl : f = f' := Option.some.inj (hf.symm.trans hf')
  exact hi.unique hj

/-- Names are short and hold no blanks. -/
theorem name_of_parts (i : Instruction) :
    (parts i).1.toList.length < nameWidth ∧ ∀ c ∈ (parts i).1.toList, c ≠ ' ' ∧ c ≠ '\n' := by
  have hnames : ∀ name ∈ forms.map Prod.fst,
      name.toList.length < nameWidth ∧ ∀ c ∈ name.toList, c ≠ ' ' ∧ c ≠ '\n' := by
    simp [forms, nameWidth]
  obtain ⟨f, hf, -⟩ := exists_form i
  obtain ⟨front, back, hforms, -⟩ := List.lookup_eq_some_iff.mp hf
  exact hnames _ (List.mem_map.mpr ⟨((parts i).1, f), by rw [hforms]; simp, rfl⟩)

theorem newline_notMem_labelName (n : Nat) : '\n' ∉ (labelName n).toList := by
  rw [labelName, String.toList_append, List.mem_append, not_or]
  exact ⟨by decide, Text.newline_notMem_repr n⟩

/-- Operands hold no line break. -/
theorem newline_notMem_operand {i : Instruction} {operand : String}
    (h : (parts i).2 = some operand) :
    '\n' ∉ operand.toList := by
  obtain ⟨f, -, hi⟩ := exists_form i
  rw [h] at hi
  cases hi with
  | word w => exact Text.newline_notMem_renderWord w
  | text s => exact Text.newline_notMem_quotedString s
  | index n => exact Text.newline_notMem_repr n.toNat
  | label n => exact newline_notMem_labelName n.toNat
  | type t => cases t <;> decide

/-- What stands behind the name of an instruction. -/
def behindName (name : String) : Option String → List Char
  | none => []
  | some operand => List.replicate (nameWidth - name.length) ' ' ++ operand.toList

theorem toList_instruction (i : Instruction) : (instruction i).toList =
    '\t' :: ((parts i).1.toList ++ behindName (parts i).1 (parts i).2) ++ ['\n'] := by
  rw [instruction]
  split <;> next name _ hparts => simp [hparts, behindName, String.toList_append]

/-- A name ends where a blank stands or nothing more. -/
theorem takeWhile_name (i : Instruction) :
    ((parts i).1.toList ++ behindName (parts i).1 (parts i).2).takeWhile (· != ' ') =
      (parts i).1.toList := by
  obtain ⟨hshort, hname⟩ := name_of_parts i
  rw [List.takeWhile_append_of_pos fun c hc => bne_iff_ne.mpr (hname c hc).1]
  cases (parts i).2 with
  | none => exact List.append_nil _
  | some operand =>
    obtain ⟨k, hk⟩ : ∃ k, nameWidth - (parts i).1.length = k + 1 :=
      Nat.exists_eq_succ_of_ne_zero (by rw [← String.length_toList]; omega)
    rw [behindName, hk, List.replicate_succ]
    simp

/-- An operand is known from what stands behind a name. -/
theorem behindName_inj {name : String} (hshort : name.toList.length < nameWidth)
    {o o' : Option String} (h : behindName name o = behindName name o') : o = o' := by
  have hne (operand : String) : behindName name (some operand) ≠ [] := by
    have hgap : nameWidth - name.length ≠ 0 := by
      rw [← String.length_toList]
      omega
    exact fun hnil => hgap (List.replicate_eq_nil_iff _ |>.mp (List.append_eq_nil_iff.mp hnil).1)
  cases o with
  | none =>
    cases o' with
    | none => rfl
    | some operand => exact absurd h.symm (hne operand)
  | some operand =>
    cases o' with
    | none => exact absurd h (hne operand)
    | some operand' => rw [String.toList_inj.mp (List.append_cancel_left h)]

/-- An instruction is known from its line. -/
theorem instruction_inj {i j : Instruction} (h : instruction i = instruction j) : i = j := by
  have hline := congrArg String.toList h
  rw [toList_instruction, toList_instruction] at hline
  have hrest := (List.cons.inj (List.append_cancel_right hline)).2
  have hname : (parts i).1 = (parts j).1 := by
    rw [← String.toList_inj, ← takeWhile_name i, ← takeWhile_name j, hrest]
  rw [hname] at hrest
  have hoperand := behindName_inj (name_of_parts j).1 (List.append_cancel_left hrest)
  exact parts_inj (Prod.ext hname hoperand)

namespace Row

/-- A row is one line. -/
theorem exists_line (r : Row) : ∃ w, r.text.toList = w ++ ['\n'] ∧ '\n' ∉ w := by
  cases r with
  | label n =>
    refine ⟨(labelName n).toList ++ [':'], ?_, ?_⟩
    · rw [text, String.toList_append, List.append_assoc]
      rfl
    · simpa using newline_notMem_labelName n
  | instruction i =>
    refine ⟨_, toList_instruction i, ?_⟩
    have hname : '\n' ∉ (parts i).1.toList := fun h => ((name_of_parts i).2 _ h).2 rfl
    have hbehind : '\n' ∉ behindName (parts i).1 (parts i).2 := by
      cases hoperand : (parts i).2 with
      | none => exact List.not_mem_nil
      | some operand =>
        rw [behindName, List.mem_append, List.mem_replicate, not_or]
        exact ⟨fun h => absurd h.2 (by decide), newline_notMem_operand hoperand⟩
    simp [hname, hbehind]

/-- A row is known from its line. -/
theorem text_inj {r r' : Row} (h : r.text = r'.text) : r = r' := by
  -- the first character tells labels and instructions apart
  have hlabel (n : Nat) : (label n).text.toList.head? = some '.' := by
    simp [text, labelName, String.toList_append]
  have hinstruction (i : Instruction) : (instruction i).text.toList.head? = some '\t' := by
    rw [text, toList_instruction]
    rfl
  cases r with
  | label n =>
    cases r' with
    | label n' => rw [labelName_inj (String.append_left_inj ":\n" |>.mp h)]
    | instruction i =>
      have hhead := hlabel n
      rw [h, hinstruction] at hhead
      cases hhead
  | instruction i =>
    cases r' with
    | label n =>
      have hhead := hinstruction i
      rw [h, hlabel] at hhead
      cases hhead
    | instruction j => rw [instruction_inj h]

end Row

/-- Rows are known from their text. -/
theorem join_inj {rs rs' : List Row}
    (h : String.join (rs.map Row.text) = String.join (rs'.map Row.text)) : rs = rs' := by
  have hempty (r : Row) (rest : String) : "" ≠ r.text ++ rest := by
    intro hnil
    obtain ⟨w, hw, -⟩ := r.exists_line
    have hlist := congrArg String.toList hnil
    rw [String.toList_append, hw] at hlist
    simp at hlist
  induction rs generalizing rs' with
  | nil =>
    cases rs' with
    | nil => rfl
    | cons r' rs' =>
      rw [List.map_cons, String.join_cons] at h
      exact absurd h (hempty r' _)
  | cons r rs ih =>
    cases rs' with
    | nil =>
      rw [List.map_cons, String.join_cons] at h
      exact absurd h.symm (hempty r _)
    | cons r' rs' =>
      rw [List.map_cons, List.map_cons, String.join_cons, String.join_cons] at h
      obtain ⟨w, hw, hline⟩ := r.exists_line
      obtain ⟨w', hw', hline'⟩ := r'.exists_line
      have htext := congrArg String.toList h
      simp only [String.toList_append, hw, hw', List.append_assoc, List.singleton_append] at htext
      -- both lines end where the first line feed stands
      obtain ⟨rfl, hrest⟩ := Text.cut_inj hline hline' htext
      rw [Row.text_inj (String.toList_inj.mp (hw.trans hw'.symm)), ih (String.toList_inj.mp hrest)]

/-- **The listing of a stream determines it.** The listing of a stream whose labels stand before one
of its instructions or behind the last is made of rows in one way only; these show every instruction
once and in order, and every label once, where it stands; and no other stream of this kind has the
same listing. -/
theorem code_determines {c : Code} (h : c.LabelsWithin) :
    (∃ rs, Shows rs c ∧ ∀ rs' : List Row, code c = String.join (rs'.map Row.text) ↔ rs' = rs) ∧
      ∀ c' : Code, c'.LabelsWithin → code c' = code c → c' = c := by
  refine ⟨⟨_, shows_rows h, fun rs' => ?_⟩, fun c' h' hcode => ?_⟩
  · rw [code_eq]
    exact ⟨fun htext => (join_inj htext).symm, fun hrows => by rw [hrows]⟩
  · rw [code_eq, code_eq] at hcode
    have hshows := shows_rows h'
    rw [join_inj hcode] at hshows
    exact hshows.unique (shows_rows h)

/-- Labels out of order that share their places. -/
theorem code_determines_shared :
    (⟨#[.pop, .ret], #[2, 0, 2, 0]⟩ : Code).LabelsWithin ∧
      code ⟨#[.pop, .ret], #[2, 0, 2, 0]⟩ = ".L1:\n.L3:\n\tpop\n\tret\n.L0:\n.L2:\n" ∧
      (∃ rs, Shows rs ⟨#[.pop, .ret], #[2, 0, 2, 0]⟩ ∧ ∀ rs' : List Row,
        code ⟨#[.pop, .ret], #[2, 0, 2, 0]⟩ = String.join (rs'.map Row.text) ↔ rs' = rs) ∧
      ∀ c' : Code, c'.LabelsWithin → code c' = code ⟨#[.pop, .ret], #[2, 0, 2, 0]⟩ →
        c' = ⟨#[.pop, .ret], #[2, 0, 2, 0]⟩ := by
  have h : (⟨#[.pop, .ret], #[2, 0, 2, 0]⟩ : Code).LabelsWithin := by
    simp [Code.LabelsWithin]
  refine ⟨h, ?_, code_determines h⟩
  rw [code_eq]
  decide +kernel

end Listing

end OnePass
