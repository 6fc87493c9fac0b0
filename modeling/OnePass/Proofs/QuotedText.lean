import Mathlib
import OnePass.Text.Decimal
import OnePass.Text.Quoted

/-!
# Quoted text is known from how it is shown

Numerals and quoted strings hold no line break, and what they show can be read off them: different
words have different numerals (`Text.renderWord_inj`), and different strings are shown differently
(`Text.quotedString_inj`).

Between double quotes every character is shown as one of three forms (`Text.shown`): as itself, with
a back slash and a mark, or with its code point in braces. The first characters say which form it
is, and each form says where it ends; so what is shown can be cut in one way only
(`Text.Shown.append_inj`). -/

namespace OnePass.Text

/-- A text is known up to the first place where a character stands. -/
theorem cut_inj {x : Char} {v w cs ds : List Char} (hv : x ∉ v) (hw : x ∉ w)
    (h : v ++ x :: cs = w ++ x :: ds) : v = w ∧ cs = ds := by
  rcases List.append_eq_append_iff.mp h with ⟨u, rfl, hrest⟩ | ⟨u, rfl, hrest⟩
  · cases u with
    | nil => exact ⟨(List.append_nil v).symm, (List.cons.inj hrest).2⟩
    | cons y u =>
      obtain ⟨rfl, -⟩ := List.cons.inj hrest
      exact absurd (List.mem_append_right v List.mem_cons_self) hw
  · cases u with
    | nil => exact ⟨List.append_nil w, (List.cons.inj hrest).2.symm⟩
    | cons y u =>
      obtain ⟨rfl, -⟩ := List.cons.inj hrest
      exact absurd (List.mem_append_right w List.mem_cons_self) hv

/-! ## Numerals -/

/-- The hexadecimal digits, by their values. -/
theorem digitChar_inj {m n : Nat} (hm : m < 16) (hn : n < 16)
    (h : Nat.digitChar m = Nat.digitChar n) : m = n := by
  have hall : ∀ i j : Fin 16, Nat.digitChar i = Nat.digitChar j → i = j := by decide
  exact Fin.mk.inj (hall ⟨m, hm⟩ ⟨n, hn⟩ h)

/-- A hexadecimal numeral is that of one number. -/
theorem toDigits_inj {m n : Nat} (h : Nat.toDigits 16 m = Nat.toDigits 16 n) : m = n := by
  induction m using Nat.strongRecOn generalizing n with
  | ind m ih =>
    have hne (k : Nat) : Nat.toDigits 16 k ≠ [] := Nat.toDigits_ne_nil
    rw [Nat.toDigits_eq_if (by decide), Nat.toDigits_eq_if (n := n) (by decide)] at h
    split at h <;> split at h
    · next hm hn => exact digitChar_inj hm hn (List.cons.inj h).1
    · rw [← List.nil_append [m.digitChar]] at h
      exact absurd (List.append_inj' h rfl).1.symm (hne _)
    · rw [← List.nil_append [n.digitChar]] at h
      exact absurd (List.append_inj' h rfl).1 (hne _)
    · next hm hn =>
      obtain ⟨hfront, hlast⟩ := List.append_inj' h rfl
      have hquotient := ih (m / 16) (by omega) hfront
      have hrest := digitChar_inj (Nat.mod_lt m (by decide)) (Nat.mod_lt n (by decide))
        (List.cons.inj hlast).1
      omega

/-- What stands in a hexadecimal numeral. -/
theorem isAlphanum_of_mem_toDigits {n : Nat} {c : Char} (h : c ∈ Nat.toDigits 16 n) :
    c.isAlphanum := by
  have hdigit : ∀ d : Fin 16, (Nat.digitChar d).isAlphanum := by decide
  induction n using Nat.strongRecOn with
  | ind n ih =>
    rw [Nat.toDigits_eq_if (by decide)] at h
    split at h
    · next hn => exact List.mem_singleton.mp h ▸ hdigit ⟨n, hn⟩
    · next hn =>
      rcases List.mem_append.mp h with h | h
      · exact ih (n / 16) (by omega) h
      · exact List.mem_singleton.mp h ▸ hdigit ⟨n % 16, Nat.mod_lt n (by decide)⟩

/-- A word is known from its numeral. -/
theorem renderWord_inj {v w : Int32} (h : renderWord v = renderWord w) : v = w :=
  Int32.toInt_inj.mp (Int.repr_injective h)

theorem isDigit_of_mem_repr {n : Nat} {c : Char} (h : c ∈ n.repr.toList) : c.isDigit := by
  rw [Nat.toList_repr] at h
  exact Nat.isDigit_of_mem_toDigits (by decide) (by decide) h

/-- What a numeral of a word consists of. -/
theorem isDigit_of_mem_renderWord {w : Int32} {c : Char} (h : c ∈ (renderWord w).toList) :
    c = '-' ∨ c.isDigit := by
  change c ∈ w.toInt.repr.toList at h
  cases hw : w.toInt with
  | ofNat n =>
    rw [hw] at h
    exact .inr (isDigit_of_mem_repr h)
  | negSucc n =>
    rw [hw, Int.repr, String.toList_append] at h
    exact (List.mem_append.mp h).imp (by simp) isDigit_of_mem_repr

theorem newline_notMem_repr (n : Nat) : '\n' ∉ (toString n).toList := fun h =>
  absurd (isDigit_of_mem_repr h) (by decide)

theorem newline_notMem_renderWord (w : Int32) : '\n' ∉ (renderWord w).toList := fun h =>
  absurd (isDigit_of_mem_renderWord h) (by decide)

/-! ## Quoted characters -/

/-- The marks behind a back slash that stand for one character, and which one that is. -/
def shortEscapes : List (Char × Char) :=
  [('0', '\x00'), ('t', '\t'), ('r', '\r'), ('n', '\n'), ('\\', '\\'), ('"', '"')]

/-- How a character is shown between double quotes. -/
inductive Shown (c : Char) : List Char → Prop where
  | plain (hslash : c ≠ '\\') (hline : c ≠ '\n') : Shown c [c]
  | short {e : Char} (h : (e, c) ∈ shortEscapes) : Shown c ['\\', e]
  | code : Shown c (codePointEscape c)

theorem shown (c : Char) : Shown c (escaped '"' c) := by
  unfold escaped
  split
  · next h => exact h ▸ .short (by decide)
  split
  · next h => exact h ▸ .short (by decide)
  split
  · next h => exact h ▸ .short (by decide)
  split
  · next h => exact h ▸ .short (by decide)
  split
  · next h =>
    rcases (Bool.or_eq_true_iff.mp h).imp of_decide_eq_true of_decide_eq_true with rfl | rfl
    · exact .short (by decide)
    · exact .short (by decide)
  split
  · exact .code
  · next hline hmark _ =>
    simp only [Bool.or_eq_true, decide_eq_true_eq, not_or] at hmark
    exact .plain hmark.1 hline

variable {c d : Char} {v w cs ds : List Char}

/-- Hexadecimal digits end where a brace is closed. -/
theorem hexadecimal_inj (h : Nat.toDigits 16 c.toNat ++ '\x7d' :: cs =
    Nat.toDigits 16 d.toNat ++ '\x7d' :: ds) : c = d ∧ cs = ds := by
  have hbrace (n : Nat) : '\x7d' ∉ Nat.toDigits 16 n := fun hmem =>
    absurd (isAlphanum_of_mem_toDigits hmem) (by decide)
  obtain ⟨hdigits, hrest⟩ := cut_inj (hbrace _) (hbrace _) h
  exact ⟨Char.toNat_inj.mp (toDigits_inj hdigits), hrest⟩

/-- The first character is known from how a text is shown. -/
theorem Shown.append_inj (hv : Shown c v) (hw : Shown d w) (h : v ++ cs = w ++ ds) :
    c = d ∧ cs = ds := by
  have hmarks : ∀ x ∈ shortEscapes, x.1 ≠ 'u' ∧ ∀ y ∈ shortEscapes, x.1 = y.1 → x.2 = y.2 := by
    decide
  cases hv with
  | plain hslash =>
    cases hw with
    | plain => exact ⟨(List.cons.inj h).1, (List.cons.inj h).2⟩
    | short => exact absurd (List.cons.inj h).1 hslash
    | code => exact absurd (List.cons.inj h).1 hslash
  | @short e he =>
    cases hw with
    | plain hslash => exact absurd (List.cons.inj h).1.symm hslash
    | short he' =>
      obtain ⟨hmark, hrest⟩ := List.cons.inj (List.cons.inj h).2
      exact ⟨(hmarks _ he).2 _ he' hmark, hrest⟩
    | code => exact absurd (List.cons.inj (List.cons.inj h).2).1 (hmarks _ he).1
  | code =>
    cases hw with
    | plain hslash => exact absurd (List.cons.inj h).1.symm hslash
    | short he' => exact absurd (List.cons.inj (List.cons.inj h).2).1.symm (hmarks _ he').1
    | code =>
      refine hexadecimal_inj ?_
      simpa [codePointEscape] using h

theorem Shown.newline_notMem (h : Shown c w) : '\n' ∉ w := by
  have hmarks : ∀ x ∈ shortEscapes, x.1 ≠ '\n' := by decide
  cases h with
  | plain _ hline => simpa using hline.symm
  | short he => simpa using (hmarks _ he).symm
  | code =>
    intro hmem
    have hdigits : '\n' ∈ Nat.toDigits 16 c.toNat := by simpa [codePointEscape] using hmem
    exact absurd (isAlphanum_of_mem_toDigits hdigits) (by decide)

theorem Shown.ne_nil (h : Shown c w) : w ≠ [] := by
  cases h <;> exact List.cons_ne_nil _ _

/-! ## Quoted strings -/

/-- Characters are known from how they are shown one after the other. -/
theorem flatMap_escaped_inj {s t : List Char}
    (h : s.flatMap (escaped '"') = t.flatMap (escaped '"')) : s = t := by
  induction s generalizing t with
  | nil =>
    cases t with
    | nil => rfl
    | cons d t => exact absurd (List.append_eq_nil_iff.mp h.symm).1 (shown d).ne_nil
  | cons c s ih =>
    cases t with
    | nil => exact absurd (List.append_eq_nil_iff.mp h).1 (shown c).ne_nil
    | cons d t =>
      obtain ⟨rfl, hrest⟩ := (shown c).append_inj (shown d) h
      rw [ih hrest]

/-- A string is known from how it is shown. -/
theorem quotedString_inj {s t : String} (h : quotedString s = quotedString t) : s = t := by
  have hlist := String.ofList_injective h
  have hinner := List.append_cancel_left (List.append_cancel_right hlist)
  exact String.toList_inj.mp (flatMap_escaped_inj hinner)

theorem newline_notMem_quotedString (s : String) : '\n' ∉ (quotedString s).toList := by
  rw [quotedString, String.toList_ofList]
  simp only [List.mem_append, List.mem_singleton, List.mem_flatMap, not_or]
  refine ⟨⟨by decide, ?_⟩, by decide⟩
  rintro ⟨c, -, hc⟩
  exact (shown c).newline_notMem hc

end OnePass.Text
