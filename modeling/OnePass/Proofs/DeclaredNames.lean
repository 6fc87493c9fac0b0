import Mathlib.Algebra.Order.BigOperators.Group.List
import OnePass.Proofs.LexemeStream
import OnePass.Proofs.ParserCompleteness
import OnePass.Proofs.ProgramCode

/-!
# Programs declare no more than is written

Every name that a program declares is a token of its own, and every token takes at least one
character. So 32 bits are enough to number what the program of a source below 2³² bytes declares
(`compile_tree_addressable`). Only its code may be too long for them: it is made for each element of
an array that is initialised. -/

namespace OnePass

/-! ## Lists of phrases -/

section

variable {α : Type} {D : α → Tokens → Tokens → Prop} {w : α → Nat} {as : List α} {t : Token}
  {ts r : Tokens}

theorem Repeated.sum_le (h : Repeated D as ts r)
    (hD : ∀ a ∈ as, ∀ {ts r}, D a ts r → w a + r.length ≤ ts.length) :
    (as.map w).sum + r.length ≤ ts.length := by
  induction h with
  | none => simp
  | more ha _ ih =>
    have hfirst := hD _ (.head _) ha
    have hrest := ih fun a h => hD a (.tail _ h)
    rw [List.map_cons, List.sum_cons]
    omega

theorem Separated.sum_le (h : Separated t D as ts r)
    (hD : ∀ {a ts r}, D a ts r → w a + r.length ≤ ts.length) :
    (as.map w).sum + r.length ≤ ts.length := by
  induction h with
  | one ha => simpa using hD ha
  | more ha _ ih =>
    have hfirst := hD ha
    rw [List.length_cons] at hfirst
    rw [List.map_cons, List.sum_cons]
    omega

end

/-! ## Declarations -/

/-- An expression takes its tokens off the front. -/
theorem Phrase.Derives.length_le {p : Phrase} {ts r : Tokens} (h : p.Derives ts r) :
    r.length ≤ ts.length := by
  induction h <;> simp_all only [List.length_cons] <;> omega

theorem Expr.Derives.length_le {level : Level} {e : Expr} {ts r : Tokens}
    (h : e.Derives level ts r) :
    r.length ≤ ts.length :=
  Phrase.Derives.length_le h

theorem LengthDerives.length_le {length : Option (Located Int32)} {ts r : Tokens}
    (h : LengthDerives length ts r) : r.length ≤ ts.length := by
  cases h with
  | none => exact Nat.le_refl _
  | some => simp only [List.length_cons]; omega

theorem InitDerives.length_le {init : Option Expr} {ts r : Tokens} (h : InitDerives init ts r) :
    r.length ≤ ts.length := by
  cases h with
  | none => exact Nat.le_refl _
  | colon h | equals h => exact h.length_le.trans (Nat.le_succ _)

/-- A declared variable has a name. -/
theorem Declarator.Derives.length_le {d : Declarator} {ts r : Tokens} (h : d.Derives ts r) :
    1 + r.length ≤ ts.length := by
  obtain ⟨hlength, hinit⟩ := h
  have hle := hinit.length_le.trans hlength.length_le
  rw [List.length_cons]
  omega

theorem Declaration.Derives.items_le {d : Declaration} {ts r : Tokens} (h : d.Derives ts r) :
    d.items.length + r.length + 2 ≤ ts.length := by
  cases h with
  | plain h | «static» h =>
    have hitems := h.sum_le (w := fun _ => 1) Declarator.Derives.length_le
    rw [List.map_const', List.sum_replicate_nat, Nat.mul_one, List.length_cons] at hitems
    simp only [List.length_cons]
    omega

/-- The variables of a declaration in a block are fields or local variables. -/
theorem Declaration.Derives.length_le {d : Declaration} {ts r : Tokens} (h : d.Derives ts r) :
    d.kept.length + d.locals.length + r.length ≤ ts.length := by
  have hitems := h.items_le
  unfold Declaration.kept Declaration.locals Declaration.fields
  split <;> simp only [List.length_map, List.length_nil] <;> omega

theorem Parameter.Derives.length_le {q : Parameter} {ts r : Tokens} (h : q.Derives ts r) :
    1 + r.length ≤ ts.length := by
  cases h <;> simp only [List.length_cons] <;> omega

theorem ParameterGroup.Derives.length_le {g : ParameterGroup} {ts r : Tokens} (h : g.Derives ts r) :
    g.slots.length + r.length ≤ ts.length := by
  obtain ⟨h⟩ := h
  have hitems := h.sum_le (w := fun _ => 1) Parameter.Derives.length_le
  rw [List.map_const', List.sum_replicate_nat, Nat.mul_one] at hitems
  simp only [ParameterGroup.slots, List.length_map, List.length_cons]
  omega

theorem ParametersDerive.length_le {params : List ParameterGroup} {ts r : Tokens}
    (h : ParametersDerive params ts r) :
    (params.flatMap ParameterGroup.slots).length + r.length ≤ ts.length := by
  rw [List.length_flatMap]
  cases h with
  | none => simp
  | some h => exact h.sum_le ParameterGroup.Derives.length_le

/-! ## Statements -/

theorem Range.Derives.length_le {range : Range} {ts r : Tokens} (h : range.Derives ts r) :
    r.length ≤ ts.length := by
  cases h with
  | start h => exact h.length_le
  | bound h h' =>
    have hle := h.length_le
    have hle' := h'.length_le
    rw [List.length_cons] at hle
    omega
  | step h h' h'' =>
    have hle := h.length_le
    have hle' := h'.length_le
    have hle'' := h''.length_le
    rw [List.length_cons] at hle hle'
    omega

/-- How many variables a statement declares. -/
def Stmt.declaredCount (s : Stmt) : Nat := s.kept.length + s.locals.length

theorem Stmt.declaredCount_block (ds : List Declaration) (body : List Stmt) :
    (Stmt.block ds body).declaredCount =
      (ds.map fun d => d.kept.length + d.locals.length).sum +
        (body.map Stmt.declaredCount).sum := by
  have hds : (ds.flatMap Declaration.kept).length + (ds.flatMap Declaration.locals).length =
      (ds.map fun d => d.kept.length + d.locals.length).sum := by
    induction ds with
    | nil => rfl
    | cons d ds ih =>
      simp only [List.flatMap_cons, List.length_append, List.map_cons, List.sum_cons]
      omega
  have hbody : (Stmt.keptOf body).length + (Stmt.localsOf body).length =
      (body.map Stmt.declaredCount).sum := by
    induction body with
    | nil => rfl
    | cons s ss ih =>
      simp only [Stmt.keptOf, Stmt.localsOf, List.length_append, List.map_cons, List.sum_cons,
        declaredCount]
      omega
  simp only [declaredCount, kept, locals, List.length_append]
  omega

namespace Stmt

/-- Each variable that a statement declares has a name. -/
theorem Derives.length_le {s : Stmt} {ts r : Tokens} (h : s.Derives ts r) :
    s.declaredCount + r.length + 1 ≤ ts.length := by
  induction s using Stmt.induct generalizing ts r with
  -- Every declared name is a token of its own, and one more token is always left over.
  | block ds body ih =>
    obtain ⟨hds, hbody⟩ := h
    have hdeclarations := hds.sum_le fun _ _ => Declaration.Derives.length_le
    have hstatements : (body.map Stmt.declaredCount).sum + (r.length + 1) ≤ _ :=
      hbody.sum_le fun s hs _ _ h => Nat.le_of_succ_le (ih s hs h)
    rw [Stmt.declaredCount_block, List.length_cons]
    omega
  | expr e =>
    cases h with
    | expr he =>
      have hvalue := he.length_le
      simp only [declaredCount, kept, locals, List.length_cons, List.length_nil] at *
      omega
  | empty semicolon =>
    cases h with
    | empty => simp [declaredCount, kept, locals]
  | choice c body ih =>
    cases h with
    | choice hc hbody =>
      have hcondition := hc.length_le
      have hrest := ih hbody
      simp only [declaredCount, kept, locals, List.length_cons] at *
      omega
  | choiceOr c body otherwise ih ih' =>
    cases h with
    | choiceOr hc hbody hother =>
      have hcondition := hc.length_le
      have hfirst := ih hbody
      have hsecond := ih' hother
      simp only [declaredCount, kept, locals, List.length_cons, List.length_append] at *
      omega
  | loop c body ih =>
    cases h with
    | loop hc hbody =>
      have hcondition := hc.length_le
      have hrest := ih hbody
      simp only [declaredCount, kept, locals, List.length_cons] at *
      omega
  | count counter range body ih =>
    cases h with
    | count hrange hbody =>
      have hcounter := hrange.length_le
      have hrest := ih hbody
      simp only [declaredCount, kept, locals, List.length_cons] at *
      omega
  | ret word value =>
    cases h with
    | retNone => simp [declaredCount, kept, locals]
    | ret he =>
      have hvalue := he.length_le
      simp only [declaredCount, kept, locals, List.length_cons, List.length_nil] at *
      omega
  | leave word =>
    cases h with
    | leave => simp [declaredCount, kept, locals]

end Stmt

/-! ## Programs -/

/-- How many names a declaration outside all functions declares. -/
def TopLevel.declaredCount : TopLevel → Nat
  | .variables d => d.fields.length
  | .function header body => header.parameterTypes.length + body.declaredCount + 1

theorem TopLevel.Derives.length_le {d : TopLevel} {ts r : Tokens} (h : d.Derives ts r) :
    d.declaredCount + r.length + 1 ≤ ts.length := by
  cases h with
  | globals _ h =>
    have hitems := h.items_le
    simp only [declaredCount, Declaration.fields, List.length_map]
    omega
  | function hparams hbody | typed hparams hbody =>
    have hfirst := hparams.length_le
    have hsecond := hbody.length_le
    simp only [declaredCount, Header.parameterTypes, Header.parameters, List.length_map,
      List.length_cons] at *
    omega

theorem TopLevel.length_kept_le (d : TopLevel) : d.kept.length ≤ d.declaredCount := by
  cases d with
  | «variables» d => exact Nat.le_refl _
  | function header body =>
    simp only [kept, declaredCount, Stmt.declaredCount]
    omega

namespace Program

/-- How many names a program declares. -/
def declaredCount (p : Program) : Nat := (p.items.map TopLevel.declaredCount).sum

theorem length_kept_le (p : Program) : p.kept.length ≤ p.declaredCount := by
  rw [kept, List.length_flatMap]
  exact List.sum_le_sum fun d _ => d.length_kept_le

theorem length_headers_le (p : Program) : p.headers.length ≤ p.declaredCount := by
  obtain ⟨items⟩ := p
  induction items with
  | nil => exact Nat.le_refl _
  | cons d items ih =>
    rw [declaredCount, List.map_cons, List.sum_cons]
    cases d with
    | «variables» d => exact ih.trans (Nat.le_add_left _ _)
    | function header body =>
      have hrest : (headers ⟨.function header body :: items⟩).length =
        (headers ⟨items⟩).length + 1 := rfl
      simp only [declaredCount, TopLevel.declaredCount] at ih ⊢
      omega

/-- Each name that a program declares is a token of its own, and there is another one in each
declaration. -/
theorem Derives.declaredCount_le {p : Program} {ts : Tokens} (h : p.Derives ts) :
    p.declaredCount + p.items.length ≤ ts.length := by
  have hsum := Repeated.sum_le (w := fun d => d.declaredCount + 1) h fun d _ _ _ hd => by
    have hle := hd.length_le
    omega
  have hadd : (p.items.map fun d => d.declaredCount + 1).sum =
    p.declaredCount + p.items.length := by
    rw [List.sum_map_add, List.map_const', List.sum_replicate_nat, Nat.mul_one]
    rfl
  rwa [hadd, List.length_nil, Nat.add_zero] at hsum

/-- A program with fewer tokens than 32 bits can number declares fewer names. -/
theorem Derives.declaredCount_lt {p : Program} {ts : Tokens} (h : p.Derives ts)
    (hsize : ts.length ≤ UInt32.size) : p.declaredCount < UInt32.size := by
  have hle := h.declaredCount_le
  cases hi : p.items with
  | nil =>
    rw [declaredCount, hi]
    decide
  | cons d items =>
    rw [hi, List.length_cons] at hle
    omega

/-- 32 bits are enough for all that a program declares if they are for its names. -/
theorem addressable_of_declaredCount {p : Program} (h : p.declaredCount < UInt32.size) :
    p.Addressable := by
  have hitem {header : Header} {body : Stmt} (hi : .function header body ∈ p.items) :
      header.parameterTypes.length + body.locals.length < UInt32.size := by
    have hle := List.le_sum_of_mem (List.mem_map_of_mem (f := TopLevel.declaredCount) hi)
    rw [declaredCount] at h
    simp only [TopLevel.declaredCount, Stmt.declaredCount] at hle
    omega
  refine ⟨(p.length_kept_le.trans_lt h).le, p.length_headers_le.trans_lt h, ?_, ?_⟩
  · intro header body hi
    have := hitem hi
    omega
  · intro header body hi
    have := hitem hi
    omega

end Program

/-! ## Sources -/

/-- A source has at most one token for each of its bytes. -/
theorem length_tokenize_le {source : List UInt8} {tokens : List (Located Token)}
    (h : tokenize (readings source) = .ok tokens) : tokens.length ≤ source.length + 1 := by
  have hlexemes := congrArg List.length (tokenize_eq_ok_iff.mp h)
  rw [List.length_map] at hlexemes
  rw [← hlexemes]
  exact (Lexer.length_run_le .fresh Reader.start _).trans (Line.length_readings_le source)

section

variable {name : String} {legacy : Bool} {source : List UInt8} {c : Compilation}
  (h : compile name legacy source = .ok c) (hsource : source.length < UInt32.size)
include h hsource

/-- **32 bits are enough for what a source declares.** -/
theorem compile_tree_addressable : c.tree.Addressable := by
  obtain ⟨tokens, htokens, hderives⟩ := derives_of_compile h
  have hlength := length_tokenize_le htokens
  exact Program.addressable_of_declaredCount (hderives.declaredCount_lt (by omega))

theorem compile_addressable (haddr : c.image.Addressable) : c.Addressable :=
  ⟨compile_tree_addressable h hsource, haddr⟩

end

end OnePass
