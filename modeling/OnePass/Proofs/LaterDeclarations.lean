import OnePass.Proofs.BalancedScopes
import OnePass.Proofs.FunctionRuns
import OnePass.Proofs.ParserCompleteness

/-!
# Later declarations leave earlier code alone

Main statement: where tokens are a program and are one with more tokens behind them too, what the
longer program is compiled to begins with what the shorter one is compiled to
(`compileTokens_append`).

A phrase is the same phrase in front of more tokens (`TopLevel.Derives.append`), so parsing makes
the declarations of the shorter program first (`parse_append`). The last function among them is
still current then; declarations of variables leave it alone, and the next function finishes it as
the end of the program does.
-/

namespace OnePass

/-! ## Phrases in front of more tokens -/

section

variable {α : Type} {t : Token} {D : α → Tokens → Tokens → Prop} {as : List α} {ts r : Tokens}
  (q : Tokens)

theorem Separated.append (h : Separated t D as ts r)
    (hd : ∀ {a ts r}, D a ts r → D a (ts ++ q) (r ++ q)) : Separated t D as (ts ++ q) (r ++ q) := by
  induction h with
  | one ha => exact .one (hd ha)
  | more ha _ ih => exact .more (hd ha) ih

theorem Repeated.append (h : Repeated D as ts r)
    (hd : ∀ a ∈ as, ∀ {ts r}, D a ts r → D a (ts ++ q) (r ++ q)) :
    Repeated D as (ts ++ q) (r ++ q) := by
  induction h with
  | none => exact .none
  | more ha _ ih =>
    exact .more (hd _ List.mem_cons_self ha) (ih fun a ha => hd a (List.mem_cons_of_mem _ ha))

theorem Phrase.Derives.append {p : Phrase} (h : p.Derives ts r) : p.Derives (ts ++ q) (r ++ q) := by
  induction h with
  | assign _ _ ih ih' => exact .assign ih ih'
  | step _ ih => exact .step ih
  | logic hlevel _ _ ih ih' => exact .logic hlevel ih ih'
  | negate _ ih => exact .negate ih
  | compare _ _ ih ih' => exact .compare ih ih'
  | arith hlevel _ _ ih ih' => exact .arith hlevel ih ih'
  | lead _ ih => exact .lead ih
  | paren _ ih => exact .paren ih
  | literal => exact .literal
  | var => exact .var
  | elem _ ih => exact .elem ih
  | callNone => exact .callNone
  | call _ ih => exact .call ih
  | tighter hlevel _ ih => exact .tighter hlevel ih
  | arg _ ih => exact .arg ih
  | moreArgs _ _ ih ih' => exact .moreArgs ih ih'

theorem Expr.Derives.append {level : Level} {e : Expr} (h : e.Derives level ts r) :
    e.Derives level (ts ++ q) (r ++ q) :=
  Phrase.Derives.append q h

theorem LengthDerives.append {n : Option (Located Int32)} (h : LengthDerives n ts r) :
    LengthDerives n (ts ++ q) (r ++ q) := by
  cases h with
  | none => exact .none
  | some => exact .some

theorem InitDerives.append {e : Option Expr} (h : InitDerives e ts r) :
    InitDerives e (ts ++ q) (r ++ q) := by
  cases h with
  | none => exact .none
  | colon he => exact .colon (Expr.Derives.append q he)
  | equals he => exact .equals (Expr.Derives.append q he)

theorem Declarator.Derives.append {d : Declarator} (h : d.Derives ts r) :
    d.Derives (ts ++ q) (r ++ q) := by
  cases h with
  | mk hlength hinit => exact .mk (hlength.append q) (hinit.append q)

theorem Declaration.Derives.append {d : Declaration} (h : d.Derives ts r) :
    d.Derives (ts ++ q) (r ++ q) := by
  cases h with
  | plain hitems => exact .plain (hitems.append q (Declarator.Derives.append q))
  | static hitems => exact .static (hitems.append q (Declarator.Derives.append q))

theorem Parameter.Derives.append {p : Parameter} (h : p.Derives ts r) :
    p.Derives (ts ++ q) (r ++ q) := by
  cases h with
  | scalar => exact .scalar
  | array => exact .array

theorem ParameterGroup.Derives.append {g : ParameterGroup} (h : g.Derives ts r) :
    g.Derives (ts ++ q) (r ++ q) := by
  cases h with
  | mk hitems => exact .mk (hitems.append q (Parameter.Derives.append q))

theorem ParametersDerive.append {groups : List ParameterGroup} (h : ParametersDerive groups ts r) :
    ParametersDerive groups (ts ++ q) (r ++ q) := by
  cases h with
  | none => exact .none
  | some hgroups => exact .some (hgroups.append q (ParameterGroup.Derives.append q))

theorem Range.Derives.append {g : Range} (h : g.Derives ts r) : g.Derives (ts ++ q) (r ++ q) := by
  cases h with
  | start he => exact .start (Expr.Derives.append q he)
  | bound he hlast => exact .bound (Expr.Derives.append q he) (Expr.Derives.append q hlast)
  | step he hlast hstep =>
    exact .step (Expr.Derives.append q he) (Expr.Derives.append q hlast)
      (Expr.Derives.append q hstep)

theorem Stmt.Derives.append {s : Stmt} (h : s.Derives ts r) : s.Derives (ts ++ q) (r ++ q) := by
  induction s using Stmt.induct generalizing ts r with
  -- Every rule of the grammar leaves the rest of the text alone.
  | block locals body ih =>
    rcases h with ⟨hlocals, hbody⟩
    exact .block (hlocals.append q fun _ _ => Declaration.Derives.append q) (hbody.append q ih)
  | choice c body ih =>
    rcases h with _ | _ | _ | ⟨hc, hbody⟩
    exact .choice (Expr.Derives.append q hc) (ih hbody)
  | choiceOr c body otherwise ih ih' =>
    rcases h with _ | _ | _ | _ | ⟨hc, hbody, ho⟩
    exact .choiceOr (Expr.Derives.append q hc) (ih hbody) (ih' ho)
  | loop c body ih =>
    rcases h with _ | _ | _ | _ | _ | ⟨hc, hbody⟩
    exact .loop (Expr.Derives.append q hc) (ih hbody)
  | count counter range body ih =>
    rcases h with _ | _ | _ | _ | _ | _ | ⟨hrange, hbody⟩
    exact .count (hrange.append q) (ih hbody)
  | expr e =>
    rcases h with _ | he
    exact .expr (Expr.Derives.append q he)
  | empty =>
    cases h
    exact .empty
  | ret word value =>
    rcases h with _ | _ | _ | _ | _ | _ | _ | _ | he
    · exact .retNone
    · exact .ret (Expr.Derives.append q he)
  | leave word =>
    cases h
    exact .leave

/-- **A declaration is the same in front of more tokens.** -/
theorem TopLevel.Derives.append {d : TopLevel} (h : d.Derives ts r) :
    d.Derives (ts ++ q) (r ++ q) := by
  cases h with
  | globals hd h => exact .globals hd (h.append q)
  | function hparams hbody => exact .function (hparams.append q) (hbody.append q)
  | typed hparams hbody => exact .typed (hparams.append q) (hbody.append q)

end

/-! ## Parsing -/

namespace Parser

/-- Declarations that the tokens begin with are parsed first. -/
theorem prefix_of_repeatWhile {items as : List TopLevel} {ts r : Tokens}
    (h : Repeated (fun d ts r => TopLevel.Derives d ts r ∧ d.Nearest) items ts r)
    (hr : ∀ span r', r ≠ ⟨.keyword .else, span⟩ :: r') {n : Nat} {s s' : State}
    (hs : s.cursor.rest = ts) (hn : ts.length ≤ n)
    (hsucceeds : Succeeds (repeatWhile Option.isSome topLevel n) s as s') : items <+: as := by
  induction h generalizing n s as with
  | none => exact List.nil_prefix
  | @more d items ts r r' hd hitems ih =>
    have hlt := hd.1.length_lt
    cases n with
    | zero => omega
    | succ n =>
      -- What begins an item is no `else`, so no choice in front of it goes on.
      have hrest : ∀ span r', r ≠ ⟨.keyword .else, span⟩ :: r' := by
        cases hitems with
        | none => exact hr
        | more hnext _ =>
          obtain ⟨t, ts', rfl, helse⟩ := hnext.1.begins
          rintro span r' heq
          obtain ⟨rfl, -⟩ := List.cons.inj heq
          exact helse rfl
      obtain ⟨_, s₁, h₁, hsucceeds⟩ := succeeds_bind.mp hsucceeds
      obtain ⟨rfl, rfl⟩ := succeeds_peek?.mp h₁
      split at hsucceeds
      · obtain ⟨a, s₂, h₂, hsucceeds⟩ := succeeds_bind.mp hsucceeds
        obtain ⟨as, s₃, h₃, hsucceeds⟩ := succeeds_bind.mp hsucceeds
        obtain ⟨rfl, rfl⟩ := succeeds_pure.mp hsucceeds
        obtain ⟨s₂', h₂', hs₂⟩ := accepts_topLevel hd.1 hd.2 hrest _ hs
        -- The parser takes what the grammar takes, so the two heads agree.
        obtain ⟨hok, rfl⟩ := Prod.mk.inj (h₂.symm.trans h₂')
        obtain rfl := Except.ok.inj hok
        exact List.cons_prefix_cons.mpr ⟨rfl, ih hr hs₂ (by omega) h₃⟩
      · rename_i hnone
        obtain ⟨t, ts', rfl, -⟩ := hd.1.begins
        rw [hs] at hnone
        exact absurd rfl hnone

end Parser

/-- **More tokens behind a program do not change its declarations.** -/
theorem parse_append {start : Span} {ts q : Tokens} {p p' : Program}
    (h : (parse start ts).result = .ok p) (h' : (parse start (ts ++ q)).result = .ok p')
    (hq : ∀ span r, q ≠ ⟨.keyword .else, span⟩ :: r) : p.items <+: p'.items := by
  obtain ⟨hitems, hnear⟩ := parse_eq_ok_iff.mp h
  have hall : Repeated (fun d ts r => TopLevel.Derives d ts r ∧ d.Nearest) p.items (ts ++ q) q :=
    repeated_and.mpr ⟨Repeated.append q hitems fun _ _ => TopLevel.Derives.append q, hnear⟩
  have hs : Parser.Succeeds Parser.program ⟨.ofList (ts ++ q), start, #[]⟩ p'
      (Parser.program.run.run ⟨.ofList (ts ++ q), start, #[]⟩).2 := Prod.ext h' rfl
  obtain ⟨_, s₁, h₁, hs⟩ := Parser.succeeds_bind.mp hs
  obtain ⟨items, s₂, h₂, hs⟩ := Parser.succeeds_bind.mp hs
  obtain ⟨rfl, -⟩ := Parser.succeeds_pure.mp hs
  obtain ⟨rfl, rfl⟩ := Parser.succeeds_left.mp h₁
  exact Parser.prefix_of_repeatWhile hall hq rfl (Nat.le_refl _) h₂

/-! ## Images -/

/-- The routines of the functions of a program: all but the one that stands in for an entry
function that is not there. -/
def Image.functions (i : Image) : List Routine :=
  if i.userEntry then i.routines.toList else i.routines.toList.dropLast

theorem Generator.functions_toImage (g : Generator) : g.toImage.functions = g.routines.toList := by
  obtain ⟨i, -, hi⟩ | ⟨-, hi⟩ := g.toImage_cases
  · rw [hi]
    rfl
  · simp [hi, Image.functions]

/-- Labels that are all marked are what they are, wherever the stream ends. -/
theorem Draft.labels_toCode_prefix {d d' : Draft} (hd : Draft.empty.Grows d)
    (h : d.labels.toList <+: d'.labels.toList) :
    d.toCode.labels.toList <+: d'.toCode.labels.toList := by
  have hmarked (m : Option UInt32) (hm : m ∈ d.labels.toList) :
      m.getD (.ofNat d.position) = m.getD (.ofNat d'.position) := by
    cases m with
    | some n => rfl
    | none => cases Draft.Grows.marked hd none (Array.mem_toList_iff.mp hm)
  unfold Draft.toCode
  rw [Array.toList_map, Array.toList_map, List.map_congr_left hmarked]
  exact h.map _

/-- What stands behind the beginning of a list is part of a longer one. -/
theorem prefix_concat_of_getElem? {α : Type} {xs ys : List α} {a : α} (h : xs <+: ys)
    (ha : ys[xs.length]? = some a) : xs ++ [a] <+: ys := by
  obtain ⟨more, rfl⟩ := h
  rw [List.getElem?_append_right (Nat.le_refl _), Nat.sub_self] at ha
  cases more with
  | nil => cases ha
  | cons b more =>
    obtain rfl := Option.some.inj ha
    exact ⟨more, List.append_assoc ..⟩

section

variable {g g₁ g' : Generator} {items : List TopLevel}

/-- **A function is finished in the same way by the end of a program and by declarations behind
it.** -/
theorem Program.finished_prefix (hi : g.scopes.isGlobal = true)
    (hlast : Gen.Makes Gen.finishFunction g ⟨⟩ g₁)
    (h : Gen.Makes ((items.flatMap TopLevel.constructs).forM Construct.compile) g ⟨⟩ g')
    {g₂ : Generator} (hlast' : Gen.Makes Gen.finishFunction g' ⟨⟩ g₂) :
    g₁.routines.toList <+: g₂.routines.toList := by
  have hrest := Gen.routines_finishFunction hlast'
  have hroutines := (Gen.makes_constructs_later h).routines.trans hrest
  cases hf : g.current with
  | none =>
    rw [Gen.makes_finishFunction_none hf hlast]
    exact hroutines
  | some f =>
    rw [Gen.makes_finishFunction hf hlast, Array.toList_push]
    refine prefix_concat_of_getElem? hroutines ?_
    rw [Array.length_toList, Array.getElem?_toList]
    obtain ⟨hf', hb, hr⟩ | hfinished := Program.current_or_finished hi hf h
    · rw [Gen.makes_finishFunction hf' hlast', hb, hr]
      exact Array.getElem?_push_size
    · exact getElem?_of_prefix hrest hfinished

end

/-- **Later declarations leave earlier code alone.** Where tokens are compiled, and are compiled
with more tokens behind them as well that do not begin with `else`: the fields of the shorter
program come first in the longer one, then others; so do its routines as they are, without one that
stands in for an entry function; and so does what runs before the program, up to the return at its
end. Its labels come first there too, if 32 bits are enough to number those of the longer program.
-/
theorem compileTokens_append {legacy : Bool} {ts q : Tokens} {c c' : Compilation}
    (h : compileTokens legacy ts = .ok c) (h' : compileTokens legacy (ts ++ q) = .ok c')
    (hq : ∀ t ∈ q.head?, t.value ≠ .keyword .else) :
    c.image.fields <+: c'.image.fields ∧
      c.image.functions <+: c'.image.functions ∧
      c.image.initializer.instructions.back? = some .ret ∧
      c.image.initializer.instructions.pop.toList <+:
        c'.image.initializer.instructions.pop.toList ∧
      (c'.image.initializer.labels.size ≤ UInt32.size →
        c.image.initializer.labels.toList <+: c'.image.initializer.labels.toList) := by
  obtain ⟨htree, g, hgenerate, hfinish⟩ := compileTokens_eq_ok h
  obtain ⟨htree', g', hgenerate', hfinish'⟩ := compileTokens_eq_ok h'
  have helse : ∀ span r, q ≠ ⟨.keyword .else, span⟩ :: r := by
    rintro span r rfl
    exact hq _ rfl rfl
  obtain ⟨items, hitems⟩ := parse_append htree htree' helse
  have hmakes := makes_of_generate hgenerate
  have hmakes' := makes_of_generate hgenerate'
  rw [Program.constructs, ← hitems, List.flatMap_append] at hmakes'
  -- The first program makes what the second one has made halfway.
  obtain ⟨g₀, hfirst, hrest⟩ := Gen.makes_forM_append.mp hmakes'
  obtain rfl := (hmakes.unique hfirst).2
  obtain ⟨g₁, hlast, himage⟩ := makes_of_finish g
  obtain ⟨g₂, hlast', himage'⟩ := makes_of_finish g'
  have hroutines :=
    Program.finished_prefix (Program.isGlobal_of_makes rfl hmakes) hlast hrest hlast'
  obtain ⟨-, hfields, hinit, -⟩ := Gen.keeps_finishFunction hlast
  obtain ⟨-, hfields', hinit', -⟩ := Gen.keeps_finishFunction hlast'
  have hlater := Gen.makes_constructs_later hrest
  have hclosed : Draft.empty.Extended g.initializer :=
    (Gen.makes_constructs_later hmakes).initializer
  rw [hfinish, hfinish', himage, himage', Generator.fields_toImage, Generator.fields_toImage,
    Generator.functions_toImage, Generator.functions_toImage, Generator.initializer_toImage,
    Generator.initializer_toImage]
  simp only [Generator.onDraft, hfields, hfields', hinit, hinit']
  -- Fields and routines are only added to, and so is the initializer.
  refine ⟨hlater.fields, hroutines, ?_, ?_, fun hsize => ?_⟩
  · exact Array.back?_push
  · simpa [Draft.toCode, Draft.emit] using hlater.initializer.longer.instructions
  -- Labels are numbered as long as there are not too many of them.
  · have hsize : g'.initializer.labels.size ≤ UInt32.size := by
      simpa [Draft.toCode, Draft.emit] using hsize
    have hgrows := hlater.initializer.grows hsize
    have hfirst := hclosed.grows (Nat.le_trans hgrows.labels_size hsize)
    exact Draft.labels_toCode_prefix (hfirst.emit _) hgrows.labels

/-- A variable and a function with a static variable of its own. -/
def keptTokens : Tokens :=
  [.keyword .int, .ident "n", .colon, .int 3, .semicolon,
    .keyword .int, .ident "get", .openParen, .closeParen, .openCurly,
    .keyword .static, .keyword .int, .ident "k", .colon, .ident "n", .semicolon,
    .keyword .return, .ident "k", .semicolon, .closeCurly].map fun t => ⟨t, .single .origin⟩

/-- Another variable, and an entry function. -/
def moreTokens : Tokens :=
  [.keyword .int, .ident "m", .colon, .int 4, .semicolon,
    .keyword .int, .ident "main", .openParen, .closeParen, .openCurly,
    .keyword .return, .ident "get", .openParen, .closeParen, .semicolon,
    .closeCurly].map fun t => ⟨t, .single .origin⟩

/-- The shorter program has no entry function, and the longer one does. -/
theorem compileTokens_append_entry :
    ∃ c c', compileTokens false keptTokens = .ok c ∧
      compileTokens false (keptTokens ++ moreTokens) = .ok c' ∧
      (c.image.userEntry = false ∧ c.image.fields.length = 2 ∧ c.image.functions.length = 1) ∧
      (c'.image.userEntry = true ∧ c'.image.fields.length = 3 ∧ c'.image.functions.length = 2 ∧
        c'.image.initializer.labels.size ≤ UInt32.size) ∧
      c.image.fields <+: c'.image.fields ∧ c.image.functions <+: c'.image.functions ∧
      c.image.initializer.instructions.back? = some .ret ∧
      c.image.initializer.instructions.pop.toList <+:
        c'.image.initializer.instructions.pop.toList ∧
      c.image.initializer.labels.toList <+: c'.image.initializer.labels.toList := by
  have h : (compileTokens false keptTokens).toOption.any (fun c => decide
      (c.image.userEntry = false ∧ c.image.fields.length = 2 ∧ c.image.functions.length = 1)) =
      true := by decide +kernel
  have h' : (compileTokens false (keptTokens ++ moreTokens)).toOption.any (fun c => decide
      (c.image.userEntry = true ∧ c.image.fields.length = 3 ∧ c.image.functions.length = 2 ∧
        c.image.initializer.labels.size ≤ UInt32.size)) = true := by decide +kernel
  cases hc : compileTokens false keptTokens with
  | error e => rw [hc] at h; cases h
  | ok c =>
    cases hc' : compileTokens false (keptTokens ++ moreTokens) with
    | error e => rw [hc'] at h'; cases h'
    | ok c' =>
      rw [hc] at h
      rw [hc'] at h'
      have hlonger := of_decide_eq_true h'
      obtain ⟨hfields, hfunctions, hret, hcode, hlabels⟩ :=
        compileTokens_append hc hc' fun t ht => by cases ht; decide
      exact ⟨c, c', rfl, rfl, of_decide_eq_true h, hlonger, hfields, hfunctions, hret, hcode,
        hlabels hlonger.2.2.2⟩

end OnePass
