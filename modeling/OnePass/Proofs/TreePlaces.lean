import OnePass.Proofs.LaterDeclarations
import OnePass.Proofs.NodePlaces
import OnePass.Proofs.Safety
import OnePass.Proofs.TokenLayout
import OnePass.Proofs.TypeRules
import OnePass.Tree.Construct

/-!
# Trees follow their sources

Main statement: the leaves of the tree of an accepted program carry tokens of its source in their
order, each at most once; names, constants, words of types and operators all have leaves, but for
`and` and `or` and the marks in front of what a variable is set to where it is declared or counts in
a loop; and so each node lies within its parent and behind the children in front of it, in a source
that is too small for a line or a column to be counted twice (`compile_follows`).

The grammar says which tokens a phrase takes. `Gathers` says which of them are the leaves of its
node and that none is lost, rule by rule; phrases that follow one another gather tokens that follow
one another (`Gathers.append`). A mark is told by what stands in front of it, so each phrase also
has to know that it ends the program from where it begins on. -/

namespace OnePass

/-! ## Tokens and leaves -/

/-- Names, constants, words of types and operators, without `and` and `or`. A colon is one of them:
it marks what initialises a variable, as an equals sign does. -/
def Token.hasLeaf : Token → Bool
  | .ident _ | .int _ | .bool _ | .char _ | .str _ => true
  | .keyword .int | .keyword .bool | .keyword .char | .keyword .not => true
  | .assign _ | .step _ | .relation _ | .bound _ => true
  | .plus | .minus | .times | .divide | .percent | .question | .colon => true
  | _ => false

/-- The variables that a construct declares. -/
def Construct.declarators : Construct → List Declarator
  | .globals d | .locals d => d.items
  | _ => []

/-- A token that stands between a variable and what it is set to, where the variable is declared or
counts in a loop. The constructs are those of a program, the tokens are all of it. No two tokens
stand at one place, so the name of a variable has only one token behind it. -/
inductive Mark (cs : List Construct) (tokens : Tokens) (t : Located Token) : Prop where
  /-- behind the name of a declared variable, and its length if it is an array -/
  | declared {c d ts r} : c ∈ cs → d ∈ c.declarators → d.name.map .ident :: ts <:+ tokens →
      LengthDerives d.length ts (t :: r) → t.value = .colon ∨ t.value = .assign .set →
      Mark cs tokens t
  /-- behind the word `for` and the name of a counter -/
  | counting {counter range span r} : .openCount counter range ∈ cs →
      ⟨.keyword .for, span⟩ :: counter.map .ident :: t :: r <:+ tokens → t.value = .assign .set →
      Mark cs tokens t

/-- `Gathers mark ls ts r`: the leaves `ls` take the tokens `ts` up to `r`, in order, but for some
that are marks or of a kind that needs no leaf. -/
inductive Gathers (mark : Located Token → Prop) : Tokens → Tokens → Tokens → Prop where
  | done {r} : Gathers mark [] r r
  | leaf {t ls ts r} : Gathers mark ls ts r → Gathers mark (t :: ls) (t :: ts) r
  | skip {t ls ts r} : (t.value.hasLeaf → mark t) → Gathers mark ls ts r →
      Gathers mark ls (t :: ts) r

theorem suffix_of_cons {t : Located Token} {ts tokens : Tokens} (h : t :: ts <:+ tokens) :
    ts <:+ tokens :=
  (List.suffix_cons t ts).trans h

namespace Gathers

variable {mark : Located Token → Prop} {ls ls' ts r r' : Tokens}

theorem append (h : Gathers mark ls ts r) (h' : Gathers mark ls' r r') :
    Gathers mark (ls ++ ls') ts r' := by
  induction h with
  | done => exact h'
  | leaf _ ih => exact .leaf (ih h')
  | skip ht _ ih => exact .skip ht (ih h')

theorem suffix (h : Gathers mark ls ts r) : r <:+ ts := by
  induction h with
  | done => exact List.suffix_rfl
  | leaf _ ih | skip _ _ ih => exact ih.trans (List.suffix_cons _ _)

/-- Leaves take tokens in order, each at most once. -/
theorem sublist (h : Gathers mark ls ts []) : ls.Sublist ts := by
  generalize hr : ([] : Tokens) = r at h
  induction h with
  | done => exact hr ▸ .slnil
  | leaf _ ih => exact (ih hr).cons_cons _
  | skip _ _ ih => exact (ih hr).cons _

/-- What is left out is a mark or needs no leaf. -/
theorem complete (h : Gathers mark ls ts []) : ∀ t ∈ ts, t.value.hasLeaf → t ∈ ls ∨ mark t := by
  generalize hr : ([] : Tokens) = r at h
  induction h with
  | done => exact fun t ht => absurd ht (hr ▸ List.not_mem_nil)
  | leaf _ ih =>
    refine List.forall_mem_cons.mpr ⟨fun _ => .inl List.mem_cons_self, fun t ht hleaf => ?_⟩
    exact (ih hr t ht hleaf).imp_left (List.mem_cons_of_mem _)
  | skip hmark _ ih => exact List.forall_mem_cons.mpr ⟨fun hleaf => .inr (hmark hleaf), ih hr⟩

variable {t : Token} {span : Span}

/-- A token that needs no leaf, in front of others. -/
theorem bare (ht : t.hasLeaf = false) (h : Gathers mark ls ts r) :
    Gathers mark ls (⟨t, span⟩ :: ts) r :=
  .skip (fun hleaf => absurd (hleaf.symm.trans ht) (by decide)) h

/-- A token that needs no leaf, behind others. -/
theorem upTo (h : Gathers mark ls ts (⟨t, span⟩ :: r)) (ht : t.hasLeaf = false) :
    Gathers mark ls ts r := by
  simpa using h.append (.bare ht .done)

section

variable {α : Type} {D : α → Tokens → Tokens → Prop} {as : List α} {tokens : Tokens}
  {leaves : α → Tokens}

theorem repeated (h : Repeated D as ts r) (hts : ts <:+ tokens)
    (hd : ∀ a ∈ as, ∀ {ts r}, D a ts r → ts <:+ tokens → Gathers mark (leaves a) ts r) :
    Gathers mark (as.flatMap leaves) ts r := by
  induction h with
  | none => exact .done
  | more ha _ ih =>
    have hfirst := hd _ List.mem_cons_self ha hts
    rw [List.flatMap_cons]
    exact hfirst.append (ih (hfirst.suffix.trans hts) fun a ha => hd a (List.mem_cons_of_mem _ ha))

theorem separated (ht : t.hasLeaf = false) (h : Separated t D as ts r) (hts : ts <:+ tokens)
    (hd : ∀ a ∈ as, ∀ {ts r}, D a ts r → ts <:+ tokens → Gathers mark (leaves a) ts r) :
    Gathers mark (as.flatMap leaves) ts r := by
  induction h with
  | one ha =>
    rw [List.flatMap_singleton]
    exact hd _ List.mem_cons_self ha hts
  | more ha _ ih =>
    have hfirst := (hd _ List.mem_cons_self ha hts).upTo ht
    rw [List.flatMap_cons]
    exact hfirst.append (ih (hfirst.suffix.trans hts) fun a ha => hd a (List.mem_cons_of_mem _ ha))

end

end Gathers

/-! ## Expressions -/

variable {mark : Located Token → Prop} {ts r : Tokens}

/-- The leaves of a phrase. -/
def Phrase.leaves : Phrase → Tokens
  | .expr _ e => e.core.leaves
  | .args es => es.flatMap fun e => e.core.leaves

/-- Nothing in an expression is a mark. -/
theorem Phrase.Derives.gathers {p : Phrase} (h : p.Derives ts r) : Gathers mark p.leaves ts r := by
  induction h with
  | assign _ _ ihp ihv => simpa [leaves, Expr.core] using ihp.append (.leaf ihv)
  | step _ ihp => simpa [leaves, Expr.core] using ihp.append (.leaf .done)
  | @logic _ op _ _ _ _ _ _ _ _ _ ihl ihr =>
    have hop : (Token.keyword op.keyword).hasLeaf = false := by cases op <;> rfl
    simpa [leaves, Expr.core] using (ihl.upTo hop).append ihr
  | negate _ ih => simpa [leaves, Expr.core] using ih.leaf
  | compare _ _ ihl ihr => simpa [leaves, Expr.core] using ihl.append (.leaf ihr)
  | arith _ _ _ ihl ihr => simpa [leaves, Expr.core] using ihl.append (.leaf ihr)
  | lead _ ih => simpa [leaves, Expr.core] using ih.leaf
  | paren _ ih => simpa [leaves, Expr.core] using (ih.upTo rfl).bare rfl
  | literal => simpa [leaves, Expr.core] using Gathers.done.leaf
  | var => simpa [leaves, Expr.core] using Gathers.done.leaf
  | elem _ ih => simpa [leaves, Expr.core] using ((ih.upTo rfl).bare rfl).leaf
  | callNone =>
    simpa [leaves, Expr.core, Expr.coreOf] using ((Gathers.done.bare rfl).bare rfl).leaf
  | call _ ih =>
    simpa [leaves, Expr.core, Expr.coreOf_eq, List.flatMap_map] using
      ((ih.upTo rfl).bare rfl).leaf
  | tighter _ _ ih => exact ih
  | arg _ ih => simpa [leaves] using ih
  | moreArgs _ _ ih ih' => simpa [leaves] using (ih.upTo rfl).append ih'

namespace Expr

theorem Whole.gathers {e : Expr} (h : e.Whole ts r) : Gathers mark e.node.leaves ts r := by
  rw [leaves_node]
  exact Phrase.Derives.gathers h

theorem Simple.gathers {e : Expr} (h : e.Simple ts r) : Gathers mark e.simpleNode.leaves ts r := by
  rw [leaves_simpleNode]
  exact Phrase.Derives.gathers h

end Expr

/-! ## Declarations -/

variable {cs : List Construct} {tokens : Tokens}

@[simp]
theorem WordType.leaves_node (t : Located WordType) :
    (WordType.node t).leaves = [t.map WordType.token] := rfl

/-- The length of an array is a leaf, the brackets around it are not. -/
theorem LengthDerives.gathers {n : Option (Located Int32)} (h : LengthDerives n ts r) :
    Gathers mark (n.toList.map (Located.map .int)) ts r := by
  cases h with
  | none => exact .done
  | some => exact .bare rfl (.leaf (.bare rfl .done))

theorem Declarator.leaves_node (d : Declarator) : d.node.leaves = d.name.map .ident ::
    (d.length.toList.map (Located.map .int) ++ d.init.toList.flatMap fun e =>
      e.simpleNode.leaves) := by
  obtain ⟨name, length, init⟩ := d
  cases length <;> cases init <;> simp [node]

/-- What stands in front of an initial value is a mark. -/
theorem Declarator.Derives.gathers {c : Construct} {d : Declarator} (h : d.Derives ts r)
    (hc : c ∈ cs) (hd : d ∈ c.declarators) (hts : ts <:+ tokens) :
    Gathers (Mark cs tokens) d.node.leaves ts r := by
  rw [Declarator.leaves_node]
  cases h with
  | mk hlength hinit =>
    refine .leaf (hlength.gathers.append ?_)
    cases hinit with
    | none => exact .done
    | colon he =>
      have hmark : Mark cs tokens ⟨.colon, _⟩ := .declared hc hd hts hlength (.inl rfl)
      simpa using Gathers.skip (fun _ => hmark) he.gathers
    | equals he =>
      have hmark : Mark cs tokens ⟨.assign .set, _⟩ := .declared hc hd hts hlength (.inr rfl)
      simpa using Gathers.skip (fun _ => hmark) he.gathers

namespace Declaration

theorem leaves_parts (d : Declaration) : d.parts.flatMap Node.leaves =
    d.type.map WordType.token :: d.items.flatMap fun v => v.node.leaves := by
  simp [parts, List.flatMap_map]

theorem gathers_items {c : Construct} {items : List Declarator} {span : Span}
    (h : Separated .comma Declarator.Derives items ts (⟨.semicolon, span⟩ :: r)) (hc : c ∈ cs)
    (hitems : c.declarators = items) (hts : ts <:+ tokens) :
    Gathers (Mark cs tokens) (items.flatMap fun v => v.node.leaves) ts r :=
  (Gathers.separated rfl h hts fun _ hv _ _ hv' => hv'.gathers hc (hitems ▸ hv)).upTo rfl

theorem Derives.gathers_local {c : Construct} {d : Declaration} (h : d.Derives ts r) (hc : c ∈ cs)
    (hd : c.declarators = d.items) (hts : ts <:+ tokens) :
    Gathers (Mark cs tokens) d.localNode.leaves ts r := by
  rw [localNode, Node.leaves_inner, List.flatMap_append, leaves_parts]
  cases h with
  | plain h => exact .leaf (gathers_items h hc hd (suffix_of_cons hts))
  | static h => exact .leaf (.leaf (gathers_items h hc hd (suffix_of_cons (suffix_of_cons hts))))

theorem Derives.gathers_global {c : Construct} {d : Declaration} (h : d.Derives ts r) (hc : c ∈ cs)
    (hd : c.declarators = d.items) (hstatic : d.static = none) (hts : ts <:+ tokens) :
    Gathers (Mark cs tokens) d.globalNode.leaves ts r := by
  have hlocal := h.gathers_local hc hd hts
  rwa [localNode, hstatic] at hlocal

end Declaration

/-! ## Parameters -/

theorem Parameter.Derives.gathers {p : Parameter} (h : p.Derives ts r) :
    Gathers mark p.node.leaves ts r := by
  cases h with
  | scalar => exact .leaf .done
  | array => exact .leaf (.leaf (.bare rfl .done))

theorem ParameterGroup.Derives.gathers {g : ParameterGroup} (h : g.Derives ts r) :
    Gathers mark g.node.leaves ts r := by
  cases h with
  | @mk type items us _ h =>
    have hitems : Gathers mark (items.flatMap fun p => p.node.leaves) us r :=
      .separated rfl h List.suffix_rfl fun _ _ _ _ hp _ => hp.gathers
    simpa [node, List.flatMap_map] using hitems.leaf

theorem ParametersDerive.gathers {groups : List ParameterGroup} (h : ParametersDerive groups ts r) :
    Gathers mark (groups.flatMap fun g => g.node.leaves) ts r := by
  cases h with
  | none => exact .done
  | some h => exact .separated rfl h List.suffix_rfl fun _ _ _ _ hg _ => hg.gathers

/-! ## Statements -/

theorem Range.Derives.gathers {g : Range} (h : g.Derives ts r) :
    Gathers mark g.node.leaves ts r := by
  cases h with
  | start he => simpa [node] using he.gathers
  | bound he hlast => simpa [node] using (he.gathers.upTo rfl).append hlast.gathers
  | step he hlast hstep =>
    simpa [node] using (he.gathers.upTo rfl).append ((hlast.gathers.upTo rfl).append hstep.gathers)

namespace Stmt

theorem nodeOf_eq (ss : List Stmt) : nodeOf ss = ss.map node := by
  induction ss with
  | nil => rfl
  | cons s ss ih => rw [nodeOf, ih, List.map_cons]

/-- The parts of a statement gather the tokens between its words, in the order in which they are
read. -/
theorem Derives.gathers {s : Stmt} (h : s.Derives ts r) (hcs : s.constructs ⊆ cs)
    (hts : ts <:+ tokens) : Gathers (Mark cs tokens) s.node.leaves ts r := by
  induction s using Stmt.induct generalizing ts r with
  | block locals body ih =>
    rcases h with ⟨hlocals, hbody⟩
    rw [constructs_block] at hcs
    have hlocals' : Gathers (Mark cs tokens) (locals.flatMap fun d => d.localNode.leaves) _ _ :=
      .repeated hlocals (suffix_of_cons hts) fun d hd _ _ hderives hus => by
        have hc : Construct.locals d ∈ cs := hcs (by simp [hd])
        exact hderives.gathers_local hc rfl hus
    have hbody' : Gathers (Mark cs tokens) (body.flatMap fun s => s.node.leaves) _ _ :=
      .repeated hbody (hlocals'.suffix.trans (suffix_of_cons hts)) fun s hs _ _ hderives hus => by
        refine ih s hs hderives (fun c hc => hcs ?_) hus
        have hmem : c ∈ constructsOf body :=
          Parser.flatMap_constructs body ▸ List.mem_flatMap.mpr ⟨s, hs, hc⟩
        simp [hmem]
    simpa [node, nodeOf_eq, List.flatMap_map] using
      (hlocals'.append (hbody'.upTo rfl)).bare rfl
  | expr e =>
    rcases h with _ | ⟨he⟩
    simpa [node] using he.gathers.upTo rfl
  | empty semicolon =>
    rcases h with _ | _ | _
    exact .leaf .done
  | choice c body ih =>
    rcases h with _ | _ | _ | ⟨hc, hbody⟩
    rw [constructs_choice] at hcs
    have hc' : Gathers (Mark cs tokens) c.simpleNode.leaves _ _ := hc.gathers.upTo rfl
    have hrest := hc'.suffix.trans (suffix_of_cons hts)
    have hbody' := ih hbody (fun d hd => hcs (by simp [hd])) hrest
    simpa [node] using (hc'.append hbody').bare rfl
  | choiceOr c body s ih ih' =>
    rcases h with _ | _ | _ | _ | ⟨hc, hbody, h⟩
    rw [constructs_choiceOr] at hcs
    have hc' : Gathers (Mark cs tokens) c.simpleNode.leaves _ _ := hc.gathers.upTo rfl
    have hrest := hc'.suffix.trans (suffix_of_cons hts)
    have hbody' := (ih hbody (fun d hd => hcs (by simp [hd])) hrest).upTo rfl
    have hs' := ih' h (fun d hd => hcs (by simp [hd])) (hbody'.suffix.trans hrest)
    simpa [node] using (hc'.append (hbody'.append hs')).bare rfl
  | loop c body ih =>
    rcases h with _ | _ | _ | _ | _ | ⟨hc, hbody⟩
    rw [constructs_loop] at hcs
    have hc' : Gathers (Mark cs tokens) c.simpleNode.leaves _ _ := hc.gathers.upTo rfl
    have hrest := hc'.suffix.trans (suffix_of_cons hts)
    have hbody' := ih hbody (fun d hd => hcs (by simp [hd])) hrest
    simpa [node] using (hc'.append hbody').bare rfl
  | count counter range body ih =>
    rcases h with _ | _ | _ | _ | _ | _ | ⟨hrange, hbody⟩
    rw [constructs_count] at hcs
    -- the only mark of a statement, told by the word and the name in front of it
    have hcount : Construct.openCount counter range ∈ cs := hcs (by simp)
    have hrange' : Gathers (Mark cs tokens) range.node.leaves _ _ := hrange.gathers.upTo rfl
    have hrest := hrange'.suffix.trans (suffix_of_cons (suffix_of_cons (suffix_of_cons hts)))
    have hbody' := ih hbody (fun d hd => hcs (by simp [hd])) hrest
    have hmark : Mark cs tokens ⟨.assign .set, _⟩ := .counting hcount hts rfl
    simpa [node] using (((hrange'.append hbody').skip fun _ => hmark).leaf).bare rfl
  | ret word value =>
    cases h with
    | retNone => exact .bare rfl (.bare rfl .done)
    | ret he => simpa [node] using (he.gathers.upTo rfl).bare rfl
  | leave word =>
    rcases h with _ | _ | _ | _ | _ | _ | _ | _ | _ | _
    exact .leaf (.bare rfl .done)

end Stmt

/-! ## Programs -/

namespace TopLevel

/-- A function behind its name and the parenthesis that opens. -/
theorem gathers_function {params : List ParameterGroup} {body : Stmt} {span : Span} {r' : Tokens}
    (hparams : ParametersDerive params ts (⟨.closeParen, span⟩ :: r)) (hbody : body.Derives r r')
    (hcs : body.constructs ⊆ cs) (hts : ts <:+ tokens) :
    Gathers (Mark cs tokens) ((params.flatMap fun g => g.node.leaves) ++ body.node.leaves)
      ts r' := by
  have hparams' : Gathers (Mark cs tokens) (params.flatMap fun g => g.node.leaves) ts r :=
    hparams.gathers.upTo rfl
  exact hparams'.append (hbody.gathers hcs (hparams'.suffix.trans hts))

theorem Derives.gathers {d : TopLevel} (h : d.Derives ts r) (hcs : d.constructs ⊆ cs)
    (hts : ts <:+ tokens) : Gathers (Mark cs tokens) d.node.leaves ts r := by
  cases h with
  | globals hstatic h => exact h.gathers_global (hcs List.mem_cons_self) rfl hstatic hts
  | function hparams hbody =>
    have hrest := gathers_function hparams hbody (fun c hc => hcs (by simp [constructs, hc]))
      (suffix_of_cons (suffix_of_cons hts))
    simpa [node, Header.parts, List.flatMap_map] using (hrest.bare rfl).leaf
  | typed hparams hbody =>
    have hrest := gathers_function hparams hbody (fun c hc => hcs (by simp [constructs, hc]))
      (suffix_of_cons (suffix_of_cons (suffix_of_cons hts)))
    simpa [node, Header.parts, List.flatMap_map] using (hrest.bare rfl).leaf.leaf

end TopLevel

theorem Program.Derives.gathers {p : Program} (h : p.Derives ts) :
    Gathers (Mark p.constructs ts) p.node.leaves ts [] := by
  have hitems : Gathers (Mark p.constructs ts) (p.items.flatMap fun d => d.node.leaves) ts [] :=
    .repeated h List.suffix_rfl fun d hd _ _ hderives hus =>
      hderives.gathers (fun c hc => List.mem_flatMap.mpr ⟨d, hd, hc⟩) hus
  simpa [node, List.flatMap_map] using hitems

/-- The tree of a program follows the tokens of its source. -/
structure Program.Follows (p : Program) (tokens : Tokens) : Prop where
  /-- the leaves carry tokens of the source, in their order and each at most once -/
  sublist : p.node.leaves.Sublist tokens
  /-- names, constants, words of types and operators have leaves, but for marks -/
  complete : ∀ t ∈ tokens, t.value.hasLeaf → t ∈ p.node.leaves ∨ Mark p.constructs tokens t

/-- The nodes of a tree lie where their order says. -/
structure Node.InPlace (n : Node) : Prop where
  /-- the leaves stand one behind the other -/
  inOrder : InOrder n.leaves
  /-- no two of them stand at one place -/
  nodup : n.leaves.Nodup
  /-- nodes lie within their parents and behind the children in front of them -/
  nested : n.Nested

/-- The tokens of a source stand one behind the other. -/
theorem inOrder_of_tokenize {bytes : List UInt8} (hsize : bytes.length < 2 ^ 30 - 1)
    (h : tokenize (readings bytes) = .ok ts) : InOrder ts := by
  have hroom := room_delivery (readable_of_tokenize h) hsize
  have haccounts := (layout_of_tokenize hsize h).accounts hroom
  exact ⟨haccounts.ordered, haccounts.nonempty⟩

/-- **Trees follow their sources.** The leaves of the tree of an accepted program are tokens of its
source in order, with all names, constants, words of types and operators but marks. Its nodes lie
within one another and one behind the other, if the source is so small that no two of its characters
have the same numbers of line and column. -/
theorem compile_follows {name : String} {legacy : Bool} {source : List UInt8} {c : Compilation}
    (h : compile name legacy source = .ok c) :
    ∃ tokens, tokenize (readings source) = .ok tokens ∧ c.tree.Follows tokens ∧
      (source.length < 2 ^ 30 - 1 → c.tree.node.InPlace) := by
  obtain ⟨tokens, htokens, hderives⟩ := derives_of_compile h
  have hgathers := hderives.gathers
  refine ⟨tokens, htokens, ⟨hgathers.sublist, hgathers.complete⟩, fun hsize => ?_⟩
  have horder := (inOrder_of_tokenize hsize htokens).sublist hgathers.sublist
  exact ⟨horder, horder.nodup, Node.nested_of_inOrder horder⟩

/-- Marks behind an array, behind a variable and behind a counter. -/
def markedSource : List UInt8 :=
  ("int a[2] = 1, b : -3; " ++ "int main() for i = 1 to b by 4 do a[i] = i;").toUTF8.toList

/-- The leaves of its tree. -/
def markedLeaves : List Token :=
  [.keyword .int, .ident "a", .int 2, .int 1, .ident "b", .minus, .int 3,
    .keyword .int, .ident "main", .ident "i", .int 1, .ident "b", .int 4,
    .ident "a", .ident "i", .assign .set, .ident "i"]

theorem compile_follows_marked : ∃ c, compile "" false markedSource = .ok c ∧
    c.tree.node.leaves.map Located.value = markedLeaves ∧ c.tree.node.InPlace ∧
    ∃ tokens, tokenize (readings markedSource) = .ok tokens ∧ c.tree.Follows tokens := by
  obtain ⟨c, hc, -, hleaves⟩ := exists_compilation
    (q := fun c => decide (c.tree.node.leaves.map Located.value = markedLeaves))
    (show (compile "" false markedSource).toOption.any _ = true by decide +kernel)
  obtain ⟨tokens, htokens, hfollows, hplace⟩ := compile_follows hc
  exact ⟨c, hc, of_decide_eq_true hleaves, hplace (by decide +kernel), tokens, htokens, hfollows⟩

end OnePass
