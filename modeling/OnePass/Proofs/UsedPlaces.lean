import OnePass.Proofs.LexicalScoping

/-!
# Uses of variables keep to the places that are there

Main statement: if a property is true of all places that are visible at a point of the text, and of
all that are handed out up to the end of a statement there, then it is true of all places that the
statement uses (`Stmt.keepsTo`).

Nothing but the tree is needed for that. A variable becomes visible with the place that is handed
out for it, so the induction is on the text, from one point to the next.
-/

namespace OnePass

/-- The place of the variable that is used. -/
def Access.handle : Access → Handle
  | .load h => h
  | .store h => h

/-- All uses of variables are uses of places that have the property `P`. -/
def KeepsTo (P : Handle → Prop) (xs : Accesses) : Prop := ∀ a, some a ∈ xs → P a.handle

section

variable {P Q : Handle → Prop} {xs ys : Accesses}

theorem keepsTo_nil : KeepsTo P [] := nofun

theorem KeepsTo.append (h : KeepsTo P xs) (h' : KeepsTo P ys) : KeepsTo P (xs ++ ys) :=
  fun a ha => (List.mem_append.mp ha).elim (h a) (h' a)

theorem KeepsTo.cons {a : Access} (ha : P a.handle) (h : KeepsTo P xs) :
    KeepsTo P (some a :: xs) := by
  rintro b (- | ⟨-, hb⟩)
  · exact ha
  · exact h b hb

theorem KeepsTo.replicate (h : KeepsTo P xs) (n : Nat) :
    KeepsTo P (List.replicate n xs).flatten := by
  intro a ha
  obtain ⟨ys, hys, ha⟩ := List.mem_flatten.mp ha
  exact h a (List.eq_of_mem_replicate hys ▸ ha)

theorem KeepsTo.only (h : KeepsTo P xs) (home t : Target) : KeepsTo P (home.only t xs) := by
  unfold Target.only
  split
  · exact h
  · exact keepsTo_nil

end

/-! ## Expressions -/

/-- All visible variables have places that have the property `P`. -/
def Visible.Within (P : Handle → Prop) (vis : Visible) : Prop :=
  ∀ name v, vis.find? name = some v → P v.handle

section

variable {P : Handle → Prop} {vis : Visible} {legacy : Bool} (hvis : vis.Within P)
include hvis

theorem Visible.Within.load (n : Name) : KeepsTo P [vis.load n] := by
  intro a ha
  obtain ⟨v, hv, rfl⟩ := Option.map_eq_some_iff.mp (List.mem_singleton.mp ha).symm
  exact hvis n v hv

theorem Visible.Within.store (n : Name) : KeepsTo P [vis.store n] := by
  intro a ha
  obtain ⟨v, hv, rfl⟩ := Option.map_eq_some_iff.mp (List.mem_singleton.mp ha).symm
  exact hvis n v hv

theorem Visible.Within.copy (p e : Expr) : KeepsTo P (vis.copy p e) := by
  have hnone : KeepsTo P [none] := by simp [KeepsTo]
  unfold Visible.copy
  split
  · rename_i x y
    split
    · rename_i ha hb
      exact KeepsTo.replicate (.cons (hvis x _ ha) (.cons (hvis y _ hb) keepsTo_nil)) _
    · exact hnone
  · exact hnone

theorem Visible.Within.behind (p : Expr) : KeepsTo P (p.behind vis) := by
  cases p with
  | var n => exact hvis.store n
  | _ => exact keepsTo_nil

omit hvis in
theorem KeepsTo.before {xs : Accesses} (h : KeepsTo P xs) (p : Expr) :
    KeepsTo P (p.before xs) := by
  cases p with
  | elem n i => exact h
  | _ => exact keepsTo_nil

omit hvis in
theorem KeepsTo.assign {xs ys : Accesses} (hx : KeepsTo P xs) (hy : KeepsTo P ys)
    (op : AssignOp) : KeepsTo P (op.accesses legacy xs ys) := by
  cases op with
  | set => exact hy
  | add | mul => exact hy.append hx
  | sub | div =>
    show KeepsTo P (if legacy then ys ++ xs ++ ys else ys ++ xs)
    split
    · exact (hy.append hx).append hy
    · exact hy.append hx

/-- **An expression uses what is visible.** -/
theorem Expr.keepsTo (e : Expr) : KeepsTo P (e.accesses legacy vis) := by
  induction e using Expr.induct with
  | literal v => exact keepsTo_nil
  | var n => exact hvis.load n
  | elem n i ih => exact (hvis.load n).append ih
  | paren e ih => exact ih
  | call n args ih =>
    have harguments : KeepsTo P (accessesOf legacy vis args) := by
      induction args with
      | nil => exact keepsTo_nil
      | cons a as ihs => exact (ih a (.head _)).append (ihs fun b hb => ih b (.tail _ hb))
    have hinputs : KeepsTo P (inputs legacy vis args) := by
      induction args with
      | nil => exact keepsTo_nil
      | cons a as ihs =>
        exact (((ih a (.head _)).before a).append (hvis.behind a)).append
          (ihs (fun b hb => ih b (.tail _ hb))
            fun b hb => harguments b (List.mem_append_right _ hb))
    unfold Expr.accesses
    split
    · exact hinputs
    · exact harguments
  | lead op e ih => exact ih
  | arith l op r hl hr => exact hl.append hr
  | compare l op r hl hr => exact hl.append hr
  | negate word e ih => exact ih
  | logic op l r hl hr => exact hl.append hr
  | step p op ih => exact ((ih.before p).append ih).append (hvis.behind p)
  | assign p op v hp hv =>
    unfold Expr.accesses
    split
    · exact hvis.copy p v
    · exact ((hp.before p).append (hp.assign hv _)).append (hvis.behind p)

end

/-- A field, and not a place of a function. -/
def Handle.isField : Handle → Bool
  | .field _ => true
  | _ => false

/-- All uses of variables are uses of fields. -/
abbrev FieldsOnly (xs : Accesses) : Prop := KeepsTo (fun h => h.isField) xs

namespace Visible

/-- The visible variables that are fields, be they hidden by others or not. -/
def fields (vis : Visible) : Visible := ⟨vis.entries.filter fun e => e.2.handle.isField⟩

/-- If what a name stands for is a field, it stands for the same among the fields. -/
theorem find?_fields {vis : Visible} {n : Name} {v : Variable} (h : vis.find? n = some v)
    (hv : v.handle.isField) : vis.fields.find? n = some v := by
  obtain ⟨entries⟩ := vis
  induction entries with
  | nil => cases h
  | cons e entries ih =>
    rw [find?, List.lookup_cons] at h
    rw [find?, fields, List.filter_cons]
    split at h
    · rename_i hname
      obtain rfl := Option.some.inj h
      rw [if_pos hv, List.lookup_cons, hname]
    · rename_i hname
      split
      · rw [List.lookup_cons, hname]
        exact ih h
      · exact ih h

theorem within_fields (vis : Visible) : vis.fields.Within fun h => h.isField := by
  intro n v h
  obtain ⟨xs, ys, hentries, -⟩ := List.lookup_eq_some_iff.mp h
  have hmem : (n.value, v) ∈ vis.fields.entries :=
    hentries ▸ List.mem_append_right xs (.head ys)
  exact (List.mem_filter.mp hmem).2

end Visible

/-! ## Points of the text -/

namespace Visible

variable {P : Handle → Prop} {vis : Visible}

theorem Within.declare (hvis : vis.Within P) {n : Name} {v : Variable} (hv : P v.handle) :
    (vis.declare n v).Within P := by
  intro name w hw
  rw [find?, Visible.declare, List.lookup_cons] at hw
  split at hw
  · obtain rfl := Option.some.inj hw
    exact hv
  · exact hvis name w hw

theorem Within.parameters (hvis : vis.Within P) {k : Nat} {ps : List (Name × Slot)}
    (hps : ∀ i < ps.length, P (.argument (.ofNat (k + i)))) : (vis.parameters k ps).Within P := by
  induction ps generalizing vis k with
  | nil => exact hvis
  | cons p ps ih =>
    refine ih (hvis.declare (hps 0 (Nat.zero_lt_succ _))) fun i hi => ?_
    have hnext := hps (i + 1) (Nat.succ_lt_succ hi)
    rwa [Nat.add_comm i 1, ← Nat.add_assoc] at hnext

end Visible

/-- The property `P` is true of all fields and local slots that are handed out in front of a
point. -/
structure Point.Provides (P : Handle → Prop) (pt : Point) : Prop where
  fields : ∀ i < pt.fields, P (.field (.ofNat i))
  locals : ∀ i < pt.locals, P (.local (.ofNat i))

namespace Point

variable {P : Handle → Prop} {pt pt' : Point} {legacy : Bool} {t : Target}

theorem Provides.mono (h : pt'.Provides P) (hf : pt.fields ≤ pt'.fields)
    (hl : pt.locals ≤ pt'.locals) : pt.Provides P :=
  ⟨fun i hi => h.fields i (hi.trans_le hf), fun i hi => h.locals i (hi.trans_le hl)⟩

/-- The place of a variable is handed out for it. -/
theorem Provides.next {kept : Bool} {d : Declarator} (h : (pt.declare kept d).Provides P) :
    P (pt.next kept) := by
  cases kept with
  | true => exact h.fields pt.fields (Nat.lt_succ_self _)
  | false => exact h.locals pt.locals (Nat.lt_succ_self _)

/-- Declarations of one kind take as many fields, or as many local slots, as they declare
variables. -/
theorem declareAll_items (pt : Point) (kept : Bool) (items : List Declarator) :
    (pt.declareAll (items.map (kept, ·))).fields = pt.fields + kept.toNat * items.length ∧
      (pt.declareAll (items.map (kept, ·))).locals = pt.locals + (!kept).toNat * items.length := by
  induction items generalizing pt with
  | nil => exact ⟨rfl, rfl⟩
  | cons d items ih =>
    obtain ⟨hfields, hlocals⟩ := ih (pt.declare kept d)
    rw [List.length_cons, Nat.mul_succ, Nat.mul_succ]
    refine ⟨hfields.trans ?_, hlocals.trans ?_⟩
    · show pt.fields + kept.toNat + _ = _
      omega
    · show pt.locals + (!kept).toNat + _ = _
      omega

theorem le_declareAll (pt : Point) (ds : List (Bool × Declarator)) :
    pt.fields ≤ (pt.declareAll ds).fields ∧ pt.locals ≤ (pt.declareAll ds).locals := by
  induction ds generalizing pt with
  | nil => exact ⟨Nat.le_refl _, Nat.le_refl _⟩
  | cons d ds ih =>
    obtain ⟨hf, hl⟩ := ih (pt.declare d.1 d.2)
    exact ⟨(Nat.le_add_right _ _).trans hf, (Nat.le_add_right _ _).trans hl⟩

/-- Declarations at the beginning of a block take as many fields and local slots as they keep
variables. -/
theorem declareAll_counts (pt : Point) (ds : List Declaration) :
    (pt.declareAll (ds.flatMap Declaration.blockItems)).fields =
        pt.fields + (ds.flatMap Declaration.kept).length ∧
      (pt.declareAll (ds.flatMap Declaration.blockItems)).locals =
        pt.locals + (ds.flatMap Declaration.locals).length := by
  induction ds generalizing pt with
  | nil => exact ⟨rfl, rfl⟩
  | cons d ds ih =>
    have hall : pt.declareAll ((d :: ds).flatMap Declaration.blockItems) =
        (pt.declareAll d.blockItems).declareAll (ds.flatMap Declaration.blockItems) := by
      rw [List.flatMap_cons]
      exact List.foldl_append ..
    obtain ⟨hfields, hlocals⟩ := ih (pt.declareAll d.blockItems)
    obtain ⟨hfields₁, hlocals₁⟩ := pt.declareAll_items d.static.isSome d.items
    rw [hall, hfields, hlocals, List.flatMap_cons, List.flatMap_cons, List.length_append,
      List.length_append, Declaration.blockItems, hfields₁, hlocals₁]
    unfold Declaration.kept Declaration.locals Declaration.fields
    cases d.static.isSome <;> simp <;> omega

/-- What makes a variable ready uses its place and what is visible. -/
theorem keepsTo_declarator {vis : Visible} (hvis : vis.Within P) {handle : Handle} (hh : P handle)
    (d : Declarator) : KeepsTo P (d.accesses legacy vis handle) := by
  unfold Declarator.accesses
  split
  · refine .cons hh ?_
    cases d.init with
    | none => exact keepsTo_nil
    | some e => exact KeepsTo.replicate (.cons hh (e.keepsTo hvis)) _
  · cases d.init with
    | none => exact keepsTo_nil
    | some e => exact (e.keepsTo hvis).append (.cons hh keepsTo_nil)

theorem keepsTo_declared (legacy : Bool) (t : Target) {ds : List (Bool × Declarator)}
    (hvis : pt.visible.Within P)
    (h : (pt.declareAll ds).Provides P) :
    KeepsTo P (pt.declared legacy t ds) ∧ (pt.declareAll ds).visible.Within P := by
  induction ds generalizing pt with
  | nil => exact ⟨keepsTo_nil, hvis⟩
  | cons d ds ih =>
    obtain ⟨kept, d⟩ := d
    obtain ⟨hf, hl⟩ := (pt.declare kept d).le_declareAll ds
    have hnext := Provides.next (h.mono hf hl)
    have hinner : (pt.declare kept d).visible.Within P := hvis.declare hnext
    obtain ⟨hrest, hbehind⟩ := ih hinner h
    exact ⟨((keepsTo_declarator hinner hnext d).only _ _).append hrest, hbehind⟩

end Point

/-! ## Statements -/

/-- The text of a range uses what is visible. -/
theorem Range.keepsTo {P : Handle → Prop} {vis : Visible} (r : Range) (legacy : Bool)
    (hvis : vis.Within P) : KeepsTo P (r.last legacy vis) ∧ KeepsTo P (r.step legacy vis) := by
  obtain ⟨start, _ | ⟨last, _ | step⟩⟩ := r
  · exact ⟨keepsTo_nil, keepsTo_nil⟩
  · exact ⟨last.keepsTo hvis, keepsTo_nil⟩
  · exact ⟨last.keepsTo hvis, step.keepsTo hvis⟩

/-- **A statement uses what is visible and what it declares.** -/
theorem Stmt.keepsTo {P : Handle → Prop} (s : Stmt) (legacy : Bool) (t : Target) {pt : Point}
    (hvis : pt.visible.Within P) (h : (pt.skip s).Provides P) :
    KeepsTo P (s.accesses legacy t pt) := by
  induction s using Stmt.induct generalizing pt with
  | block ds body ih =>
    obtain ⟨hf, hl⟩ := pt.declareAll_counts ds
    -- Inside the block its declarations have taken places too.
    have hinside : ((pt.declareAll (ds.flatMap Declaration.blockItems)).advance
        (Stmt.keptOf body).length (Stmt.localsOf body).length).Provides P := by
      refine h.mono ?_ ?_
      · show _ + _ ≤ pt.fields + (Stmt.block ds body).kept.length
        rw [hf, Stmt.kept, List.length_append, Nat.add_assoc]
      · show _ + _ ≤ pt.locals + (Stmt.block ds body).locals.length
        rw [hl, Stmt.locals, List.length_append, Nat.add_assoc]
    obtain ⟨hdeclared, hvis'⟩ := Point.keepsTo_declared legacy t hvis
      (hinside.mono (Nat.le_add_right _ _) (Nat.le_add_right _ _))
    refine hdeclared.append ?_
    generalize pt.declareAll (ds.flatMap Declaration.blockItems) = pt' at hvis' hinside ⊢
    clear hf hl hdeclared h hvis
    -- The statements of the block one by one, each behind those in front of it.
    induction body generalizing pt' with
    | nil => exact keepsTo_nil
    | cons s ss ihs =>
      rw [Stmt.keptOf, Stmt.localsOf, List.length_append, List.length_append] at hinside
      refine (ih s (.head _) hvis' (hinside.mono ?_ ?_)).append
        (ihs (fun u hu => ih u (.tail _ hu)) (pt'.skip s) hvis' (hinside.mono ?_ ?_))
      · show pt'.fields + _ ≤ pt'.fields + _
        omega
      · show pt'.locals + _ ≤ pt'.locals + _
        omega
      · show pt'.fields + _ + _ ≤ pt'.fields + _
        omega
      · show pt'.locals + _ + _ ≤ pt'.locals + _
        omega
  | expr e => exact (e.keepsTo hvis).only _ _
  | empty semicolon => exact keepsTo_nil
  | choice c body ih => exact ((c.keepsTo hvis).only _ _).append (ih hvis h)
  -- Both branches take places, though they are not run both.
  | choiceOr c body otherwise ih ih' =>
    rw [Point.skip, Stmt.kept, Stmt.locals, List.length_append, List.length_append] at h
    have hvis' : (pt.skip body).visible.Within P := hvis
    refine (((c.keepsTo hvis).only _ _).append (ih hvis (h.mono ?_ ?_))).append
      (ih' hvis' (h.mono ?_ ?_))
    · show pt.fields + _ ≤ pt.fields + _
      omega
    · show pt.locals + _ ≤ pt.locals + _
      omega
    · show pt.fields + _ + _ ≤ pt.fields + _
      omega
    · show pt.locals + _ + _ ≤ pt.locals + _
      omega
  | loop c body ih => exact (ih hvis h).append ((c.keepsTo hvis).only _ _)
  | count counter range body ih =>
    -- The counter is the first of the slots that the loop takes.
    have hinside : ((pt.count counter).skip body).Provides P := by
      refine h.mono (Nat.le_refl _) ?_
      show pt.locals + 1 + _ ≤ pt.locals + (_ + 1)
      omega
    have hcounter : P (pt.next false) :=
      h.locals pt.locals (Nat.lt_add_of_pos_right (Nat.zero_lt_succ _))
    have hvis' : (pt.count counter).visible.Within P := hvis.declare hcounter
    obtain ⟨hlast, hstep⟩ := range.keepsTo legacy hvis'
    have huse (a : Access) (ha : a.handle = pt.next false) : KeepsTo P [some a] :=
      .cons (ha ▸ hcounter) keepsTo_nil
    have hstart : KeepsTo P (range.start.accesses legacy (pt.count counter).visible) :=
      range.start.keepsTo hvis'
    -- Behind the body the counter is loaded and stored for the step, and loaded for the test.
    have hend := ((huse (.load _) rfl).append hstep).append
      ((huse (.store _) rfl).append ((huse (.load _) rfl).append hlast))
    exact (((hstart.append (huse (.store _) rfl)).only _ _).append (ih hvis' hinside)).append
      (hend.only _ _)
  | ret word value =>
    cases value with
    | none => exact keepsTo_nil.only _ _
    | some e => exact (e.keepsTo hvis).only _ _
  | leave word => exact keepsTo_nil

/-! ## Programs -/

/-- In front of the body of a function its parameters are visible too. -/
theorem Point.within_enter {P : Handle → Prop} {pt : Point} (hvis : pt.visible.Within P)
    {header : Header} (h : ∀ i < header.parameters.length, P (.argument (.ofNat i))) :
    (pt.enter header).visible.Within P :=
  hvis.parameters fun i hi => by rw [Nat.zero_add]; exact h i hi

section

variable {P : Handle → Prop} {legacy : Bool} {pt : Point} {items : List TopLevel}

/-- Declarations outside all functions take fields only. -/
theorem Point.pass_counts (pt : Point) (item : TopLevel) :
    (pt.pass item).fields = pt.fields + item.kept.length ∧ (pt.pass item).locals = pt.locals := by
  cases item with
  | «variables» d =>
    obtain ⟨hf, hl⟩ := pt.declareAll_items true d.items
    rw [TopLevel.kept, Declaration.fields, List.length_map]
    exact ⟨hf.trans (by rw [Bool.toNat_true, Nat.one_mul]), hl.trans (by simp)⟩
  | function header body => exact ⟨rfl, rfl⟩

theorem Point.foldl_pass_counts (pt : Point) (items : List TopLevel) :
    (items.foldl Point.pass pt).fields = pt.fields + (items.flatMap TopLevel.kept).length ∧
      (items.foldl Point.pass pt).locals = pt.locals := by
  induction items generalizing pt with
  | nil => exact ⟨rfl, rfl⟩
  | cons item items ih =>
    obtain ⟨hf, hl⟩ := ih (pt.pass item)
    obtain ⟨hf₁, hl₁⟩ := pt.pass_counts item
    rw [List.foldl_cons, List.flatMap_cons, List.length_append, hf, hl, hf₁, hl₁, Nat.add_assoc]
    exact ⟨rfl, rfl⟩

theorem Point.Provides.of_foldl_pass (h : (items.foldl Point.pass pt).Provides P) :
    pt.Provides P := by
  obtain ⟨hf, hl⟩ := pt.foldl_pass_counts items
  exact h.mono (hf ▸ Nat.le_add_right _ _) hl.ge

/-- Outside all functions the fields are visible that have been handed out. -/
theorem Point.within_foldl_pass (hvis : pt.visible.Within P)
    (h : (items.foldl Point.pass pt).Provides P) :
    (items.foldl Point.pass pt).visible.Within P := by
  induction items generalizing pt with
  | nil => exact hvis
  | cons item items ih =>
    cases item with
    | «variables» d =>
      have hrest : (items.foldl Point.pass (pt.pass (.variables d))).Provides P := h
      exact ih (Point.keepsTo_declared false .initializer hvis hrest.of_foldl_pass).2 h
    | function header body =>
      have hvis' : (pt.pass (.function header body)).visible.Within P := hvis
      exact ih hvis' h

/-- **In front of a program fields are used**, and what is visible to the initialisers of static
variables. Whether those use the variables of their functions is left open here. -/
theorem Program.keepsTo_start (hvis : pt.visible.Within P)
    (h : (items.foldl Point.pass pt).Provides P) (hlocals : ∀ i, P (.local i))
    (harguments : ∀ i, P (.argument i)) : KeepsTo P (Program.startFrom legacy pt items) := by
  induction items generalizing pt with
  | nil => exact keepsTo_nil
  | cons item items ih =>
    have hrest : (items.foldl Point.pass (pt.pass item)).Provides P := h
    have hpass := hrest.of_foldl_pass
    cases item with
    | «variables» d =>
      obtain ⟨hdeclared, hbehind⟩ :=
        Point.keepsTo_declared legacy .initializer hvis hpass
      exact hdeclared.append (ih hbehind h)
    | function header body =>
      have hinside : ((pt.enter header).skip body).Provides P :=
        ⟨hpass.fields, fun _ _ => hlocals _⟩
      have hbody := body.keepsTo legacy .initializer
        (Point.within_enter hvis fun _ _ => harguments _) hinside
      have hvis' : (pt.pass (.function header body)).visible.Within P := hvis
      exact hbody.append (ih hvis' h)

end

end OnePass
