import OnePass.Command.Build
import OnePass.Proofs.FileTrees

/-!
# A failure leaves the output alone

The command that compiles writes an image beside its place first. Whatever goes wrong, be it
before, during or behind that, what stands at the output path is what stood there, and no file
is left beside it; and if nothing goes wrong, the encoding of the image is at the output path
(`build_spares`). This is so on any file system whose operations are those of POSIX, whatever
operation fails, and however command lines are read.

The listing has to go to a place of its own, and so has the file beside the output. That the
path of the listing is another text is not enough, since paths of different texts may lead to
the same place; and a link beside the output, made by somebody else, may lead to the output
itself, which then becomes a link to itself (`build_damages`).
-/

namespace OnePass

namespace Build

/-! ## The places of a command line -/

/-- Where the image goes. -/
def outputPath (source : String) (given : List (String × String)) : String :=
  (given.lookup "output").getD (defaultOutput source)

/-- Where the image is written first, if the output path names a file. -/
def temporaryPath (output : String) : Option String :=
  (Path.fileName? output.toList).map (temporary output)

/-- The file that the listing goes to, if it goes to one. -/
def listingPath (given : List (String × String)) : Option String :=
  (given.lookup "listing").filter (· ≠ "-")

variable {Place : Type}

/-- The listing goes neither to the file at the output path nor to the place beside it. -/
def ListingApart (v : FileView Place) (output : String) (given : List (String × String)) : Prop :=
  ∀ path ∈ listingPath given, v.Clear path output ∧
    ∀ l ∈ v.leads path, ∀ temp ∈ temporaryPath output, v.names temp ≠ some l

instance [DecidableEq Place] (v : FileView Place) [DecidableRel v.shares] (output : String)
    (given : List (String × String)) : Decidable (ListingApart v output given) :=
  inferInstanceAs (Decidable (∀ path ∈ listingPath given, _ ∧ ∀ l ∈ v.leads path,
    ∀ temp ∈ temporaryPath output, ¬ _))

/-- The path beside the output does not lead to the file at the output path. Without links and
without second names of files it never does. -/
def TemporaryApart (v : FileView Place) (output : String) : Prop :=
  ∀ temp ∈ temporaryPath output, v.Clear temp output

instance [DecidableEq Place] (v : FileView Place) [DecidableRel v.shares] (output : String) :
    Decidable (TemporaryApart v output) :=
  inferInstanceAs (Decidable (∀ temp ∈ temporaryPath output, _))

/-- What a failure may have changed: the listing, and a file beside the output that is gone. -/
structure Spared (v v' : FileView Place) (out : String) (given : List (String × String)) :
    Prop where
  /-- what stands at the output path, or where it leads, is what stood there -/
  output : ∀ l, l ∈ v.names out ∨ l ∈ v.leads out → v'.entry l = v.entry l
  /-- no file is left beside it -/
  temporary : ∀ temp ∈ temporaryPath out, ∀ l ∈ v.names temp,
    v.entry l = none → v'.entry l = none
  /-- all other places are as they were -/
  elsewhere : ∀ l, (∀ path ∈ listingPath given, ∀ l₁ ∈ v.leads path, v.Apart l₁ l) →
    (∀ temp ∈ temporaryPath out, v.names temp ≠ some l ∧ ∀ l₁ ∈ v.leads temp, v.Apart l₁ l) →
    v'.entry l = v.entry l

/-- Bytes are at the output path. If somebody else has put a link beside it that leads to another
file, they are in that file, and the link is at the output path. -/
structure Delivered (v v' : FileView Place) (output : String) (bytes : List UInt8) : Prop where
  /-- the usual case -/
  file : ∃ temp ∈ temporaryPath output, ∃ o ∈ v.names output,
    v.Unlinked temp → v'.entry o = some (.file bytes)
  /-- the case of a link -/
  link : ∃ temp ∈ temporaryPath output, ∃ o ∈ v.names output, v.Clear temp output →
    ∀ l ∈ v.names temp, ∀ target, v.entry l = some (.link target) →
      v'.entry o = some (.link target) ∧ ∃ l₁ ∈ v.leads temp, v'.entry l₁ = some (.file bytes)

/-- What the command may do to what is seen of a file system, by what it is asked for and how it
ends. -/
structure Spares (v v' : FileView Place) (outcome : Option Outcome) (request : Request) : Prop where
  /-- where there is nothing to compile, or no end, nothing is changed -/
  unchanged : outcome = none ∨ (∀ source given flags, request ≠ .run source given flags) → v' = v
  /-- a failure spares what it does not have to write -/
  failed : ∀ source given flags, request = .run source given flags → ∀ ended ∈ outcome,
    ended.status ≠ 0 → ListingApart v (outputPath source given) given →
    TemporaryApart v (outputPath source given) → Spared v v' (outputPath source given) given
  /-- and otherwise the image of the source is there -/
  delivered : ∀ source given flags, request = .run source given flags → ∀ ended ∈ outcome,
    ended.status = 0 → ∃ bytes c, v.content source = some (.file bytes) ∧
      compile source (flags.contains "legacy-compound") bytes = .ok c ∧
      Delivered v v' (outputPath source given) c.image.encode

theorem Spared.refl {v : FileView Place} {output : String} {given : List (String × String)} :
    Spared v v output given :=
  ⟨fun _ _ => rfl, fun _ _ _ _ h => h, fun _ _ _ => rfl⟩

/-- A command that changes nothing has spared all, unless it ends well. -/
theorem Spares.of_eq {v v' : FileView Place} {outcome : Option Outcome} {request : Request}
    (hview : v' = v) (hfailed : ∀ ended ∈ outcome, ended.status ≠ 0 ∨
      ∀ source given flags, request ≠ .run source given flags) : Spares v v' outcome request where
  unchanged _ := hview
  failed _ _ _ _ _ _ _ _ _ := hview ▸ .refl
  delivered source given flags hrequest ended hended hstatus :=
    (hfailed ended hended).elim (absurd hstatus) fun h => absurd hrequest (h source given flags)

/-- A command that fails without any change has spared all. -/
theorem Spares.of_failed {v v' : FileView Place} {output errors : String} {request : Request}
    (hview : v' = v) : Spares v v' (some (.exited 1 output errors)) request :=
  .of_eq hview fun _ hended => .inl (by cases hended; exact Nat.one_ne_zero)

/-! ## What the parts of the command do -/

/-- A file may have been written where a path leads. -/
def MayWrite (v v' : FileView Place) (path : Option String) : Prop :=
  v' = v ∨ ∃ p ∈ path, ∃ l ∈ v.leads p, ∃ held, v.Written v' l held

/-- An image was not written: what there is of it has been cleared. -/
def Abandoned (v v' : FileView Place) (temp : Option String) : Prop :=
  v' = v ∨ ∃ w, MayWrite v w temp ∧ ∃ p ∈ temp, w.Cleared v' p

section

variable {v v' : FileView Place} {path : Option String}

theorem MayWrite.names_eq (h : MayWrite v v' path) : v'.names = v.names := by
  obtain rfl | ⟨_, _, _, _, _, h⟩ := h
  · rfl
  · exact h.names_eq

theorem MayWrite.leads_eq (h : MayWrite v v' path) : v'.leads = v.leads := by
  obtain rfl | ⟨_, _, _, _, _, h⟩ := h
  · rfl
  · exact h.leads_eq

theorem MayWrite.apart (h : MayWrite v v' path) {l l' : Place} (hapart : v.Apart l l') :
    v'.Apart l l' := by
  obtain rfl | ⟨_, _, _, _, _, h⟩ := h
  · exact hapart
  · exact h.apart hapart

theorem MayWrite.clear (h : MayWrite v v' path) {p q : String} (hclear : v.Clear p q) :
    v'.Clear p q := by
  obtain rfl | ⟨_, _, _, _, _, h⟩ := h
  · exact hclear
  · exact h.clear hclear

/-- What is apart from where the path leads stays as it was. -/
theorem MayWrite.entry_apart (h : MayWrite v v' path) {o : Place}
    (ho : ∀ p ∈ path, ∀ l ∈ v.leads p, v.Apart l o) : v'.entry o = v.entry o := by
  obtain rfl | ⟨p, hp, l, hl, _, h⟩ := h
  · rfl
  · exact h.entry_apart o (ho p hp l hl)

end

variable {σ : Type} [FileSystem (StateM σ)] [FileTree σ Place] {s t : σ} {v' : FileView Place}

open FileTree (view)

/-- Behind a path that is written to, links stay and no others come. -/
theorem MayWrite.link_iff {path : Option String} (h : MayWrite (view s) v' path) (l : Place)
    (target : String) :
    v'.entry l = some (.link target) ↔ (view s).entry l = some (.link target) := by
  obtain rfl | ⟨p, hp, o, ho, held, h⟩ := h
  · rfl
  · by_cases hsame : l = o ∨ (view s).shares o l
    · rw [h.entry_same l hsame]
      refine ⟨nofun, fun hlink => ?_⟩
      rcases hsame with rfl | hshares
      · exact absurd hlink (FileTree.entry_of_leads ho target)
      · obtain ⟨bytes, hbytes⟩ := FileTree.entry_of_shares hshares
        rw [hbytes] at hlink
        cases hlink
    · push Not at hsame
      rw [h.entry_apart l ⟨hsame.1.symm, hsame.2⟩]

/-- Where nothing stood, something stands behind the writing only if the path leads there. -/
theorem MayWrite.entry_none {path : Option String} (h : MayWrite (view s) v' path) {l : Place}
    (hl : ∀ p ∈ path, (view s).leads p ≠ some l) (hnone : (view s).entry l = none) :
    v'.entry l = none := by
  rw [← hnone]
  refine h.entry_apart fun p hp o ho => ⟨?_, fun hshares => ?_⟩
  · rintro rfl
    exact hl p hp ho
  · obtain ⟨bytes, hbytes⟩ := FileTree.entry_of_shares hshares
    rw [hbytes] at hnone
    cases hnone

theorem fileName?_temporary {output temp : String} (htemp : temp ∈ temporaryPath output) :
    ∃ name, Path.fileName? output.toList = some name ∧
      Path.fileName? temp.toList = some (name ++ ".partial".toList) := by
  obtain ⟨name, hname, rfl⟩ := Option.map_eq_some_iff.1 htemp
  refine ⟨name, hname, ?_⟩
  rw [temporary, String.toList_ofList]
  exact Path.fileName?_withFileName
    ((Path.isName_of_fileName? hname).append (by decide) (by decide))

/-- The place beside the output is not that of the output. -/
theorem names_temporary_ne {output temp : String} {l o : Place}
    (htemp : temp ∈ temporaryPath output) (hl : l ∈ (view s).names temp)
    (hclear : (view s).Clear temp output)
    (ho : o ∈ (view s).names output ∨ o ∈ (view s).leads output) : o ≠ l := by
  rintro rfl
  rcases ho with ho | ho
  · -- paths that name one place end in the same name, and these two do not
    obtain ⟨name, hname, hbeside⟩ := fileName?_temporary htemp
    have hsame := (FileTree.name_of_names hbeside hl).symm.trans (FileTree.name_of_names hname ho)
    simp at hsame
  · -- what the output leads to is no link, so that the path beside it leads there as well
    have hleads := FileTree.leads_of_names hl (FileTree.entry_of_leads ho)
    exact ((hclear o hleads).2 o ho).1 rfl

section

variable {out : String}

/-- What is at the output path stays if an image is abandoned. -/
theorem Abandoned.output (h : Abandoned (view s) v' (temporaryPath out))
    (hapart : TemporaryApart (view s) out) {o : Place}
    (ho : o ∈ (view s).names out ∨ o ∈ (view s).leads out) :
    v'.entry o = (view s).entry o := by
  obtain rfl | ⟨w, hwrite, temp, htemp, hcleared⟩ := h
  · rfl
  have hclear := hapart temp htemp
  have hw : w.entry o = (view s).entry o :=
    hwrite.entry_apart fun p hp l hl =>
      ho.elim ((hapart p hp l hl).1 o) ((hapart p hp l hl).2 o)
  obtain ⟨rfl, -⟩ | ⟨l, hl, -, hother⟩ := hcleared
  · exact hw
  · rw [hwrite.names_eq] at hl
    rw [hother o (names_temporary_ne htemp hl hclear ho), hw]

/-- No file is left beside the output of an image that is abandoned. -/
theorem Abandoned.temporary (h : Abandoned (view s) v' (temporaryPath out)) {temp : String}
    (htemp : temp ∈ temporaryPath out) {l : Place} (hl : l ∈ (view s).names temp)
    (hnone : (view s).entry l = none) : v'.entry l = none := by
  obtain rfl | ⟨w, hwrite, temp', htemp', hcleared⟩ := h
  · exact hnone
  cases Option.some.inj (htemp.symm.trans htemp')
  obtain ⟨rfl, hstays⟩ | ⟨l', hl', hgone, hother⟩ := hcleared
  · -- a file that was made could have been taken away
    obtain rfl | ⟨p, hp, o, ho, held, hwritten⟩ := hwrite
    · exact hnone
    cases Option.some.inj (htemp.symm.trans hp)
    have hleads := FileTree.leads_of_names hl (by simp [hnone])
    cases Option.some.inj (hleads.symm.trans ho)
    rw [hwritten.names_eq] at hstays
    exact absurd (hwritten.frees_new hnone) (hstays l hl)
  · rw [hwrite.names_eq] at hl'
    cases Option.some.inj (hl.symm.trans hl')
    exact hgone

/-- All other places stay as they were. -/
theorem Abandoned.elsewhere (h : Abandoned (view s) v' (temporaryPath out)) {o : Place}
    (ho : ∀ temp ∈ temporaryPath out, (view s).names temp ≠ some o ∧
      ∀ l ∈ (view s).leads temp, (view s).Apart l o) : v'.entry o = (view s).entry o := by
  obtain rfl | ⟨w, hwrite, temp, htemp, hcleared⟩ := h
  · rfl
  have hw : w.entry o = (view s).entry o := hwrite.entry_apart fun p hp => (ho p hp).2
  obtain ⟨rfl, -⟩ | ⟨l, hl, -, hother⟩ := hcleared
  · exact hw
  · rw [hwrite.names_eq] at hl
    have hne : o ≠ l := fun he => (ho temp htemp).1 (he ▸ hl)
    rw [hother o hne, hw]

/-- A listing that goes to a place of its own and an image that is abandoned behind it spare
all else. -/
theorem Spared.of_abandoned {u : σ} {given : List (String × String)}
    (hlisted : MayWrite (view s) (view u) (listingPath given))
    (h : Abandoned (view u) v' (temporaryPath out))
    (hlisting : ListingApart (view s) out given) (htemporary : TemporaryApart (view s) out) :
    Spared (view s) v' out given where
  output o ho := by
    have hapart : TemporaryApart (view u) out :=
      fun temp htemp => hlisted.clear (htemporary temp htemp)
    rw [h.output hapart (by rwa [hlisted.names_eq, hlisted.leads_eq])]
    exact hlisted.entry_apart fun p hp l hl =>
      ho.elim (((hlisting p hp).1 l hl).1 o) (((hlisting p hp).1 l hl).2 o)
  temporary temp htemp l hl hnone := by
    refine h.temporary htemp (by rwa [hlisted.names_eq]) ?_
    exact hlisted.entry_none (fun p hp hleads => (hlisting p hp).2 l hleads temp htemp hl) hnone
  elsewhere o hothers hbeside := by
    rw [h.elsewhere (o := o) fun temp htemp => ?_]
    · exact hlisted.entry_apart hothers
    · rw [hlisted.names_eq, hlisted.leads_eq]
      exact ⟨(hbeside temp htemp).1, fun l hl => hlisted.apart ((hbeside temp htemp).2 l hl)⟩

end

theorem of_run_bind {σ α β : Type} {a : StateM σ α} {k : α → StateM σ β} {s t : σ} {y : β}
    (h : (a >>= k).run s = (y, t)) : ∃ x u, a.run s = (x, u) ∧ (k x).run u = (y, t) :=
  ⟨_, _, rfl, h⟩

theorem of_run_map {σ α β : Type} {a : StateM σ α} {f : α → β} {s t : σ} {y : β}
    (h : (f <$> a).run s = (y, t)) : ∃ x, a.run s = (x, t) ∧ f x = y := by
  cases h
  exact ⟨_, rfl, rfl⟩

/-- A listing changes only the file it goes to. -/
theorem view_writeListing {given : List (String × String)} {listing : String}
    {r : Except (String × FileError) String}
    (h : (writeListing (given.lookup "listing") listing : StateM σ _).run s = (r, t)) :
    MayWrite (view s) (view t) (listingPath given) := by
  unfold writeListing at h
  unfold listingPath
  cases hrequest : given.lookup "listing" with
  | none =>
    rw [hrequest] at h
    cases h
    exact .inl rfl
  | some path =>
    rw [hrequest] at h
    dsimp only at h
    split_ifs at h with hdash
    · obtain ⟨printed, u, hprinted, h⟩ := of_run_bind h
      cases h
      exact .inl (FileTree.print_view hprinted)
    · obtain ⟨made, u, hmade, h⟩ := of_run_bind h
      cases h
      have hpath : path ∈ (some path).filter (· ≠ "-") := by simp [hdash]
      cases made with
      | ok _ =>
        obtain ⟨l, hl, hwritten⟩ := FileTree.create_ok hmade
        exact .inr ⟨path, hpath, l, hl, _, hwritten⟩
      | error e =>
        cases e with
        | opening e => exact .inl (FileTree.create_opening hmade)
        | writing e => exact .inr ⟨path, hpath, FileTree.create_writing hmade⟩

/-- Behind a failure, what there is of an image is cleared. -/
theorem view_abandon {temp : String} {e : FileError} {r : Except (List String) Unit}
    (h : (writeImage.abandon temp e : StateM σ _).run s = (r, t)) :
    (view s).Cleared (view t) temp ∧ ∃ causes, r = .error causes := by
  obtain ⟨_, u, hremove, h⟩ := of_run_bind h
  cases h
  exact ⟨FileTree.remove_view hremove, _, rfl⟩

/-- A whole file that is moved from beside the output is at the output path. -/
theorem Delivered.of_moved {u : σ} {output temp : String} {bytes : List UInt8} {l : Place}
    (htemp : temp ∈ temporaryPath output) (hl : l ∈ (view s).leads temp)
    (hmade : (view s).Written (view u) l bytes)
    (hmoved : (FileSystem.rename temp output : StateM σ _).run u = (.ok (), t)) :
    Delivered (view s) (view t) output bytes := by
  obtain ⟨p, hp, o, ho, e, he, hplace, hother⟩ := FileTree.rename_ok hmoved
  rw [hmade.names_eq] at hp ho
  have hmay : MayWrite (view s) (view u) (temporaryPath output) :=
    .inr ⟨temp, htemp, l, hl, bytes, hmade⟩
  refine ⟨⟨temp, htemp, o, ho, fun hplain => ?_⟩,
    ⟨temp, htemp, o, ho, fun hclear p' hp' target htarget => ?_⟩⟩
  · cases Option.some.inj (hl.symm.trans (FileTree.leads_of_names hp (hplain p hp)))
    rw [hplace, ← he, hmade.entry_same l (.inl rfl)]
  · cases Option.some.inj (hp.symm.trans hp')
    have hlink := (hmay.link_iff p target).2 htarget
    rw [hlink] at he
    cases he
    -- the file behind the link is neither the link nor at the output path
    have hlp : l ≠ p := by
      rintro rfl
      exact FileTree.entry_of_leads hl target htarget
    refine ⟨hplace, l, hl, ?_⟩
    rw [hother l hlp ((hclear l hl).1 o ho).1, hmade.entry_same l (.inl rfl)]

/-- An image is at its place, or it is abandoned. -/
theorem view_writeImage {output : String} {image : Image} {r : Except (List String) Unit}
    (h : (writeImage output image : StateM σ _).run s = (r, t)) :
    match r with
    | .error _ => Abandoned (view s) (view t) (temporaryPath output)
    | .ok () => Delivered (view s) (view t) output image.encode := by
  unfold writeImage at h
  split at h
  · cases h
    exact .inl rfl
  · next name hname =>
    have htemp : temporary output name ∈ temporaryPath output := by simp [temporaryPath, hname]
    obtain ⟨made, u, hmade, h⟩ := of_run_bind h
    cases made with
    | error e =>
      obtain ⟨hcleared, causes, rfl⟩ := view_abandon h
      refine .inr ⟨view u, ?_, _, htemp, hcleared⟩
      cases e with
      | opening e => exact .inl (FileTree.create_opening hmade)
      | writing e => exact .inr ⟨_, htemp, FileTree.create_writing hmade⟩
    | ok _ =>
      -- the image is complete beside its place, and is discarded or moved there
      obtain ⟨l, hl, hwritten⟩ := FileTree.create_ok hmade
      obtain ⟨moved, w, hmoved, h⟩ := of_run_bind h
      cases moved with
      | error e =>
        obtain ⟨hcleared, causes, rfl⟩ := view_abandon h
        rw [FileTree.rename_error hmoved] at hcleared
        exact .inr ⟨view u, .inr ⟨_, htemp, l, hl, _, hwritten⟩, _, htemp, hcleared⟩
      | ok _ =>
        cases h
        exact .of_moved htemp hl hwritten hmoved

/-- What was at places behind the writing of a listing was there before. -/
theorem Delivered.of_listed {u : σ} {path : Option String} {output : String} {bytes : List UInt8}
    (hlisted : MayWrite (view s) (view u) path) (h : Delivered (view u) v' output bytes) :
    Delivered (view s) v' output bytes := by
  obtain ⟨⟨temp, htemp, o, ho, hfile⟩, ⟨temp', htemp', o', ho', hlink⟩⟩ := h
  rw [hlisted.names_eq] at ho ho' hlink
  rw [hlisted.leads_eq] at hlink
  refine ⟨⟨temp, htemp, o, ho, fun hplain => hfile ?_⟩,
    ⟨temp', htemp', o', ho', fun hclear l hl target htarget => ?_⟩⟩
  · intro l hl target htarget
    rw [hlisted.names_eq] at hl
    exact hplain l hl target ((hlisted.link_iff l target).1 htarget)
  · exact hlink (hlisted.clear hclear) l hl target ((hlisted.link_iff l target).2 htarget)

/-- Of a compilation, the listing is written and behind it the image. -/
theorem spared_writeAll {source output : String} {given : List (String × String)} {dump : Bool}
    {c : Compilation} {outcome : Outcome}
    (h : (writeAll source output (given.lookup "listing") dump c : StateM σ _).run s
      = (outcome, t)) :
    (outcome.status ≠ 0 → ListingApart (view s) output given → TemporaryApart (view s) output →
      Spared (view s) (view t) output given) ∧
    (outcome.status = 0 → Delivered (view s) (view t) output c.image.encode) := by
  obtain ⟨listed, u, hlisted, h⟩ := of_run_bind h
  -- a listing that is only partly written stays, at a place of its own
  have hlisting := view_writeListing hlisted
  cases listed with
  | error e =>
    cases h
    exact ⟨fun _ => .of_abandoned hlisting (.inl rfl), nofun⟩
  | ok text =>
    obtain ⟨written, w, hwritten, h⟩ := of_run_bind h
    have himage := view_writeImage hwritten
    cases written with
    | ok _ =>
      cases h
      exact ⟨fun hstatus => absurd rfl hstatus, fun _ => himage.of_listed hlisting⟩
    | error causes =>
      cases h
      exact ⟨fun _ => .of_abandoned hlisting himage, nofun⟩

/-- The file at a path is read and compiled, and all is written of it. -/
theorem spares_compileFile {caseless : Caseless} {source : String}
    {given : List (String × String)} {flags : List String} {outcome : Option Outcome}
    (h : (compileFile caseless source given flags : StateM σ _).run s = (outcome, t)) :
    Spares (view s) (view t) outcome (.run source given flags) := by
  unfold compileFile at h
  split at h
  · cases h
    exact .of_failed rfl
  · obtain ⟨got, u, hgot, h⟩ := of_run_bind h
    have hview := FileTree.read_view hgot
    cases got with
    | error e =>
      cases e with
      | isDirectory =>
        cases h
        exact .of_eq hview nofun
      | _ =>
        cases h
        exact .of_failed hview
    | ok bytes =>
      have hbytes := FileTree.read_ok hgot
      dsimp only at h
      split at h
      · cases h
        exact .of_failed hview
      · next c hc =>
        obtain ⟨outcome, hall, rfl⟩ := of_run_map h
        rw [← hview] at hbytes ⊢
        obtain ⟨hfailure, hsuccess⟩ := spared_writeAll hall
        constructor
        case unchanged => exact fun h => by simp at h
        case failed =>
          intro _ _ _ hrequest _ hended
          cases hrequest
          cases hended
          exact hfailure
        case delivered =>
          intro _ _ _ hrequest _ hended hstatus
          cases hrequest
          cases hended
          exact ⟨bytes, c, hbytes, hc, hsuccess hstatus⟩

end Build

/-! ## What the command does -/

variable {Place σ : Type} [FileSystem (StateM σ)] [FileTree σ Place]

/-- A failure of the command that compiles leaves what stands at the output path as it was and no
file beside it, if the listing and the file beside the output have places of their own; and behind
a success the encoding of the image stands there. -/
theorem build_spares (reader : ArgumentReader) (caseless : Caseless) (args : List String) (s : σ) :
    Build.Spares (FileTree.view s)
      (FileTree.view ((build reader caseless args : StateM σ (Option Outcome)).run s).2)
      ((build reader caseless args : StateM σ (Option Outcome)).run s).1
      (reader Build.options (args.map Build.normalise)) := by
  unfold build
  cases hrequest : reader Build.options (args.map Build.normalise) with
  | usageError => exact .of_eq rfl fun _ _ => .inr nofun
  | help => exact .of_eq rfl fun _ _ => .inr nofun
  | version => exact .of_eq rfl fun _ _ => .inr nofun
  | run source given flags => exact Build.spares_compileFile rfl

namespace Build

/-- A source and an image of earlier, beside which there is no place for another. -/
def crowded : Files :=
  ⟨["home"],
    [(["home", "a.cm"], .file (Text.encode "int main() return 0;")),
      (["home", "a.cmx"], .file (Text.encode "earlier")),
      (["home", "a.cmx.partial"], .directory)]⟩

/-- A source and an image of earlier, beside which a link leads to it. -/
def tied : Files :=
  ⟨["home"],
    [(["home", "a.cm"], .file (Text.encode "int main() return 0;")),
      (["home", "a.cmx"], .file (Text.encode "earlier")),
      (["home", "a.cmx.partial"], .link "a.cmx")]⟩

end Build

/-- The earlier image stays, if the listing goes elsewhere. -/
theorem build_spares_crowded :
    Build.ListingApart Build.crowded.view "a.cmx" [("listing", "a.lst")] ∧
      Build.TemporaryApart Build.crowded.view "a.cmx" ∧
      ((build Options.read .simple ["-S", "a.lst", "a.cm"] : StateM Files (Option Outcome)).run
        Build.crowded).1.map Outcome.status = some 1 ∧
      Build.Spared Build.crowded.view
        ((build Options.read .simple ["-S", "a.lst", "a.cm"] : StateM Files (Option Outcome)).run
          Build.crowded).2.view
        "a.cmx" [("listing", "a.lst")] := by
  have hrequest : Options.read Build.options (["-S", "a.lst", "a.cm"].map Build.normalise)
      = .run "a.cm" [("listing", "a.lst")] [] := by decide +kernel
  have hlisting : Build.ListingApart Build.crowded.view "a.cmx" [("listing", "a.lst")] := by
    decide +kernel
  have htemporary : Build.TemporaryApart Build.crowded.view "a.cmx" := by decide +kernel
  have hstatus : ((build Options.read .simple ["-S", "a.lst", "a.cm"] :
      StateM Files (Option Outcome)).run Build.crowded).1.map Outcome.status = some 1 := by
    decide +kernel
  have houtput : Build.outputPath "a.cm" [("listing", "a.lst")] = "a.cmx" := by decide +kernel
  have hspares := build_spares Options.read .simple ["-S", "a.lst", "a.cm"] Build.crowded
  obtain ⟨outcome, houtcome, hone⟩ := Option.map_eq_some_iff.1 hstatus
  have hspared := hspares.failed _ _ _ hrequest outcome houtcome (by rw [hone]; decide)
  rw [houtput] at hspared
  exact ⟨hlisting, htemporary, hstatus, hspared hlisting htemporary⟩

/-- That the path of the listing is another text than that of the output does not keep the
earlier image: both may lead to it. And what has been moved to the output path may be a link to
the output itself, so that a command that ends well leaves no image there. -/
theorem build_damages :
    (¬ ∀ (f : Files) (args : List String) (source : String) (given : List (String × String))
      (flags : List String),
      Options.read Build.options (args.map Build.normalise) = .run source given flags →
      (∀ path, given.lookup "listing" = some path → path ≠ Build.outputPath source given ∧
        path ≠ Build.outputPath source given ++ ".partial") →
      ((build Options.read .simple args : StateM Files (Option Outcome)).run f).1.map
        Outcome.status ≠ some 0 →
      ((build Options.read .simple args : StateM Files (Option Outcome)).run f).2.view.content
        (Build.outputPath source given) = f.view.content (Build.outputPath source given)) ∧
    ¬ ∀ (f : Files) (args : List String) (source : String) (given : List (String × String))
      (flags : List String),
      Options.read Build.options (args.map Build.normalise) = .run source given flags →
      given.lookup "listing" = none →
      ((build Options.read .simple args : StateM Files (Option Outcome)).run f).1.map
        Outcome.status = some 0 →
      ((build Options.read .simple args : StateM Files (Option Outcome)).run f).2.view.content
        (Build.outputPath source given) ≠ none := by
  constructor
  · intro h
    -- the listing is in place of the earlier image before there is no place for the new one
    have hsame := h Build.crowded ["-S", "./a.cmx", "a.cm"] "a.cm" [("listing", "./a.cmx")] []
      (by decide +kernel) (fun path hpath => by cases hpath; decide +kernel) (by decide +kernel)
    exact absurd hsame (by decide +kernel)
  · intro h
    exact h Build.tied ["a.cm"] "a.cm" [] [] (by decide +kernel) rfl (by decide +kernel)
      (by decide +kernel)

end OnePass
