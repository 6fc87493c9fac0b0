import Mathlib.Data.List.TakeWhile
import Mathlib.Data.List.Infix
import Mathlib.Tactic.Push
import OnePass.Command.Files
import OnePass.Command.Path

/-!
# What a file system shows

A command sees of a file system which places paths name and where they lead, and what stands
there: a `FileView`. A path names the place that it says at its end; if a link stands there, it
leads on to another one. One file may have several names, which are then places that share it.

A file system is a `FileTree` if its operations change what is seen as those of POSIX do for a
process that is alone. A file that is made or emptied takes all bytes or some of them, and they
are seen under all its names; links are followed for this. Getting another place and being taken
away happen to what a path names, even to a link. An operation may fail for any reason
whatsoever, which may depend on the state; but what a process has just made, it can also take
away. Nothing is assumed of how paths lead behind an operation that moves or takes away a link.

The trees of files that commands are tried on are such a file system (`Files.fileTree`).
-/

namespace OnePass

/-! ## Views -/

/-- What is seen of a file system. -/
structure FileView (Place : Type) where
  /-- the place that a path says at its end; a link there is not followed, and nothing need
  stand there -/
  names : String → Option Place
  /-- the place that a path leads to over all links; nothing need stand there -/
  leads : String → Option Place
  /-- what stands at a place -/
  entry : Place → Option Entry
  /-- whether two places are names of one file -/
  shares : Place → Place → Prop
  /-- whether what stands at a place can be taken away -/
  frees : Place → Prop

namespace FileView

variable {Place : Type}

/-- What stands where a path leads. -/
def content (v : FileView Place) (path : String) : Option Entry :=
  (v.leads path).bind v.entry

/-- What is written at one place is not seen at another. -/
def Apart (v : FileView Place) (l l' : Place) : Prop := l ≠ l' ∧ ¬ v.shares l l'

/-- What is written behind a path is not seen behind another, neither at the place that this
names nor where it leads. -/
def Clear (v : FileView Place) (path other : String) : Prop :=
  ∀ l ∈ v.leads path, (∀ l' ∈ v.names other, v.Apart l l') ∧ ∀ l' ∈ v.leads other, v.Apart l l'

instance [DecidableEq Place] (v : FileView Place) [DecidableRel v.shares] (path other : String) :
    Decidable (v.Clear path other) :=
  inferInstanceAs (Decidable (∀ l ∈ v.leads path, (∀ l' ∈ v.names other, _ ∧ _) ∧
    ∀ l' ∈ v.leads other, _ ∧ _))

/-- No link stands at the place that a path names. -/
def Unlinked (v : FileView Place) (path : String) : Prop :=
  ∀ l ∈ v.names path, ∀ target, v.entry l ≠ some (.link target)

/-- Bytes have been written to the file at a place, which has been made if there was none. -/
structure Written (v v' : FileView Place) (l : Place) (bytes : List UInt8) : Prop where
  /-- they are seen under all names of the file -/
  entry_same : ∀ l', l' = l ∨ v.shares l l' → v'.entry l' = some (.file bytes)
  /-- everywhere else nothing has changed -/
  entry_apart : ∀ l', v.Apart l l' → v'.entry l' = v.entry l'
  /-- paths name the places that they named -/
  names_eq : v'.names = v.names
  /-- paths lead where they led -/
  leads_eq : v'.leads = v.leads
  /-- no file has got another name -/
  shares_of : ∀ l₁ l₂, v'.shares l₁ l₂ → v.shares l₁ l₂
  /-- a file that has been made can be taken away -/
  frees_new : v.entry l = none → v'.frees l

/-- What a path names has been taken away, if there was anything to take away. -/
def Cleared (v v' : FileView Place) (path : String) : Prop :=
  (v' = v ∧ ∀ l ∈ v.names path, ¬ v.frees l) ∨
    ∃ l ∈ v.names path, v'.entry l = none ∧ ∀ l', l' ≠ l → v'.entry l' = v.entry l'

variable {v v' : FileView Place} {l : Place} {bytes : List UInt8}

/-- Places that were apart are so behind a file that has been written. -/
theorem Written.apart (h : v.Written v' l bytes) {l₁ l₂ : Place} (hapart : v.Apart l₁ l₂) :
    v'.Apart l₁ l₂ :=
  ⟨hapart.1, fun hshares => hapart.2 (h.shares_of _ _ hshares)⟩

/-- Writing leaves apart what was apart. -/
theorem Written.clear (h : v.Written v' l bytes) {path other : String}
    (hclear : v.Clear path other) : v'.Clear path other := by
  intro a ha
  rw [h.leads_eq] at ha
  rw [h.names_eq, h.leads_eq]
  exact ⟨fun b hb => h.apart ((hclear a ha).1 b hb), fun b hb => h.apart ((hclear a ha).2 b hb)⟩

end FileView

/-! ## File systems -/

/-- A file system whose operations are those of POSIX, seen through its states. -/
class FileTree (σ : Type) (Place : outParam Type) [FileSystem (StateM σ)] where
  /-- what is seen in a state -/
  view : σ → FileView Place
  /-- the name of a place in its directory -/
  name : Place → List Char
  /-- A path that says a name at its end names a place of that name. -/
  name_of_names {s : σ} {p : String} {n : List Char} {l : Place} :
    Path.fileName? p.toList = some n → (view s).names p = some l → name l = n
  /-- A path leads to the place that it names, unless a link stands there. -/
  leads_of_names {s : σ} {p : String} {l : Place} :
    (view s).names p = some l → (∀ target, (view s).entry l ≠ some (.link target)) →
      (view s).leads p = some l
  /-- All links are followed. -/
  entry_of_leads {s : σ} {p : String} {l : Place} :
    (view s).leads p = some l → ∀ target, (view s).entry l ≠ some (.link target)
  /-- Only files have several names. -/
  entry_of_shares {s : σ} {l l' : Place} :
    (view s).shares l l' → ∃ bytes, (view s).entry l' = some (.file bytes)
  /-- Reading changes nothing. -/
  read_view {s t : σ} {p : String} {r : Except FileError (List UInt8)} :
    (FileSystem.read p : StateM σ _).run s = (r, t) → view t = view s
  /-- The bytes that are read are those of the file. -/
  read_ok {s t : σ} {p : String} {bytes : List UInt8} :
    (FileSystem.read p : StateM σ _).run s = (.ok bytes, t) →
      (view s).content p = some (.file bytes)
  /-- A file that is made holds all bytes. -/
  create_ok {s t : σ} {p : String} {bytes : List UInt8} :
    (FileSystem.create p bytes : StateM σ _).run s = (.ok (), t) →
      ∃ l ∈ (view s).leads p, (view s).Written (view t) l bytes
  /-- If no file can be made, nothing changes. -/
  create_opening {s t : σ} {p : String} {bytes : List UInt8} {e : FileError} :
    (FileSystem.create p bytes : StateM σ _).run s = (.error (.opening e), t) →
      view t = view s
  /-- A file that does not take all bytes holds some. -/
  create_writing {s t : σ} {p : String} {bytes : List UInt8} {e : FileError} :
    (FileSystem.create p bytes : StateM σ _).run s = (.error (.writing e), t) →
      ∃ l ∈ (view s).leads p, ∃ held, (view s).Written (view t) l held
  /-- What gets another place is all that stands there. -/
  rename_ok {s t : σ} {p q : String} :
    (FileSystem.rename p q : StateM σ _).run s = (.ok (), t) →
      ∃ l ∈ (view s).names p, ∃ l' ∈ (view s).names q, ∃ e, (view s).entry l = some e ∧
        (view t).entry l' = some e ∧ ∀ o, o ≠ l → o ≠ l' → (view t).entry o = (view s).entry o
  /-- If it does not get another place, nothing changes. -/
  rename_error {s t : σ} {p q : String} {e : FileError} :
    (FileSystem.rename p q : StateM σ _).run s = (.error e, t) → view t = view s
  /-- What a path names is taken away, or it cannot be. -/
  remove_view {s t : σ} {p : String} {r : Except FileError Unit} :
    (FileSystem.remove p : StateM σ _).run s = (r, t) → (view s).Cleared (view t) p
  /-- Writing to the standard output changes nothing. -/
  print_view {s t : σ} {text : String} {r : Except FileError Unit} :
    (FileSystem.print text : StateM σ _).run s = (r, t) → view t = view s

/-! ## Names and components -/

namespace Path

/-- What may be the name of a file. -/
structure IsName (n : List Char) : Prop where
  slash : '/' ∉ n
  nil : n ≠ []
  dot : n ≠ ['.']
  dots : n ≠ ['.', '.']

/-- A name with something behind that holds no slash is a name, if it gets three characters or
more. -/
theorem IsName.append {n m : List Char} (h : IsName n) (hm : '/' ∉ m) (hlength : 2 ≤ m.length) :
    IsName (n ++ m) := by
  have hpos : 0 < n.length := List.length_pos_iff.2 h.nil
  have hlong : 3 ≤ (n ++ m).length := by rw [List.length_append]; omega
  exact ⟨by simp [h.slash, hm], fun he => by simp [he] at hlong,
    fun he => by simp [he] at hlong, fun he => by simp [he] at hlong⟩

/-- The last component of a path holds no slash. -/
theorem slash_notMem_lastComponent (p : List Char) : '/' ∉ lastComponent p := by
  intro h
  rw [lastComponent, List.mem_reverse] at h
  simpa using List.mem_takeWhile_imp h

/-- The last component of a path is a name if there is one. -/
theorem isName_of_fileName? {p n : List Char} (h : fileName? p = some n) : IsName n := by
  simp only [fileName?] at h
  split at h
  · cases h
  · next hname =>
    cases h
    push Not at hname
    exact ⟨slash_notMem_lastComponent p, hname.1, hname.2.1, hname.2.2⟩

/-- The name of a file is the last component of its path. -/
theorem lastComponent_of_fileName? {p n : List Char} (h : fileName? p = some n) :
    lastComponent p = n := by
  simp only [fileName?] at h
  split at h
  · cases h
  · exact Option.some.inj h

/-- A name at the end of a path counts. -/
theorem dropEnd_name {n : List Char} (h : IsName n) (rest : List Char) :
    dropEnd (n.reverse ++ rest) = n.reverse ++ rest := by
  have hslash : '/' ∉ n.reverse := by simpa using h.slash
  have hdot : n.reverse ≠ ['.'] := fun he => h.dot (by simpa using congrArg List.reverse he)
  have hnil : n.reverse ≠ [] := by simpa using h.nil
  obtain ⟨c, m, hm⟩ := List.exists_cons_of_ne_nil hnil
  rw [hm] at hslash hdot ⊢
  refine dropEnd.eq_3 _ (fun r he => ?_) fun r he => ?_
  · injection he with hc
    exact hslash (hc ▸ List.mem_cons_self)
  · injection he with hc he
    cases m with
    | nil => exact hdot (by rw [hc])
    | cons d m =>
      injection he with hd
      exact hslash (hd ▸ List.mem_cons_of_mem _ List.mem_cons_self)

/-- The name at the end of a path is the name of its file. -/
theorem fileName?_concat {n d : List Char} (h : IsName n) (hd : d = [] ∨ ∃ r, d = r ++ ['/']) :
    fileName? (d ++ n) = some n := by
  have hrest : d.reverse = [] ∨ ∃ r, d.reverse = '/' :: r := by
    rcases hd with rfl | ⟨r, rfl⟩
    · exact .inl rfl
    · exact .inr ⟨r.reverse, by simp⟩
  have hslash : ∀ c ∈ n.reverse, (c != '/') = true := by
    intro c hc
    have : c ≠ '/' := fun he => h.slash (by simpa [he] using hc)
    simpa using this
  have hlast : lastComponent (d ++ n) = n := by
    rw [lastComponent, trimmed, List.reverse_append, dropEnd_name h, List.reverse_reverse,
      List.takeWhile_append_of_pos hslash]
    rcases hrest with he | ⟨r, he⟩ <;> simp [he]
  simp [fileName?, hlast, h.nil, h.dot, h.dots]

/-- The file of a path that got another name has that name. -/
theorem fileName?_withFileName {p n : List Char} (h : IsName n) :
    fileName? (withFileName p n) = some n := by
  unfold withFileName
  split
  · exact fileName?_concat h (.inl rfl)
  · rw [List.append_cons]
    exact fileName?_concat h (.inr ⟨_, rfl⟩)

/-- The components of a path. -/
def parts (p : List Char) : List (List Char) := (p.splitOn '/').filter (· ≠ [])

/-- A slash separates the parts of a path. -/
theorem parts_append_slash (p q : List Char) : parts (p ++ '/' :: q) = parts p ++ parts q := by
  simp [parts, List.splitOn, List.splitOnP_append_cons]

/-- A name is one part. -/
theorem parts_name {n : List Char} (hslash : '/' ∉ n) (hn : n ≠ []) : parts n = [n] := by
  have hsplit : n.splitOn '/' = [n] := by
    refine List.splitOnP_eq_singleton fun c hc => ?_
    simpa using fun he : c = '/' => hslash (he ▸ hc)
  simp [parts, hsplit, hn]

/-- What does not count at the end of a path are components of one dot. -/
theorem parts_dropEnd (r : List Char) :
    ∃ dots, (∀ d ∈ dots, d = ['.']) ∧ parts r.reverse = parts (dropEnd r).reverse ++ dots := by
  induction r using dropEnd.induct with
  | case1 r ih =>
    have hslash : parts ('/' :: r).reverse = parts r.reverse := by
      rw [List.reverse_cons, parts_append_slash]
      simp [parts]
    rw [hslash, dropEnd]
    exact ih
  | case2 r ih =>
    obtain ⟨dots, hdots, hr⟩ := ih
    have hdot : parts ('.' :: '/' :: r).reverse = parts r.reverse ++ [['.']] := by
      rw [List.reverse_cons, List.reverse_cons, List.append_assoc, List.singleton_append,
        parts_append_slash]
      rfl
    rw [hdot, dropEnd, hr]
    exact ⟨dots ++ [['.']], by simpa [or_imp, forall_and] using hdots, by simp⟩
  | case3 r h₁ h₂ => exact ⟨[], by simp, by rw [dropEnd.eq_3 r h₁ h₂, List.append_nil]⟩

/-- The name of a file is the last component that is not a dot. -/
theorem parts_of_fileName? {p n : List Char} (h : fileName? p = some n) :
    ∃ front dots, (∀ d ∈ dots, d = ['.']) ∧ parts p = front ++ n :: dots := by
  obtain ⟨dots, hdots, hp⟩ := parts_dropEnd p.reverse
  rw [List.reverse_reverse] at hp
  have hname := isName_of_fileName? h
  have hlast : ((dropEnd p.reverse).takeWhile (· != '/')) = n.reverse := by
    have := lastComponent_of_fileName? h
    rw [lastComponent, trimmed, List.reverse_reverse] at this
    simpa using congrArg List.reverse this
  have hsplit := @List.takeWhile_append_dropWhile _ (· != '/') (dropEnd p.reverse)
  rw [hlast] at hsplit
  have hn := parts_name hname.slash hname.nil
  rw [hp, ← hsplit]
  cases hrest : (dropEnd p.reverse).dropWhile (· != '/') with
  | nil => exact ⟨[], dots, hdots, by simp [hn]⟩
  | cons c r =>
    have hc : c = '/' := by
      have := List.head_dropWhile_not (l := dropEnd p.reverse) (· != '/') (by simp [hrest])
      simpa [hrest] using this
    refine ⟨parts r.reverse, dots, hdots, ?_⟩
    rw [hc, List.reverse_append, List.reverse_cons, List.reverse_reverse, List.append_assoc,
      List.singleton_append, parts_append_slash, hn, List.append_assoc]
    rfl

end Path

/-! ## Trees of files -/

namespace Files

variable {f g : Files} {l l' : Location} {p : String} {bytes : List UInt8} {last : Bool}

/-- What is seen of a tree of files, in which each file has one name. -/
def view (f : Files) : FileView Location where
  names p := (f.entryAt p).toOption
  leads p := (f.locate p).toOption
  entry := f.found?
  shares _ _ := False
  frees l := ∃ e, f.found? l = some e ∧ e ≠ .directory

instance (f : Files) : DecidableRel f.view.shares := fun _ _ => inferInstanceAs (Decidable False)

/-- The view shows the entries. -/
@[simp] theorem view_entry (f : Files) : f.view.entry = f.found? := rfl

/-- Without its errors an outcome is the value or nothing. -/
theorem toOption_eq_some_iff {ε α : Type} {x : Except ε α} {a : α} :
    x.toOption = some a ↔ x = .ok a := by
  cases x <;> simp [Except.toOption]

/-- In the view a path leads where it is located. -/
theorem view_leads_iff : f.view.leads p = some l ↔ f.locate p = .ok l := toOption_eq_some_iff

/-- In the view a path names the entry that it names. -/
theorem view_names_iff : f.view.names p = some l ↔ f.entryAt p = .ok l := toOption_eq_some_iff

/-- What is taken out of a list is no longer found in it, and the rest is. -/
theorem lookup_filter_ne (es : List (Location × Entry)) (l l' : Location) :
    (es.filter fun e => e.1 != l).lookup l' = if l' = l then none else es.lookup l' := by
  induction es with
  | nil => simp
  | cons e es ih => grind

/-- No directory in use is at a place where none stands. -/
theorem prefix_of_entry (h : f.found? l ≠ some .directory) : l.isPrefixOf f.here = false := by
  unfold found? at h
  split at h
  · exact absurd rfl h
  · next hp => exact Bool.eq_false_iff.2 hp

/-- Behind an erasure all entries but one are found. -/
theorem found?_erase (h : f.found? l ≠ some .directory) :
    Files.found? (f.erase l) l' = if l' = l then none else f.found? l' := by
  have hl := prefix_of_entry h
  simp only [erase, found?, lookup_filter_ne]
  grind

/-- What is put somewhere is found there, and the rest where it was. -/
theorem found?_put (h : f.found? l ≠ some .directory) (e : Entry) :
    Files.found? (f.put l e) l' = if l' = l then some e else f.found? l' := by
  have hl := prefix_of_entry h
  simp only [put, found?, erase, List.lookup_cons, lookup_filter_ne]
  grind

/-! ## Where paths lead -/

/-- Two trees have the same directories and links. -/
structure SameWays (f g : Files) : Prop where
  here : f.here = g.here
  directory : ∀ l, f.found? l = some .directory ↔ g.found? l = some .directory
  link : ∀ l target, f.found? l = some (.link target) ↔ g.found? l = some (.link target)

/-- The rest of a walk behind a name depends on the directories and links only. -/
theorem SameWays.walk (h : SameWays f g) {k k' : Location → List String → Except FileError Goal}
    (hk : ∀ l cs, (k l cs).toOption = (k' l cs).toOption) (names : List String) :
    ∀ l, (f.walk last k l names).toOption = (g.walk last k' l names).toOption := by
  induction names with
  | nil => exact fun l => rfl
  | cons n rest ih =>
    intro l
    simp only [Files.walk]
    by_cases hdot : n = "."
    · simpa only [if_pos hdot] using ih l
    by_cases hdots : n = ".."
    · simpa only [if_neg hdot, if_pos hdots] using ih l.dropLast
    by_cases hend : rest = [] ∧ last = false
    · simp only [if_neg hdot, if_neg hdots, if_pos hend]
    simp only [if_neg hdot, if_neg hdots, if_neg hend]
    cases child l n with
    | error e => rfl
    | ok next =>
      have hdirectory := h.directory next
      have hlink := h.link next
      dsimp only
      -- a file and nothing at all differ in the error only
      rcases hf : f.found? next with _ | _ | _ | _ <;> rcases hg : g.found? next with _ | _ | _ | _
      all_goals by_cases hrest : rest = [] <;> simp_all [Except.toOption]

/-- Paths are resolved alike in trees with the same directories and links. -/
theorem SameWays.resolve (h : SameWays f g) (links : Nat) :
    ∀ l cs, (f.resolve last links l cs).toOption = (g.resolve last links l cs).toOption := by
  induction links with
  | zero => exact fun l cs => h.walk (fun _ _ => rfl) cs l
  | succ links ih => exact fun l cs => h.walk ih cs l

/-- Paths lead to the same goal in trees with the same directories and links. -/
theorem SameWays.follow (h : SameWays f g) (p : String) :
    (f.follow last p).toOption = (g.follow last p).toOption := by
  unfold Files.follow
  rw [h.here]
  split_ifs
  · rfl
  · rfl
  · exact h.resolve _ _ _

/-- What goes on from equal outcomes is equal up to errors. -/
theorem toOption_bind_congr {ε α β : Type} {x y : Except ε α} {k : α → Except ε β}
    (h : x.toOption = y.toOption) : (x >>= k).toOption = (y >>= k).toOption := by
  cases x <;> cases y <;> simp_all [Except.toOption, bind, Except.bind]

/-- Which places paths name depends on the directories and links only. -/
theorem SameWays.names (h : SameWays f g) : f.view.names = g.view.names :=
  funext fun p => toOption_bind_congr (h.follow p)

/-- So does where they lead. -/
theorem SameWays.leads (h : SameWays f g) : f.view.leads = g.view.leads :=
  funext fun p => toOption_bind_congr (h.follow p)

/-- A place at which one stands on a walk: it is a directory, and so are those around it. -/
def Standing (f : Files) (l : Location) : Prop :=
  ∀ around, around <+: l → f.found? around = some .directory

/-- What is around a directory is a directory. -/
theorem Standing.of_prefix (h : Standing f l) {around : Location} (haround : around <+: l) :
    Standing f around :=
  fun _ hbefore => h _ (hbefore.trans haround)

/-- The working directory stands. -/
theorem standing_here (f : Files) : Standing f f.here := by
  intro around haround
  simp [found?, List.isPrefixOf_iff_prefix.2 haround]

/-- A child is one component further down. -/
theorem child_eq_ok {n : String} (h : child l n = .ok l') : l' = l ++ [n] := by
  unfold child at h
  split_ifs at h
  cases h
  rfl

/-- A directory in a directory stands. -/
theorem Standing.child (h : Standing f l) {n : String} (hchild : child l n = .ok l')
    (hdirectory : f.found? l' = some .directory) : Standing f l' := by
  obtain rfl := child_eq_ok hchild
  intro around haround
  rcases List.prefix_concat_iff.1 haround with rfl | haround
  · exact hdirectory
  · exact h around haround

/-- A path starts at a directory, be it absolute or not. -/
theorem Standing.start (h : Standing f l) (path : String) : Standing f (start l path) := by
  unfold Files.start
  split_ifs
  · exact h.of_prefix List.nil_prefix
  · exact h

/-- How a walk with an end goes on over its next component. -/
inductive Turn (f : Files) (last : Bool) (k : Location → List String → Except FileError Goal)
    (l : Location) (n : String) (rest : List String) (goal : Goal) : Prop where
  /-- a dot stays where it is -/
  | stay (hn : n = ".") (h : f.walk last k l rest = .ok goal)
  /-- two dots lead back -/
  | back (hn : n = "..") (h : f.walk last k l.dropLast rest = .ok goal)
  /-- the last name is where the walk ends, if no link stands there that is to be followed -/
  | ends (hdot : n ≠ ".") (hdots : n ≠ "..") (hrest : rest = []) (hgoal : goal = .name l n)
      (hlink : last = true → ∀ next, child l n = .ok next →
        ∀ target, f.found? next ≠ some (.link target))
  /-- a link leads on -/
  | link (hdot : n ≠ ".") (hdots : n ≠ "..") (hend : ¬ (rest = [] ∧ last = false))
      (next : Location) (hnext : child l n = .ok next) (target : String)
      (hlink : f.found? next = some (.link target))
      (h : k (Files.start l target) (components target ++ rest) = .ok goal)
  /-- and so does a directory -/
  | into (hdot : n ≠ ".") (hdots : n ≠ "..") (hrest : rest ≠ []) (next : Location)
      (hnext : child l n = .ok next) (hdirectory : f.found? next = some .directory)
      (h : f.walk last k next rest = .ok goal)

variable {k k' : Location → List String → Except FileError Goal} {goal : Goal}

/-- A walk that comes to an end takes one of the turns at its first component. -/
theorem turn_of_walk {n : String} {rest : List String}
    (h : f.walk last k l (n :: rest) = .ok goal) : Turn f last k l n rest goal := by
  rw [Files.walk] at h
  by_cases hdot : n = "."
  · exact .stay hdot (by simpa only [if_pos hdot] using h)
  by_cases hdots : n = ".."
  · exact .back hdots (by simpa only [if_neg hdot, if_pos hdots] using h)
  simp only [if_neg hdot, if_neg hdots] at h
  by_cases hend : rest = [] ∧ last = false
  · rw [if_pos hend] at h
    cases h
    exact .ends hdot hdots hend.1 rfl fun hlast => by simp [hend.2] at hlast
  rw [if_neg hend] at h
  cases hnext : child l n with
  | error e => simp [hnext] at h
  | ok next =>
    simp only [hnext] at h
    -- at the end of the path anything but a link will do
    have hends (hrest : rest = []) (hgoal : goal = .name l n)
        (hlink : ∀ target, f.found? next ≠ some (.link target)) : Turn f last k l n rest goal := by
      refine .ends hdot hdots hrest hgoal fun _ next' hnext' => ?_
      cases hnext.symm.trans hnext'
      exact hlink
    split at h
    · next target hlink => exact .link hdot hdots hend next hnext target hlink h
    · next hdirectory =>
      split_ifs at h with hrest
      · cases h
        exact hends hrest rfl (by simp [hdirectory])
      · exact .into hdot hdots hrest next hnext hdirectory h
    · next bytes hfile =>
      split_ifs at h with hrest
      cases h
      exact hends hrest rfl (by simp [hfile])
    · next hnone =>
      split_ifs at h with hrest
      cases h
      exact hends hrest rfl (by simp [hnone])

/-- A walk that does not follow a link at the end ends with the name at the end of the path. -/
theorem getLast?_of_walk {d : Location} {n : String}
    (hk : ∀ l cs, k l cs = .ok (.name d n) → cs.getLast? = some n ∧ n ≠ ".") (cs : List String) :
    ∀ {l : Location}, f.walk false k l cs = .ok (.name d n) → cs.getLast? = some n ∧ n ≠ "." := by
  induction cs with
  | nil => exact fun h => by cases h
  | cons m rest ih =>
    intro l h
    have hcons (hrest : rest.getLast? = some n ∧ n ≠ ".") :
        (m :: rest).getLast? = some n ∧ n ≠ "." := by
      refine ⟨?_, hrest.2⟩
      rw [List.getLast?_cons, hrest.1]
      rfl
    cases turn_of_walk h with
    | stay _ h => exact hcons (ih h)
    | back _ h => exact hcons (ih h)
    | ends hdot _ hrest hgoal =>
      cases hgoal
      exact ⟨by rw [hrest]; rfl, hdot⟩
    | link _ _ hend _ _ target _ h =>
      have hrest : rest ≠ [] := fun he => hend ⟨he, rfl⟩
      obtain ⟨hlast, hn⟩ := hk _ _ h
      rw [List.getLast?_append_of_ne_nil _ hrest] at hlast
      exact hcons ⟨hlast, hn⟩
    | into _ _ _ _ _ _ h => exact hcons (ih h)

/-- The name that a path is resolved to is its last component. -/
theorem getLast?_of_resolve {d : Location} {n : String} (links : Nat) :
    ∀ l cs, f.resolve false links l cs = .ok (.name d n) → cs.getLast? = some n ∧ n ≠ "." := by
  induction links with
  | zero => exact fun l cs => getLast?_of_walk (fun _ _ h => by cases h) cs
  | succ links ih => exact fun l cs => getLast?_of_walk ih cs

/-- A walk that ends at a name where no link stands ends there too if links are followed at
the end. -/
theorem walk_following {d place : Location} {n : String} (hplace : child d n = .ok place)
    (hlink : ∀ target, f.found? place ≠ some (.link target))
    (hk : ∀ l cs, k l cs = .ok (.name d n) → k' l cs = .ok (.name d n)) (cs : List String) :
    ∀ {l : Location}, f.walk false k l cs = .ok (.name d n) →
      f.walk true k' l cs = .ok (.name d n) := by
  induction cs with
  | nil => exact fun h => by cases h
  | cons m rest ih =>
    intro l h
    rw [Files.walk]
    cases turn_of_walk h with
    | stay hm h => simpa only [if_pos hm] using ih h
    | back hm h =>
      have hdot : m ≠ "." := by rw [hm]; decide
      simpa only [if_neg hdot, if_pos hm] using ih h
    | ends hdot hdots hrest hgoal =>
      cases hgoal
      simp only [if_neg hdot, if_neg hdots, hrest, hplace, reduceCtorEq, and_false, if_false]
      split
      · next target htarget => exact absurd htarget (hlink target)
      · rfl
      · rfl
      · rfl
    | link hdot hdots _ next hnext target htarget h =>
      simp only [if_neg hdot, if_neg hdots, hnext, htarget, reduceCtorEq, and_false, if_false]
      exact hk _ _ h
    | into hdot hdots hrest next hnext hdirectory h =>
      simp only [if_neg hdot, if_neg hdots, hnext, hdirectory, if_neg hrest, reduceCtorEq,
        and_false, if_false]
      exact ih h

/-- If no link is in the way, it does not matter whether the last one would be followed. -/
theorem resolve_following {d place : Location} {n : String} (hplace : child d n = .ok place)
    (hlink : ∀ target, f.found? place ≠ some (.link target)) (links : Nat) :
    ∀ l cs, f.resolve false links l cs = .ok (.name d n) →
      f.resolve true links l cs = .ok (.name d n) := by
  induction links with
  | zero => exact fun l cs => walk_following hplace hlink (fun _ _ h => by cases h) cs
  | succ links ih => exact fun l cs => walk_following hplace hlink ih cs

/-- A walk that follows all links does not end at one. -/
theorem entry_of_walk {place : Location} (hgoal : goal.location = .ok place)
    (hk : ∀ l cs, Standing f l → k l cs = .ok goal →
      ∀ target, f.found? place ≠ some (.link target)) (cs : List String) :
    ∀ {l : Location}, Standing f l → f.walk true k l cs = .ok goal →
      ∀ target, f.found? place ≠ some (.link target) := by
  induction cs with
  | nil =>
    intro l hl h target
    cases h
    cases hgoal
    rw [hl _ List.prefix_rfl]
    exact nofun
  | cons n rest ih =>
    intro l hl h
    cases turn_of_walk h with
    | stay _ h => exact ih hl h
    | back _ h => exact ih (hl.of_prefix (List.dropLast_prefix l)) h
    | ends _ _ _ hends hlink =>
      cases hends
      exact hlink rfl place hgoal
    | link _ _ _ _ _ target _ h => exact hk _ _ (hl.start target) h
    | into _ _ _ _ hnext hdirectory h => exact ih (hl.child hnext hdirectory) h

/-- Where links are followed to the end there is no link. -/
theorem entry_of_resolve {place : Location} (hgoal : goal.location = .ok place) (links : Nat) :
    ∀ l cs, Standing f l → f.resolve true links l cs = .ok goal →
      ∀ target, f.found? place ≠ some (.link target) := by
  induction links with
  | zero => exact fun l cs => entry_of_walk hgoal (fun _ _ _ h => by cases h) cs
  | succ links ih => exact fun l cs => entry_of_walk hgoal ih cs

/-- A composition succeeds if both parts do. -/
theorem of_bind_ok {α β : Type} {x : Except FileError α} {k : α → Except FileError β} {b : β}
    (h : x >>= k = .ok b) : ∃ a, x = .ok a ∧ k a = .ok b := by
  cases x with
  | error e => cases h
  | ok a => exact ⟨a, rfl, h⟩

/-- A path names a place only if it says a name at its end. -/
theorem of_entryAt_ok (h : f.entryAt p = .ok l) :
    ∃ d n, f.follow false p = .ok (.name d n) ∧ child d n = .ok l := by
  obtain ⟨goal, hgoal, h⟩ := of_bind_ok h
  cases goal with
  | directory d => cases h
  | name d n =>
    dsimp only at h
    split_ifs at h
    exact ⟨d, n, hgoal, h⟩

/-- A path is followed by resolving its components. -/
theorem resolve_of_follow (h : f.follow last p = .ok goal) :
    f.resolve last mostLinks (Files.start f.here p) (components p) = .ok goal := by
  unfold follow at h
  split_ifs at h
  exact h

/-- A path that says a name at its end names a place of that name. -/
theorem getLast?_of_entryAt {n : List Char} (hn : Path.fileName? p.toList = some n)
    (hl : f.entryAt p = .ok l) : l.getLast? = some (String.ofList n) := by
  obtain ⟨d, m, hfollow, hchild⟩ := of_entryAt_ok hl
  obtain ⟨hlast, hdot⟩ := getLast?_of_resolve _ _ _ (resolve_of_follow hfollow)
  obtain ⟨front, dots, hdots, hparts⟩ := Path.parts_of_fileName? hn
  have hcomponents : components p =
      front.map String.ofList ++ String.ofList n :: dots.map String.ofList := by
    rw [components, ← Path.parts, hparts, List.map_append, List.map_cons]
  rw [child_eq_ok hchild, List.getLast?_concat, ← hlast, hcomponents]
  -- behind the name there is no dot, since the path would not end with a name
  cases hd : dots.reverse with
  | nil => simp [List.reverse_eq_nil_iff.1 hd]
  | cons dot others =>
    have hdot' : dot = ['.'] := hdots dot (List.mem_reverse.1 (by simp [hd]))
    obtain rfl : dots = others.reverse ++ [dot] := by simpa using congrArg List.reverse hd
    have hconcat : components p = (front.map String.ofList ++
        String.ofList n :: others.reverse.map String.ofList) ++ [String.ofList dot] := by
      rw [hcomponents]
      simp
    rw [hconcat, List.getLast?_concat, hdot'] at hlast
    exact absurd ((Option.some.inj hlast).symm.trans (by decide)) hdot

/-- A path leads to the place that it names, unless a link stands there. -/
theorem locate_of_entryAt (hl : f.entryAt p = .ok l)
    (hlink : ∀ target, f.found? l ≠ some (.link target)) : f.locate p = .ok l := by
  obtain ⟨d, n, hfollow, hchild⟩ := of_entryAt_ok hl
  have hresolve := resolve_following hchild hlink _ _ _ (resolve_of_follow hfollow)
  have hfollow' : f.follow true p = .ok (.name d n) := by
    unfold follow at hfollow ⊢
    split_ifs at hfollow ⊢
    exact hresolve
  rw [locate, hfollow']
  exact hchild

/-- All links are followed on the way to where a path leads. -/
theorem entry_of_locate (hl : f.locate p = .ok l) (target : String) :
    f.found? l ≠ some (.link target) := by
  obtain ⟨goal, hgoal, hlocation⟩ := of_bind_ok hl
  exact entry_of_resolve hlocation _ _ _ ((standing_here f).start p)
    (resolve_of_follow hgoal) target

/-! ## Operations -/

/-- A file in another's place, or in an empty one, leaves the ways of all paths alone. -/
theorem written_put (hdirectory : f.found? l ≠ some .directory)
    (hlink : ∀ target, f.found? l ≠ some (.link target)) (bytes : List UInt8) :
    f.view.Written (f.put l (.file bytes)).view l bytes := by
  have hsame : SameWays (f.put l (.file bytes)) f := by
    refine ⟨rfl, fun l' => ?_, fun l' target => ?_⟩
    · rw [found?_put hdirectory]
      grind
    · rw [found?_put hdirectory]
      grind
  constructor
  case entry_same =>
    rintro l' (rfl | hshares)
    · rw [view_entry, found?_put hdirectory, if_pos rfl]
    · exact hshares.elim
  case entry_apart =>
    intro l' hapart
    rw [view_entry, found?_put hdirectory, if_neg (Ne.symm hapart.1), view_entry]
  case names_eq => exact hsame.names
  case leads_eq => exact hsame.leads
  case shares_of => exact fun _ _ h => h
  case frees_new => exact fun _ => ⟨.file bytes, by rw [found?_put hdirectory, if_pos rfl], nofun⟩

/-- Only files are read. -/
theorem of_read_ok (h : f.read p = .ok bytes) :
    ∃ l, f.locate p = .ok l ∧ f.found? l = some (.file bytes) := by
  obtain ⟨l, hl, h⟩ := of_bind_ok h
  refine ⟨l, hl, ?_⟩
  split at h
  · cases h
  · cases h
  · next he =>
    split_ifs at h
    cases h
    exact he
  · cases h

/-- A file is created where there is no directory. -/
theorem of_create_ok (h : f.create p bytes = .ok g) :
    ∃ l, f.locate p = .ok l ∧ f.found? l ≠ some .directory ∧ g = f.put l (.file bytes) := by
  obtain ⟨goal, hgoal, h⟩ := of_bind_ok h
  cases goal with
  | directory l => cases h
  | name l n =>
    dsimp only at h
    split_ifs at h
    obtain ⟨place, hplace, h⟩ := of_bind_ok h
    have hlocate : f.locate p = .ok place := by
      rw [locate, hgoal]
      exact hplace
    refine ⟨place, hlocate, ?_⟩
    split at h
    · cases h
    · cases h
    · next hfile =>
      cases h
      exact ⟨by simp [hfile], rfl⟩
    · next hnone =>
      cases h
      exact ⟨by simp [hnone], rfl⟩

/-- What is renamed is no directory, and neither is what it replaces. -/
theorem of_rename_ok {q : String} (h : f.rename p q = .ok g) :
    ∃ l l' e, f.entryAt p = .ok l ∧ f.entryAt q = .ok l' ∧ f.found? l = some e ∧
      e ≠ .directory ∧ f.found? l' ≠ some .directory ∧ g = (f.erase l).put l' e := by
  obtain ⟨l, hl, h⟩ := of_bind_ok h
  obtain ⟨l', hl', h⟩ := of_bind_ok h
  split at h
  · cases h
  · cases h
  · cases h
  · next e hdirectory hdirectory' he =>
    cases h
    exact ⟨l, l', e, hl, hl', hdirectory', hdirectory, he, rfl⟩

/-- What a path names is taken away if it is a file or a link. -/
theorem cleared_remove (f : Files) (p : String) :
    f.view.Cleared (f.attempt (f.remove p)).2.view p := by
  unfold remove
  cases hl : f.entryAt p with
  | error e =>
    refine .inl ⟨rfl, fun l h => ?_⟩
    cases hl.symm.trans (view_names_iff.1 h)
  | ok l =>
    have hnames : l ∈ f.view.names p := view_names_iff.2 hl
    have hstays (hfrees : ¬ f.view.frees l) : ∀ l' ∈ f.view.names p, ¬ f.view.frees l' := by
      intro l' h'
      cases Option.some.inj (hnames.symm.trans h')
      exact hfrees
    simp only [bind, Except.bind]
    split
    · next hnone => exact .inl ⟨rfl, hstays fun ⟨e, he, _⟩ => by simp [hnone] at he⟩
    · next hdirectory =>
      refine .inl ⟨rfl, hstays fun ⟨e, he, hne⟩ => hne ?_⟩
      exact Option.some.inj (he.symm.trans hdirectory)
    · next e hne he =>
      have hdirectory : f.found? l ≠ some .directory := by simpa [he] using hne
      refine .inr ⟨l, hnames, ?_, fun l' hne => ?_⟩
      · exact (found?_erase hdirectory).trans (if_pos rfl)
      · exact (found?_erase hdirectory).trans (if_neg hne)

/-- An operation that succeeds leaves the tree that it makes. -/
theorem of_attempt_ok {ε : Type} {x : Except ε Files} (h : f.attempt x = (.ok (), g)) :
    x = .ok g := by
  cases x with
  | error e => cases h
  | ok changed =>
    cases h
    rfl

/-- An operation that fails leaves the tree as it was. -/
theorem of_attempt_error {ε : Type} {x : Except ε Files} {e : ε}
    (h : f.attempt x = (.error e, g)) : x = .error e ∧ g = f := by
  cases x with
  | error e =>
    cases h
    exact ⟨rfl, rfl⟩
  | ok changed => cases h

/-- A tree of files behaves as its view says. -/
instance fileTree : FileTree Files Location where
  view := view
  name l := (l.getLast?.getD "").toList
  name_of_names hn hl := by simp [getLast?_of_entryAt hn (view_names_iff.1 hl)]
  leads_of_names hl hlink := view_leads_iff.2 (locate_of_entryAt (view_names_iff.1 hl) hlink)
  entry_of_leads hl := entry_of_locate (view_leads_iff.1 hl)
  entry_of_shares h := h.elim
  read_view h := by cases h; rfl
  read_ok h := by
    obtain ⟨l, hl, he⟩ := of_read_ok (congrArg Prod.fst h)
    rw [FileView.content, view_leads_iff.2 hl]
    exact he
  create_ok {s t p bytes} h := by
    have hmap := of_attempt_ok (f := s) h
    cases hcreate : s.create p bytes with
    | error e => simp [hcreate, Except.mapError] at hmap
    | ok g =>
      rw [hcreate] at hmap
      cases hmap
      obtain ⟨l, hl, hdirectory, rfl⟩ := of_create_ok hcreate
      exact ⟨l, view_leads_iff.2 hl, written_put hdirectory (entry_of_locate hl) bytes⟩
  create_opening {s t p bytes e} h := by rw [(of_attempt_error (f := s) h).2]
  create_writing {s t p bytes e} h := by
    have hmap := (of_attempt_error (f := s) h).1
    cases hcreate : s.create p bytes <;> simp [hcreate, Except.mapError] at hmap
  rename_ok {s t p q} h := by
    obtain ⟨l, l', e, hl, hl', he, hne, hdirectory, rfl⟩ := of_rename_ok (of_attempt_ok (f := s) h)
    have herase : s.found? l ≠ some .directory := by simpa [he] using hne
    have hput : (s.erase l).found? l' ≠ some .directory := by
      rw [found?_erase herase]
      split_ifs
      · exact nofun
      · exact hdirectory
    refine ⟨l, view_names_iff.2 hl, l', view_names_iff.2 hl', e, he, ?_, fun o ho ho' => ?_⟩
    · rw [view_entry, found?_put hput, if_pos rfl]
    · rw [view_entry, found?_put hput, if_neg ho', found?_erase herase, if_neg ho, view_entry]
  rename_error {s t p q e} h := by rw [(of_attempt_error (f := s) h).2]
  remove_view {s t p r} h := by
    obtain rfl : t = (s.attempt (s.remove p)).2 := (congrArg Prod.snd h).symm
    exact cleared_remove s p
  print_view h := by cases h; rfl

end Files

end OnePass
