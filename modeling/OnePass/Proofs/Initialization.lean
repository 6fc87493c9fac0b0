import OnePass.Proofs.Safety

/-!
# Fields before they are ready

The initializer gives fields their arrays one after the other, and calls functions in between. A
function that uses a field of an array before the field has its array finds the word 0 there, and
fails as soon as it takes that for an array.

The one way to this is a static variable whose initialiser calls the function that it stands in,
with a static array behind it: such arrays are the `Program.exposed` ones. Every other field of
an array is ready whenever it is loaded (`initializer_ready_iff`).
-/

namespace OnePass

/-- While the initializer of a run is running, all fields of arrays among `ks` are ready when they
are loaded. -/
def Compilation.ReadyWhenLoaded (c : Compilation) (r : Run) (ks : Set Nat) : Prop :=
  ∀ n p, Run.advance c.image n r = .active p → p.stage = .initializer →
    ∀ k ∈ ks, p.LoadsArray c.tree.fields k → p.store.Ready k

section

variable {name : String} {legacy : Bool} {source : List UInt8} {c : Compilation}

/-- If the exposed fields are ready when they are loaded, all are. -/
theorem readyWhenLoaded_of_exposed (h : compile name legacy source = .ok c)
    (haddr : c.Addressable) {st : Store} (hst : st.AtRest c.image)
    (hexposed : c.ReadyWhenLoaded (Execution.start c.image st) c.tree.exposed) :
    c.ReadyWhenLoaded (Execution.start c.image st) Set.univ := by
  intro n p hp hstage k _ hk
  have hrun := hst.run_fits (compile_typed h haddr) n
  rw [hp] at hrun
  obtain ⟨H, hfits⟩ := hrun
  unfold Execution.Fits at hfits
  rw [hstage] at hfits
  rcases Calls.Fits.ready_or_exposed hfits hk with hready | hk'
  · exact hready
  · exact hexposed n p hp hstage k hk' hk

/-- If the exposed fields are ready when they are loaded, a run does not fail for want of a value
of a kind. -/
theorem not_expected_of_exposed (h : compile name legacy source = .ok c) (haddr : c.Addressable)
    {st : Store} (hst : st.AtRest c.image)
    (hexposed : c.ReadyWhenLoaded (Execution.start c.image st) c.tree.exposed) (n : Nat)
    (kind found : Kind) (st' : Store) : Run.advance c.image n (Execution.start c.image st) ≠
      .done (.error (.expected kind found)) st' := by
  intro hend
  have himage := compile_typed h haddr
  obtain ⟨H, hfits⟩ := hst.fits himage
  have hstart : (Execution.start c.image st).Fits c.tree.plan c.image False :=
    Execution.start_fits himage hfits
  have hrun := hstart.advance himage n fun m p _ hp hstage => .inr (hexposed m p hp hstage)
  rw [hend] at hrun
  exact hrun.2

/-- **Fields are ready when they are loaded, but for exposed ones.** On a fresh machine, fields of
arrays are all ready when the initializer, or what it calls, loads them, and the run does not fail
for want of a value of a kind, exactly if this is so of the exposed fields. The source and its code
are within 32 bits. -/
theorem initializer_ready_iff (h : compile name legacy source = .ok c)
    (hsource : source.length < UInt32.size) (haddr : c.image.Addressable) (input : List UInt8)
    (limit : Option Nat) (random : Random) (caseless : Caseless) :
    let start := Execution.start c.image (.new c.image input limit random caseless)
    (c.ReadyWhenLoaded start Set.univ ∧ ∀ n kind found st,
        Run.advance c.image n start ≠ .done (.error (.expected kind found)) st) ↔
      c.ReadyWhenLoaded start c.tree.exposed := by
  intro start
  have haddr := compile_addressable h hsource haddr
  constructor
  · rintro ⟨hready, -⟩ n p hp hstage k -
    exact hready n p hp hstage k trivial
  · intro hexposed
    exact ⟨readyWhenLoaded_of_exposed h haddr (.new input limit random caseless) hexposed,
      not_expected_of_exposed h haddr (.new input limit random caseless) hexposed⟩

/-- A static array behind a static variable that calls its function: the array is used before it is
ready. -/
theorem exposed_array_not_ready :
    ∃ c, compile "" false ("int f() \x7b static int n : f(); static int a[1]; return a[0]; \x7d " ++
        "int main() \x7b return 0; \x7d").toUTF8.toList = .ok c ∧
      ∃ st, Run.advance c.image 20 (Execution.start c.image (.trial c.image [])) =
        .done (.error (.expected .array .word)) st := by
  obtain ⟨c, hc, haddr, hend⟩ := exists_compilation (q := fun c => (Run.advance c.image 20
    (Execution.start c.image (.trial c.image []))).endsIn (.error (.expected .array .word)))
    (show (compile "" false (
        "int f() \x7b static int n : f(); static int a[1]; return a[0]; \x7d " ++
        "int main() \x7b return 0; \x7d").toUTF8.toList).toOption.any _ = true by decide +kernel)
  exact ⟨c, hc, Run.eq_done_of_endsIn hend⟩

/-- So that array is exposed. -/
theorem initializer_not_ready :
    ∃ c, compile "" false ("int f() \x7b static int n : f(); static int a[1]; return a[0]; \x7d " ++
        "int main() \x7b return 0; \x7d").toUTF8.toList = .ok c ∧
      ¬ c.ReadyWhenLoaded (Execution.start c.image (.trial c.image [])) c.tree.exposed := by
  obtain ⟨c, hc, haddr, hend⟩ := exists_compilation (q := fun c => (Run.advance c.image 20
    (Execution.start c.image (.trial c.image []))).endsIn (.error (.expected .array .word)))
    (show (compile "" false (
        "int f() \x7b static int n : f(); static int a[1]; return a[0]; \x7d " ++
        "int main() \x7b return 0; \x7d").toUTF8.toList).toOption.any _ = true by decide +kernel)
  obtain ⟨st, hst⟩ := Run.eq_done_of_endsIn hend
  refine ⟨c, hc, fun hready => ?_⟩
  exact ((initializer_ready_iff hc (by decide +kernel) haddr [] none _ _).mpr hready).2 20
    .array .word
    st hst

end

end OnePass
