import Xv6.Vm.ExecImage

/-!
# The stack of a new program

`exec` pushes the arguments from the end of the last page downwards, and then the words
that `main` expects.  It never compares the stack pointer with the start of that page.
What stops it is the page below, which the user may not access: what is pushed ends less
than a word below what was pushed before, so that it cannot jump over that page
(`stack_room`), and `copyout` fails there.
-/

namespace Xv6.Vm

open Allocation Logic

variable {lay : Layout} {v v' : View Frame Page Curproc} {d sz : ℕ} {F : Multiset Frame}
variable {m₀ : Frame → Page} {panics : View Frame Page Curproc → Prop} {enough : ℕ}
variable {answers : Reply → Prop} {f g : ℕ → ℕ} {opened : ℕ → Bool}
variable {argv : List (List ℕ)} {ustack addrs : List ℕ} {lo hi sp sp' len k : ℕ}

/-! ## Room on the stack -/

/-- Each of the strings stands at its address, below the one before it, from `hi` down to
`lo`. -/
def Stacked (f : ℕ → ℕ) (lo : ℕ) : List (List ℕ) → List ℕ → ℕ → Prop
  | [], [], hi => lo ≤ hi
  | s :: strs, a :: addrs, hi =>
      a + (s.length + 1) ≤ hi ∧ (∀ i ≤ s.length, f (a + i) = stringBytes s i % 256) ∧
        Stacked f lo strs addrs a
  | [], _ :: _, _ => False
  | _ :: _, [], _ => False

theorem Stacked.le (h : Stacked f lo argv addrs hi) : lo ≤ hi := by
  induction argv generalizing addrs hi with
  | nil =>
      cases addrs with
      | nil => exact h
      | cons => exact h.elim
  | cons s strs ih =>
      cases addrs with
      | nil => exact h.elim
      | cons a addrs =>
          have hrest := ih h.2.2
          have hroom := h.1
          omega

theorem Stacked.length_eq (h : Stacked f lo argv addrs hi) : addrs.length = argv.length := by
  induction argv generalizing addrs hi with
  | nil =>
      cases addrs with
      | nil => rfl
      | cons => exact h.elim
  | cons s strs ih =>
      cases addrs with
      | nil => exact h.elim
      | cons a addrs => rw [List.length_cons, List.length_cons, ih h.2.2]

/-- Only the bytes between the ends matter. -/
theorem Stacked.congr (h : Stacked f lo argv addrs hi)
    (hfg : ∀ a, lo ≤ a → a < hi → g a = f a) : Stacked g lo argv addrs hi := by
  induction argv generalizing addrs hi with
  | nil =>
      cases addrs with
      | nil => exact h
      | cons => exact h.elim
  | cons s strs ih =>
      cases addrs with
      | nil => exact h.elim
      | cons a addrs =>
          obtain ⟨hroom, hbytes, hrest⟩ := h
          have hle := hrest.le
          refine ⟨hroom, fun i hi => ?_, ih hrest fun b hlo hhi => hfg b hlo (by omega)⟩
          rw [hfg _ (by omega) (by omega), hbytes i hi]

/-- What `main` finds at its stack pointer. -/
structure ArgFrame (f : ℕ → ℕ) (argv : List (List ℕ)) (addrs : List ℕ) (esp hi : ℕ) : Prop where
  ret : wordAt f esp = 0xffffffff
  argc : wordAt f (esp + 4) = argv.length
  vector : wordAt f (esp + 8) = esp + 12
  pointers : ∀ i < argv.length, wordAt f (esp + 12 + 4 * i) = addrs.getD i 0
  last : wordAt f (esp + 12 + 4 * argv.length) = 0
  strings : Stacked f (esp + 12 + 4 * (argv.length + 1)) argv addrs hi

/-- What is known of an address space stays true while its pages stay as they are. -/
theorem NewImage.kept {m : Frame → Page} (h : NewImage lay m₀ v d F sz f opened)
    (hm : ∀ p ∈ space v.mem d, m p = v.mem p) :
    (∀ a < npages sz * PGSIZE, ubyte m d a = f a) ∧
      ∀ u < npages sz, Accessible m d u ↔ opened u = true := by
  have hpte : ∀ u < npages sz, pte m d u = pte v.mem d u := fun u hu =>
    pte_congr (hm d dir_mem_space)
      (fun q hq => hm q (mem_space.mpr (Or.inr (Or.inl hq)))) ((h.page_lt hu).trans userPages_lt)
  refine ⟨fun a ha => ?_, fun u hu => ?_⟩
  · have hu := lt_pages_of_lt.mpr ha
    have hpage := hm _ (mem_space.mpr (Or.inr (Or.inr (h.building.user_mem hu))))
    rw [ubyte, hpte _ hu, hpage]
    exact h.bytes a ha
  · rw [Accessible, hpte u hu, h.user u hu]
    exact and_iff_right (h.present hu)

/-- The bytes that matter to the words on the stack. -/
theorem ArgFrame.congr {esp : ℕ} (h : ArgFrame f argv addrs esp hi)
    (hfg : ∀ a, esp ≤ a → a < hi → g a = f a) : ArgFrame g argv addrs esp hi := by
  have hle := h.strings.le
  have hword : ∀ i, i ≤ 12 + 4 * argv.length → wordAt g (esp + i) = wordAt f (esp + i) :=
    fun i hi => wordAt_congr fun j hj => hfg _ (by omega) (by omega)
  refine ⟨?_, ?_, ?_, fun i hi => ?_, ?_, h.strings.congr fun a hlo hhi => hfg a (by omega) hhi⟩
  · exact (hword 0 (by omega)).trans h.ret
  · exact (hword 4 (by omega)).trans h.argc
  · exact (hword 8 (by omega)).trans h.vector
  · have hpointer := hword (12 + 4 * i) (by omega)
    rw [← Nat.add_assoc] at hpointer
    exact hpointer.trans (h.pointers i hi)
  · have hlast := hword (12 + 4 * argv.length) le_rfl
    rw [← Nat.add_assoc] at hlast
    exact hlast.trans h.last

end Xv6.Vm
