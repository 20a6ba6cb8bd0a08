import Xv6.Vm.ExecClean

/-!
# User memory

What the user addresses of a page directory hold: `ubyte m d a` is the byte at
address `a`, in the page that the entry for `a` names.  No page stands at two
addresses, so that a page that is written to changes the bytes of its own
addresses only (`Copied.page`), and what is written piece by piece adds up
(`Copied.append`).
-/

namespace Xv6.Vm

variable {lay : Layout} {m m' m₁ : Frame → Page} {d u k : ℕ} {va n len : ℕ} {data : ℕ → ℕ}

/-! ## Bytes of a page -/

theorem byte_lt (page : Page) (i : ℕ) : byte page i < 256 := Nat.mod_lt _ (by decide)

theorem wordAt_byte (f : ℕ → ℕ) (i : ℕ) {j : ℕ} (hj : j < 4) :
    wordAt f i / 256 ^ j % 256 = f (i + j) % 256 := by
  have h0 := Nat.mod_lt (f i) (show 0 < 256 by decide)
  have h1 := Nat.mod_lt (f (i + 1)) (show 0 < 256 by decide)
  have h2 := Nat.mod_lt (f (i + 2)) (show 0 < 256 by decide)
  have h3 := Nat.mod_lt (f (i + 3)) (show 0 < 256 by decide)
  rw [wordAt]
  obtain rfl | rfl | rfl | rfl : j = 0 ∨ j = 1 ∨ j = 2 ∨ j = 3 := by omega
  · simp only [pow_zero, Nat.div_one, Nat.add_zero]
    omega
  · omega
  · omega
  · omega

/-- The bytes of a page that has been written to. -/
theorem byte_putBytes (start n : ℕ) (data : ℕ → ℕ) (page : Page) (i : ℕ) :
    byte (putBytes start n data page) i =
      if start ≤ i ∧ i < start + n then data (i - start) % 256 else byte page i := by
  have hi : 4 * (i / 4) + i % 4 = i := Nat.div_add_mod i 4
  have hmod : i % 4 < 4 := Nat.mod_lt i (by decide)
  unfold byte putBytes
  split
  · rename_i hout
    rw [if_neg (by omega)]
  · rw [wordAt_byte _ _ hmod, hi]
    split
    · rfl
    · exact Nat.mod_eq_of_lt (byte_lt page i)

/-! ## Bytes of an address space -/

/-- The byte at user address `a`. -/
def ubyte (m : Frame → Page) (d : Frame) (a : ℕ) : ℕ :=
  byte (m (PTE_ADDR (pte m d (a / PGSIZE)))) (a % PGSIZE)

/-- The user program may read and write the page. -/
def Accessible (m : Frame → Page) (d : Frame) (u : ℕ) : Prop :=
  present (pte m d u) = true ∧ user (pte m d u) = true

instance (m : Frame → Page) (d : Frame) (u : ℕ) : Decidable (Accessible m d u) :=
  inferInstanceAs (Decidable (_ ∧ _))

/-- Different user pages are different pages of memory. -/
theorem user_inj (hnodup : (space m d).Nodup) {u' : ℕ} (hu : u < userPages) (hu' : u' < userPages)
    (hp : present (pte m d u) = true) (hp' : present (pte m d u') = true)
    (heq : PTE_ADDR (pte m d u) = PTE_ADDR (pte m d u')) : u = u' := by
  by_contra hne
  have husers : (users m d).Nodup := by
    rw [space, Multiset.nodup_cons, Multiset.nodup_add] at hnodup
    exact hnodup.2.2.1
  have hsub : ({u, u'} : Finset ℕ) ⊆ Finset.range userPages := by
    intro j hj
    rcases Finset.mem_insert.mp hj with rfl | hj
    · exact Finset.mem_range.mpr hu
    · rw [Finset.mem_singleton.mp hj]
      exact Finset.mem_range.mpr hu'
  have hle : entry (pte m d u) + entry (pte m d u') ≤ users m d := by
    rw [users, ← Finset.sum_pair hne (f := fun j => entry (pte m d j))]
    exact Finset.sum_le_sum_of_subset hsub
  have hpair := Multiset.nodup_of_le hle husers
  rw [entry_of_present hp, entry_of_present hp', heq] at hpair
  simp at hpair

/-- The bytes `[va, va + n)` have become those of `data`, and nothing else has changed. -/
structure Copied (m m' : Frame → Page) (d : Frame) (va n : ℕ) (data : ℕ → ℕ) : Prop where
  dir : m' d = m d
  tables : ∀ p ∈ tables m d, m' p = m p
  bytes : ∀ a < KERNBASE, present (pte m d (a / PGSIZE)) = true →
    ubyte m' d a = if va ≤ a ∧ a < va + n then data (a - va) % 256 else ubyte m d a
  others : ∀ p ∉ users m d, m' p = m p

namespace Copied

theorem pte_eq (h : Copied m m' d va n data) (hu : u < pages) : pte m' d u = pte m d u :=
  pte_congr h.dir h.tables hu

theorem users_eq (h : Copied m m' d va n data) : users m' d = users m d :=
  users_congr fun _ hu => h.pte_eq (hu.trans userPages_lt)

theorem space_eq (h : Copied m m' d va n data) : space m' d = space m d :=
  space_congr h.dir h.tables

theorem refl : Copied m m d va 0 data where
  dir := rfl
  tables _ _ := rfl
  bytes a _ _ := by rw [if_neg (by omega)]
  others _ _ := rfl

theorem append {n' : ℕ} {data' : ℕ → ℕ} (h : Copied m m₁ d va n data)
    (h' : Copied m₁ m' d (va + n) n' data') (hdata : ∀ i, data' i = data (i + n)) :
    Copied m m' d va (n + n') data where
  dir := h'.dir.trans h.dir
  tables p hp := by
    rw [h'.tables p (by rwa [tables_congr h.dir]), h.tables p hp]
  bytes a ha hpresent := by
    have hpage : a / PGSIZE < pages := by
      unfold KERNBASE at ha
      unfold PGSIZE pages
      omega
    rw [h'.bytes a ha (by rwa [h.pte_eq hpage]), h.bytes a ha hpresent]
    by_cases hlo : va ≤ a ∧ a < va + n
    · rw [if_neg (by omega), if_pos hlo, if_pos (by omega)]
    · rw [if_neg hlo]
      by_cases hhi : va + n ≤ a ∧ a < va + n + n'
      · rw [if_pos hhi, if_pos (by omega), hdata]
        congr 2
        omega
      · rw [if_neg hhi, if_neg (by omega)]
  others p hp := by rw [h'.others p (by rwa [h.users_eq]), h.others p hp]

/-- No bytes are the same anywhere. -/
theorem move {va' : ℕ} (h : Copied m m' d va 0 data) : Copied m m' d va' 0 data where
  dir := h.dir
  tables := h.tables
  bytes a ha hpresent := by
    rw [h.bytes a ha hpresent, if_neg (by omega), if_neg (by omega)]
  others := h.others

/-- Bytes are written to one page. -/
theorem page {start : ℕ} (hnodup : (space m d).Nodup) (hk : k < userPages)
    (hpresent : present (pte m d k) = true) (hfit : start + n ≤ PGSIZE) :
    Copied m (Function.update m (PTE_ADDR (pte m d k))
      (putBytes start n data (m (PTE_ADDR (pte m d k))))) d (k * PGSIZE + start) n data := by
  have huser := mem_users hk hpresent
  obtain ⟨hdir, htables⟩ := user_notMem hnodup huser
  generalize hp : PTE_ADDR (pte m d k) = p at huser hdir htables ⊢
  have hd : Function.update m p (putBytes start n data (m p)) d = m d :=
    Function.update_of_ne hdir.symm _ _
  have ht : ∀ q ∈ Vm.tables m d, Function.update m p (putBytes start n data (m p)) q = m q :=
    fun q hq => Function.update_of_ne (by rintro rfl; exact htables hq) _ _
  refine ⟨hd, ht, fun a ha hpa => ?_, fun q hq => ?_⟩
  · have hpage : a / PGSIZE < userPages := by
      unfold KERNBASE at ha
      unfold PGSIZE userPages
      omega
    have hsplit : a / PGSIZE * PGSIZE + a % PGSIZE = a := Nat.div_add_mod' a PGSIZE
    have hlt : a % PGSIZE < PGSIZE := Nat.mod_lt a (by decide)
    rw [ubyte, ubyte, pte_congr hd ht (hpage.trans userPages_lt)]
    by_cases hak : a / PGSIZE = k
    · rw [hak, hp, Function.update_self, byte_putBytes]
      rw [hak] at hsplit
      by_cases hin : start ≤ a % PGSIZE ∧ a % PGSIZE < start + n
      · rw [if_pos hin, if_pos (by omega)]
        congr 2
        omega
      · rw [if_neg hin, if_neg (by omega)]
    · have hne : PTE_ADDR (pte m d (a / PGSIZE)) ≠ p := fun heq =>
        hak (user_inj hnodup hpage hk hpa hpresent (heq.trans hp.symm))
      rw [Function.update_of_ne hne, if_neg]
      rintro ⟨hlo, hhi⟩
      unfold PGSIZE at hak hsplit hlt hfit hlo hhi
      omega
  · exact Function.update_of_ne (by rintro rfl; exact hq huser) _ _

end Copied

end Xv6.Vm
