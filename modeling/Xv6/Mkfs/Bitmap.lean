import Xv6.Mkfs.Contents

/-!
# The start and the end of an image

`format` leaves an image without inodes.  At the end the root directory gets its size, and
`balloc` writes the bitmap: byte `k` of it has ones for the blocks in use among the eight
that it stands for.
-/

namespace Xv6.Mkfs

open Files Faulting

variable {s t : State} {E : Fault → State → Prop} {content : ℕ → List Byte} {b k n : ℕ}

/-! ## `format` -/

/-- The first sectors have been zeroed. -/
structure Zeroing (i : ℕ) (s : State) : Prop where
  image : s.image = fun _ => zeroes
  sectors : s.sectors = i
  freeinode : s.freeinode = 1
  freeblock : s.freeblock = nmeta
  writes : ∀ w ∈ s.writes, w.1 = .zeroes ∧ w.2 < FSSIZE

theorem Zeroing.step {i : ℕ} (h : Zeroing i s) (hi : i < FSSIZE) :
    Meets E (wsect .zeroes i zeroes) (fun _ t => Zeroing (i + 1) t) s := by
  rw [wsect, meets_modify, seek_of_lt_FSSIZE hi]
  refine ⟨?_, ?_, h.freeinode, h.freeblock, fun w hw => ?_⟩
  · show Function.update s.image i zeroes = _
    rw [h.image]
    exact Function.update_eq_self i (fun _ => zeroes)
  · show max s.sectors (i + 1) = i + 1
    rw [h.sectors]
    omega
  · rcases List.mem_cons.mp hw with rfl | hw
    · exact ⟨rfl, hi⟩
    · exact h.writes w hw

theorem Zeroing.loop (h : Zeroing 0 s) (hn : n ≤ FSSIZE) :
    Meets E ((List.range n).forM fun i => wsect .zeroes i zeroes) (fun _ t => Zeroing n t) s :=
  meets_forM_range h fun _ _ hi ht => ht.step (hi.trans_le hn)

/-- All sectors have been zeroed, and the superblock is written. -/
theorem Zeroing.laid (h : Zeroing FSSIZE s) (buf : Block) :
    Laid (fun _ => []) (s.write .superblock 1 buf) := by
  have hnone : ∀ i, (s.write .superblock 1 buf).disk.dinode i = zeroDinode := fun i => by
    refine if_neg ?_
    have hfree : (s.write .superblock 1 buf).freeinode = 1 := h.freeinode
    omega
  have hplace : ∀ q, (s.write .superblock 1 buf).disk.place q = 0 := fun q => by
    refine place_of_free ?_
    rw [hnone]
    rfl
  have hfreeblock : (s.write .superblock 1 buf).freeblock = nmeta := h.freeblock
  have hallows : Separate s.writes := by
    refine ⟨fun w hw => ?_, ?_⟩
    · rw [(h.writes w hw).1]
      exact (h.writes w hw).2
    · exact List.Pairwise.imp_of_mem (fun _ hw _ _ => (h.writes _ hw).1)
        (List.pairwise_of_forall (R := fun _ _ => True) fun _ _ => trivial)
  refine ⟨⟨h.sectors, ?_, hfreeblock.ge, ?_, fun b hb => ?_, hallows.cons rfl (by decide)⟩, ?_,
    ⟨⟨fun q hq => absurd (hplace q) hq, fun q _ hq => absurd (hplace q) hq, fun b hlo _ => ?_⟩,
      fun b hb => ?_⟩, fun i hpos hi => ?_, ?_, fun _ _ => rfl⟩
  · rw [show (s.write .superblock 1 buf).freeinode = 1 from h.freeinode]
    decide
  · rw [hfreeblock]
    decide
  · have hne : b ≠ 1 := by
      have hnmeta : nmeta = 59 := rfl
      omega
    refine (Function.update_of_ne hne ..).trans ?_
    rw [h.image]
  · rw [show (s.write .superblock 1 buf).freeinode = 1 from h.freeinode]
    exact Nat.one_pos
  · have hlo : nmeta ≤ b := hlo
    have hclear : (s.write .superblock 1 buf).disk.bitmap b = false :=
      decide_eq_false (by omega)
    rw [hclear]
    refine iff_of_false Bool.false_ne_true ?_
    rintro ⟨q, hq⟩
    rw [hplace] at hq
    have hnmeta : nmeta = 59 := rfl
    omega
  · have hb : b < nmeta := hb
    exact decide_eq_true (by omega)
  · have hfree : (s.write .superblock 1 buf).freeinode = 1 := h.freeinode
    omega
  · rw [hfreeblock, show (s.write .superblock 1 buf).freeinode = 1 from h.freeinode, used,
      Finset.Ico_self, Finset.sum_empty, Nat.add_zero]

theorem meets_format {Q : PUnit → State → Prop}
    (hQ : ∀ t, Laid (fun _ => []) t → t.freeinode = 1 → Q ⟨⟩ t) : Meets E format Q start := by
  have hzero : Zeroing 0 { start with freeblock := nmeta } :=
    ⟨rfl, rfl, rfl, rfl, fun w hw => absurd hw List.not_mem_nil⟩
  unfold format
  rw [meets_bind, meets_modify, meets_bind]
  generalize hn : FSSIZE = n  -- else the loop is unrolled
  refine (hzero.loop hn.ge).mono fun _ t ht => ?_
  rw [← hn] at ht
  refine meets_wsect ht.sectors (by decide) ?_
  exact hQ _ (ht.laid _) ht.freeinode

/-! ## The bytes of the bitmap -/

/-- The number of ones in byte `k`. -/
def ones (used k : ℕ) : ℕ := min 8 (used - 8 * k)

theorem setBit_ones : ∀ r < 8,
    UInt8.ofNat (2 ^ r - 1) ||| 1 <<< UInt8.ofNat r = UInt8.ofNat (2 ^ (r + 1) - 1) := by
  decide

theorem test_ones : ∀ m ≤ 8, ∀ r < 8,
    (UInt8.ofNat (2 ^ m - 1) &&& 1 <<< UInt8.ofNat r ≠ 0) = (r < m) := by
  decide

theorem bits_eq (used k : ℕ) : bits used k = UInt8.ofNat (2 ^ ones used k - 1) := by
  induction used with
  | zero => simp [bits, ones]
  | succ used ih =>
      have hstep : bits (used + 1) = setBit (bits used) used := by
        rw [bits, bits, List.range_succ, List.foldl_append, List.foldl_cons, List.foldl_nil]
      rw [hstep, setBit]
      by_cases hk : k = used / 8
      · subst hk
        have hbefore : ones used (used / 8) = used % 8 := by unfold ones; omega
        have hafter : ones (used + 1) (used / 8) = used % 8 + 1 := by unfold ones; omega
        rw [Function.update_self, ih, hbefore, hafter]
        exact setBit_ones _ (Nat.mod_lt _ (by decide))
      · have hsame : ones (used + 1) k = ones used k := by unfold ones; omega
        rw [Function.update_of_ne hk, ih, hsame]

/-! ## What the kernel sees -/

/-- The kernel's test of a bit: `bp->data[bi/8] & (1 << (bi % 8))`. -/
def bitAt (image : ℕ → Block) (b : ℕ) : Bool :=
  image (b / (BSIZE * 8) + bmapstart) (b % (BSIZE * 8) / 8) &&& 1 <<< UInt8.ofNat (b % 8) ≠ 0

/-- The image as the kernel reads it. -/
def kernelDisk (image : ℕ → Block) : Disk where
  bitmap := bitAt image
  dinode := dinodeAt image
  block := image

theorem bitAt_eq {image : ℕ → Block} {used : ℕ} (h : image bmapstart = bits used)
    (hb : b < BSIZE * 8) : bitAt image b = decide (b < used) := by
  have hblock : b / (BSIZE * 8) + bmapstart = bmapstart := by
    rw [Nat.div_eq_of_lt hb, Nat.zero_add]
  have htest := test_ones (ones used (b / 8)) (Nat.min_le_left ..) (b % 8)
    (Nat.mod_lt _ (by decide))
  rw [bitAt, hblock, h, Nat.mod_eq_of_lt hb, bits_eq]
  refine decide_eq_decide.mpr ((iff_of_eq htest).trans ?_)
  unfold ones
  omega

/-! ## The end -/

/-- The size of the root directory in the end. -/
def roundUp (size : ℕ) : ℕ := uint ((size / BSIZE + 1) * BSIZE)

/-- The state after `fixRoot` and `balloc`. -/
structure Finished (s t : State) : Prop where
  ready : Ready t
  disk : t.disk = s.disk.resize ROOTINO (roundUp (s.disk.dinode ROOTINO).size)
  freeinode : t.freeinode = s.freeinode
  freeblock : t.freeblock = s.freeblock
  bitmap : t.image bmapstart = bits s.freeblock

/-- The bitmap is in none of the other areas. -/
theorem disk_write_bitmap {buf : Block} (hslots : s.freeinode ≤ slots) :
    (s.write .bitmap bmapstart buf).disk = s.disk := by
  have hdinode : (s.write .bitmap bmapstart buf).disk.dinode = s.disk.dinode := by
    funext i
    by_cases hi : 0 < i ∧ i < s.freeinode
    · have hbounds := IBLOCK_bounds (hi.2.trans_le hslots)
      refine (if_pos hi).trans (Eq.trans ?_ (if_pos hi).symm)
      exact congrArg (getDinode · (i % IPB)) (Function.update_of_ne hbounds.2.ne ..)
    · exact (if_neg hi).trans (if_neg hi).symm
  have hblock : (s.write .bitmap bmapstart buf).disk.block = s.disk.block := by
    funext b
    by_cases hb : nmeta ≤ b
    · have hne : b ≠ bmapstart := (bmapstart_lt.trans_le hb).ne'
      exact congrArg (ite (nmeta ≤ b) · zeroes) (Function.update_of_ne hne ..)
    · exact (if_neg hb).trans (if_neg hb).symm
  exact congrArg₂ (Disk.mk _) hdinode hblock

theorem meets_balloc {Q : PUnit → State → Prop} (hsectors : s.sectors = FSSIZE)
    (hblocks : s.freeblock ≤ FSSIZE)
    (hQ : Q ⟨⟩ (s.write .bitmap bmapstart (bits s.freeblock))) :
    Meets E (balloc s.freeblock) Q s := by
  have hlt : s.freeblock < BSIZE * 8 := hblocks.trans_lt (by decide)
  rw [balloc, if_pos hlt]
  exact meets_wsect hsectors (by decide) hQ

theorem Laid.meets_finish {Q : PUnit → State → Prop} (h : Laid content s)
    (hroot : ROOTINO < s.freeinode) (hQ : ∀ t, Finished s t → Q ⟨⟩ t) :
    Meets E (fixRoot ROOTINO >>= fun _ => get >>= fun s => balloc s.freeblock) Q s := by
  have hinum : 0 < ROOTINO ∧ ROOTINO < s.freeinode := ⟨by decide, hroot⟩
  have hfits := disk_fits hinum
  have hround : roundUp (s.disk.dinode ROOTINO).size < 2 ^ 32 := Nat.mod_lt _ (by decide)
  rw [meets_bind, fixRoot, meets_bind]
  refine meets_rinode h.ready hinum ?_
  refine meets_winode h.ready hinum ⟨hround, hfits.addrs, hfits.rest⟩
    fun t ht hdisk hfree hblocks => ?_
  rw [meets_bind, meets_get]
  refine meets_balloc ht.sectors ht.le_FSSIZE ?_
  have hle := ht.nmeta_le
  refine hQ _ ⟨ht.write (bmapstart_lt.trans_le hle) rfl (by decide), ?_, hfree, hblocks, ?_⟩
  · rw [disk_write_bitmap ht.slots, hdisk]
    rfl
  · rw [← hblocks]
    exact write_self ..

end Xv6.Mkfs
