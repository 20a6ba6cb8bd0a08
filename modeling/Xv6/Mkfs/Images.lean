import Xv6.Mkfs.Counters

/-!
# Which images are good

Three properties of an image that `main` has made, and how many files there may be for
them.  The superblock says that there are `NINODES` inodes, so the numbers are below that
for fewer files than there is room for inodes.  The rounding of the size of the root
directory adds a block that does not exist if the entries fill the last block.  And with
too many files an inode is in the bitmap, where the ones are taken for a size.
-/

namespace Xv6.Mkfs

open Files Faulting

variable {s t : State} {content : ℕ → List Byte} {i k n : ℕ} {files : List HostFile}

/-- The inodes and their blocks are in their areas, and what is in these areas is theirs. -/
structure Consistent (t : State) : Prop where
  inode : ∀ inum, 0 < inum → inum < t.freeinode →
    inum < sb.ninodes ∧ inodestart ≤ IBLOCK inum ∧ IBLOCK inum < bmapstart
  block : ∀ inum slot, 0 < inum → inum < t.freeinode →
    (dinodeAt t.image inum).slot t.image slot ≠ 0 →
    sb.dataStart ≤ (dinodeAt t.image inum).slot t.image slot ∧
      (dinodeAt t.image inum).slot t.image slot < sb.size
  separate : Separate t.writes

/-- There is a block wherever an inode has bytes, and so the kernel reads without taking one. -/
structure WithoutHoles (t : State) : Prop where
  block : ∀ inum, 0 < inum → inum < t.freeinode →
    ∀ bn < ((dinodeAt t.image inum).size + (BSIZE - 1)) / BSIZE,
      bn < MAXFILE ∧ (dinodeAt t.image inum).addr t.image bn ≠ 0
  reads : ∀ inum, 0 < inum → inum < t.freeinode →
    ∀ (kernel : Kernel) (ip off n : ℕ) (devsw : Devsw), kernel.disk = kernelDisk t.image →
      (kernel.icache ip).inum = inum → kernel.Coherent ip → off < 2 ^ 32 → n < 2 ^ 32 →
      Meets (fun _ _ => False) (readi sb devsw ip off n) (fun _ kernel' => kernel' = kernel) kernel

/-! ## Numbers of inodes -/

theorem Finished.consistent (hend : Finished s t) (h : Laid content s)
    (hn : s.freeinode ≤ NINODES) :
    Consistent t where
  inode inum hpos hi := by
    rw [hend.freeinode] at hi
    exact ⟨hi.trans_le hn, IBLOCK_bounds (hi.trans_le h.ready.slots)⟩
  block inum slot hpos hi hslot := by
    have hi' := hi
    rw [hend.freeinode] at hi'
    have hok := hend.ok h
    have htype : (t.disk.dinode inum).type ≠ 0 := by
      rw [disk_dinode ⟨hpos, hi⟩, hend.type ⟨hpos, hi'⟩]
      exact (h.holds inum hpos hi').type.1
    rw [slot_image hok ⟨hpos, hi⟩ htype] at hslot ⊢
    exact hok.marked.range _ hslot
  separate := hend.ready.separate

theorem Finished.size_root (hend : Finished s t) (h : Laid content s)
    (hroot : ROOTINO < s.freeinode) (hsmall : (content ROOTINO).length ≤ MAXFILE * BSIZE) :
    (dinodeAt t.image ROOTINO).size = ((content ROOTINO).length / BSIZE + 1) * BSIZE := by
  have hlt : ((content ROOTINO).length / BSIZE + 1) * BSIZE < 2 ^ 32 := by
    unfold MAXFILE NDIRECT NINDIRECT BSIZE at *
    omega
  rw [hend.dinode_root hroot]
  show roundUp (s.disk.dinode ROOTINO).size = _
  rw [(h.holds ROOTINO (by decide) hroot).size, roundUp, uint, Nat.mod_eq_of_lt hlt]

/-- The addresses in the image are those that there were at the end of the loop over the files. -/
theorem Finished.addr (hend : Finished s t) (h : Laid content s) (hi : 0 < i ∧ i < s.freeinode)
    {bn : ℕ} (hbn : bn < MAXFILE) :
    (dinodeAt t.image i).addr t.image bn = s.disk.number i bn := by
  have hi' : 0 < i ∧ i < t.freeinode := by
    rw [hend.freeinode]
    exact hi
  have htype : (t.disk.dinode i).type ≠ 0 := by
    rw [disk_dinode hi', hend.type hi]
    exact (h.holds i hi.1 hi.2).type.1
  rw [addr_image (hend.ok h) hi' htype hbn, hend.disk]
  exact number_congr place_resize i bn

/-- The root directory has no more blocks than its entries need. -/
theorem Finished.blocks (hend : Finished s t) (h : Laid content s)
    (hroot : ROOTINO < s.freeinode) (hragged : (content ROOTINO).length % BSIZE ≠ 0)
    (hi : 0 < i ∧ i < s.freeinode) :
    ∀ bn < ((dinodeAt t.image i).size + (BSIZE - 1)) / BSIZE,
      bn < MAXFILE ∧ (dinodeAt t.image i).addr t.image bn ≠ 0 := by
  intro bn hbn
  have hholds := h.holds i hi.1 hi.2
  have hlen : bn * BSIZE < (content i).length := by
    by_cases hne : i = ROOTINO
    · have hsmall := hholds.tight.size_le
      rw [hne] at hbn hsmall ⊢
      rw [hend.size_root h hroot hsmall] at hbn
      unfold BSIZE at *
      omega
    · rw [hend.dinode_of_ne hi hne, hholds.size] at hbn
      unfold BSIZE at *
      omega
  have hpos := (hholds.tight.data bn).mpr hlen
  have hmax := lt_of_number hpos
  rw [hend.addr h hi hmax]
  exact ⟨hmax, hpos⟩

/-- If the entries fill the last block, the rounding adds one that does not exist. -/
theorem Finished.hole (hend : Finished s t) (h : Laid content s) (hroot : ROOTINO < s.freeinode)
    (hsmall : (content ROOTINO).length < MAXFILE * BSIZE)
    (hfull : (content ROOTINO).length % BSIZE = 0) : ¬WithoutHoles t := by
  intro hwhole
  have hbn : (content ROOTINO).length / BSIZE < MAXFILE := div_lt_MAXFILE hsmall
  have hsize := hend.size_root h hroot hsmall.le
  have hblock := (hwhole.block ROOTINO (by decide) (by rw [hend.freeinode]; exact hroot)
    ((content ROOTINO).length / BSIZE) (by rw [hsize]; unfold BSIZE; omega)).2
  rw [hend.addr h ⟨by decide, hroot⟩ hbn,
    (h.holds ROOTINO (by decide) hroot).tight.data] at hblock
  unfold BSIZE at *
  omega

/-! ## An inode in the bitmap -/

end Xv6.Mkfs
