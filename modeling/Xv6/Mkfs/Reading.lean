import Mathlib.Tactic.IntervalCases
import Xv6.Files.ByteArrays
import Xv6.Mkfs.Bitmap

/-!
# The kernel reads what was written

Any calls of `ialloc` and `iappend`, between the start and the end of `main`: the kernel's
`readi` then returns the bytes that were appended, and the bitmap has exactly the metadata
blocks and the blocks of the inodes.  This needs room for the inodes, which nobody checks.
The inode after the last one that there is room for lies in the bitmap.
-/

namespace Xv6.Mkfs

open Files Faulting

variable {s t : State} {E : Fault → State → Prop} {content : ℕ → List Byte} {image : ℕ → Block}
variable {i k n inum bn : ℕ} {l : List Byte}

def build (calls : List Call) : Program PUnit := do
  format
  let rootino ← ialloc T_DIR
  calls.forM Call.run
  fixRoot rootino
  balloc (← get).freeblock

/-- Reads of these bytes from the image return them, and take no block. -/
def ReadsAs (image : ℕ → Block) (inum : ℕ) (l : List Byte) : Prop :=
  ∀ (kernel : Kernel) (ip off n : ℕ) (devsw : Devsw), kernel.disk = kernelDisk image →
    (kernel.icache ip).inum = inum → kernel.Coherent ip → off + n ≤ l.length →
    Meets (fun _ _ => False) (readi sb devsw ip off n)
      (fun r t => r = ((n : ℤ), (l.drop off).take n) ∧ t = kernel) kernel

/-- The image holds the inodes below `n` with these bytes. -/
structure WrittenAs (n : ℕ) (content : ℕ → List Byte) (image : ℕ → Block) : Prop where
  reads : ∀ inum, 0 < inum → inum < n → ReadsAs image inum (content inum)
  size : ∀ inum, ROOTINO < inum → inum < n →
    (dinodeAt image inum).size = (content inum).length
  bitmap : ∀ b < BSIZE * 8, bitAt image b = true ↔
    b < nmeta ∨ ∃ inum slot, 0 < inum ∧ inum < n ∧ (dinodeAt image inum).slot image slot = b ∧ b ≠ 0

/-! ## Reading -/

theorem disk_dinode (hi : 0 < i ∧ i < s.freeinode) : s.disk.dinode i = dinodeAt s.image i :=
  if_pos hi

theorem disk_block {b : ℕ} (hb : nmeta ≤ b) : s.disk.block b = s.image b := if_pos hb

/-- The places of the inodes are read from the image. -/
theorem slot_image (hok : s.disk.Ok sb) (hi : 0 < i ∧ i < s.freeinode)
    (htype : (s.disk.dinode i).type ≠ 0) (slot : Slot) :
    (dinodeAt s.image i).slot s.image slot = s.disk.place (i, slot) := by
  rw [place_of_type htype, ← disk_dinode hi]
  cases slot with
  | table => rfl
  | data bn =>
      by_cases htable : (s.disk.dinode i).addrs NDIRECT = 0
      · simp only [Dinode.slot, Dinode.addr, htable, if_true]
      · have hpos := hok.pos (q := (i, .table)) (by rwa [place_table htype])
        rw [place_table htype] at hpos
        simp only [Dinode.slot, Dinode.addr, disk_block hpos]

theorem addr_image (hok : s.disk.Ok sb) (hi : 0 < i ∧ i < s.freeinode)
    (htype : (s.disk.dinode i).type ≠ 0) (hbn : bn < MAXFILE) :
    (dinodeAt s.image i).addr s.image bn = s.disk.number i bn := by
  rw [number_of_lt hbn, ← slot_image hok hi htype, Dinode.slot]

/-- The block of a byte, and the byte. -/
theorem byte_image (hok : s.disk.Ok sb) (hi : 0 < i ∧ i < s.freeinode)
    (htype : (s.disk.dinode i).type ≠ 0) (hpos : s.disk.number i (k / BSIZE) ≠ 0) :
    (k / BSIZE < MAXFILE ∧ (dinodeAt s.image i).addr s.image (k / BSIZE) ≠ 0) ∧
      (dinodeAt s.image i).byte s.image k = s.disk.byte i k := by
  have hmax := lt_of_number hpos
  have haddr := addr_image hok hi htype hmax
  have hge : nmeta ≤ s.disk.number i (k / BSIZE) := by
    rw [number_of_lt hmax] at hpos ⊢
    exact hok.pos hpos
  refine ⟨⟨hmax, by rwa [haddr]⟩, ?_⟩
  rw [Dinode.byte, haddr, ← disk_block hge, Disk.byte]

theorem le_roundUp {size : ℕ} (h : size ≤ MAXFILE * BSIZE) : size ≤ roundUp size := by
  have hlt : (size / BSIZE + 1) * BSIZE < 2 ^ 32 := by
    unfold MAXFILE NDIRECT NINDIRECT BSIZE at *
    omega
  rw [roundUp, uint, Nat.mod_eq_of_lt hlt, Nat.succ_mul]
  exact (Nat.lt_div_mul_add (by decide)).le

theorem getD_slice {off n : ℕ} (h : off + n ≤ l.length) :
    ((List.range n).map fun k => l.getD (off + k) 0) = (l.drop off).take n := by
  apply List.ext_getElem
  · simp
    omega
  · intro k hk hk'
    simp only [List.length_map, List.length_range] at hk
    rw [List.getElem_map, List.getElem_range, List.getElem_take, List.getElem_drop,
      List.getD_eq_getElem _ _ (by omega)]

/-- What an inode holds can be read, also if it has got a greater size. -/
theorem readsAs (hlen : l.length < 2 ^ 32) (htype : (dinodeAt image i).type ≠ T_DEV)
    (hsize : l.length ≤ (dinodeAt image i).size)
    (hbyte : ∀ k < l.length,
      (k / BSIZE < MAXFILE ∧ (dinodeAt image i).addr image (k / BSIZE) ≠ 0) ∧
        (dinodeAt image i).byte image k = l.getD k 0) : ReadsAs image i l := by
  intro kernel ip off n devsw hdisk hinum hcoherent hn
  have hblock : kernel.disk.block = image := by rw [hdisk]; rfl
  have hcopy : (kernel.icache ip).toDinode = dinodeAt image i := by
    rw [hcoherent, hdisk, hinum]
    rfl
  refine meets_readi_present (by rwa [hcopy]) (by omega) (by omega) (fun k hlo hhi _ => ?_)
    (fun hbad => ?_) fun _ _ => ⟨?_, rfl⟩
  · rw [hcopy, hblock]
    exact (hbyte k (by omega)).1
  · rw [hcopy] at hbad
    omega
  · have hmin : min n ((kernel.icache ip).size - off) = n := by
      have hsize' : (kernel.icache ip).size = (dinodeAt image i).size :=
        congrArg Dinode.size hcopy
      omega
    have hmap : ((List.range n).map fun k =>
        (kernel.icache ip).byte kernel.disk.block (off + k)) =
        (List.range n).map fun k => l.getD (off + k) 0 :=
      List.map_congr_left fun k hk => by
        have hk := List.mem_range.mp hk
        rw [hcopy, hblock, (hbyte (off + k) (by omega)).2]
    rw [hmin, hmap, getD_slice hn]

/-! ## The image in the end -/

section Finished

variable (hend : Finished s t)
include hend

theorem Finished.ok (h : Laid content s) : t.disk.Ok sb := by
  rw [hend.disk]
  exact h.ok.congr place_resize rfl

theorem Finished.dinode_of_ne (hi : 0 < i ∧ i < s.freeinode) (hne : i ≠ ROOTINO) :
    dinodeAt t.image i = s.disk.dinode i := by
  rw [← disk_dinode (by rw [hend.freeinode]; exact hi), hend.disk, Disk.resize,
    setDinode_of_ne _ hne]

theorem Finished.dinode_root (hroot : ROOTINO < s.freeinode) :
    dinodeAt t.image ROOTINO =
      { s.disk.dinode ROOTINO with size := roundUp (s.disk.dinode ROOTINO).size } := by
  rw [← disk_dinode ⟨by decide, by rw [hend.freeinode]; exact hroot⟩, hend.disk, Disk.resize,
    setDinode_self]

/-- The type stays. -/
theorem Finished.type (hi : 0 < i ∧ i < s.freeinode) :
    (dinodeAt t.image i).type = (s.disk.dinode i).type := by
  by_cases hne : i = ROOTINO
  · rw [hne, hend.dinode_root (by rw [← hne]; exact hi.2)]
  · rw [hend.dinode_of_ne hi hne]

theorem Finished.reads (h : Laid content s) (hi : 0 < i ∧ i < s.freeinode) :
    ReadsAs t.image i (content i) := by
  have hholds := h.holds i hi.1 hi.2
  have hi' : 0 < i ∧ i < t.freeinode := by
    rw [hend.freeinode]
    exact hi
  have hlen := hholds.tight.size_le
  have hmax : MAXFILE * BSIZE < 2 ^ 32 := by decide
  have htype : (t.disk.dinode i).type ≠ 0 := by
    rw [disk_dinode hi', hend.type hi]
    exact hholds.type.1
  have hnumber : ∀ bn, t.disk.number i bn = s.disk.number i bn := by
    rw [hend.disk]
    exact number_congr place_resize i
  refine readsAs (hlen.trans_lt hmax) (by rw [hend.type hi]; exact hholds.type.2) ?_ fun k hk => ?_
  · by_cases hne : i = ROOTINO
    · have hsize := hholds.size
      rw [hne] at hi hsize hlen ⊢
      rw [hend.dinode_root hi.2, hsize]
      exact le_roundUp hlen
    · rw [hend.dinode_of_ne hi hne, hholds.size]
  · have hpos := hholds.number_ne hk
    rw [← hnumber] at hpos
    have himage := byte_image (hend.ok h) hi' htype hpos
    refine ⟨himage.1, himage.2.trans ?_⟩
    rw [hend.disk, byte_resize, hholds.byte k hk]

theorem Finished.bitAt (h : Laid content s) {b : ℕ} (hb : b < BSIZE * 8) :
    bitAt t.image b = true ↔ b < nmeta ∨ ∃ inum slot, 0 < inum ∧ inum < s.freeinode ∧
      (dinodeAt t.image inum).slot t.image slot = b ∧ b ≠ 0 := by
  have hok := hend.ok h
  have hge := h.ready.nmeta_le
  have hle := h.ready.le_FSSIZE
  have hbitmap : ∀ a, t.disk.bitmap a = decide (a < s.freeblock) := fun a => by
    rw [← hend.freeblock]
    rfl
  rw [bitAt_eq hend.bitmap hb, decide_eq_true_iff]
  constructor
  · intro hlt
    by_cases hmeta : b < nmeta
    · exact Or.inl hmeta
    · have hlo : nmeta ≤ b := by omega
      have hmarked : t.disk.bitmap b = true := by
        rw [hbitmap]
        exact decide_eq_true hlt
      obtain ⟨⟨i, slot⟩, hplace⟩ := (hok.marked.exact b hlo (hlt.trans_le hle)).mp hmarked
      have hnmeta : nmeta = 59 := rfl
      have hb : b ≠ 0 := by omega
      have htype : (t.disk.dinode i).type ≠ 0 := fun hfree =>
        hb (by rw [← hplace, place_of_free hfree])
      have hi : 0 < i ∧ i < t.freeinode := by
        by_contra hnot
        exact htype ((congrArg Dinode.type (if_neg hnot)).trans rfl)
      refine Or.inr ⟨i, slot, hi.1, by rw [← hend.freeinode]; exact hi.2, ?_, hb⟩
      rw [slot_image hok hi htype, hplace]
  · rintro (hlt | ⟨i, slot, hpos, hi, hslot, hne⟩)
    · omega
    · have hi' : 0 < i ∧ i < t.freeinode := ⟨hpos, by rw [hend.freeinode]; exact hi⟩
      have htype : (t.disk.dinode i).type ≠ 0 := by
        rw [disk_dinode hi', hend.type ⟨hpos, hi⟩]
        exact (h.holds i hpos hi).type.1
      rw [slot_image hok hi' htype] at hslot
      have hmarked := hok.marked.marked (p := (i, slot)) (by rw [hslot]; exact hne)
      rw [hslot, hbitmap] at hmarked
      exact of_decide_eq_true hmarked

theorem Finished.writtenAs (h : Laid content s) : WrittenAs s.freeinode content t.image where
  reads inum hpos hi := hend.reads h ⟨hpos, hi⟩
  size inum hroot hi := by
    have hpos : 0 < inum := (Nat.zero_le _).trans_lt hroot
    rw [hend.dinode_of_ne ⟨hpos, hi⟩ hroot.ne', (h.holds inum hpos hi).size]
  bitmap b hb := hend.bitAt h hb

end Finished

/-! ## Runs -/

theorem build_eq (calls : List Call) : build calls = (do
    format
    let rootino ← ialloc T_DIR
    calls.forM Call.run
    fixRoot rootino >>= fun _ => get >>= fun s => balloc s.freeblock) := rfl

/-- The run up to the end. -/
theorem meets_build {calls : List Call} {Q : PUnit → State → Prop}
    (hnamed : Named 2 calls) (hslots : 2 + inodes calls ≤ slots)
    (hout : ¬Room (appended calls) (2 + inodes calls) → ∀ e t, E e t)
    (hQ : ∀ s t, Laid (appended calls) s → s.freeinode = 2 + inodes calls → Finished s t →
      Q ⟨⟩ t) :
    Meets E (build calls) Q start := by
  rw [build_eq, meets_bind]
  refine meets_format fun s₀ h₀ hfree₀ => ?_
  rw [meets_bind]
  refine h₀.meets_ialloc (by rw [hfree₀]; decide) (by decide) fun s₁ h₁ hfree₁ => ?_
  rw [hfree₀] at hfree₁ ⊢
  have hnil : (fun i => [] ++ appended calls i) = appended calls := by
    funext i
    exact List.nil_append _
  have hcalls := h₁.meets_calls calls (E := E) (by rw [hfree₁]; exact hnamed)
    (by rw [hfree₁]; exact hslots) (by rw [hnil, hfree₁]; exact hout)
  rw [hnil, hfree₁] at hcalls
  rw [meets_bind]
  refine hcalls.mono fun _ s hs => ?_
  exact hs.1.meets_finish
    (by rw [hs.2]; exact Nat.lt_of_lt_of_le (by decide) (Nat.le_add_right 2 _))
    fun t ht => hQ s t hs.1 hs.2 ht

/-- With room for the inodes and their bytes, the image is made, and the kernel reads from it
what was appended. -/
theorem kernel_reads_image (calls : List Call) (hnamed : Named 2 calls)
    (hroom : Room (appended calls) (2 + inodes calls)) (hinodes : 2 + inodes calls ≤ slots) :
    ∃ t, (build calls).run start = (.ok ⟨⟩, t) ∧
      WrittenAs (2 + inodes calls) (appended calls) t.image := by
  have hmeets : Meets (fun _ _ => False) (build calls)
      (fun _ t => WrittenAs (2 + inodes calls) (appended calls) t.image) start :=
    meets_build hnamed hinodes (fun hbad => absurd hroom hbad) fun s t h hfree hend => by
      rw [← hfree]
      exact hend.writtenAs h
  obtain ⟨_, t, hrun, hwritten⟩ := hmeets.returns
  exact ⟨t, hrun, hwritten⟩

/-- Two inodes, with appends to both of them. -/
theorem kernel_reads_image_sample :
    ∃ t, (build [.iappend 1 [46], .ialloc T_FILE, .iappend 2 [1, 2], .iappend 1 [47],
      .iappend 2 [3]]).run start = (.ok ⟨⟩, t) ∧
      WrittenAs 3 (appended [.iappend 1 [46], .ialloc T_FILE, .iappend 2 [1, 2], .iappend 1 [47],
        .iappend 2 [3]]) t.image := by
  refine kernel_reads_image _ ⟨by decide, ⟨by decide, by decide⟩, ?_⟩ ⟨?_, by decide⟩ (by decide)
  · exact ⟨by decide, by decide, by decide, trivial⟩
  · intro i hpos hi
    have hi : i < 3 := hi
    interval_cases i <;> decide

/-! ## No room for the inodes -/

/-- No more can be read than the size says. -/
theorem ReadsAs.length_le (h : ReadsAs image inum l) (htype : (dinodeAt image inum).type ≠ T_DEV)
    (hlen : l.length < 2 ^ 32) : l.length ≤ (dinodeAt image inum).size := by
  by_contra hlt
  let kernel : Kernel := {
    disk := kernelDisk image
    commits := []
    icache := fun _ =>
      { dinodeAt image inum with
        dev := ROOTDEV, inum := inum, ref := 1, locked := true, valid := true }
    ftable := fun _ => ⟨.FD_NONE, 0, false, false, 0, 0⟩
    proc := fun _ => none
    device := fun _ => [] }
  have hreads := h kernel 0 (dinodeAt image inum).size 1 ⟨fun _ => false, fun _ => false⟩
    rfl rfl rfl (by omega)
  have hnone : Meets (fun _ _ => False) (readi sb ⟨fun _ => false, fun _ => false⟩ 0
      (dinodeAt image inum).size 1) (fun r _ => r.1 ≤ 0) kernel := by
    refine meets_readi_present htype (by omega) (by decide) (fun k hlo _ hk => ?_)
      (fun _ => by decide) fun _ _ => ?_
    · have hk : k < (dinodeAt image inum).size := hk
      omega
    · show ((min 1 ((dinodeAt image inum).size - (dinodeAt image inum).size) : ℕ) : ℤ) ≤ 0
      rw [Nat.sub_self]
      decide
  obtain ⟨r, t, -, hboth⟩ := (hreads.and hnone).returns
  have hone := hboth.2
  rw [hboth.1.1] at hone
  exact absurd (show ((1 : ℕ) : ℤ) ≤ 0 from hone) (by decide)

/-- The inode after the last one that there is room for gets a byte. -/
def overrun : List Call :=
  List.replicate 206 (.ialloc T_FILE) ++ [.ialloc T_FILE, .iappend 208 [1]]

theorem appended_replicate (n i : ℕ) : appended (List.replicate n (.ialloc T_FILE)) i = [] := by
  simp [appended, Call.bytes]

theorem inodes_replicate (n : ℕ) : inodes (List.replicate n (.ialloc T_FILE)) = n := by
  rw [inodes, List.map_replicate, List.sum_replicate]
  exact Nat.mul_one n

theorem named_replicate (k n : ℕ) : Named k (List.replicate n (.ialloc T_FILE)) := by
  induction n generalizing k with
  | zero => trivial
  | succ n ih => exact ⟨by decide, ih (k + 1)⟩

theorem appended_overrun : appended overrun = Function.update (fun _ => []) 208 [1] := by
  funext i
  rw [overrun, appended_append, appended_replicate, List.nil_append]
  by_cases hi : i = 208
  · rw [hi, Function.update_self]
    rfl
  · rw [Function.update_of_ne hi, appended_cons, appended_cons, Call.bytes, Call.bytes,
      if_neg (Ne.symm hi)]
    rfl

theorem inodes_overrun : inodes overrun = 207 := by
  rw [overrun, inodes_append, inodes_replicate]
  rfl

theorem meets_ialloc_at {type : Int16} {Q : ℕ → State → Prop} (hsectors : s.sectors = FSSIZE)
    (hinum : IBLOCK s.freeinode < FSSIZE)
    (hQ : ∀ t, t.sectors = FSSIZE → t.freeinode = s.freeinode + 1 → t.freeblock = s.freeblock →
      dinodeAt t.image s.freeinode = { zeroDinode with type := type, nlink := 1, size := 0 } →
      Q s.freeinode t) : Meets E (ialloc type) Q s := by
  let s₁ : State := { s with freeinode := s.freeinode + 1 }
  rw [ialloc, meets_bind]
  show Meets E (winode s.freeinode _ >>= fun _ => pure s.freeinode) Q s₁
  rw [meets_bind]
  refine meets_winode_at hsectors hinum ?_
  rw [meets_pure]
  exact hQ _ hsectors rfl rfl ((dinodeAt_put (fits_zero type)).trans (if_pos rfl))

/-- The first byte of an inode. -/
theorem meets_iappend_at {byte : Byte} {Q : PUnit → State → Prop} (hsectors : s.sectors = FSSIZE)
    (hinum : IBLOCK inum < FSSIZE) (hroom : s.freeblock < FSSIZE)
    (hsize : (dinodeAt s.image inum).size = 0) (haddr : (dinodeAt s.image inum).addrs 0 = 0)
    (hQ : ∀ t, t.sectors = FSSIZE → t.freeinode = s.freeinode → t.freeblock = s.freeblock + 1 →
      Q ⟨⟩ t) : Meets E (iappend inum [byte]) Q s := by
  rw [iappend, meets_bind]
  refine meets_rinode_at hsectors hinum ?_
  rw [hsize, meets_bind, appendFrom,
    if_pos (show [byte].length > 0 from Nat.one_pos), if_pos (by decide), meets_bind, sectorFor,
    if_pos (by decide), meets_bind]
  refine meets_takeAddr (fun hpos => absurd haddr hpos) fun _ => ?_
  rw [meets_pure]
  dsimp only
  rw [Nat.zero_div, setAddr_self, meets_bind]
  refine meets_rsect hsectors hroom ?_
  rw [meets_bind]
  refine meets_wsect hsectors hroom ?_
  have hdrop : [byte].drop (min [byte].length ((0 + 1) * BSIZE - 0)) = [] := rfl
  rw [hdrop, appendFrom, if_neg (show ¬([] : List Byte).length > 0 from Nat.lt_irrefl 0),
    meets_pure]
  exact meets_winode_at hsectors hinum (hQ _ hsectors rfl rfl)

/-- The bitmap, read as an inode. -/
theorem dinode_in_bitmap :
    (getDinode (bits 60) 0).size = 0 ∧ (getDinode (bits 60) 0).type ≠ T_DEV := by
  simp only [getDinode, ofWords, word, bits_eq]
  decide

theorem meets_overrun_end (hsectors : s.sectors = FSSIZE) (hfree : s.freeinode = 208)
    (hblocks : s.freeblock = 59) :
    Meets E ([Call.ialloc T_FILE, .iappend 208 [1]].forM Call.run)
      (fun _ t => Meets E (fixRoot ROOTINO >>= fun _ => get >>= fun s => balloc s.freeblock)
        (fun _ t => t.image bmapstart = bits 60) t) s := by
  show Meets E (Call.run (.ialloc T_FILE) >>= fun _ => Call.run (.iappend 208 [1]) >>= fun _ =>
    (pure ⟨⟩ : Program PUnit)) _ s
  rw [meets_bind, Call.run, meets_bind]
  refine meets_ialloc_at hsectors (by rw [hfree]; decide) fun t₁ ht₁ _ hblocks₁ hdinode => ?_
  rw [hfree] at hdinode
  rw [meets_pure, meets_bind]
  refine meets_iappend_at ht₁ (by decide) (by rw [hblocks₁, hblocks]; decide) (by rw [hdinode])
    (by rw [hdinode]; rfl) fun t₂ ht₂ _ hblocks₂ => ?_
  rw [meets_pure, meets_bind, fixRoot, meets_bind]
  refine meets_rinode_at ht₂ (by decide) ?_
  refine meets_winode_at ht₂ (by decide) ?_
  rw [meets_bind, meets_get]
  have hend : t₂.freeblock = 60 := by omega
  refine meets_balloc ht₂ (show t₂.freeblock ≤ FSSIZE by rw [hend]; decide) ?_
  rw [← hend]
  exact write_self ..

/-- The byte is lost: the inode is in the bitmap. -/
theorem overrun_lost : Named 2 overrun ∧ Room (appended overrun) (2 + inodes overrun) ∧
    ∃ t, (build overrun).run start = (.ok ⟨⟩, t) ∧
      ¬WrittenAs (2 + inodes overrun) (appended overrun) t.image := by
  have hnamed : Named 2 overrun := by
    refine named_append (named_replicate 2 206) ?_
    rw [inodes_replicate]
    exact ⟨by decide, by decide, trivial⟩
  have hroom : Room (appended overrun) (2 + inodes overrun) := by
    rw [appended_overrun, inodes_overrun]
    refine ⟨fun i _ _ => ?_, ?_⟩
    · by_cases hi : i = 208
      · rw [hi, Function.update_self]
        decide
      · rw [Function.update_of_ne hi]
        exact Nat.zero_le _
    · have hused := used_update (fun _ => []) (n := 2 + 207) (i := 208)
        (by decide) [1]
      have hnone : need ([] : List Byte).length = 0 := by decide
      have hone : need ([1] : List Byte).length = 1 := by decide
      have hnmeta := nmeta_lt
      rw [used_nil, hnone, hone] at hused
      omega
  refine ⟨hnamed, hroom, ?_⟩
  have hmeets : Meets (fun _ _ => False) (build overrun)
      (fun _ t => t.image bmapstart = bits 60) start := by
    rw [build_eq, meets_bind]
    refine meets_format fun s₀ h₀ hfree₀ => ?_
    rw [meets_bind]
    refine h₀.meets_ialloc (by rw [hfree₀]; decide) (by decide) fun s₁ h₁ hfree₁ => ?_
    rw [hfree₀] at hfree₁ ⊢
    have hlost : (fun i => [] ++ appended (List.replicate 206 (.ialloc T_FILE)) i) = fun _ => [] :=
      funext fun i => appended_replicate 206 i
    have hfirst := h₁.meets_calls (List.replicate 206 (.ialloc T_FILE))
      (E := fun _ _ => False) (named_replicate _ _)
      (by rw [hfree₁, inodes_replicate]; decide)
    rw [hlost, hfree₁, inodes_replicate] at hfirst
    rw [overrun, meets_bind, meets_forM_append]
    have hfits : Room (fun _ => []) (1 + 1 + 206) :=
      ⟨fun _ _ _ => Nat.zero_le _, by rw [used_nil]; decide⟩
    refine (hfirst fun hbad => absurd hfits hbad).mono fun _ s hs => ?_
    have hblocks := hs.1.blocks
    rw [used_nil] at hblocks
    exact meets_overrun_end hs.1.ready.sectors hs.2 hblocks
  obtain ⟨_, t, hrun, himage⟩ := hmeets.returns
  refine ⟨t, hrun, fun hwritten => ?_⟩
  have hdinode : dinodeAt t.image 208 = getDinode (bits 60) 0 := by
    rw [← himage]
    rfl
  have hreads := hwritten.reads 208 (by decide) (by rw [inodes_overrun]; decide)
  rw [appended_overrun, Function.update_self] at hreads
  have hle := hreads.length_le (by rw [hdinode]; exact dinode_in_bitmap.2) (by decide)
  rw [hdinode, dinode_in_bitmap.1] at hle
  exact absurd hle (by decide)

end Xv6.Mkfs
