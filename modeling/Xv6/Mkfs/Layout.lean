import Xv6.Mkfs.Image

/-!
# Where things are in the image

As long as the inode blocks have room for the inodes, the inodes and the blocks of the
image are separate areas, and the image can be read as a `Disk`: its blocks below
`freeblock` are in use.  An inode that is written changes this disk at this inode, and a
sector among the data blocks changes it at this block.
-/

namespace Xv6.Mkfs

open Files Faulting

variable {s t : State} {E : Fault → State → Prop} {din : Dinode} {buf : Block} {image : ℕ → Block}
variable {i j k sec inum : ℕ}

/-! ## Inodes in a sector -/

/-- The numbers of the inode are uints, and there are no more of them than in the structure. -/
structure Fits (din : Dinode) : Prop where
  size : din.size < 2 ^ 32
  addrs : ∀ k, din.addrs k < 2 ^ 32
  rest : ∀ k, NDIRECT < k → din.addrs k = 0

theorem word_lt (buf : Block) (j : ℕ) : word buf j < 2 ^ 32 := by
  have h₀ := (buf (4 * j)).toNat_lt
  have h₁ := (buf (4 * j + 1)).toNat_lt
  have h₂ := (buf (4 * j + 2)).toNat_lt
  have h₃ := (buf (4 * j + 3)).toNat_lt
  unfold word
  omega

theorem words_lt (h : Fits din) (j : ℕ) : words din j < 2 ^ 32 := by
  have htype := din.type.toUInt16.toNat_lt
  have hmajor := din.major.toUInt16.toNat_lt
  have hminor := din.minor.toUInt16.toNat_lt
  have hnlink := din.nlink.toUInt16.toNat_lt
  match j with
  | 0 => simp only [words]; omega
  | 1 => simp only [words]; omega
  | 2 => exact h.size
  | k + 3 => exact h.addrs k

theorem word_putDinode (h : Fits din) :
    word (putDinode buf k din) j = if j / 16 = k then words din (j % 16) else word buf j := by
  have hwords := words_lt h (j % 16)
  have d₀ : 4 * j / 64 = j / 16 := by omega
  have d₁ : (4 * j + 1) / 64 = j / 16 := by omega
  have d₂ : (4 * j + 2) / 64 = j / 16 := by omega
  have d₃ : (4 * j + 3) / 64 = j / 16 := by omega
  by_cases hjk : j / 16 = k
  · have q₀ : 4 * j / 4 % 16 = j % 16 := by omega
    have q₁ : (4 * j + 1) / 4 % 16 = j % 16 := by omega
    have q₂ : (4 * j + 2) / 4 % 16 = j % 16 := by omega
    have q₃ : (4 * j + 3) / 4 % 16 = j % 16 := by omega
    have m₀ : 4 * j % 4 = 0 := by omega
    have m₁ : (4 * j + 1) % 4 = 1 := by omega
    have m₂ : (4 * j + 2) % 4 = 2 := by omega
    have m₃ : (4 * j + 3) % 4 = 3 := by omega
    simp only [word, putDinode, d₀, d₁, d₂, d₃, q₀, q₁, q₂, q₃, m₀, m₁, m₂, m₃, hjk, if_true,
      UInt8.toNat_ofNat']
    generalize words din (j % 16) = w at hwords ⊢
    omega
  · simp only [word, putDinode, d₀, d₁, d₂, d₃, hjk, if_false]

theorem ofWords_congr {v w : ℕ → ℕ} (h : ∀ j < 16, v j = w j) : ofWords v = ofWords w := by
  have haddrs : (ofWords v).addrs = (ofWords w).addrs := by
    funext k
    by_cases hk : k ≤ NDIRECT
    · have hlt : k + 3 < 16 := by unfold NDIRECT at hk; omega
      simp only [ofWords, if_pos hk, h _ hlt]
    · simp only [ofWords, if_neg hk]
  have h₀ := h 0 (by decide)
  have h₁ := h 1 (by decide)
  have h₂ := h 2 (by decide)
  unfold ofWords at haddrs ⊢
  rw [h₀, h₁, h₂]
  exact congrArg _ haddrs

/-- A short is what is left of it in its two bytes. -/
theorem Int16_ofNat_eq {x : Int16} {n : ℕ} (h : n % 2 ^ 16 = x.toUInt16.toNat) :
    Int16.ofNat n = x := by
  have hsame : (Int16.ofNat n).toUInt16 = x.toUInt16 := by
    rw [Int16.toUInt16_ofNat', ← UInt16.toNat_inj, UInt16.toNat_ofNat', h]
  rw [← Int16.toInt16_toUInt16 (Int16.ofNat n), hsame, Int16.toInt16_toUInt16]

theorem Int16_ofNat_low (x y : Int16) :
    Int16.ofNat (x.toUInt16.toNat + y.toUInt16.toNat * 2 ^ 16) = x :=
  Int16_ofNat_eq (by have := x.toUInt16.toNat_lt; omega)

theorem Int16_ofNat_high (x y : Int16) :
    Int16.ofNat ((x.toUInt16.toNat + y.toUInt16.toNat * 2 ^ 16) / 2 ^ 16) = y :=
  Int16_ofNat_eq (by have := x.toUInt16.toNat_lt; have := y.toUInt16.toNat_lt; omega)

theorem ofWords_words (h : Fits din) : ofWords (words din) = din := by
  have haddrs : (ofWords (words din)).addrs = din.addrs := by
    funext k
    by_cases hk : k ≤ NDIRECT
    · exact if_pos hk
    · rw [h.rest k (by omega)]
      exact if_neg hk
  obtain ⟨type, major, minor, nlink, size, addrs⟩ := din
  simp only [ofWords] at haddrs ⊢
  rw [haddrs]
  simp only [words, Int16_ofNat_low, Int16_ofNat_high]

theorem getDinode_putDinode (h : Fits din) : getDinode (putDinode buf k din) k = din := by
  calc getDinode (putDinode buf k din) k
      = ofWords (words din) := ofWords_congr fun j hj => by
        have hdiv : (16 * k + j) / 16 = k := by omega
        have hmod : (16 * k + j) % 16 = j := by omega
        rw [word_putDinode h, if_pos hdiv, hmod]
    _ = din := ofWords_words h

theorem getDinode_putDinode_of_ne (h : Fits din) (hne : j ≠ k) :
    getDinode (putDinode buf k din) j = getDinode buf j :=
  ofWords_congr fun i hi => by
    have hdiv : (16 * j + i) / 16 ≠ k := by omega
    rw [word_putDinode h, if_neg hdiv]

theorem getDinode_fits (buf : Block) (k : ℕ) : Fits (getDinode buf k) where
  size := word_lt ..
  addrs j := by
    simp only [getDinode, ofWords]
    split
    · exact word_lt ..
    · decide
  rest j hj := if_neg (by omega)

/-! ## Areas -/

/-- The inodes that there is room for. -/
def slots : ℕ := ninodeblocks * IPB

theorem IBLOCK_bounds (h : inum < slots) : inodestart ≤ IBLOCK inum ∧ IBLOCK inum < bmapstart := by
  have hslots : slots = 208 := rfl
  have hIPB : IPB = 8 := rfl
  have hinodestart : inodestart = 32 := rfl
  have hbmapstart : bmapstart = 58 := rfl
  rw [IBLOCK, hIPB]
  omega

theorem bmapstart_lt : bmapstart < nmeta := by decide

theorem nmeta_lt : nmeta < FSSIZE := by decide

theorem dataStart_sb : sb.dataStart = nmeta := rfl

/-- The sectors that may be written for a part. -/
def Part.Allows : Part → ℕ → Prop
  | zeroes, sec => sec < FSSIZE
  | superblock, sec => sec = 1
  | inode, sec => inodestart ≤ sec ∧ sec < bmapstart
  | contents, sec => nmeta ≤ sec ∧ sec < FSSIZE
  | bitmap, sec => sec = bmapstart

/-- Each part is written in its own sectors, after all sectors were zeroed. -/
structure Separate (writes : List (Part × ℕ)) : Prop where
  allows : ∀ w ∈ writes, w.1.Allows w.2
  zeroed : writes.Pairwise fun later earlier => later.1 = .zeroes → earlier.1 = .zeroes

theorem Separate.cons {writes : List (Part × ℕ)} {part : Part} (h : Separate writes)
    (hallows : part.Allows sec) (hpart : part ≠ .zeroes) : Separate ((part, sec) :: writes) where
  allows := by
    intro w hw
    rcases List.mem_cons.mp hw with rfl | hw
    · exact hallows
    · exact h.allows w hw
  zeroed := List.pairwise_cons.mpr ⟨fun _ _ hzeroes => absurd hzeroes hpart, h.zeroed⟩

/-- The disk that an image holds so far. -/
def State.disk (s : State) : Disk where
  bitmap b := b < s.freeblock
  dinode i := if 0 < i ∧ i < s.freeinode then dinodeAt s.image i else zeroDinode
  block b := if nmeta ≤ b then s.image b else zeroes

/-- There is room for the inodes, and the blocks that are not in use are zero. -/
structure Ready (s : State) : Prop where
  sectors : s.sectors = FSSIZE
  slots : s.freeinode ≤ slots
  nmeta_le : nmeta ≤ s.freeblock
  le_FSSIZE : s.freeblock ≤ FSSIZE
  zero : ∀ b, s.freeblock ≤ b → s.image b = zeroes
  separate : Separate s.writes

/-! ## Sectors -/

def State.write (s : State) (part : Part) (sec : ℕ) (buf : Block) : State :=
  { s with image := Function.update s.image sec buf, writes := (part, sec) :: s.writes }

theorem write_self (s : State) (part : Part) (sec : ℕ) (buf : Block) :
    (s.write part sec buf).image sec = buf := by
  simp [State.write]

theorem seek_of_lt (h : sec < 2 ^ 23) : seek sec = sec := by
  have hlt : sec * BSIZE < 2 ^ 32 := by unfold BSIZE; omega
  rw [seek, uint, Nat.mod_eq_of_lt hlt, Nat.mul_div_cancel _ (by decide)]

theorem seek_of_lt_FSSIZE (h : sec < FSSIZE) : seek sec = sec :=
  seek_of_lt (h.trans (by decide))

theorem meets_rsect {Q : Block → State → Prop} (hsectors : s.sectors = FSSIZE) (hsec : sec < FSSIZE)
    (hQ : Q (s.image sec) s) : Meets E (rsect sec) Q s := by
  rw [rsect, meets_bind, meets_get, seek_of_lt_FSSIZE hsec, hsectors, if_pos hsec, meets_pure]
  exact hQ

theorem meets_rsect_beyond {Q : Block → State → Prop} (hsectors : s.sectors = FSSIZE)
    (hsec : FSSIZE ≤ sec) (hlt : sec < 2 ^ 23) (hE : ∀ e, E e s) : Meets E (rsect sec) Q s := by
  rw [rsect, meets_bind, meets_get, seek_of_lt hlt, hsectors, if_neg (by omega), meets_fail]
  exact hE _

theorem meets_wsect {part : Part} {Q : PUnit → State → Prop} (hsectors : s.sectors = FSSIZE)
    (hsec : sec < FSSIZE) (hQ : Q ⟨⟩ (s.write part sec buf)) :
    Meets E (wsect part sec buf) Q s := by
  have hmax : max s.sectors (sec + 1) = s.sectors := by omega
  rw [wsect, meets_modify, seek_of_lt_FSSIZE hsec, hmax]
  exact hQ

theorem Ready.write {part : Part} (h : Ready s) (hsec : sec < s.freeblock)
    (hallows : part.Allows sec) (hpart : part ≠ .zeroes) : Ready (s.write part sec buf) where
  sectors := h.sectors
  slots := h.slots
  nmeta_le := h.nmeta_le
  le_FSSIZE := h.le_FSSIZE
  zero b hb := by
    have hne : b ≠ sec := by
      have hb : s.freeblock ≤ b := hb
      omega
    exact (Function.update_of_ne hne ..).trans (h.zero b hb)
  separate := h.separate.cons hallows hpart

/-- A data block is written. -/
theorem disk_write {part : Part} (hslots : s.freeinode ≤ slots) (hsec : nmeta ≤ sec) :
    (s.write part sec buf).disk = s.disk.setBlock sec buf := by
  have hdinode : (s.write part sec buf).disk.dinode = s.disk.dinode := by
    funext i
    by_cases hi : 0 < i ∧ i < s.freeinode
    · have hbounds := IBLOCK_bounds (show i < slots by omega)
      have hne : IBLOCK i ≠ sec := by
        have := bmapstart_lt
        omega
      refine (if_pos hi).trans (Eq.trans ?_ (if_pos hi).symm)
      exact congrArg (getDinode · (i % IPB)) (Function.update_of_ne hne ..)
    · exact (if_neg hi).trans (if_neg hi).symm
  have hblock : (s.write part sec buf).disk.block = (s.disk.setBlock sec buf).block := by
    funext b
    by_cases hb : b = sec
    · rw [hb, setBlock_self]
      exact (if_pos hsec).trans (Function.update_self ..)
    · rw [setBlock_of_ne _ hb]
      exact congrArg (ite (nmeta ≤ b) · zeroes) (Function.update_of_ne hb ..)
  exact congrArg₂ (Disk.mk _) hdinode hblock

/-! ## Inodes -/

theorem dinodeAt_put (h : Fits din) :
    dinodeAt (Function.update image (IBLOCK inum)
      (putDinode (image (IBLOCK inum)) (inum % IPB) din)) i =
      if i = inum then din else dinodeAt image i := by
  by_cases hblock : IBLOCK i = IBLOCK inum
  · rw [dinodeAt, hblock, Function.update_self]
    by_cases hslot : i % IPB = inum % IPB
    · have hsame : i = inum := by
        have hIPB : IPB = 8 := rfl
        unfold IBLOCK at hblock
        rw [hIPB] at hblock hslot
        omega
      rw [hslot, getDinode_putDinode h, if_pos hsame]
    · have hne : i ≠ inum := fun heq => hslot (by rw [heq])
      rw [getDinode_putDinode_of_ne h hslot, if_neg hne, dinodeAt, hblock]
  · have hne : i ≠ inum := fun heq => hblock (by rw [heq])
    rw [dinodeAt, Function.update_of_ne hblock, if_neg hne, dinodeAt]

/-- An inode is written. -/
theorem disk_write_inode (hslots : s.freeinode ≤ slots) (hinum : 0 < inum ∧ inum < s.freeinode)
    (h : Fits din) :
    (s.write .inode (IBLOCK inum) (putDinode (s.image (IBLOCK inum)) (inum % IPB) din)).disk =
      s.disk.setDinode inum din := by
  have hdinode : (s.write .inode (IBLOCK inum)
      (putDinode (s.image (IBLOCK inum)) (inum % IPB) din)).disk.dinode =
      (s.disk.setDinode inum din).dinode := by
    funext i
    by_cases hi : i = inum
    · rw [hi, setDinode_self]
      refine (if_pos hinum).trans ((dinodeAt_put h).trans (if_pos rfl))
    · rw [setDinode_of_ne _ hi]
      exact congrArg (ite (0 < i ∧ i < s.freeinode) · zeroDinode)
        ((dinodeAt_put h).trans (if_neg hi))
  have hblock : (s.write .inode (IBLOCK inum)
      (putDinode (s.image (IBLOCK inum)) (inum % IPB) din)).disk.block = s.disk.block := by
    funext b
    by_cases hb : nmeta ≤ b
    · have hbounds := IBLOCK_bounds (show inum < slots by omega)
      have hne : b ≠ IBLOCK inum := by
        have := bmapstart_lt
        omega
      exact congrArg (ite (nmeta ≤ b) · zeroes) (Function.update_of_ne hne ..)
    · exact (if_neg hb).trans (if_neg hb).symm
  exact congrArg₂ (Disk.mk _) hdinode hblock

theorem meets_rinode_at {Q : Dinode → State → Prop} (hsectors : s.sectors = FSSIZE)
    (hinum : IBLOCK inum < FSSIZE) (hQ : Q (dinodeAt s.image inum) s) :
    Meets E (rinode inum) Q s := by
  rw [rinode, meets_bind]
  refine meets_rsect hsectors hinum ?_
  rw [meets_pure]
  exact hQ

theorem meets_winode_at {Q : PUnit → State → Prop} (hsectors : s.sectors = FSSIZE)
    (hinum : IBLOCK inum < FSSIZE)
    (hQ : Q ⟨⟩ (s.write .inode (IBLOCK inum)
      (putDinode (s.image (IBLOCK inum)) (inum % IPB) din))) :
    Meets E (winode inum din) Q s := by
  rw [winode, meets_bind]
  refine meets_rsect hsectors hinum ?_
  exact meets_wsect hsectors hinum hQ

theorem IBLOCK_lt_nmeta (h : inum < slots) : IBLOCK inum < nmeta :=
  (IBLOCK_bounds h).2.trans bmapstart_lt

theorem meets_rinode {Q : Dinode → State → Prop} (h : Ready s)
    (hinum : 0 < inum ∧ inum < s.freeinode) (hQ : Q (s.disk.dinode inum) s) :
    Meets E (rinode inum) Q s := by
  have hdinode : s.disk.dinode inum = dinodeAt s.image inum := if_pos hinum
  rw [hdinode] at hQ
  have hlt := IBLOCK_lt_nmeta (hinum.2.trans_le h.slots)
  exact meets_rinode_at h.sectors (hlt.trans nmeta_lt) hQ

theorem meets_winode {Q : PUnit → State → Prop} (h : Ready s)
    (hinum : 0 < inum ∧ inum < s.freeinode) (hfits : Fits din)
    (hQ : ∀ t, Ready t → t.disk = s.disk.setDinode inum din → t.freeinode = s.freeinode →
      t.freeblock = s.freeblock → Q ⟨⟩ t) :
    Meets E (winode inum din) Q s := by
  have hlt := IBLOCK_lt_nmeta (hinum.2.trans_le h.slots)
  have hready : Ready (s.write .inode (IBLOCK inum)
      (putDinode (s.image (IBLOCK inum)) (inum % IPB) din)) :=
    h.write (hlt.trans_le h.nmeta_le) (IBLOCK_bounds (hinum.2.trans_le h.slots)) (by decide)
  exact meets_winode_at h.sectors (hlt.trans nmeta_lt)
    (hQ _ hready (disk_write_inode h.slots hinum hfits) rfl rfl)

end Xv6.Mkfs
