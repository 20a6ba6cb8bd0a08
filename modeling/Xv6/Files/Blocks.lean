import Mathlib.Data.Nat.Basic
import Mathlib.Order.Basic
import Xv6.Files.Disk
import Xv6.Lib.Marking

/-!
# Which blocks are in use

A place for a block number is a direct address or an entry of the indirect block of an
inode, or the address of the indirect block itself.  `Disk.Ok` says that the numbers in
the places of allocated inodes are different, and that they and the metadata blocks are
those that the bitmap marks.

While an inode is changed, the copy in the cache is ahead of the disk.  What holds then
holds of `Kernel.image`, the disk with the copy of this inode on it.
-/

namespace Xv6.Files

open Faulting Marking

variable {sb : Superblock} {D D' : Disk} {s t : Kernel} {i j bn b : ℕ} {E : Fault → Kernel → Prop}

/-! ## Words and bytes of a block -/

@[simp] theorem word_zero (i : ℕ) : word (fun _ => 0) i = 0 := by simp [word]

theorem word_setWord {data : Block} {i j w : ℕ} (hw : w < 2 ^ 32) :
    word (setWord data i w) j = if j = i then w else word data j := by
  have h₀ : 4 * j / 4 = j := by omega
  have h₁ : (4 * j + 1) / 4 = j := by omega
  have h₂ : (4 * j + 2) / 4 = j := by omega
  have h₃ : (4 * j + 3) / 4 = j := by omega
  by_cases hji : j = i
  · have m₀ : 4 * j % 4 = 0 := by omega
    have m₁ : (4 * j + 1) % 4 = 1 := by omega
    have m₂ : (4 * j + 2) % 4 = 2 := by omega
    have m₃ : (4 * j + 3) % 4 = 3 := by omega
    subst hji
    simp only [word, setWord, h₀, h₁, h₂, h₃, m₀, m₁, m₂, m₃, if_true, UInt8.toNat_ofNat']
    omega
  · simp only [word, setWord, h₀, h₁, h₂, h₃, hji, if_false]

/-! ## Places -/

/-- The number of block `bn`, 0 if there is none. -/
def Dinode.addr (d : Dinode) (block : ℕ → Block) (bn : ℕ) : ℕ :=
  if bn < NDIRECT then d.addrs bn
  else if d.addrs NDIRECT = 0 then 0
  else word (block (d.addrs NDIRECT)) (bn - NDIRECT)

inductive Slot where
  | data (bn : Fin MAXFILE)
  | table
deriving DecidableEq

def Dinode.slot (d : Dinode) (block : ℕ → Block) : Slot → ℕ
  | .data bn => d.addr block bn
  | .table => d.addrs NDIRECT

/-- What the place of an inode holds. -/
def Disk.place (D : Disk) : ℕ × Slot → ℕ
  | (i, slot) => if (D.dinode i).type = 0 then 0 else (D.dinode i).slot D.block slot

structure Disk.Ok (sb : Superblock) (D : Disk) : Prop where
  marked : Marked sb.dataStart sb.size D.place D.bitmap
  reserved : ∀ b < sb.dataStart, D.bitmap b = true

theorem Superblock.dataStart_pos (sb : Superblock) : 0 < sb.dataStart :=
  Nat.sub_pos_of_lt sb.nblocks_lt

theorem place_of_type {slot : Slot} (h : (D.dinode i).type ≠ 0) :
    D.place (i, slot) = (D.dinode i).slot D.block slot := if_neg h

theorem place_of_free {slot : Slot} (h : (D.dinode i).type = 0) : D.place (i, slot) = 0 :=
  if_pos h

theorem place_table (h : (D.dinode i).type ≠ 0) :
    D.place (i, .table) = (D.dinode i).addrs NDIRECT := if_neg h

theorem place_data (h : (D.dinode i).type ≠ 0) (bn : Fin MAXFILE) :
    D.place (i, .data bn) = (D.dinode i).addr D.block bn := if_neg h

theorem addr_direct {d : Dinode} {block : ℕ → Block} (h : bn < NDIRECT) :
    d.addr block bn = d.addrs bn := if_pos h

theorem addr_indirect {d : Dinode} {block : ℕ → Block} (h : NDIRECT ≤ bn)
    (htable : d.addrs NDIRECT ≠ 0) :
    d.addr block bn = word (block (d.addrs NDIRECT)) (bn - NDIRECT) := by
  rw [Dinode.addr, if_neg (by omega), if_neg htable]

theorem addr_no_table {d : Dinode} {block : ℕ → Block} (h : NDIRECT ≤ bn)
    (htable : d.addrs NDIRECT = 0) : d.addr block bn = 0 := by
  rw [Dinode.addr, if_neg (by omega), if_pos htable]

namespace Disk.Ok

theorem pos (h : D.Ok sb) {q : ℕ × Slot} (hq : D.place q ≠ 0) : sb.dataStart ≤ D.place q :=
  (h.marked.range q hq).1

/-- A free block is in no place. -/
theorem place_ne (h : D.Ok sb) (hfree : D.bitmap b = false) (hb : sb.dataStart ≤ b)
    (q : ℕ × Slot) : D.place q ≠ b :=
  h.marked.ne_of_free (Nat.lt_of_lt_of_le sb.dataStart_pos hb) hfree q

/-- A free block gets a place. -/
theorem assign (h : D.Ok sb) {q : ℕ × Slot} (hb : sb.dataStart ≤ b ∧ b < sb.size)
    (hfree : D.bitmap b = false) (hq : D.place q = 0)
    (hplace : D'.place = Function.update D.place q b)
    (hbitmap : D'.bitmap = Function.update D.bitmap b true) : D'.Ok sb where
  marked := by
    rw [hplace, hbitmap]
    exact h.marked.take sb.dataStart_pos hb hfree hq
  reserved a ha := by
    rw [hbitmap]
    by_cases heq : a = b
    · rw [heq, Function.update_self]
    · rw [Function.update_of_ne heq]
      exact h.reserved a ha

/-- A place is given up. -/
theorem release (h : D.Ok sb) {q : ℕ × Slot} (hq : D.place q ≠ 0)
    (hplace : D'.place = Function.update D.place q 0)
    (hbitmap : D'.bitmap = Function.update D.bitmap (D.place q) false) : D'.Ok sb where
  marked := by
    rw [hplace, hbitmap]
    exact h.marked.give sb.dataStart_pos hq
  reserved a ha := by
    have hne : a ≠ D.place q := by
      have := h.pos hq
      omega
    rw [hbitmap, Function.update_of_ne hne]
    exact h.reserved a ha

theorem congr (h : D.Ok sb) (hplace : D'.place = D.place) (hbitmap : D'.bitmap = D.bitmap) :
    D'.Ok sb := by
  refine ⟨?_, ?_⟩
  · rw [hplace, hbitmap]
    exact h.marked
  · rw [hbitmap]
    exact h.reserved

end Disk.Ok

/-! ## Changes of a disk -/

/-- Block `b` is taken and zeroed. -/
def Disk.fresh (D : Disk) (b : ℕ) : Disk :=
  { D with
    bitmap := Function.update D.bitmap b true, block := Function.update D.block b fun _ => 0 }

def Disk.setDinode (D : Disk) (i : ℕ) (d : Dinode) : Disk :=
  { D with dinode := Function.update D.dinode i d }

def Disk.setBlock (D : Disk) (b : ℕ) (data : Block) : Disk :=
  { D with block := Function.update D.block b data }

def Dinode.setAddr (d : Dinode) (k a : ℕ) : Dinode :=
  { d with addrs := Function.update d.addrs k a }

@[simp] theorem setAddr_self (d : Dinode) (k a : ℕ) : (d.setAddr k a).addrs k = a := by
  simp [Dinode.setAddr]

theorem setAddr_of_ne (d : Dinode) {k k' : ℕ} (a : ℕ) (h : k' ≠ k) :
    (d.setAddr k a).addrs k' = d.addrs k' :=
  Function.update_of_ne h ..

@[simp] theorem setDinode_self (d : Dinode) : (D.setDinode i d).dinode i = d :=
  Function.update_self ..

theorem setDinode_of_ne (d : Dinode) (h : j ≠ i) : (D.setDinode i d).dinode j = D.dinode j :=
  Function.update_of_ne h ..

@[simp] theorem setDinode_setDinode (d d' : Dinode) :
    (D.setDinode i d).setDinode i d' = D.setDinode i d' := by
  simp [Disk.setDinode]

theorem setDinode_same : D.setDinode i (D.dinode i) = D := by
  simp [Disk.setDinode]

@[simp] theorem setBlock_self (b : ℕ) (data : Block) : (D.setBlock b data).block b = data :=
  Function.update_self ..

theorem setBlock_of_ne {a b : ℕ} (data : Block) (h : a ≠ b) :
    (D.setBlock b data).block a = D.block a :=
  Function.update_of_ne h ..

/-- The places of an inode depend on it and on its indirect block. -/
theorem place_congr {slot : Slot} (hdinode : D'.dinode i = D.dinode i)
    (hblock : (D.dinode i).type ≠ 0 → (D.dinode i).addrs NDIRECT ≠ 0 →
      D'.block ((D.dinode i).addrs NDIRECT) = D.block ((D.dinode i).addrs NDIRECT)) :
    D'.place (i, slot) = D.place (i, slot) := by
  by_cases htype : (D.dinode i).type = 0
  · rw [place_of_free htype, place_of_free (by rw [hdinode]; exact htype)]
  rw [place_of_type htype, place_of_type (by rw [hdinode]; exact htype), hdinode]
  cases slot with
  | table => rfl
  | data bn =>
      by_cases htable : (D.dinode i).addrs NDIRECT = 0
      · simp only [Dinode.slot, Dinode.addr, htable, if_true]
      · simp only [Dinode.slot, Dinode.addr, hblock htype htable]

theorem place_fresh (h : D.Ok sb) (hfree : D.bitmap b = false) (hb : sb.dataStart ≤ b) :
    (D.fresh b).place = D.place := by
  funext q
  refine place_congr rfl fun htype _ => Function.update_of_ne ?_ ..
  rw [← place_table htype]
  exact h.place_ne hfree hb _

/-- A data block is written to. -/
theorem place_setBlock (h : D.Ok sb) {data : Block} {bn : Fin MAXFILE} :
    (D.setBlock (D.place (i, .data bn)) data).place = D.place := by
  funext ⟨j, slot⟩
  refine place_congr rfl fun htype htable => Function.update_of_ne ?_ ..
  intro heq
  rw [← place_table htype] at heq htable
  have hsame := h.marked.inj _ _ htable heq
  simp at hsame

/-- A direct address or the address of an empty indirect block is set. -/
def slotOf (k : ℕ) : Slot :=
  if h : k < NDIRECT then .data ⟨k, Nat.lt_trans h (by decide)⟩ else .table

theorem place_setAddr {d : Dinode} {k a : ℕ} (hk : k ≤ NDIRECT) (htype : (D.dinode i).type ≠ 0)
    (hold : (D.dinode i).addrs k = 0) (hzero : k = NDIRECT → D.block a = fun _ => 0)
    (hd : d = (D.dinode i).setAddr k a) :
    (D.setDinode i d).place = Function.update D.place (i, slotOf k) a := by
  subst hd
  funext ⟨j, slot⟩
  by_cases hj : j = i
  · subst hj
    have htype' : ((D.setDinode j ((D.dinode j).setAddr k a)).dinode j).type ≠ 0 := by
      rw [setDinode_self]
      exact htype
    by_cases hslot : slot = slotOf k
    · rw [hslot, Function.update_self, place_of_type htype', setDinode_self]
      unfold slotOf
      split
      · rename_i hlt
        simp only [Dinode.slot]
        rw [addr_direct hlt, setAddr_self]
      · rename_i hge
        have hk : k = NDIRECT := by omega
        simp only [Dinode.slot, hk, setAddr_self]
    · have hne : ((j, slot) : ℕ × Slot) ≠ (j, slotOf k) := fun heq => hslot (Prod.mk.inj heq).2
      rw [Function.update_of_ne hne, place_of_type htype', place_of_type htype, setDinode_self]
      cases slot with
      | table =>
          have hne : NDIRECT ≠ k := fun heq => hslot (by simp [slotOf, ← heq])
          exact setAddr_of_ne _ _ hne
      | data bn =>
          by_cases hdirect : bn.1 < NDIRECT
          · have hne : bn.1 ≠ k := fun heq => hslot (by simp [slotOf, ← heq, hdirect])
            simp only [Dinode.slot]
            rw [addr_direct hdirect, addr_direct hdirect]
            exact setAddr_of_ne _ _ hne
          · by_cases hk' : k = NDIRECT
            · subst hk'
              simp only [Dinode.slot]
              rw [addr_no_table (by omega) hold]
              by_cases ha : a = 0
              · refine addr_no_table (by omega) ?_
                rw [setAddr_self, ha]
              · rw [addr_indirect (by omega) (by rw [setAddr_self]; exact ha), setAddr_self]
                show word (D.block a) _ = 0
                rw [hzero rfl, word_zero]
            · have hsame : ((D.dinode j).setAddr k a).addrs NDIRECT = (D.dinode j).addrs NDIRECT :=
                setAddr_of_ne _ _ (Ne.symm hk')
              simp only [Dinode.slot, Dinode.addr, hdirect, if_false, hsame]
              rfl
  · have hne : ((j, slot) : ℕ × Slot) ≠ (i, slotOf k) := fun heq => hj (Prod.mk.inj heq).1
    rw [Function.update_of_ne hne]
    exact place_congr (setDinode_of_ne _ hj) fun _ _ => rfl

/-- An entry of an indirect block is set. -/
theorem place_setEntry (hinj : ∀ q r, D.place q ≠ 0 → D.place q = D.place r → q = r) {k a : ℕ}
    (hk : NDIRECT ≤ k) (hlt : k < MAXFILE)
    (htype : (D.dinode i).type ≠ 0) (htable : (D.dinode i).addrs NDIRECT ≠ 0) (ha : a < 2 ^ 32) :
    (D.setBlock ((D.dinode i).addrs NDIRECT)
      (setWord (D.block ((D.dinode i).addrs NDIRECT)) (k - NDIRECT) a)).place =
      Function.update D.place (i, .data ⟨k, hlt⟩) a := by
  funext ⟨j, slot⟩
  by_cases hj : j = i
  · subst hj
    cases slot with
    | table =>
        rw [Function.update_of_ne (by simp), place_table htype]
        exact place_table htype
    | data bn =>
        by_cases hdirect : bn.1 < NDIRECT
        · have hne : ((j, .data bn) : ℕ × Slot) ≠ (j, .data ⟨k, hlt⟩) := fun heq => by
            have hbn : bn = ⟨k, hlt⟩ := by simpa using heq
            rw [hbn] at hdirect
            exact absurd hdirect (by simpa using hk)
          rw [Function.update_of_ne hne, place_data htype]
          refine (place_data (D := D.setBlock _ _) htype bn).trans ?_
          rw [addr_direct hdirect, addr_direct hdirect]
          rfl
        · refine (place_data (D := D.setBlock _ _) htype bn).trans ?_
          refine (addr_indirect (by omega) htable).trans ?_
          have hblock : (D.setBlock ((D.dinode j).addrs NDIRECT)
              (setWord (D.block ((D.dinode j).addrs NDIRECT)) (k - NDIRECT) a)).block
              ((D.dinode j).addrs NDIRECT) =
              setWord (D.block ((D.dinode j).addrs NDIRECT)) (k - NDIRECT) a :=
            Function.update_self ..
          refine (congrArg (fun data => word data (bn - NDIRECT)) hblock).trans ?_
          rw [word_setWord ha]
          by_cases hbn : bn.1 = k
          · have heq : bn = ⟨k, hlt⟩ := Fin.ext hbn
            rw [heq, Function.update_self, if_pos rfl]
          · have hne : ((j, .data bn) : ℕ × Slot) ≠ (j, .data ⟨k, hlt⟩) := fun heq => by
              have heq : bn = ⟨k, hlt⟩ := by simpa using heq
              exact hbn (congrArg Fin.val heq)
            rw [Function.update_of_ne hne, place_data htype, addr_indirect (by omega) htable,
              if_neg (by omega)]
  · have hne : ((j, slot) : ℕ × Slot) ≠ (i, .data ⟨k, hlt⟩) := fun heq => hj (Prod.mk.inj heq).1
    rw [Function.update_of_ne hne]
    refine place_congr rfl fun htype' htable' => Function.update_of_ne ?_ ..
    intro heq
    rw [← place_table htype, ← place_table htype'] at heq
    rw [← place_table htype'] at htable'
    have hsame := hinj _ _ htable' heq
    exact hj (Prod.mk.inj hsame).1

/-! ## `balloc` and `bmap` -/

/-- The disk with the copy of one inode on it. -/
def Kernel.image (s : Kernel) (ip : ℕ) : Disk :=
  s.disk.setDinode (s.icache ip).inum (s.icache ip).toDinode

/-- Only the addresses of one inode of the cache and the blocks have changed. -/
structure Touched (ip : ℕ) (s t : Kernel) : Prop where
  dinode : t.disk.dinode = s.disk.dinode
  commits : t.commits = s.commits
  icache : ∃ addrs, t.icache =
    Function.update s.icache ip { s.icache ip with addrs := addrs }
  ftable : t.ftable = s.ftable
  proc : t.proc = s.proc
  device : t.device = s.device

theorem Touched.refl (ip : ℕ) (s : Kernel) : Touched ip s s :=
  ⟨rfl, rfl, ⟨(s.icache ip).addrs, (Function.update_eq_self ..).symm⟩, rfl, rfl, rfl⟩

theorem Touched.trans {ip : ℕ} {r s t : Kernel} (h : Touched ip r s) (h' : Touched ip s t) :
    Touched ip r t := by
  obtain ⟨addrs, haddrs⟩ := h.icache
  obtain ⟨addrs', haddrs'⟩ := h'.icache
  refine ⟨h'.dinode.trans h.dinode, h'.commits.trans h.commits, ⟨addrs', ?_⟩,
    h'.ftable.trans h.ftable, h'.proc.trans h.proc, h'.device.trans h.device⟩
  rw [haddrs', haddrs]
  simp

/-- It is allowed that there is no free block. -/
def NoBlock (E : Fault → Kernel → Prop) (s : Kernel) : Prop :=
  ∀ t, t.commits = s.commits → E (.panic "balloc: out of blocks") t

theorem NoBlock.congr (h : NoBlock E s) (hcommits : t.commits = s.commits) : NoBlock E t :=
  fun r hr => h r (hr.trans hcommits)

theorem meets_balloc {Q : ℕ → Kernel → Prop} (hout : NoBlock E s)
    (hQ : ∀ b < sb.size, s.disk.bitmap b = false → Q b { s with disk := s.disk.fresh b }) :
    Meets E (balloc sb) Q s := by
  rw [balloc, meets_bind, meets_get]
  cases hfind : (List.range sb.size).find? fun b => !s.disk.bitmap b with
  | none => exact hout s rfl
  | some b =>
      have hfree := List.find?_some hfind
      have hlt := List.mem_range.mp (List.mem_of_find?_eq_some hfind)
      exact hQ b hlt (by simpa using hfree)

/-- A free block is a data block. -/
theorem Disk.Ok.dataStart_le (h : D.Ok sb) (hfree : D.bitmap b = false) : sb.dataStart ≤ b := by
  by_contra hlt
  rw [h.reserved b (by omega)] at hfree
  exact Bool.false_ne_true hfree.symm

/-- What allocating in inode `i` may change.  Only the place of block `bn` gets a number, and
what is in other data blocks stays there. -/
structure Grew (sb : Superblock) (i bn : ℕ) (D D' : Disk) : Prop where
  ok : D'.Ok sb
  dinode : ∃ addrs, D'.dinode = Function.update D.dinode i { D.dinode i with addrs := addrs }
  place : ∀ j (k : Fin MAXFILE), (j, k.1) ≠ (i, bn) → D'.place (j, .data k) = D.place (j, .data k)
  block : ∀ j (k : Fin MAXFILE), D.place (j, .data k) ≠ 0 →
    D'.block (D.place (j, .data k)) = D.block (D.place (j, .data k))
  keep : ∀ k : Fin MAXFILE, k.1 = bn → D.place (i, .data k) ≠ 0 → D' = D

theorem Grew.refl (h : D.Ok sb) : Grew sb i bn D D where
  ok := h
  dinode := ⟨(D.dinode i).addrs, (Function.update_eq_self ..).symm⟩
  place _ _ _ := rfl
  block _ _ _ := rfl
  keep _ _ _ := rfl

theorem Grew.trans {D₁ : Disk} (h : Grew sb i bn D D₁) (h₁ : Grew sb i bn D₁ D')
    (hzero : ∀ k : Fin MAXFILE, k.1 = bn → D.place (i, .data k) = 0) : Grew sb i bn D D' := by
  obtain ⟨addrs, haddrs⟩ := h.dinode
  obtain ⟨addrs', haddrs'⟩ := h₁.dinode
  refine ⟨h₁.ok, ⟨addrs', by rw [haddrs', haddrs]; simp⟩, fun j k hne => ?_, fun j k hpos => ?_,
    fun k hk hpos => absurd (hzero k hk) hpos⟩
  · rw [h₁.place j k hne, h.place j k hne]
  · have hne : (j, k.1) ≠ (i, bn) := fun heq => by
      obtain ⟨rfl, hk⟩ := Prod.mk.inj heq
      exact hpos (hzero k hk)
    have hsame := h.place j k hne
    have hblock := h₁.block j k (by rwa [hsame])
    rw [hsame] at hblock
    rw [hblock, h.block j k hpos]

/-- A block is taken for a direct address or for the indirect block. -/
theorem grew_setAddr {k : ℕ} (h : D.Ok sb) (htype : (D.dinode i).type ≠ 0) (hk : k ≤ NDIRECT)
    (hbn : k < NDIRECT ∧ bn = k ∨ k = NDIRECT ∧ NDIRECT ≤ bn) (hlt : b < sb.size)
    (hfree : D.bitmap b = false) (hold : (D.dinode i).addrs k = 0) :
    Grew sb i bn D ((D.fresh b).setDinode i ((D.dinode i).setAddr k b)) := by
  have hb := h.dataStart_le hfree
  have hfresh := place_fresh h hfree hb
  have hzero : (D.fresh b).block b = fun _ => 0 := Function.update_self ..
  have hplace : ((D.fresh b).setDinode i ((D.dinode i).setAddr k b)).place =
      Function.update D.place (i, slotOf k) b := by
    rw [← hfresh]
    exact place_setAddr (D := D.fresh b) hk htype hold (fun _ => hzero) rfl
  have hslot : D.place (i, slotOf k) = 0 := by
    rw [place_of_type htype]
    unfold slotOf
    split
    · rename_i hlt
      exact (addr_direct hlt).trans hold
    · have hk : k = NDIRECT := by omega
      rw [hk] at hold
      exact hold
  refine ⟨h.assign ⟨hb, hlt⟩ hfree hslot hplace rfl, ⟨_, rfl⟩, fun j k' hne => ?_,
    fun j k' _ => ?_, fun k' hk' hpos => ?_⟩
  · rw [hplace, Function.update_of_ne]
    intro heq
    obtain ⟨rfl, hsame⟩ := Prod.mk.inj heq
    unfold slotOf at hsame
    split at hsame
    · apply hne
      have hbn : bn = k := by omega
      rw [Slot.data.inj hsame, hbn]
    · exact Slot.noConfusion hsame
  · exact Function.update_of_ne (h.place_ne hfree hb _) ..
  · refine absurd ?_ hpos
    rw [place_data htype, hk']
    rcases hbn with ⟨hlt, rfl⟩ | ⟨rfl, hle⟩
    · rw [addr_direct hlt, hold]
    · exact addr_no_table hle hold

theorem meets_directBlock {ip k : ℕ} {Q : ℕ → Kernel → Prop} (hok : (s.image ip).Ok sb)
    (htype : (s.icache ip).type ≠ 0) (hk : k ≤ NDIRECT)
    (hbn : k < NDIRECT ∧ bn = k ∨ k = NDIRECT ∧ NDIRECT ≤ bn)
    (hout : NoBlock E s)
    (hQ : ∀ t, Touched ip s t → Grew sb (s.icache ip).inum bn (s.image ip) (t.image ip) →
      (t.icache ip).addrs k ≠ 0 → Q ((t.icache ip).addrs k) t) :
    Meets E (directBlock sb ip k) Q s := by
  rw [directBlock, getinode, meets_bind, meets_bind, meets_get, meets_pure]
  dsimp only
  split
  · rename_i hzero
    have hdinode : (s.image ip).dinode (s.icache ip).inum = (s.icache ip).toDinode :=
      setDinode_self _
    refine (meets_bind ..).mpr (meets_balloc hout fun b hlt hfree => ?_)
    have hpos : b ≠ 0 := by
      have hle := hok.dataStart_le hfree
      have := sb.dataStart_pos
      omega
    let t : Kernel := { s with
      disk := s.disk.fresh b
      icache := Function.update s.icache ip { s.icache ip with
        addrs := Function.update (s.icache ip).addrs k b } }
    have himage : t.image ip = ((s.image ip).fresh b).setDinode (s.icache ip).inum
        (((s.image ip).dinode (s.icache ip).inum).setAddr k b) := by
      simp [t, Kernel.image, Disk.setDinode, Disk.fresh, Dinode.setAddr]
    have haddr : (t.icache ip).addrs k = b := by simp [t]
    have hgrew : Grew sb (s.icache ip).inum bn (s.image ip) (t.image ip) := by
      rw [himage]
      exact grew_setAddr hok (by rwa [hdinode]) hk hbn hlt hfree (by rwa [hdinode])
    have hend := hQ t ⟨rfl, rfl, ⟨_, rfl⟩, rfl, rfl, rfl⟩ hgrew (by rwa [haddr])
    rwa [haddr] at hend
  · rename_i hpos
    exact hQ s (Touched.refl ip s) (Grew.refl hok) hpos

/-- A block is taken for an entry of the indirect block. -/
theorem grew_setEntry (h : D.Ok sb) (htype : (D.dinode i).type ≠ 0)
    (htable : (D.dinode i).addrs NDIRECT ≠ 0) (hbn : NDIRECT ≤ bn) (hmax : bn < MAXFILE)
    (hlt : b < sb.size) (hfree : D.bitmap b = false) (hold : D.place (i, .data ⟨bn, hmax⟩) = 0) :
    Grew sb i bn D ((D.fresh b).setBlock ((D.dinode i).addrs NDIRECT)
      (setWord (D.block ((D.dinode i).addrs NDIRECT)) (bn - NDIRECT) b)) ∧
    ((D.fresh b).setBlock ((D.dinode i).addrs NDIRECT)
      (setWord (D.block ((D.dinode i).addrs NDIRECT)) (bn - NDIRECT) b)).place
      (i, .data ⟨bn, hmax⟩) = b := by
  have hb := h.dataStart_le hfree
  have hfresh := place_fresh h hfree hb
  have htb : (D.dinode i).addrs NDIRECT ≠ b := by
    rw [← place_table htype]
    exact h.place_ne hfree hb _
  have hsame : (D.fresh b).block ((D.dinode i).addrs NDIRECT) =
      D.block ((D.dinode i).addrs NDIRECT) := Function.update_of_ne htb ..
  have hplace : ((D.fresh b).setBlock ((D.dinode i).addrs NDIRECT)
      (setWord (D.block ((D.dinode i).addrs NDIRECT)) (bn - NDIRECT) b)).place =
      Function.update D.place (i, .data ⟨bn, hmax⟩) b := by
    have hinj : ∀ q r, (D.fresh b).place q ≠ 0 → (D.fresh b).place q = (D.fresh b).place r →
        q = r := by
      rw [hfresh]
      exact h.marked.inj
    rw [← hfresh, ← hsame]
    exact place_setEntry (D := D.fresh b) hinj hbn hmax htype htable (hlt.trans sb.size_lt)
  refine ⟨⟨h.assign ⟨hb, hlt⟩ hfree hold hplace rfl, ?_, fun j k hne => ?_, fun j k hpos => ?_,
    fun k hk hpos => absurd hold ?_⟩, by rw [hplace, Function.update_self]⟩
  · exact ⟨(D.dinode i).addrs, (Function.update_eq_self ..).symm⟩
  · rw [hplace, Function.update_of_ne]
    intro heq
    obtain ⟨rfl, hslot⟩ := Prod.mk.inj heq
    rw [Slot.data.inj hslot] at hne
    exact hne rfl
  · -- neither the new block nor the indirect block
    refine (Function.update_of_ne ?_ ..).trans (Function.update_of_ne (h.place_ne hfree hb _) ..)
    intro heq
    rw [← place_table htype] at heq
    have hslot := h.marked.inj _ _ hpos heq
    simp at hslot
  · have hval : k = ⟨bn, hmax⟩ := Fin.ext hk
    rwa [← hval]

theorem Touched.inum {ip : ℕ} (h : Touched ip s t) : (t.icache ip).inum = (s.icache ip).inum := by
  obtain ⟨addrs, haddrs⟩ := h.icache
  rw [haddrs, Function.update_self]

theorem Touched.type {ip : ℕ} (h : Touched ip s t) : (t.icache ip).type = (s.icache ip).type := by
  obtain ⟨addrs, haddrs⟩ := h.icache
  rw [haddrs, Function.update_self]

theorem image_dinode (s : Kernel) (ip : ℕ) :
    (s.image ip).dinode (s.icache ip).inum = (s.icache ip).toDinode :=
  setDinode_self _

theorem image_type {ip : ℕ} (h : (s.icache ip).type ≠ 0) :
    ((s.image ip).dinode (s.icache ip).inum).type ≠ 0 := by rwa [image_dinode]

theorem meets_bmap_place {ip : ℕ} {Q : ℕ → Kernel → Prop} (hok : (s.image ip).Ok sb)
    (htype : (s.icache ip).type ≠ 0) (hbn : bn < MAXFILE)
    (hout : NoBlock E s)
    (hQ : ∀ t, Touched ip s t → Grew sb (s.icache ip).inum bn (s.image ip) (t.image ip) →
      (t.image ip).place ((s.icache ip).inum, .data ⟨bn, hbn⟩) ≠ 0 →
      Q ((t.image ip).place ((s.icache ip).inum, .data ⟨bn, hbn⟩)) t) :
    Meets E (bmap sb ip bn) Q s := by
  rw [bmap]
  split
  · rename_i hlt
    refine meets_directBlock hok htype hlt.le (Or.inl ⟨hlt, rfl⟩) hout fun t ht hgrew hpos => ?_
    have hplace : (t.image ip).place ((s.icache ip).inum, .data ⟨bn, hbn⟩) =
        (t.icache ip).addrs bn := by
      rw [← ht.inum, place_data (image_type (by rwa [ht.type])), image_dinode, addr_direct hlt]
    have hend := hQ t ht hgrew
    rw [hplace] at hend
    exact hend hpos
  rename_i hge
  have hle : NDIRECT ≤ bn := by omega
  rw [if_pos (by unfold MAXFILE at hbn; omega), meets_bind]
  refine meets_directBlock hok htype le_rfl (Or.inr ⟨rfl, hle⟩) hout
    fun t₁ ht₁ hgrew₁ htable => ?_
  have htype₁ := image_type (show (t₁.icache ip).type ≠ 0 by rwa [ht₁.type])
  have htable₁ : ((t₁.image ip).dinode (t₁.icache ip).inum).addrs NDIRECT ≠ 0 := by
    rwa [image_dinode]
  have hplace₁ : (t₁.image ip).place ((t₁.icache ip).inum, .data ⟨bn, hbn⟩) =
      word (t₁.disk.block ((t₁.icache ip).addrs NDIRECT)) (bn - NDIRECT) := by
    rw [place_data htype₁, addr_indirect hle htable₁, image_dinode]
    rfl
  rw [bread, meets_bind, meets_bind, meets_get, meets_pure]
  dsimp only
  rw [← hplace₁]
  split
  · rename_i hzero
    rw [meets_bind]
    refine meets_balloc (hout.congr ht₁.commits) fun b hlt hfree => ?_
    have hfree : (t₁.image ip).bitmap b = false := hfree
    have hset := grew_setEntry hgrew₁.ok htype₁ htable₁ hle hbn hlt hfree hzero
    have hne : (t₁.icache ip).addrs NDIRECT ≠ b := by
      rw [← image_dinode, ← place_table htype₁]
      exact hgrew₁.ok.place_ne hfree (hgrew₁.ok.dataStart_le hfree) _
    have hsame : (t₁.disk.fresh b).block ((t₁.icache ip).addrs NDIRECT) =
        t₁.disk.block ((t₁.icache ip).addrs NDIRECT) := Function.update_of_ne hne ..
    let t : Kernel := { t₁ with
      disk := (t₁.disk.fresh b).setBlock ((t₁.icache ip).addrs NDIRECT)
        (setWord ((t₁.disk.fresh b).block ((t₁.icache ip).addrs NDIRECT)) (bn - NDIRECT) b) }
    show Q b t
    have himage : t.image ip = ((t₁.image ip).fresh b).setBlock
        (((t₁.image ip).dinode (t₁.icache ip).inum).addrs NDIRECT)
        (setWord ((t₁.image ip).block (((t₁.image ip).dinode (t₁.icache ip).inum).addrs NDIRECT))
          (bn - NDIRECT) b) := by
      rw [image_dinode]
      show ((t₁.disk.fresh b).setBlock _ _).setDinode _ _ = _
      rw [hsame]
      rfl
    rw [← himage] at hset
    obtain ⟨hgrew, hplace⟩ := hset
    have hfirst : ∀ k : Fin MAXFILE, k.1 = bn →
        (s.image ip).place ((s.icache ip).inum, .data k) = 0 := fun k hk => by
      by_contra hpos
      have hkeep := hgrew₁.keep k hk hpos
      have hval : k = ⟨bn, hbn⟩ := Fin.ext hk
      rw [← hkeep, hval, ← ht₁.inum] at hpos
      exact hpos hzero
    have hend := hQ t (ht₁.trans ⟨rfl, rfl, ⟨_, (Function.update_eq_self ..).symm⟩, rfl, rfl, rfl⟩)
      (hgrew₁.trans (ht₁.inum ▸ hgrew) hfirst)
    rw [← ht₁.inum, hplace] at hend
    refine hend ?_
    have hstart := hgrew₁.ok.dataStart_le hfree
    have := sb.dataStart_pos
    omega
  · rename_i hpos
    have hend := hQ t₁ ht₁ hgrew₁
    rw [← ht₁.inum] at hend
    exact hend hpos

/-! ## Block numbers -/

/-- The number of block `bn` of an allocated inode, 0 if there is none. -/
def Disk.number (D : Disk) (i bn : ℕ) : ℕ :=
  if h : bn < MAXFILE then D.place (i, .data ⟨bn, h⟩) else 0

theorem number_of_lt (h : bn < MAXFILE) : D.number i bn = D.place (i, .data ⟨bn, h⟩) := dif_pos h

theorem number_congr (h : D'.place = D.place) (i bn : ℕ) : D'.number i bn = D.number i bn := by
  unfold Disk.number
  rw [h]

theorem lt_of_number (h : D.number i bn ≠ 0) : bn < MAXFILE := by
  by_contra hge
  exact h (dif_neg hge)

theorem Disk.Ok.number_inj (h : D.Ok sb) {k : ℕ} (hpos : D.number i bn ≠ 0)
    (heq : D.number i bn = D.number j k) : i = j ∧ bn = k := by
  have hk := lt_of_number (heq ▸ hpos)
  have hbn := lt_of_number hpos
  rw [number_of_lt hbn] at hpos heq
  rw [number_of_lt hk] at heq
  have hsame := h.marked.inj _ _ hpos heq
  simpa using hsame

namespace Grew

theorem number (h : Grew sb i bn D D') {k : ℕ} (hne : (j, k) ≠ (i, bn)) :
    D'.number j k = D.number j k := by
  by_cases hk : k < MAXFILE
  · rw [number_of_lt hk, number_of_lt hk, h.place j ⟨k, hk⟩ hne]
  · rw [Disk.number, Disk.number, dif_neg hk, dif_neg hk]

theorem kept (h : Grew sb i bn D D') {k : ℕ} (hpos : D.number j k ≠ 0) :
    D'.block (D.number j k) = D.block (D.number j k) := by
  have hk := lt_of_number hpos
  rw [number_of_lt hk] at hpos ⊢
  exact h.block j _ hpos

theorem eq_of_pos (h : Grew sb i bn D D') (hpos : D.number i bn ≠ 0) : D' = D := by
  have hbn := lt_of_number hpos
  rw [number_of_lt hbn] at hpos
  exact h.keep ⟨bn, hbn⟩ rfl hpos

theorem number_of_pos (h : Grew sb i bn D D') {k : ℕ} (hpos : D.number j k ≠ 0) :
    D'.number j k = D.number j k := by
  by_cases hne : (j, k) = (i, bn)
  · obtain ⟨rfl, rfl⟩ := Prod.mk.inj hne
    rw [h.eq_of_pos hpos]
  · exact h.number hne

end Grew

/-- `bmap` returns the number of the block, and takes a block where there is none. -/
theorem meets_bmap {ip : ℕ} {Q : ℕ → Kernel → Prop} (hok : (s.image ip).Ok sb)
    (htype : (s.icache ip).type ≠ 0) (hbn : bn < MAXFILE)
    (hout : NoBlock E s)
    (hQ : ∀ t, Touched ip s t → Grew sb (s.icache ip).inum bn (s.image ip) (t.image ip) →
      (t.image ip).number (s.icache ip).inum bn ≠ 0 →
      Q ((t.image ip).number (s.icache ip).inum bn) t) :
    Meets E (bmap sb ip bn) Q s := by
  refine meets_bmap_place hok htype hbn hout fun t ht hgrew hpos => ?_
  have hend := hQ t ht hgrew
  rw [number_of_lt hbn] at hend
  exact hend hpos

/-- Where there is a block, nothing is taken. -/
theorem meets_bmap_present {ip : ℕ} {Q : ℕ → Kernel → Prop} (hbn : bn < MAXFILE)
    (hpos : (s.icache ip).addr s.disk.block bn ≠ 0)
    (hQ : Q ((s.icache ip).addr s.disk.block bn) s) : Meets E (bmap sb ip bn) Q s := by
  rw [bmap]
  split
  · rename_i hlt
    rw [addr_direct hlt] at hpos hQ
    rw [directBlock, getinode, meets_bind, meets_bind, meets_get, meets_pure]
    dsimp only
    rw [if_neg hpos, meets_pure]
    exact hQ
  rename_i hge
  have hle : NDIRECT ≤ bn := by omega
  have htable : (s.icache ip).addrs NDIRECT ≠ 0 := fun hzero =>
    hpos (addr_no_table hle hzero)
  rw [addr_indirect hle htable] at hpos hQ
  rw [if_pos (by unfold MAXFILE at hbn; omega), directBlock, getinode, meets_bind, meets_bind,
    meets_bind, meets_get, meets_pure]
  dsimp only
  rw [if_neg htable, meets_pure, bread, meets_bind, meets_bind, meets_get, meets_pure]
  rw [if_neg hpos, meets_pure]
  exact hQ

end Xv6.Files
