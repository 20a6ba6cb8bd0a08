import Xv6.Files.Directory

/-!
# A directory is a finite map

From names, cut off after `DIRSIZ` bytes, to inode numbers.  `dirlink` adds an entry,
`sys_unlink` clears one, and both look for the name first, so that no name is there twice.

The reference that `dirlookup` returns is given back at the end of each operation.  This waits
for ever if the name stands for the directory itself and the caller has it locked.
-/

namespace Xv6.Files

open Faulting

variable {E : Fault → Kernel → Prop} {sb : Superblock} {devsw : Devsw} {s t u : Kernel}
variable {dp ip i j n off inum : ℕ} {held : Option ℕ} {p src : ℕ → Byte} {self : Prop}

/-! ## Directories in use -/

/-- Who has the directory locked, as far as it matters. -/
def lockOf (s : Kernel) (dp : ℕ) : Option ℕ :=
  if (s.icache dp).locked = true then some dp else none

/-- A directory that has been read, and that is locked if something is. -/
structure OpenDir (sb : Superblock) (dp : ℕ) (s : Kernel) : Prop where
  cache : CacheOk (lockOf s dp) s
  lt : dp < NINODE
  ref : 0 < (s.icache dp).ref
  valid : (s.icache dp).valid = true
  ok : s.disk.Ok sb
  dir : s.disk.Dir (s.icache dp).inum

def Kernel.slots (s : Kernel) (dp : ℕ) : List (Option (List Byte × ℕ)) :=
  s.disk.slots (s.icache dp).inum

namespace OpenDir

theorem isDir (h : OpenDir sb dp s) : s.IsDir dp := ⟨h.cache.copy dp h.lt h.ref h.valid, h.dir⟩

theorem fileSet (h : OpenDir sb dp s) : FileSet sb {dp} s where
  ok := h.ok
  coherent ip hip := hip ▸ h.isDir.coherent
  whole ip hip := hip ▸ h.dir.whole
  type ip hip := by
    rw [Set.mem_singleton_iff.mp hip, h.isDir.type]
    decide
  inj ip hip jp hjp _ := hip.trans hjp.symm

theorem lockOf_moved {extra : ℕ → ℤ} (h : OpenDir sb dp s)
    (hm : Moved extra (lockOf s dp) s t) : lockOf t dp = lockOf s dp := by
  have hlocked : (t.icache dp).locked = (s.icache dp).locked := by
    rw [Bool.eq_iff_iff]
    exact (hm.cache.lock dp h.lt).trans (h.cache.lock dp h.lt).symm
  rw [lockOf, lockOf, hlocked]

/-- References to other inodes do not matter. -/
theorem moved {extra : ℕ → ℤ} (h : OpenDir sb dp s) (hm : Moved extra (lockOf s dp) s t)
    (href : 0 < (t.icache dp).ref) : OpenDir sb dp t := by
  refine ⟨by rw [h.lockOf_moved hm]; exact hm.cache, h.lt, href, hm.valid dp h.ref h.valid, ?_, ?_⟩
  · rw [hm.disk]
    exact h.ok
  · rw [hm.disk, hm.inum dp h.ref]
    exact h.dir

end OpenDir

/-! ## One entry is written -/

/-- The inodes other than `i` keep their sizes and their bytes. -/
def Disk.SameBut (i : ℕ) (D D' : Disk) : Prop :=
  ∀ j, j ≠ i → D'.dinode j = D.dinode j ∧
    ∀ k, D.number j (k / BSIZE) ≠ 0 → D'.byte j k = D.byte j k

theorem Disk.SameBut.refl (i : ℕ) (D : Disk) : D.SameBut i D := fun _ _ => ⟨rfl, fun _ _ => rfl⟩

/-- Entry `j` has been written, and there are no other changes. -/
structure EntryWritten (dp j : ℕ) (src : ℕ → Byte) (s t : Kernel) : Prop where
  slots : ∀ i : ℕ, (t.slots dp)[i]? =
    if i = j then some (Dirent.ofBytes src).slot else (s.slots dp)[i]?
  bytes : ∀ k < (s.icache dp).size, k / direntSize ≠ j →
    t.disk.byte (s.icache dp).inum k = s.disk.byte (s.icache dp).inum k
  others : s.disk.SameBut (s.icache dp).inum t.disk
  icache : ∃ d : Dinode, t.icache = Function.update s.icache dp { s.icache dp with toDinode := d }

theorem EntryWritten.same (h : EntryWritten dp j src s t) (ip : ℕ) :
    (t.icache ip).ref = (s.icache ip).ref ∧ (t.icache ip).inum = (s.icache ip).inum ∧
      (t.icache ip).locked = (s.icache ip).locked ∧ (t.icache ip).valid = (s.icache ip).valid := by
  obtain ⟨d, hd⟩ := h.icache
  rw [hd]
  by_cases hip : ip = dp
  · rw [hip, Function.update_self]
    exact ⟨rfl, rfl, rfl, rfl⟩
  · rw [Function.update_of_ne hip]
    exact ⟨rfl, rfl, rfl, rfl⟩

theorem EntryWritten.lockOf_eq (h : EntryWritten dp j src s t) : lockOf t dp = lockOf s dp := by
  rw [lockOf, lockOf, (h.same dp).2.2.1]

section Write

/-! The disk is `D` after the loop of `writei`. -/

variable {D : Disk} (h : OpenDir sb dp s) (hj : j ≤ (s.slots dp).length)
variable (hwrote : Wrote sb (s.icache dp).inum (direntSize * j) direntSize src s.disk D)
variable (hup : Updated dp (D.resize (s.icache dp).inum
  (max (s.icache dp).size (direntSize * j + direntSize))) s t)
include h hup

theorem OpenDir.size_written : (t.disk.dinode (s.icache dp).inum).size =
    direntSize * max (s.slots dp).length (j + 1) := by
  have hsize : (s.icache dp).size = direntSize * (s.slots dp).length := h.isDir.size
  rw [hup.disk, Disk.resize, setDinode_self]
  show max (s.icache dp).size (direntSize * j + direntSize) = _
  rw [hsize, ← Nat.mul_succ]
  unfold direntSize
  omega

include hj hwrote

theorem OpenDir.entryWritten : EntryWritten dp j src s t := by
  have hsize : (s.icache dp).size = direntSize * (s.slots dp).length := h.isDir.size
  have hbyte : ∀ k, t.disk.byte (s.icache dp).inum k = D.byte (s.icache dp).inum k := fun k => by
    rw [hup.disk, byte_resize]
  have hkeep : ∀ k < (s.icache dp).size, k / direntSize ≠ j →
      t.disk.byte (s.icache dp).inum k = s.disk.byte (s.icache dp).inum k := by
    intro k hk hne
    have hpos := h.dir.whole k (by rwa [h.fileSet.size_eq rfl])
    rw [hbyte]
    refine hwrote.keep _ k hpos fun hin => hne ?_
    have hlo := hin.2.1
    have hhi := hin.2.2
    unfold direntSize at hlo hhi ⊢
    omega
  have huntouched : Untouched {dp} s t := hwrote.untouched rfl hup
  refine ⟨fun i => ?_, hkeep, fun i hi => ⟨?_, fun k => ?_⟩, ⟨_, hup.icache⟩⟩
  rotate_left
  · exact huntouched.dinode i fun ip hip heq => hi (by rw [← heq, hip])
  · exact huntouched.byte i k fun ip hip heq => hi (by rw [← heq, hip])
  have hlen : (t.slots dp).length = max (s.slots dp).length (j + 1) := by
    rw [Kernel.slots, hup.inum, length_slots, h.size_written hup,
      Nat.mul_div_cancel_left _ (by decide)]
  have hnew : ∀ i : ℕ, (t.slots dp)[i]? = if i < max (s.slots dp).length (j + 1) then
      some (t.disk.entry (s.icache dp).inum i).slot else none := fun i => by
    rw [← hlen, Kernel.slots, length_slots, hup.inum]
    exact getElem?_slots
  rw [hnew]
  by_cases heq : i = j
  · have hentry : t.disk.entry (s.icache dp).inum i = Dirent.ofBytes src := by
      refine ofBytes_congr fun k hk => ?_
      rw [hbyte, heq, hwrote.byte _ (by omega) (by omega), Nat.add_sub_cancel_left]
    rw [if_pos (by omega), if_pos heq, hentry]
  · rw [if_neg heq]
    by_cases hi : i < (s.slots dp).length
    · have hentry : t.disk.entry (s.icache dp).inum i = s.disk.entry (s.icache dp).inum i := by
        refine ofBytes_congr fun k hk => hkeep _ ?_ ?_
        · rw [hsize]
          unfold direntSize at hk ⊢
          omega
        · unfold direntSize at hk ⊢
          omega
      have hlt := hi
      rw [Kernel.slots, length_slots] at hlt
      rw [if_pos (by omega), hentry, Kernel.slots, getElem?_slots, if_pos hlt]
    · rw [if_neg (by omega), List.getElem?_eq_none (by omega)]

theorem OpenDir.written : OpenDir sb dp t := by
  have hoff : direntSize * j ≤ (s.icache dp).size := by
    rw [h.isDir.size]
    exact Nat.mul_le_mul_left _ hj
  have hset := h.fileSet.written rfl hwrote hup hoff
  obtain ⟨href, hinum, -, hvalid⟩ := (h.entryWritten hj hwrote hup).same dp
  refine ⟨?_, h.lt, by rw [href]; exact h.ref, by rw [hvalid]; exact h.valid, hset.ok, ?_,
    hset.whole dp rfl, ?_⟩
  · rw [(h.entryWritten hj hwrote hup).lockOf_eq]
    exact h.cache.updated h.lt h.ref hup fun i hi => hwrote.dinode_of_ne hi
  · rw [hinum, hup.disk, hwrote.type]
    exact h.dir.type
  · rw [hinum, h.size_written hup]
    exact Nat.dvd_mul_right _ _

end Write

/-- `writei` for one entry. -/
theorem OpenDir.meets_writei (h : OpenDir sb dp s) {Q : ℤ → Kernel → Prop}
    (hj : j ≤ (s.slots dp).length) (hout : NoBlock E s)
    (hfull : MAXFILE * BSIZE < direntSize * j + direntSize → Q (-1) s)
    (hQ : ∀ t, OpenDir sb dp t → EntryWritten dp j src s t → Q direntSize t) :
    Meets E (writei sb devsw dp src (direntSize * j) direntSize) Q s := by
  have hlt := h.isDir.size_lt
  have hoff : direntSize * j ≤ (s.icache dp).size := by
    rw [h.isDir.size]
    exact Nat.mul_le_mul_left _ hj
  have hsmall : direntSize < 2 ^ 31 := by decide
  refine Files.meets_writei h.ok h.isDir.coherent (by rw [h.isDir.type]; decide)
    (by rw [h.isDir.type]; decide) h.dir.whole (by omega) (by omega) hout (fun hbad => hfull ?_)
    fun _ _ D t hwrote hup => hQ t (h.written hj hwrote hup) (h.entryWritten hj hwrote hup)
  omega

/-! ## The operations -/

/-- "." -/
def dot : ℕ → Byte := Function.update (fun _ => 0) 0 46

/-- ".." -/
def dotdot : ℕ → Byte := Function.update dot 1 46

/-- `sys_unlink`, as far as it changes the directory. -/
def unlinkEntry (sb : Superblock) (devsw : Devsw) (dp : ℕ) (name : ℕ → Byte) : Fs ℤ := do
  if namecmp name dot = 0 ∨ namecmp name dotdot = 0 then pure (-1)
  else
    match ← dirlookup sb devsw dp name with
    | none => pure (-1)
    | some (ip, off) =>
        if (← writei sb devsw dp (fun _ => 0) off direntSize) ≠ direntSize then
          fail "unlink: writei"
        else
          iput ip
          pure 0

/-- `dirlookup(dp, name, &off)`: the number of the inode, and `off`. -/
def lookupEntry (sb : Superblock) (devsw : Devsw) (dp : ℕ) (name : ℕ → Byte) :
    Fs (Option (ℕ × ℕ)) := do
  match ← dirlookup sb devsw dp name with
  | none => pure none
  | some (ip, off) =>
      let inum := (← getinode ip).inum
      iput ip
      pure (some (inum, off))

inductive DirOp where
  | link (name : ℕ → Byte) (inum : ℕ) (pos : 0 < inum) (lt : inum < 2 ^ 16)
  | unlink (name : ℕ → Byte)
  | lookup (name : ℕ → Byte)

def DirOp.name : DirOp → ℕ → Byte
  | link name _ _ _ => name
  | unlink name => name
  | lookup name => name

inductive DirResult where
  | status (r : ℤ)
  | inode (found : Option (ℕ × ℕ))

def DirOp.call (sb : Superblock) (devsw : Devsw) (dp : ℕ) : DirOp → Fs DirResult
  | link name inum _ _ => do pure (.status (← dirlink sb devsw dp name inum))
  | unlink name => do pure (.status (← unlinkEntry sb devsw dp name))
  | lookup name => do pure (.inode (← lookupEntry sb devsw dp name))

inductive MapResult where
  | status (r : ℤ)
  | inode (found : Option ℕ)

/-- What the operations are for, without entries. -/
def DirOp.onMap (m : List Byte → Option ℕ) : DirOp → MapResult × (List Byte → Option ℕ)
  | link name inum _ _ =>
      if (m (key name)).isSome then (.status (-1), m)
      else (.status 0, Function.update m (key name) (some inum))
  | unlink name =>
      if key name = key dot ∨ key name = key dotdot ∨ m (key name) = none then (.status (-1), m)
      else (.status 0, Function.update m (key name) none)
  | lookup name => (.inode (m (key name)), m)

/-- The offset does not matter for the map. -/
def DirResult.onMap : DirResult → MapResult
  | status r => .status r
  | inode found => .inode (found.map Prod.fst)

/-- The map that a directory is. -/
def Kernel.dirMap (s : Kernel) (dp : ℕ) : List Byte → Option ℕ := Slots.lookup (s.slots dp)

/-- Why an operation does not come to an end.  `self` says that the directory may have an entry
for itself. -/
def Stops (dp : ℕ) (self : Prop) (e : Fault) (t : Kernel) : Prop :=
  e = .panic "balloc: out of blocks" ∨
  e = .panic "iget: no inodes" ∧ (∀ j < NINODE, (t.icache j).ref ≠ 0) ∨
  e = .panic "dirlink" ∧ none ∉ t.slots dp ∧
    MAXFILE * BSIZE < direntSize * (t.slots dp).length + direntSize ∨
  e = .deadlock ∧ (t.icache dp).locked = true ∧ self

/-- One operation, from `s` to `t`. -/
structure OpDone (sb : Superblock) (dp : ℕ) (op : DirOp) (s : Kernel) (r : DirResult)
    (t : Kernel) : Prop where
  opened : OpenDir sb dp t
  distinct : Slots.Distinct (t.slots dp)
  result : r.onMap = (op.onMap (s.dirMap dp)).1
  map : t.dirMap dp = (op.onMap (s.dirMap dp)).2
  offset : ∀ n off, r = .inode (some (n, off)) → ∃ j, off = direntSize * j ∧
    (s.slots dp)[j]? = some (some (key op.name, n))
  others : ∀ (j : ℕ) k n, (s.slots dp)[j]? = some (some (k, n)) → k ≠ key op.name →
    (t.slots dp)[j]? = some (some (k, n)) ∧
      ∀ i, i / direntSize = j → t.disk.byte (s.icache dp).inum i = s.disk.byte (s.icache dp).inum i
  reuse : (s.slots dp).length < (t.slots dp).length → none ∉ s.slots dp
  inodes : s.disk.SameBut (s.icache dp).inum t.disk
  inum : (t.icache dp).inum = (s.icache dp).inum
  lock : lockOf t dp = lockOf s dp
  ref : ∀ ip, (t.icache ip).ref = (s.icache ip).ref

/-! ## References to what has been found -/

theorem single_cancel (ip : ℕ) : (Pi.single ip 1 + Pi.single ip (-1) : ℕ → ℤ) = 0 := by
  funext j
  by_cases hj : j = ip
  · rw [hj, Pi.add_apply, Pi.single_eq_same, Pi.single_eq_same]
    rfl
  · rw [Pi.add_apply, Pi.single_eq_of_ne hj, Pi.single_eq_of_ne hj]
    rfl

namespace OpenDir

theorem meets_iget (h : OpenDir sb dp s) {Q : ℕ → Kernel → Prop}
    (hQ : ∀ ip < NINODE, ∀ t, Moved (Pi.single ip 1) (lockOf s dp) s t → 0 < (t.icache ip).ref →
      ((t.icache ip).valid = true → (t.icache ip).ref ≠ 1) → (t.icache ip).inum = n → Q ip t) :
    Meets (Stops dp self) (iget (s.icache dp).dev n) Q s := by
  rw [h.cache.dev dp h.lt h.ref]
  exact h.cache.meets_iget (fun hfull => Or.inr (Or.inl ⟨rfl, fun j hj => (hfull j hj).1⟩)) hQ

/-- The reference is given back. -/
theorem meets_iput (h : OpenDir sb dp s) {Q : PUnit → Kernel → Prop} (hip : ip < NINODE)
    (hpos : 0 < (s.icache ip).ref) (hlast : (s.icache ip).valid = true → (s.icache ip).ref ≠ 1)
    (hself : ip = dp → self)
    (hQ : ∀ t, Moved (Pi.single ip (-1)) (lockOf s dp) s t → Q ⟨⟩ t) :
    Meets (Stops dp self) (iput ip) Q s := by
  refine h.cache.meets_iput hip hpos (fun hvalid _ => hlast hvalid) (fun hheld => ?_)
    fun _ t ht => hQ t ht
  by_cases hlocked : (s.icache dp).locked = true
  · rw [lockOf, if_pos hlocked] at hheld
    exact Or.inr (Or.inr (Or.inr ⟨rfl, hlocked, hself (Option.some.inj hheld).symm⟩))
  · rw [lockOf, if_neg hlocked] at hheld
    simp at hheld

theorem got (h : OpenDir sb dp s) (hm : Moved (Pi.single ip 1) (lockOf s dp) s t) :
    OpenDir sb dp t := by
  refine h.moved hm ?_
  have hnonneg := single_nonneg ip dp
  have hpos := h.ref
  rw [hm.ref]
  omega

theorem slots_moved {extra : ℕ → ℤ} (h : OpenDir sb dp s)
    (hm : Moved extra held s t) : t.slots dp = s.slots dp := by
  rw [Kernel.slots, Kernel.slots, hm.disk, hm.inum dp h.ref]

end OpenDir

/-- The directory has not changed. -/
theorem OpDone.unchanged {op : DirOp} {r : DirResult} (h : OpenDir sb dp s)
    (hdistinct : Slots.Distinct (s.slots dp)) (hm : Moved 0 (lockOf s dp) s t)
    (hresult : r.onMap = (op.onMap (s.dirMap dp)).1)
    (hmap : (op.onMap (s.dirMap dp)).2 = s.dirMap dp)
    (hoffset : ∀ n off, r = .inode (some (n, off)) → ∃ j, off = direntSize * j ∧
      (s.slots dp)[j]? = some (some (key op.name, n))) : OpDone sb dp op s r t := by
  have hslots := h.slots_moved hm
  have href : ∀ ip, (t.icache ip).ref = (s.icache ip).ref := fun ip => by
    rw [hm.ref]
    exact add_zero _
  refine ⟨h.moved hm (by rw [href]; exact h.ref), by rwa [hslots], hresult, ?_, hoffset,
    fun j k n hj _ => ⟨by rwa [hslots], fun i _ => by rw [hm.disk]⟩, fun hlt => ?_, ?_,
    hm.inum dp h.ref, h.lockOf_moved hm, href⟩
  · rw [hmap, Kernel.dirMap, Kernel.dirMap, hslots]
  · rw [hslots] at hlt
    exact absurd hlt (lt_irrefl _)
  · rw [hm.disk]
    exact Disk.SameBut.refl _ _

/-- An entry that did not have another name has been written. -/
theorem OpDone.changed {op : DirOp} {r : DirResult} {extra extra' : ℕ → ℤ} {held' : Option ℕ}
    {t' : Kernel} (h : OpenDir sb dp s) (hm : Moved extra held s t) (ht : OpenDir sb dp t)
    (hw : EntryWritten dp j src t t') (hm' : Moved extra' held' t' u)
    (hpos : 0 < (t'.icache dp).ref) (hopen : OpenDir sb dp u)
    (hdistinct : Slots.Distinct (u.slots dp))
    (hname : ∀ k n, (s.slots dp)[j]? = some (some (k, n)) → k = key op.name)
    (hhole : (s.slots dp).length ≤ j → none ∉ s.slots dp)
    (hresult : r.onMap = (op.onMap (s.dirMap dp)).1)
    (hmap : u.dirMap dp = (op.onMap (s.dirMap dp)).2)
    (hoffset : ∀ n off, r = .inode (some (n, off)) → False)
    (hlock : lockOf u dp = lockOf s dp) (href : ∀ ip, (u.icache ip).ref = (s.icache ip).ref) :
    OpDone sb dp op s r u := by
  have hinum : (t.icache dp).inum = (s.icache dp).inum := hm.inum dp h.ref
  have hinum' : (u.icache dp).inum = (t'.icache dp).inum := hm'.inum dp hpos
  have hslots : t.slots dp = s.slots dp := h.slots_moved hm
  have hslots' : u.slots dp = t'.slots dp := by
    rw [Kernel.slots, Kernel.slots, hm'.disk, hinum']
  have hsize : (t.icache dp).size = direntSize * (s.slots dp).length := by
    rw [← hslots]
    exact ht.isDir.size
  refine ⟨hopen, hdistinct, hresult, hmap, fun n off hr => (hoffset n off hr).elim,
    fun i k n hi hk => ⟨?_, fun b hb => ?_⟩, fun hlt => hhole ?_, ?_,
    by rw [hinum', (hw.same dp).2.1, hinum], hlock, href⟩
  · have hne : i ≠ j := fun heq => hk (hname k n (heq ▸ hi))
    rw [hslots', hw.slots, if_neg hne, hslots]
    exact hi
  · have hlt : i < (s.slots dp).length := (List.getElem?_eq_some_iff.mp hi).1
    have hne : i ≠ j := fun heq => hk (hname k n (heq ▸ hi))
    rw [hm'.disk, ← hinum, hw.bytes b ?_ (by rw [hb]; exact hne), hm.disk]
    rw [hsize]
    unfold direntSize at hb ⊢
    omega
  · by_contra hge
    have hend : (u.slots dp)[(s.slots dp).length]? = none := by
      rw [hslots', hw.slots, if_neg (by omega), hslots]
      exact List.getElem?_eq_none le_rfl
    have := List.getElem?_eq_none_iff.mp hend
    omega
  · intro i hi
    rw [hm'.disk, ← hm.disk]
    exact hw.others i (by rw [hinum]; exact hi)

/-! ## Each operation -/

theorem ofBytes_bytes {name : ℕ → Byte} (hpos : 0 < inum) (hlt : inum < 2 ^ 16) :
    (Dirent.ofBytes (Dirent.bytes ⟨inum % 2 ^ 16, strncpy (fun _ => 0) name DIRSIZ⟩)).slot =
      some (key name, inum) := by
  have hinum : (Dirent.ofBytes (Dirent.bytes
      ⟨inum % 2 ^ 16, strncpy (fun _ => 0) name DIRSIZ⟩)).inum = inum := by
    simp only [Dirent.ofBytes, Dirent.bytes, if_pos, Nat.one_ne_zero, if_false, UInt8.toNat_ofNat']
    omega
  have hkey : key (Dirent.ofBytes (Dirent.bytes
      ⟨inum % 2 ^ 16, strncpy (fun _ => 0) name DIRSIZ⟩)).name = key name := by
    rw [← key_strncpy (s := fun _ => 0) (t := name)]
    refine bytesUpTo_congr fun i hi _ => ?_
    simp [Dirent.ofBytes, Dirent.bytes, hi]
  rw [Dirent.slot, hinum, hkey, if_neg (by omega)]

theorem ofBytes_zero : (Dirent.ofBytes fun _ => 0).slot = none := rfl

namespace OpenDir

/-- The end of an entry. -/
theorem entry_le (h : OpenDir sb dp s) (hj : j < (s.slots dp).length) :
    direntSize * j + direntSize ≤ MAXFILE * BSIZE := by
  have hmax := h.dir.size_le
  rw [h.fileSet.size_eq rfl, h.isDir.size] at hmax
  calc direntSize * j + direntSize
      = direntSize * (j + 1) := (Nat.mul_succ _ _).symm
    _ ≤ direntSize * (s.slots dp).length := Nat.mul_le_mul_left _ hj
    _ ≤ MAXFILE * BSIZE := hmax

theorem index_lt {k : List Byte} (hfound : s.dirMap dp k = some n) :
    Slots.index (s.slots dp) k < (s.slots dp).length := by
  by_contra hge
  rw [Kernel.dirMap, Slots.lookup_eq_none hge] at hfound
  simp at hfound

variable {name : ℕ → Byte} (h : OpenDir sb dp s) (hdistinct : Slots.Distinct (s.slots dp))
variable (hself : ∀ k, s.dirMap dp k = some (s.icache dp).inum → self)
include h hself

/-- The entry that has been found is one for the directory itself only if there is such an
entry. -/
theorem self_of_found (hfound : s.dirMap dp (key name) = some n)
    (hm : Moved (Pi.single ip 1) (lockOf s dp) s t) (hinum : (t.icache ip).inum = n)
    (heq : ip = dp) : self := by
  refine hself (key name) ?_
  rw [hfound, ← hinum, heq, hm.inum dp h.ref]

include hdistinct

theorem meets_lookup : Meets (Stops dp self) ((DirOp.lookup name).call sb devsw dp)
    (OpDone sb dp (.lookup name) s) s := by
  rw [DirOp.call, meets_bind, lookupEntry, meets_bind]
  refine h.isDir.meets_dirlookup (fun hnone => ?_) fun n hfound => ?_
  · refine OpDone.unchanged h hdistinct h.cache.moved ?_ rfl fun n off hr => ?_
    · exact congrArg MapResult.inode hnone.symm
    · simp at hr
  · refine h.meets_iget fun ip hip t ht hpos hlast hinum => ?_
    have hfound : s.dirMap dp (key name) = some n := hfound
    rw [meets_bind, meets_getinode, meets_bind]
    refine (h.got ht).meets_iput hip hpos hlast (h.self_of_found hself hfound ht hinum)
      fun u hu => ?_
    have hm := ht.trans hu (single_nonneg ip)
    rw [single_cancel, h.lockOf_moved ht] at hm
    obtain ⟨a, ha, ha'⟩ := Slots.lookup_of_lt (index_lt hfound)
    refine OpDone.unchanged h hdistinct hm ?_ rfl fun m off hr => ?_
    · rw [hinum]
      exact congrArg MapResult.inode hfound.symm
    · have hr' : (t.icache ip).inum = m ∧
          direntSize * Slots.index (s.slots dp) (key name) = off := by
        injection hr with hr
        injection hr with hr
        injection hr with hm hoff
        exact ⟨hm, hoff⟩
      refine ⟨_, hr'.2.symm, ?_⟩
      rw [ha, ← hr'.1, hinum]
      have hfound : Slots.lookup (s.slots dp) (key name) = some n := hfound
      rw [hfound] at ha'
      rw [Option.some.inj ha']
      rfl

theorem meets_link (hpos : 0 < inum) (hlt : inum < 2 ^ 16) :
    Meets (Stops dp self) ((DirOp.link name inum hpos hlt).call sb devsw dp)
      (OpDone sb dp (.link name inum hpos hlt) s) s := by
  rw [DirOp.call, meets_bind, dirlink, meets_bind]
  refine h.isDir.meets_dirlookup (fun hnone => ?_) fun n hfound => ?_
  · have hnone : s.dirMap dp (key name) = none := hnone
    rw [meets_bind, meets_getinode, meets_bind]
    refine h.isDir.meets_emptyFrom (j := 0) (fun i hi => absurd hi (Nat.not_lt_zero i))
      (Nat.zero_le _) ?_
    rw [meets_bind]
    refine h.meets_writei Slots.hole_le (fun _ _ => Or.inl rfl) (fun hfull => ?_) fun t ht hw => ?_
    · -- there is no room for another entry
      have hend : ¬ Slots.hole (s.slots dp) < (s.slots dp).length := fun hlt =>
        absurd (h.entry_le hlt) (Nat.not_le.mpr hfull)
      have hle : Slots.hole (s.slots dp) ≤ (s.slots dp).length := Slots.hole_le
      rw [if_pos (by decide), meets_fail]
      refine Or.inr (Or.inr (Or.inl ⟨rfl, fun hmem => hend (Slots.hole_lt_iff.mpr hmem), ?_⟩))
      rwa [show (s.slots dp).length = Slots.hole (s.slots dp) by omega]
    · rw [if_neg (by simp), meets_pure, meets_pure]
      have hslots : t.slots dp = Slots.put (s.slots dp) (key name) inum := by
        apply List.ext_getElem?
        intro i
        rw [hw.slots, Slots.getElem?_put, ofBytes_bytes hpos hlt]
        rfl
      have hop : (DirOp.link name inum hpos hlt).onMap (s.dirMap dp) =
          (.status 0, Function.update (s.dirMap dp) (key name) (some inum)) := by
        rw [DirOp.onMap, hnone]
        rfl
      refine OpDone.changed h h.cache.moved h hw ht.cache.moved ht.ref ht ?_ (fun k n hj => ?_)
        (fun hle hmem => ?_) (by rw [hop]; rfl) ?_ (fun n off hr => ?_)
        (hw.lockOf_eq) fun ip => (hw.same ip).1
      · rw [hslots]
        exact hdistinct.put hnone
      · exact absurd rfl (Slots.ne_hole hj)
      · exact absurd (Slots.hole_lt_iff.mpr hmem) (Nat.not_lt.mpr hle)
      · rw [hop, Kernel.dirMap, hslots]
        exact Slots.lookup_put hdistinct hnone
      · simp at hr
  · have hfound : s.dirMap dp (key name) = some n := hfound
    refine h.meets_iget fun ip hip t ht hpos' hlast hinum => ?_
    rw [meets_bind]
    refine (h.got ht).meets_iput hip hpos' hlast
      (h.self_of_found hself hfound ht hinum) fun u hu => ?_
    have hm := ht.trans hu (single_nonneg ip)
    rw [single_cancel, h.lockOf_moved ht] at hm
    have hop : (DirOp.link name inum hpos hlt).onMap (s.dirMap dp) =
        (.status (-1), s.dirMap dp) := by
      rw [DirOp.onMap, hfound]
      rfl
    refine OpDone.unchanged h hdistinct hm (by rw [hop]; rfl) (by rw [hop]) fun m off hr => ?_
    simp at hr

theorem meets_unlink : Meets (Stops dp self) ((DirOp.unlink name).call sb devsw dp)
    (OpDone sb dp (.unlink name) s) s := by
  rw [DirOp.call, meets_bind, unlinkEntry]
  by_cases hdots : namecmp name dot = 0 ∨ namecmp name dotdot = 0
  · rw [if_pos hdots, meets_pure, meets_pure]
    rw [namecmp_eq_zero, namecmp_eq_zero] at hdots
    have hop : (DirOp.unlink name).onMap (s.dirMap dp) = (.status (-1), s.dirMap dp) := by
      rw [DirOp.onMap, if_pos]
      tauto
    refine OpDone.unchanged h hdistinct h.cache.moved (by rw [hop]; rfl) (by rw [hop])
      fun m off hr => ?_
    simp at hr
  rw [if_neg hdots, meets_bind]
  rw [namecmp_eq_zero, namecmp_eq_zero, not_or] at hdots
  refine h.isDir.meets_dirlookup (fun hnone => ?_) fun n hfound => ?_
  · have hnone : s.dirMap dp (key name) = none := hnone
    have hop : (DirOp.unlink name).onMap (s.dirMap dp) = (.status (-1), s.dirMap dp) := by
      rw [DirOp.onMap, if_pos (Or.inr (Or.inr hnone))]
    refine OpDone.unchanged h hdistinct h.cache.moved (by rw [hop]; rfl) (by rw [hop])
      fun m off hr => ?_
    simp at hr
  · have hfound : s.dirMap dp (key name) = some n := hfound
    refine h.meets_iget fun ip hip t ht hpos hlast hinum => ?_
    have hopen := h.got ht
    have hslots := h.slots_moved ht
    have hindex := index_lt hfound
    rw [meets_bind]
    refine hopen.meets_writei (by rw [hslots]; exact hindex.le) (fun _ _ => Or.inl rfl)
      (fun hfull => ?_) fun t' ht' hw => ?_
    · -- the entry is within the file
      exact absurd (h.entry_le hindex) (Nat.not_le.mpr hfull)
    · rw [if_neg (by simp), meets_bind]
      obtain ⟨href, hinum', hlocked, hvalid⟩ := hw.same ip
      refine ht'.meets_iput hip (by rwa [href]) (by rwa [href, hvalid])
        (h.self_of_found hself hfound ht hinum) fun u hu => ?_
      have hrefs : ∀ j, (u.icache j).ref = (s.icache j).ref := fun j => by
        have hcancel := congrFun (single_cancel ip) j
        rw [Pi.add_apply, Pi.zero_apply] at hcancel
        rw [hu.ref, (hw.same j).1, ht.ref, add_assoc, hcancel, add_zero]
      have hop : (DirOp.unlink name).onMap (s.dirMap dp) =
          (.status 0, Function.update (s.dirMap dp) (key name) none) := by
        rw [DirOp.onMap, if_neg]
        rw [hfound]
        simpa using hdots
      have hcleared : u.slots dp = Slots.clear (s.slots dp) (key name) := by
        apply List.ext_getElem?
        intro i
        rw [ht'.slots_moved hu, hw.slots, Slots.getElem?_clear hindex, hslots]
        rfl
      refine OpDone.changed h ht hopen hw hu ht'.ref
        (ht'.moved hu (by rw [hrefs]; exact h.ref)) ?_ (fun k m hj => ?_)
        (fun hle => absurd hindex (Nat.not_lt.mpr hle)) (by rw [hop]; rfl) ?_
        (fun m off hr => by simp at hr) ?_ hrefs
      · rw [hcleared]
        exact hdistinct.clear hindex
      · obtain ⟨a, ha⟩ := Slots.getElem?_index hindex
        have hj : (s.slots dp)[Slots.index (s.slots dp) (key name)]? = some (some (k, m)) := hj
        rw [ha] at hj
        simp only [Option.some.injEq, Prod.mk.injEq] at hj
        exact hj.1.symm
      · rw [hop, Kernel.dirMap, hcleared]
        exact Slots.lookup_clear hdistinct hindex
      · exact (ht'.lockOf_moved hu).trans (hw.lockOf_eq.trans (h.lockOf_moved ht))

/-- Every operation does what the map says. -/
theorem meets_call (op : DirOp) :
    Meets (Stops dp self) (op.call sb devsw dp) (OpDone sb dp op s) s := by
  cases op with
  | link name inum hpos hlt => exact h.meets_link hdistinct hself hpos hlt
  | unlink name => exact h.meets_unlink hdistinct hself
  | lookup name => exact h.meets_lookup hdistinct hself

end OpenDir

/-- The operation makes an entry for inode `i`. -/
def DirOp.Links (i : ℕ) : DirOp → Prop
  | link _ inum _ _ => inum = i
  | unlink _ => False
  | lookup _ => False

end Xv6.Files
