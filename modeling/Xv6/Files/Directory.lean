import Xv6.Lib.Slots
import Xv6.Files.Names
import Xv6.Files.Inodes
import Xv6.Files.ByteArrays

/-!
# Directories

A directory is a file of entries of 16 bytes; an entry with inode number 0 is free.  Each
function that goes through a directory has a loop of its own.

What a directory says is `Disk.slots`.  `dirlookup` and `dirlink` read it entry by entry, and a
write of one entry changes one slot (`Wrote.slots`).
-/

namespace Xv6.Files

open Faulting

variable {E : Fault → Kernel → Prop} {sb : Superblock} {devsw : Devsw} {s t : Kernel} {D D' : Disk}
variable {dp ip i j n off : ℕ} {name : ℕ → Byte} {held : Option ℕ}

/-! ## The code -/

/-- `struct dirent` -/
structure Dirent where
  inum : ℕ
  name : ℕ → Byte

/-- `sizeof(struct dirent)` -/
def direntSize : ℕ := 16

def Dirent.ofBytes (bytes : ℕ → Byte) : Dirent where
  inum := (bytes 0).toNat + (bytes 1).toNat * 256
  name k := if k < DIRSIZ then bytes (k + 2) else 0

def Dirent.bytes (de : Dirent) (k : ℕ) : Byte :=
  if k = 0 then UInt8.ofNat de.inum
  else if k = 1 then UInt8.ofNat (de.inum / 256)
  else de.name (k - 2)

/-- `if(readi(dp, (char*)&de, off, sizeof(de)) != sizeof(de)) panic(message);` -/
def readDirent (sb : Superblock) (devsw : Devsw) (dp off : ℕ) (message : String) : Fs Dirent := do
  let (r, bytes) ← readi sb devsw dp off direntSize
  if r ≠ direntSize then fail message
  else pure (Dirent.ofBytes fun k => bytes.getD k 0)

/-- The loop of `dirlookup`.  The entry of the cache and the offset are returned. -/
def lookupFrom (sb : Superblock) (devsw : Devsw) (dp : ℕ) (name : ℕ → Byte) (size off : ℕ) :
    Fs (Option (ℕ × ℕ)) := do
  if off < size then
    let de ← readDirent sb devsw dp off "dirlookup read"
    if de.inum = 0 then lookupFrom sb devsw dp name size (off + direntSize)
    else if namecmp name de.name = 0 then
      let ip ← iget (← getinode dp).dev de.inum
      pure (some (ip, off))
    else lookupFrom sb devsw dp name size (off + direntSize)
  else pure none
termination_by size - off
decreasing_by
  all_goals
    simp only [direntSize]
    omega

def dirlookup (sb : Superblock) (devsw : Devsw) (dp : ℕ) (name : ℕ → Byte) :
    Fs (Option (ℕ × ℕ)) := do
  let inode ← getinode dp
  if inode.type ≠ T_DIR then fail "dirlookup not DIR"
  else lookupFrom sb devsw dp name inode.size 0

/-- The loop of `dirlink`: the offset of an empty entry, or the end. -/
def emptyFrom (sb : Superblock) (devsw : Devsw) (dp size off : ℕ) : Fs ℕ := do
  if off < size then
    let de ← readDirent sb devsw dp off "dirlink read"
    if de.inum = 0 then pure off
    else emptyFrom sb devsw dp size (off + direntSize)
  else pure off
termination_by size - off
decreasing_by
  simp only [direntSize]
  omega

/-- All bytes of `de.name` are set, whatever they have been. -/
def dirlink (sb : Superblock) (devsw : Devsw) (dp : ℕ) (name : ℕ → Byte) (inum : ℕ) : Fs ℤ := do
  match ← dirlookup sb devsw dp name with
  | some (ip, _) =>
      iput ip
      pure (-1)
  | none =>
      let off ← emptyFrom sb devsw dp (← getinode dp).size 0
      let de : Dirent := ⟨inum % 2 ^ 16, strncpy (fun _ => 0) name DIRSIZ⟩
      if (← writei sb devsw dp de.bytes off direntSize) ≠ direntSize then fail "dirlink"
      else pure 0

/-! ## What a directory says -/

/-- What an entry stands for: a name and an inode number, or nothing. -/
def Dirent.slot (de : Dirent) : Option (List Byte × ℕ) :=
  if de.inum = 0 then none else some (key de.name, de.inum)

/-- Entry `j` of inode `i`. -/
def Disk.entry (D : Disk) (i j : ℕ) : Dirent :=
  Dirent.ofBytes fun k => D.byte i (direntSize * j + k)

def Disk.slots (D : Disk) (i : ℕ) : List (Option (List Byte × ℕ)) :=
  (List.range ((D.dinode i).size / direntSize)).map fun j => (D.entry i j).slot

def Disk.lookup (D : Disk) (i : ℕ) (name : List Byte) : Option ℕ := Slots.lookup (D.slots i) name

/-- Inode `i` is a directory: it consists of entries. -/
structure Disk.Dir (D : Disk) (i : ℕ) : Prop where
  type : (D.dinode i).type = T_DIR
  whole : D.Whole i
  size : direntSize ∣ (D.dinode i).size

@[simp] theorem length_slots : (D.slots i).length = (D.dinode i).size / direntSize := by
  simp [Disk.slots]

theorem getElem?_slots : (D.slots i)[j]? =
    if j < (D.dinode i).size / direntSize then some (D.entry i j).slot else none := by
  rw [Disk.slots, List.getElem?_map]
  by_cases hj : j < (D.dinode i).size / direntSize
  · rw [if_pos hj, List.getElem?_range hj]
    rfl
  · rw [if_neg hj, List.getElem?_eq_none (by simpa using hj)]
    rfl

theorem ofBytes_congr {b b' : ℕ → Byte} (h : ∀ k < direntSize, b k = b' k) :
    Dirent.ofBytes b = Dirent.ofBytes b' := by
  have hname : (fun k => if k < DIRSIZ then b (k + 2) else 0) =
      fun k => if k < DIRSIZ then b' (k + 2) else 0 := by
    funext k
    by_cases hk : k < DIRSIZ
    · rw [if_pos hk, if_pos hk, h (k + 2) (by unfold DIRSIZ at hk; unfold direntSize; omega)]
    · rw [if_neg hk, if_neg hk]
  rw [Dirent.ofBytes, Dirent.ofBytes, h 0 (by decide), h 1 (by decide), hname]

theorem Disk.Dir.size_eq (h : D.Dir i) :
    (D.dinode i).size = direntSize * ((D.dinode i).size / direntSize) :=
  (Nat.mul_div_cancel' h.size).symm

theorem Disk.Dir.size_le (h : D.Dir i) : (D.dinode i).size ≤ MAXFILE * BSIZE := h.whole.size_le

/-! ## One entry is read -/

/-- The entry `dp` of the cache is a directory that has been read. -/
structure Kernel.IsDir (s : Kernel) (dp : ℕ) : Prop where
  coherent : s.Coherent dp
  dir : s.disk.Dir (s.icache dp).inum

namespace Kernel.IsDir

theorem type (h : s.IsDir dp) : (s.icache dp).type = T_DIR :=
  (congrArg Dinode.type h.coherent).trans h.dir.type

theorem size (h : s.IsDir dp) :
    (s.icache dp).size = direntSize * (s.disk.slots (s.icache dp).inum).length := by
  have hsize : (s.icache dp).size = (s.disk.dinode (s.icache dp).inum).size :=
    congrArg Dinode.size h.coherent
  rw [hsize, length_slots]
  exact h.dir.size_eq

theorem lt_size (h : s.IsDir dp) :
    direntSize * j < (s.icache dp).size ↔ j < (s.disk.slots (s.icache dp).inum).length := by
  rw [h.size]
  exact Nat.mul_lt_mul_left (by decide)

theorem size_lt (h : s.IsDir dp) : (s.icache dp).size < 2 ^ 31 := by
  have hsize : (s.icache dp).size = (s.disk.dinode (s.icache dp).inum).size :=
    congrArg Dinode.size h.coherent
  rw [hsize]
  exact h.dir.size_le.trans_lt (by decide)

theorem meets_readDirent (h : s.IsDir dp) {message : String} {Q : Dirent → Kernel → Prop}
    (hj : j < (s.disk.slots (s.icache dp).inum).length)
    (hQ : Q (s.disk.entry (s.icache dp).inum j) s) :
    Meets E (readDirent sb devsw dp (direntSize * j) message) Q s := by
  have hoff := h.lt_size.mpr hj
  have hsize := h.size_lt
  have hnext : direntSize * j + direntSize ≤ (s.icache dp).size := by
    rw [h.size, ← Nat.mul_succ]
    exact Nat.mul_le_mul_left _ hj
  have hmin : min direntSize ((s.icache dp).size - direntSize * j) = direntSize := by omega
  rw [readDirent, meets_bind]
  refine meets_readi h.coherent (by rw [h.type]; decide) (by rw [h.type]; decide) h.dir.whole
    (by omega) (by decide) (fun hbad => ?_) fun _ _ => ?_
  · have : direntSize < 2 ^ 31 := by decide
    omega
  rw [hmin]
  dsimp only
  rw [if_neg (by simp), meets_pure]
  have hentry : Dirent.ofBytes (fun k => ((List.range direntSize).map fun k =>
      s.disk.byte (s.icache dp).inum (direntSize * j + k)).getD k 0) =
      s.disk.entry (s.icache dp).inum j := by
    refine ofBytes_congr fun k hk => ?_
    rw [List.getD_eq_getElem?_getD, List.getElem?_map, List.getElem?_range hk]
    rfl
  rw [hentry]
  exact hQ

/-! ## The loops -/

/-- The slots that have been passed did not have the property. -/
theorem findIdx_eq_of_passed {l : List (Option (List Byte × ℕ))}
    {p : Option (List Byte × ℕ) → Bool} (hpassed : ∀ i < j, ∀ e, l[i]? = some e → p e = false)
    (hj : j < l.length) (hfound : ∀ e, l[j]? = some e → p e = true) : l.findIdx p = j := by
  rw [List.findIdx_eq hj]
  refine ⟨hfound _ (List.getElem?_eq_getElem hj), fun i hi => ?_⟩
  exact hpassed i hi _ (List.getElem?_eq_getElem (hi.trans hj))

theorem findIdx_eq_length_of_passed {l : List (Option (List Byte × ℕ))}
    {p : Option (List Byte × ℕ) → Bool} (hpassed : ∀ i < j, ∀ e, l[i]? = some e → p e = false)
    (hj : ¬ j < l.length) : l.findIdx p = l.length := by
  refine List.findIdx_eq_length.mpr fun e he => ?_
  obtain ⟨i, hi, rfl⟩ := List.getElem_of_mem he
  exact hpassed i (by omega) _ (List.getElem?_eq_getElem hi)

theorem meets_lookupFrom (h : s.IsDir dp) {Q : Option (ℕ × ℕ) → Kernel → Prop}
    (hpassed : ∀ i < j, ∀ e, (s.disk.slots (s.icache dp).inum)[i]? = some e →
      Slots.hasKey (key name) e = false)
    (hnone : s.disk.lookup (s.icache dp).inum (key name) = none → Q none s)
    (hsome : ∀ n, s.disk.lookup (s.icache dp).inum (key name) = some n →
      Meets E (iget (s.icache dp).dev n) (fun ip t => Q (some (ip, direntSize *
        Slots.index (s.disk.slots (s.icache dp).inum) (key name))) t) s) :
    Meets E (lookupFrom sb devsw dp name (s.icache dp).size (direntSize * j)) Q s := by
  set l := s.disk.slots (s.icache dp).inum with hl
  induction hn : l.length - j generalizing j with
  | zero =>
      have hj : ¬ j < l.length := by omega
      rw [lookupFrom, if_neg fun hlt => hj (h.lt_size.mp hlt), meets_pure]
      refine hnone (Slots.lookup_eq_none ?_)
      exact (findIdx_eq_length_of_passed hpassed hj).symm ▸ lt_irrefl _
  | succ n ih =>
      have hj : j < l.length := by omega
      have hslot : l[j]? = some (s.disk.entry (s.icache dp).inum j).slot := by
        rw [hl, getElem?_slots, if_pos (by rwa [hl, length_slots] at hj)]
      have hnext : ∀ e, l[j]? = some e → Slots.hasKey (key name) e = false →
          Meets E (lookupFrom sb devsw dp name (s.icache dp).size
            (direntSize * j + direntSize)) Q s := by
        intro e he hkey
        rw [← Nat.mul_succ]
        refine ih (fun i hi e' he' => ?_) (by omega)
        by_cases hij : i = j
        · subst hij
          rw [he] at he'
          rw [← Option.some.inj he']
          exact hkey
        · exact hpassed i (by omega) e' he'
      rw [lookupFrom, if_pos (h.lt_size.mpr hj), meets_bind]
      refine h.meets_readDirent hj ?_
      generalize s.disk.entry (s.icache dp).inum j = de at hslot
      by_cases hfree : de.inum = 0
      · rw [if_pos hfree]
        refine hnext _ hslot ?_
        rw [Dirent.slot, if_pos hfree]
        rfl
      have hentry : de.slot = some (key de.name, de.inum) := if_neg hfree
      rw [if_neg hfree]
      by_cases hname : namecmp name de.name = 0
      · rw [if_pos hname, meets_bind, meets_getinode, meets_bind]
        have hsame := namecmp_eq_zero.mp hname
        have hindex : Slots.index l (key name) = j := findIdx_eq_of_passed hpassed hj fun e he => by
          rw [hslot, hentry] at he
          rw [← Option.some.inj he, hsame]
          simp [Slots.hasKey]
        have hlookup : s.disk.lookup (s.icache dp).inum (key name) = some de.inum := by
          rw [Disk.lookup, Slots.lookup, ← hl, hindex, hslot, hentry]
          rfl
        have hfound := hsome _ hlookup
        rw [hindex] at hfound
        exact hfound
      · rw [if_neg hname]
        refine hnext _ hslot ?_
        rw [hentry]
        refine decide_eq_false fun heq => hname ?_
        exact namecmp_eq_zero.mpr heq.symm

theorem meets_emptyFrom (h : s.IsDir dp) {Q : ℕ → Kernel → Prop}
    (hpassed : ∀ i < j, ∀ e, (s.disk.slots (s.icache dp).inum)[i]? = some e → e.isNone = false)
    (hjle : j ≤ (s.disk.slots (s.icache dp).inum).length)
    (hQ : Q (direntSize * Slots.hole (s.disk.slots (s.icache dp).inum)) s) :
    Meets E (emptyFrom sb devsw dp (s.icache dp).size (direntSize * j)) Q s := by
  set l := s.disk.slots (s.icache dp).inum with hl
  induction hn : l.length - j generalizing j with
  | zero =>
      have hj : ¬ j < l.length := by omega
      have hhole : Slots.hole l = j := (findIdx_eq_length_of_passed hpassed hj).trans (by omega)
      rw [emptyFrom, if_neg fun hlt => hj (h.lt_size.mp hlt), meets_pure, ← hhole]
      exact hQ
  | succ n ih =>
      have hj : j < l.length := by omega
      have hslot : l[j]? = some (s.disk.entry (s.icache dp).inum j).slot := by
        rw [hl, getElem?_slots, if_pos (by rwa [hl, length_slots] at hj)]
      rw [emptyFrom, if_pos (h.lt_size.mpr hj), meets_bind]
      refine h.meets_readDirent hj ?_
      generalize s.disk.entry (s.icache dp).inum j = de at hslot
      by_cases hfree : de.inum = 0
      · have hhole : Slots.hole l = j := findIdx_eq_of_passed hpassed hj fun e he => by
          rw [hslot, Dirent.slot, if_pos hfree] at he
          rw [← Option.some.inj he]
          rfl
        rw [if_pos hfree, meets_pure, ← hhole]
        exact hQ
      · rw [if_neg hfree, ← Nat.mul_succ]
        refine ih (fun i hi e he => ?_) hj (by omega)
        by_cases hij : i = j
        · subst hij
          rw [hslot, Dirent.slot, if_neg hfree] at he
          rw [← Option.some.inj he]
          rfl
        · exact hpassed i (by omega) e he

/-- `dirlookup` finds what the directory says, and `iget` gets the inode. -/
theorem meets_dirlookup (h : s.IsDir dp) {Q : Option (ℕ × ℕ) → Kernel → Prop}
    (hnone : s.disk.lookup (s.icache dp).inum (key name) = none → Q none s)
    (hsome : ∀ n, s.disk.lookup (s.icache dp).inum (key name) = some n →
      Meets E (iget (s.icache dp).dev n) (fun ip t => Q (some (ip, direntSize *
        Slots.index (s.disk.slots (s.icache dp).inum) (key name))) t) s) :
    Meets E (dirlookup sb devsw dp name) Q s := by
  rw [dirlookup, meets_bind, meets_getinode, if_neg fun hne => hne h.type]
  exact h.meets_lookupFrom (j := 0) (fun i hi => absurd hi (Nat.not_lt_zero i)) hnone hsome

end Kernel.IsDir

end Xv6.Files
