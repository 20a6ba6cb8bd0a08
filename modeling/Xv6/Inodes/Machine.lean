import Mathlib.Data.Multiset.AddSub
import Mathlib.Data.Multiset.Basic
import Xv6.Files.Disk
import Xv6.Lib.Transition

/-!
# The inode cache

`iget`, `idup`, `ilock`, `iunlock`, `iput`, `ialloc` and `dirlookup` of `fs.c` as the steps of any
number of processes.  What is done under `icache.lock` is one step, and so is what is done to a
block while its buffer is locked.  Whoever waits for a sleep lock is blocked.

`files` are the pointers in the `cwd`s and the file structures, and `vars p` those in the variables
of the calls that process `p` is in.  A process uses pointers that are in one of these places, puts
those of its own variables, and leaves `type` as it is when it changes an inode.  The contents of
directories do not occur: `dirlookup` may find any number.
-/

namespace Xv6.Inodes

open Files Transition

instance : NeZero NINODE := ⟨by decide⟩

abbrev Ptr := Fin NINODE

/-- An entry of the cache: `dev`, `inum` and `ref`, which belong to `icache.lock`, who has the
sleep lock, and what the sleep lock protects. -/
structure Entry (P : Type) extends Dinode where
  dev : ℕ
  inum : ℕ
  ref : ℕ
  lock : Option P
  valid : Bool

/-- Which inode it is. -/
def Entry.key {P : Type} (e : Entry P) : ℕ × ℕ := (e.dev, e.inum)

/-- The types of inodes that are not free. -/
abbrev InodeType := {type : Int16 // type ≠ 0}

/-- Where a process is. -/
inductive Pc where
  | idle
  /-- In `ilock`, with the lock. -/
  | locking (i : Ptr)
  /-- The inode has been changed, `iupdate` comes next. -/
  | updating (i : Ptr)
  /-- In `iput`, before `acquiresleep`. -/
  | putting (i : Ptr)
  /-- In `iput`, with the lock. -/
  | testing (i : Ptr)
  /-- Before `itrunc`. -/
  | truncating (i : Ptr)
  /-- Before the `iupdate` of `itrunc`. -/
  | truncated (i : Ptr)
  /-- Before `ip->type = 0`. -/
  | clearing (i : Ptr)
  /-- Before the `iupdate` that follows. -/
  | cleared (i : Ptr)
  /-- Before `ip->valid = 0`. -/
  | freed (i : Ptr)
  /-- Before `ip->ref--`. -/
  | dropping (i : Ptr)
  /-- In the loop of `ialloc`. -/
  | searching (dev inum : ℕ) (type : InodeType)
  /-- Before the `iget` of `ialloc`. -/
  | allocated (dev inum : ℕ)
  deriving DecidableEq

/-- `disk (dev, inum)` is the inode with the changes of the transactions so far. -/
structure Icache (P : Type) where
  entry : Ptr → Entry P
  disk : ℕ × ℕ → Dinode
  files : Multiset Ptr
  vars : P → Multiset Ptr
  pc : P → Pc

inductive Action (P : Type) where
  | iget (p : P) (dev inum : ℕ)
  | dirlookup (p : P) (dp : Ptr) (inum : ℕ)
  | idup (p : P) (i : Ptr)
  | ilock (p : P) (i : Ptr)
  | iunlock (p : P) (i : Ptr)
  /-- The fields of a locked inode are changed. -/
  | modify (p : P) (i : Ptr) (d : Dinode)
  | iput (p : P) (i : Ptr)
  | ialloc (p : P) (dev : ℕ) (type : InodeType)
  /-- A pointer goes to a `cwd` or a file structure. -/
  | keep (p : P) (i : Ptr)
  /-- A pointer is taken from there. -/
  | take (p : P) (i : Ptr)
  | proceed (p : P)

namespace Icache

variable {P : Type} [DecidableEq P] (s : Icache P) (p : P)

def setEntry {P : Type} (s : Icache P) (i : Ptr) (e : Entry P) : Icache P :=
  { s with entry := Function.update s.entry i e }

def setDinode {P : Type} (s : Icache P) (k : ℕ × ℕ) (d : Dinode) : Icache P :=
  { s with disk := Function.update s.disk k d }

def setVars (l : Multiset Ptr) : Icache P := { s with vars := Function.update s.vars p l }

def setFiles {P : Type} (s : Icache P) (l : Multiset Ptr) : Icache P := { s with files := l }

def goto (pc : Pc) : Icache P := { s with pc := Function.update s.pc p pc }

/-- The entry of an inode that is in the cache. -/
def cached {P : Type} (s : Icache P) (dev inum : ℕ) : Option Ptr :=
  (List.finRange NINODE).find? fun i =>
    0 < (s.entry i).ref ∧ (s.entry i).dev = dev ∧ (s.entry i).inum = inum

/-- The empty slot that the loop remembers. -/
def empty {P : Type} (s : Icache P) : Option Ptr :=
  (List.finRange NINODE).find? fun i => (s.entry i).ref = 0

def iget (dev inum : ℕ) : Outcome (Icache P) :=
  match s.cached dev inum with
  | some i =>
      .next ((s.setEntry i { s.entry i with ref := (s.entry i).ref + 1 }).setVars p
        (i ::ₘ s.vars p))
  | none =>
      match s.empty with
      | some i =>
          .next ((s.setEntry i
            { s.entry i with dev := dev, inum := inum, ref := 1, valid := false }).setVars p
              (i ::ₘ s.vars p))
      | none => .panic "iget: no inodes"

def dirlookup (dp : Ptr) (inum : ℕ) : Outcome (Icache P) :=
  if (s.entry dp).type ≠ T_DIR then .panic "dirlookup not DIR"
  else s.iget p (s.entry dp).dev inum

def idup (i : Ptr) : Icache P :=
  (s.setEntry i { s.entry i with ref := (s.entry i).ref + 1 }).setVars p (i ::ₘ s.vars p)

/-- `ilock` up to `acquiresleep`. -/
def ilock (i : Ptr) : Outcome (Icache P) :=
  if (s.entry i).ref < 1 then .panic "ilock"
  else if (s.entry i).lock = none then
    .next ((s.setEntry i { s.entry i with lock := some p }).goto p (.locking i))
  else .blocked

def iunlock (i : Ptr) : Outcome (Icache P) :=
  if (s.entry i).lock ≠ some p ∨ (s.entry i).ref < 1 then .panic "iunlock"
  else .next (s.setEntry i { s.entry i with lock := none })

/-- `iupdate`, and what comes after it. -/
def iupdate (i : Ptr) (pc : Pc) : Icache P :=
  (s.setDinode (s.entry i).key (s.entry i).toDinode).goto p pc

/-- The next step of a call. -/
def proceed (ninodes : ℕ) : Pc → Outcome (Icache P)
  | .idle => .blocked
  | .locking i =>
      if (s.entry i).valid then .next (s.goto p .idle)
      else
        let dip := s.disk (s.entry i).key
        if dip.type = 0 then .panic "ilock: no type"
        else .next ((s.setEntry i { s.entry i with toDinode := dip, valid := true }).goto p .idle)
  | .updating i => .next (s.iupdate p i .idle)
  | .putting i =>
      if (s.entry i).lock = none then
        .next ((s.setEntry i { s.entry i with lock := some p }).goto p (.testing i))
      else .blocked
  | .testing i =>
      if (s.entry i).valid ∧ (s.entry i).nlink = 0 ∧ (s.entry i).ref = 1 then
        .next (s.goto p (.truncating i))
      else .next ((s.setEntry i { s.entry i with lock := none }).goto p (.dropping i))
  | .truncating i =>
      .next ((s.setEntry i { s.entry i with size := 0, addrs := fun _ => 0 }).goto p
        (.truncated i))
  | .truncated i => .next (s.iupdate p i (.clearing i))
  | .clearing i => .next ((s.setEntry i { s.entry i with type := 0 }).goto p (.cleared i))
  | .cleared i => .next (s.iupdate p i (.freed i))
  | .freed i =>
      .next ((s.setEntry i { s.entry i with valid := false, lock := none }).goto p (.dropping i))
  | .dropping i =>
      .next ((s.setEntry i { s.entry i with ref := (s.entry i).ref - 1 }).goto p .idle)
  | .searching dev inum type =>
      if inum < ninodes then
        if (s.disk (dev, inum)).type = 0 then
          -- `memset`, and the type is set
          .next ((s.setDinode (dev, inum) ⟨type.1, 0, 0, 0, 0, fun _ => 0⟩).goto p
            (.allocated dev inum))
        else .next (s.goto p (.searching dev (inum + 1) type))
      else .panic "ialloc: no inodes"
  | .allocated dev inum => (s.goto p .idle).iget p dev inum

/-- The process is not in one of these functions, and has a pointer. -/
def Uses (i : Ptr) : Prop := s.pc p = .idle ∧ (i ∈ s.vars p ∨ i ∈ s.files)

instance (i : Ptr) : Decidable (s.Uses p i) := by
  unfold Uses
  infer_instance

def step (ninodes : ℕ) (s : Icache P) : Action P → Outcome (Icache P)
  | .iget p dev inum => if s.pc p = .idle then s.iget p dev inum else .blocked
  | .dirlookup p dp inum =>
      if s.pc p = .idle ∧ (s.entry dp).lock = some p then s.dirlookup p dp inum else .blocked
  | .idup p i => if s.Uses p i then .next (s.idup p i) else .blocked
  | .ilock p i => if s.Uses p i then s.ilock p i else .blocked
  | .iunlock p i => if s.pc p = .idle then s.iunlock p i else .blocked
  | .modify p i d =>
      if s.pc p = .idle ∧ (s.entry i).lock = some p ∧ d.type = (s.entry i).type then
        .next ((s.setEntry i { s.entry i with toDinode := d }).goto p (.updating i))
      else .blocked
  | .iput p i =>
      if s.pc p = .idle ∧ i ∈ s.vars p then
        .next ((s.setVars p ((s.vars p).erase i)).goto p (.putting i))
      else .blocked
  | .ialloc p dev type =>
      if s.pc p = .idle then .next (s.goto p (.searching dev 1 type)) else .blocked
  | .keep p i =>
      if s.pc p = .idle ∧ i ∈ s.vars p then
        .next ((s.setVars p ((s.vars p).erase i)).setFiles (i ::ₘ s.files))
      else .blocked
  | .take p i =>
      if s.pc p = .idle ∧ i ∈ s.files then
        .next ((s.setVars p (i ::ₘ s.vars p)).setFiles (s.files.erase i))
      else .blocked
  | .proceed p => s.proceed p ninodes (s.pc p)

/-- Nothing is in the cache. -/
def boot (disk : ℕ × ℕ → Dinode) : Icache P where
  entry := fun _ => ⟨⟨0, 0, 0, 0, 0, fun _ => 0⟩, 0, 0, 0, none, false⟩
  disk := disk
  files := 0
  vars := fun _ => 0
  pc := fun _ => .idle

end Icache

end Xv6.Inodes
