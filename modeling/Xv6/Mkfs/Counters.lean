import Xv6.Mkfs.Main

/-!
# The counters in any run

What is in the image after there was no room for an inode is hard to say.  But each file
still counts for one inode, and no block is ever given back.
-/

namespace Xv6.Mkfs

open Files Faulting

variable {s t u : State} {α β : Type} {m n : ℕ} {Q : PUnit → State → Prop}

/-- `n` inodes were allocated, and perhaps blocks were taken. -/
structure Counted (n : ℕ) (s t : State) : Prop where
  freeinode : t.freeinode = s.freeinode + n
  freeblock : s.freeblock ≤ t.freeblock

theorem Counted.refl (s : State) : Counted 0 s s := ⟨rfl, le_rfl⟩

theorem Counted.trans (h : Counted m s t) (h' : Counted n t u) : Counted (m + n) s u :=
  ⟨by rw [h'.freeinode, h.freeinode, Nat.add_assoc], h.freeblock.trans h'.freeblock⟩

/-- If the program ends, it has allocated `n` inodes. -/
def Counts (n : ℕ) (c : Program α) : Prop :=
  ∀ s, Meets (fun _ _ => True) c (fun _ t => Counted n s t) s

namespace Counts

theorem pure (a : α) : Counts 0 (Pure.pure a : Program α) := fun s => Counted.refl s

theorem fail (message : String) : Counts n (Faulting.fail message : Program α) := fun _ => trivial

theorem bind {c : Program α} {f : α → Program β} (h : Counts m c) (h' : ∀ a, Counts n (f a)) :
    Counts (m + n) (c >>= f) := fun s => by
  rw [meets_bind]
  exact (h s).mono fun a t ht => (h' a t).mono fun _ _ hu => ht.trans hu

/-- The second program allocates no inodes. -/
theorem bind_zero {c : Program α} {f : α → Program β} (h : Counts n c) (h' : ∀ a, Counts 0 (f a)) :
    Counts n (c >>= f) := h.bind h'

theorem ite {p : Prop} [Decidable p] {c d : Program α} (h : Counts n c) (h' : Counts n d) :
    Counts n (if p then c else d) := by
  split
  · exact h
  · exact h'

theorem rsect (sec : ℕ) : Counts 0 (Mkfs.rsect sec) := fun s => by
  rw [Mkfs.rsect, meets_bind, meets_get]
  exact ite (pure _) (fail _) s

theorem wsect (part : Part) (sec : ℕ) (buf : Block) : Counts 0 (Mkfs.wsect part sec buf) :=
  fun _ => ⟨rfl, le_rfl⟩

theorem nextBlock : Counts 0 Mkfs.nextBlock := fun _ => ⟨rfl, Nat.le_succ _⟩

theorem nextInode : Counts 1 Mkfs.nextInode := fun _ => ⟨rfl, le_rfl⟩

theorem rinode (inum : ℕ) : Counts 0 (Mkfs.rinode inum) := (rsect _).bind_zero fun _ => pure _

theorem winode (inum : ℕ) (din : Dinode) : Counts 0 (Mkfs.winode inum din) :=
  (rsect _).bind_zero fun _ => wsect _ _ _

theorem ialloc (type : Int16) : Counts 1 (Mkfs.ialloc type) :=
  nextInode.bind_zero fun _ => (winode _ _).bind_zero fun _ => pure _

theorem takeAddr (din : Dinode) (k : ℕ) : Counts 0 (Mkfs.takeAddr din k) :=
  ite (nextBlock.bind_zero fun _ => pure _) (pure _)

theorem entryFor (table k : ℕ) : Counts 0 (Mkfs.entryFor table k) :=
  (rsect _).bind_zero fun _ =>
    ite (nextBlock.bind_zero fun _ => (wsect _ _ _).bind_zero fun _ => pure _) (pure _)

theorem sectorFor (din : Dinode) (fbn : ℕ) : Counts 0 (Mkfs.sectorFor din fbn) :=
  ite ((takeAddr _ _).bind_zero fun _ => pure _)
    ((takeAddr _ _).bind_zero fun _ => (entryFor _ _).bind_zero fun _ => pure _)

theorem appendFrom (din : Dinode) (off : ℕ) (p : List Byte) :
    Counts 0 (Mkfs.appendFrom din off p) := by
  fun_induction Mkfs.appendFrom din off p with
  | case1 din off p hlen fbn hmax ih =>
      exact (sectorFor _ _).bind_zero fun _ => (rsect _).bind_zero fun _ =>
        (wsect _ _ _).bind_zero fun _ => ih _
  | case2 din off p hlen fbn hmax => exact fail _
  | case3 din off p hlen => exact pure _

theorem iappend (inum : ℕ) (p : List Byte) : Counts 0 (Mkfs.iappend inum p) :=
  (rinode _).bind_zero fun _ => (appendFrom _ _ _).bind_zero fun _ => winode _ _

theorem forM_zero {ι : Type} {f : ι → Program PUnit} (h : ∀ i, Counts 0 (f i)) (l : List ι) :
    Counts 0 (l.forM f) := by
  induction l with
  | nil => exact pure _
  | cons i l ih => exact (h i).bind_zero fun _ => ih

theorem addFile (rootino : ℕ) (file : HostFile) : Counts 1 (Mkfs.addFile rootino file) :=
  ite (fail _) (ite (fail _) ((ialloc _).bind_zero fun _ => (iappend _ _).bind_zero fun _ =>
    forM_zero (fun _ => iappend _ _) _))

theorem files (files : List HostFile) :
    Counts files.length (files.forM (Mkfs.addFile ROOTINO)) := by
  induction files with
  | nil => exact pure _
  | cons file files ih =>
      rw [List.length_cons, Nat.add_comm]
      exact (addFile _ _).bind fun _ => ih

theorem fixRoot (rootino : ℕ) : Counts 0 (Mkfs.fixRoot rootino) :=
  (rinode _).bind_zero fun _ => winode _ _

end Counts

end Xv6.Mkfs
