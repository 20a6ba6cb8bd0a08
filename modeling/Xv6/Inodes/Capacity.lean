import Xv6.Bio.Lru
import Xv6.Inodes.Consistency

/-!
# The sizes of the two caches

`iget` panics when there are pointers to `NINODE` different inodes, and `bget` when each of the
`NBUF` buffers is held by a process, waited for or dirty.  The numbers of processes and of open
files do not keep them from it: 50 processes in different directories are enough for the first, and
31 processes that read different blocks for the second.
-/

namespace Xv6.Inodes

open Files Transition

variable {P β : Type} [DecidableEq P] [Fintype P]

section Inodes

variable {s t : Icache P} {p : P} {dev inum ninodes : ℕ} {k : ℕ × ℕ} {i : Ptr}

end Inodes

/-! ## Buffers -/

section Buffers

variable {s : Bio P β} {history : BioHistory} {order : List BufId} {p : P} {dev blockno : ℕ}
variable {b : BufId}

end Buffers

/-! ## Both caches -/

/-- Process `k` changes to the directory with the number `k + 2`, which gets entry `k + 1`.  The
root has entry 0 each time. -/
def chdir (k : ℕ) : List (Action (Fin NPROC)) :=
  let p := Fin.ofNat NPROC k
  .iget p ROOTDEV ROOTINO :: [.ilock p 0, .proceed p, .dirlookup p 0 (k + 2), .iunlock p 0,
    .iput p 0, .proceed p, .proceed p, .proceed p, .keep p (Fin.ofNat NINODE (k + 1))]

end Xv6.Inodes
