import Xv6.Mkfs.Reading

/-!
# Runs of `main`

For each file, `main` allocates an inode, appends an entry to the root directory, and then
what it reads.  So what the inodes hold in the end can be said in terms of calls again.  This
is for as many files as there is room for inodes.  Of a run with more of them only the two
counters are known.
-/

namespace Xv6.Mkfs

open Files Faulting

variable {s t : State} {E : Fault → State → Prop} {content : ℕ → List Byte}
variable {i k n m : ℕ} {file : HostFile} {files : List HostFile}

/-! ## One file -/

end Xv6.Mkfs
