import Xv6.Files.Blocks

/-!
# The program that makes the disk image

`mkfs.c`: the image is a file of the host, read and written by sectors.  The program runs
alone, and ends with a fault where the source calls `exit(1)` or an `assert` fails.
`xshort` and `xint` put the bytes of a number in the order in which they are read here, so
a field is just a number.

The code keeps no record of what it writes: `writes` is there so that one can say which
sectors were written to, and what for.
-/

namespace Xv6.Mkfs

open Files Faulting

def FSSIZE : ℕ := 1000
def LOGSIZE : ℕ := 30
def NINODES : ℕ := 200
def DIRSIZ : ℕ := 14

/-- `BSIZE / sizeof(struct dinode)` -/
def IPB : ℕ := BSIZE / 64

def nbitmap : ℕ := FSSIZE / (BSIZE * 8) + 1
def ninodeblocks : ℕ := NINODES / IPB + 1
def nlog : ℕ := LOGSIZE
def nmeta : ℕ := 2 + nlog + ninodeblocks + nbitmap
def nblocks : ℕ := FSSIZE - nmeta
def logstart : ℕ := 2
def inodestart : ℕ := 2 + nlog
def bmapstart : ℕ := 2 + nlog + ninodeblocks

/-- The superblock, as far as the kernel's code for files needs it. -/
def sb : Superblock where
  size := FSSIZE
  nblocks := nblocks
  ninodes := NINODES
  size_lt := by decide
  nblocks_lt := by decide

def IBLOCK (inum : ℕ) : ℕ := inum / IPB + inodestart

/-! ## Inodes in a sector -/

/-- The words of a `struct dinode`: four shorts, the size and the addresses. -/
def words (din : Dinode) : ℕ → ℕ
  | 0 => din.type.toUInt16.toNat + din.major.toUInt16.toNat * 2 ^ 16
  | 1 => din.minor.toUInt16.toNat + din.nlink.toUInt16.toNat * 2 ^ 16
  | 2 => din.size
  | k + 3 => din.addrs k

def ofWords (w : ℕ → ℕ) : Dinode where
  type := Int16.ofNat (w 0)
  major := Int16.ofNat (w 0 / 2 ^ 16)
  minor := Int16.ofNat (w 1)
  nlink := Int16.ofNat (w 1 / 2 ^ 16)
  size := w 2
  addrs k := if k ≤ NDIRECT then w (k + 3) else 0

/-- `*((struct dinode*)buf + k)` -/
def getDinode (buf : Block) (k : ℕ) : Dinode := ofWords fun j => word buf (16 * k + j)

/-- `*((struct dinode*)buf + k) = din` -/
def putDinode (buf : Block) (k : ℕ) (din : Dinode) : Block := fun b =>
  if b / 64 = k then UInt8.ofNat (words din (b / 4 % 16) / 256 ^ (b % 4)) else buf b

/-- Inode `inum` of an image, where the kernel looks for it, too. -/
def dinodeAt (image : ℕ → Block) (inum : ℕ) : Dinode :=
  getDinode (image (IBLOCK inum)) (inum % IPB)

def zeroDinode : Dinode := ⟨0, 0, 0, 0, 0, fun _ => 0⟩

/-! ## Sectors -/

/-- What a sector is written for. -/
inductive Part where
  | zeroes
  | superblock
  | inode
  | contents
  | bitmap
deriving DecidableEq

/-- The image has `sectors` sectors. -/
structure State where
  image : ℕ → Block
  sectors : ℕ
  freeinode : ℕ
  freeblock : ℕ
  writes : List (Part × ℕ)

abbrev Program := Prog State

/-- The sector that `lseek(fsfd, sec * BSIZE, 0)` goes to: the product is a uint. -/
def seek (sec : ℕ) : ℕ := uint (sec * BSIZE) / BSIZE

def wsect (part : Part) (sec : ℕ) (buf : Block) : Program PUnit :=
  modify fun s => { s with
    image := Function.update s.image (seek sec) buf
    sectors := max s.sectors (seek sec + 1)
    writes := (part, seek sec) :: s.writes }

def rsect (sec : ℕ) : Program Block := do
  let s ← get
  if seek sec < s.sectors then pure (s.image (seek sec)) else fail "read"

/-! ## Inodes -/

def rinode (inum : ℕ) : Program Dinode := do
  let buf ← rsect (IBLOCK inum)
  pure (getDinode buf (inum % IPB))

def winode (inum : ℕ) (din : Dinode) : Program PUnit := do
  let buf ← rsect (IBLOCK inum)
  wsect .inode (IBLOCK inum) (putDinode buf (inum % IPB) din)

/-- `freeinode++` -/
def nextInode : Program ℕ := do
  let s ← get
  set { s with freeinode := s.freeinode + 1 }
  pure s.freeinode

/-- `freeblock++` -/
def nextBlock : Program ℕ := do
  let s ← get
  set { s with freeblock := s.freeblock + 1 }
  pure s.freeblock

def ialloc (type : Int16) : Program ℕ := do
  let inum ← nextInode
  winode inum { zeroDinode with type := type, nlink := 1, size := 0 }
  pure inum

/-- `if(xint(din.addrs[k]) == 0) din.addrs[k] = xint(freeblock++);` -/
def takeAddr (din : Dinode) (k : ℕ) : Program Dinode := do
  if din.addrs k = 0 then
    let addr ← nextBlock
    pure (din.setAddr k addr)
  else pure din

/-- Entry `k` of an indirect block, which gets a sector if it has none. -/
def entryFor (table k : ℕ) : Program ℕ := do
  let indirect ← rsect table
  if word indirect k = 0 then
    let addr ← nextBlock
    wsect .contents table (setWord indirect k addr)
    pure addr
  else pure (word indirect k)

/-- The sector of block `fbn`, which is `x` in `iappend`. -/
def sectorFor (din : Dinode) (fbn : ℕ) : Program (Dinode × ℕ) := do
  if fbn < NDIRECT then
    let din ← takeAddr din fbn
    pure (din, din.addrs fbn)
  else
    let din ← takeAddr din NDIRECT
    let x ← entryFor (din.addrs NDIRECT) (fbn - NDIRECT)
    pure (din, x)

/-- The loop of `iappend`, with what is left of `p`. -/
def appendFrom (din : Dinode) (off : ℕ) (p : List Byte) : Program (Dinode × ℕ) := do
  if p.length > 0 then
    let fbn := off / BSIZE
    if fbn < MAXFILE then
      let (din, x) ← sectorFor din fbn
      let n1 := min p.length ((fbn + 1) * BSIZE - off)
      let buf ← rsect x
      wsect .contents x (setBytes buf (off - fbn * BSIZE) n1 fun i => p.getD i 0)
      appendFrom din (off + n1) (p.drop n1)
    else fail "fbn < MAXFILE"
  else pure (din, off)
termination_by p.length
decreasing_by
  have := Nat.lt_div_mul_add (a := off) (show 0 < BSIZE by decide)
  rw [List.length_drop, Nat.succ_mul]
  omega

def iappend (inum : ℕ) (p : List Byte) : Program PUnit := do
  let din ← rinode inum
  let (din, off) ← appendFrom din din.size p
  winode inum { din with size := off }

/-! ## The bitmap -/

/-- `buf[i/8] = buf[i/8] | (0x1 << (i%8))` -/
def setBit (buf : Block) (i : ℕ) : Block :=
  Function.update buf (i / 8) (buf (i / 8) ||| 1 <<< UInt8.ofNat (i % 8))

def bits (used : ℕ) : Block := (List.range used).foldl setBit fun _ => 0

def balloc (used : ℕ) : Program PUnit := do
  if used < BSIZE * 8 then wsect .bitmap bmapstart (bits used)
  else fail "used < BSIZE*8"

/-! ## `main` -/

/-- `struct superblock` -/
def superblockSector : Block := fun k =>
  let fields := [FSSIZE, nblocks, NINODES, nlog, logstart, inodestart, bmapstart]
  UInt8.ofNat (fields.getD (k / 4) 0 / 256 ^ (k % 4))

def zeroes : Block := fun _ => 0

-- irreducible, so that nothing unrolls its loop
@[irreducible] def format : Program PUnit := do
  modify fun s => { s with freeblock := nmeta }
  (List.range FSSIZE).forM fun i => wsect .zeroes i zeroes
  wsect .superblock 1 superblockSector

/-- A `struct dirent`, after `strncpy(de.name, name, DIRSIZ)`. -/
def dirent (inum : ℕ) (name : List Byte) : List Byte :=
  [UInt8.ofNat inum, UInt8.ofNat (inum / 256)] ++ (List.range DIRSIZ).map fun i => name.getD i 0

/-- A file of the host: its name, whether it can be opened, and what the calls of `read` give
until one gives nothing. -/
structure HostFile where
  name : List Byte
  opens : Bool
  reads : List (List Byte)
  reads_ok : ∀ buf ∈ reads, buf ≠ [] ∧ buf.length ≤ BSIZE

/-- The name without a leading `_`. -/
def HostFile.target (file : HostFile) : List Byte :=
  if file.name.head? = some '_'.toUInt8 then file.name.tail else file.name

def addFile (rootino : ℕ) (file : HostFile) : Program PUnit := do
  if '/'.toUInt8 ∈ file.name then fail "index(argv[i], '/') == 0"
  else if !file.opens then fail "open"
  else
    let inum ← ialloc T_FILE
    iappend rootino (dirent inum file.target)
    file.reads.forM fun buf => iappend inum buf

/-- Fix size of root inode dir. -/
def fixRoot (rootino : ℕ) : Program PUnit := do
  let din ← rinode rootino
  winode rootino { din with size := uint ((din.size / BSIZE + 1) * BSIZE) }

def main (files : List HostFile) : Program PUnit := do
  format
  let rootino ← ialloc T_DIR
  if rootino = ROOTINO then
    iappend rootino (dirent rootino ['.'.toUInt8])
    iappend rootino (dirent rootino ['.'.toUInt8, '.'.toUInt8])
    files.forM (addFile rootino)
    fixRoot rootino
    balloc (← get).freeblock
  else fail "rootino == ROOTINO"

/-- The image has been truncated. -/
def start : State where
  image := fun _ _ => 0
  sectors := 0
  freeinode := 1
  freeblock := 0
  writes := []

end Xv6.Mkfs
