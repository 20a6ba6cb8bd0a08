import Xv6.Files.Logged
import Xv6.Files.Paths
import Xv6.Ftable.Machine
import Xv6.Inodes.Machine
import Xv6.Lib.Interleaving

/-!
# The file system, with several processes in it

`fs.c` for processes that take turns at every step: what is done under `icache.lock` is one step,
and so is what is done to a block while its buffer is locked.  Whoever waits for the sleep lock of
an inode is blocked.

The disk is as the log and the buffer cache show it, with all blocks as they were written last.
`begin_op` and `end_op` only delay a process and are left out.
-/

namespace Xv6

open Files Interleaving Transition
open Inodes (Ptr)
open Ftable (FileId Fd)

/-- `ip` is there if the type of the file is `FD_INODE`, and there are no pipes. -/
structure OpenFile where
  ip : Option Ptr
  ref : ℕ
  readable : Bool
  writable : Bool
  off : UInt32

/-- `device` is what devices return to the next calls of `read`, nothing to a process that has been
killed. -/
structure Volume (P : Type) where
  disk : Files.Disk
  entry : Ptr → Inodes.Entry P
  file : FileId → OpenFile
  cwd : P → Option Ptr
  ofile : P → Fd → Option FileId
  used : P → Bool
  device : ℕ → Option (List Byte)

/-- What one process does. -/
abbrev Routine (P : Type) := Code (Volume P)

namespace Volume

variable {P : Type} (p : P) (sb : Superblock) (devsw : Devsw)

def setEntry (v : Volume P) (ip : Ptr) (f : Inodes.Entry P → Inodes.Entry P) : Volume P :=
  { v with entry := Function.update v.entry ip (f (v.entry ip)) }

def setBlock (v : Volume P) (b : ℕ) (f : Files.Block → Files.Block) : Volume P :=
  { v with disk.block := Function.update v.disk.block b (f (v.disk.block b)) }

def setBit (v : Volume P) (b : ℕ) (bit : Bool) : Volume P :=
  { v with disk.bitmap := Function.update v.disk.bitmap b bit }

def setDinode (v : Volume P) (inum : ℕ) (d : Dinode) : Volume P :=
  { v with disk.dinode := Function.update v.disk.dinode inum d }

/-! ## Blocks -/

def bread (b : ℕ) : Routine P Files.Block := Code.read fun v => v.disk.block b

/-- The block is changed and written to the log. -/
def bwrite (b : ℕ) (f : Files.Block → Files.Block) : Routine P PUnit :=
  Code.modify fun v => v.setBlock b f

def bzero (b : ℕ) : Routine P PUnit := bwrite b fun _ _ => 0

/-- The inner loop of `balloc`: one block of the bitmap, the bits of the blocks from `b` on. -/
def takeBit (b : ℕ) : Routine P (Option ℕ) := Code.atomic fun v =>
  match ((List.range' b BPB).filter (· < sb.size)).find? fun b => !v.disk.bitmap b with
  | some b => .next (some b, v.setBit b true)
  | none => .next (none, v)

def ballocFrom (b : ℕ) : Routine P ℕ := do
  if b < sb.size then
    match ← takeBit sb b with
    | some b =>
        bzero b
        pure b
    | none => ballocFrom (b + BPB)
  else Code.fail "balloc: out of blocks"
termination_by sb.size - b
decreasing_by
  have : 0 < BPB := by decide
  omega

def balloc : Routine P ℕ := ballocFrom sb 0

def bfree (b : ℕ) : Routine P PUnit := Code.atomic fun v =>
  if !v.disk.bitmap b then .panic "freeing free block" else .next (⟨⟩, v.setBit b false)

/-! ## Inodes -/

def getinode (ip : Ptr) : Routine P (Inodes.Entry P) := Code.read fun v => v.entry ip

/-- Fields of an inode of the cache are set. -/
def setinode (ip : Ptr) (f : Dinode → Dinode) : Routine P PUnit :=
  Code.modify fun v => v.setEntry ip fun e => { e with toDinode := f e.toDinode }

def setvalid (ip : Ptr) (valid : Bool) : Routine P PUnit :=
  Code.modify fun v => v.setEntry ip fun e => { e with valid := valid }

def iupdate (ip : Ptr) : Routine P PUnit :=
  Code.modify fun v => v.setDinode (v.entry ip).inum (v.entry ip).toDinode

def cached (v : Volume P) (dev inum : ℕ) : Option Ptr :=
  (List.finRange NINODE).find? fun ip =>
    0 < (v.entry ip).ref ∧ (v.entry ip).dev = dev ∧ (v.entry ip).inum = inum

/-- The empty slot that the loop remembers. -/
def empty (v : Volume P) : Option Ptr :=
  (List.finRange NINODE).find? fun ip => (v.entry ip).ref = 0

def iget (dev inum : ℕ) : Routine P Ptr := Code.atomic fun v =>
  match v.cached dev inum with
  | some ip => .next (ip, v.setEntry ip fun e => { e with ref := e.ref + 1 })
  | none =>
      match v.empty with
      | some ip =>
          .next (ip, v.setEntry ip fun e =>
            { e with dev := dev, inum := inum, ref := 1, valid := false })
      | none => .panic "iget: no inodes"

def idup (ip : Ptr) : Routine P PUnit :=
  Code.modify fun v => v.setEntry ip fun e => { e with ref := e.ref + 1 }

/-- One turn of the loop of `ialloc`, and whether the inode has been free. -/
def takeInode (inum : ℕ) (type : Int16) : Routine P Bool := Code.atomic fun v =>
  if (v.disk.dinode inum).type = 0 then
    -- `memset`, and the type is set
    .next (true, v.setDinode inum ⟨type, 0, 0, 0, 0, fun _ => 0⟩)
  else .next (false, v)

def iallocFrom (dev inum : ℕ) (type : Int16) : Routine P Ptr := do
  if inum < sb.ninodes then
    if ← takeInode inum type then iget dev inum
    else iallocFrom dev (inum + 1) type
  else Code.fail "ialloc: no inodes"
termination_by sb.ninodes - inum

def ialloc (dev : ℕ) (type : Int16) : Routine P Ptr := iallocFrom sb dev 1 type

variable [DecidableEq P]

def acquiresleep (ip : Ptr) : Routine P PUnit := Code.atomic fun v =>
  if (v.entry ip).lock = none then .next (⟨⟩, v.setEntry ip fun e => { e with lock := some p })
  else .blocked

omit [DecidableEq P] in
def releasesleep (ip : Ptr) : Routine P PUnit :=
  Code.modify fun v => v.setEntry ip fun e => { e with lock := none }

/-- The inode is read from the disk. -/
def readInode (ip : Ptr) : Routine P PUnit := Code.modify fun v =>
  v.setEntry ip fun e => { e with toDinode := v.disk.dinode e.inum, valid := true }

def ilock (ip : Ptr) : Routine P PUnit := do
  if (← getinode ip).ref < 1 then Code.fail "ilock"
  else
    acquiresleep p ip
    if !(← getinode ip).valid then
      readInode ip
      if (← getinode ip).type = 0 then Code.fail "ilock: no type"

def iunlock (ip : Ptr) : Routine P PUnit := do
  let inode ← getinode ip
  if inode.lock ≠ some p ∨ inode.ref < 1 then Code.fail "iunlock"
  else releasesleep ip

/-! ## Contents -/

/-- `if((addr = ip->addrs[i]) == 0) ip->addrs[i] = addr = balloc(ip->dev);` -/
def directBlock (ip : Ptr) (i : ℕ) : Routine P ℕ := do
  let addr := (← getinode ip).addrs i
  if addr = 0 then
    let addr ← balloc sb
    setinode ip fun d => d.setAddr i addr
    pure addr
  else pure addr

def bmap (ip : Ptr) (bn : ℕ) : Routine P ℕ := do
  if bn < NDIRECT then directBlock sb ip bn
  else if bn - NDIRECT < NINDIRECT then
    let table ← directBlock sb ip NDIRECT
    let addr := word (← bread table) (bn - NDIRECT)
    if addr = 0 then
      let addr ← balloc sb
      bwrite table fun a => setWord a (bn - NDIRECT) addr
      pure addr
    else pure addr
  else Code.fail "bmap: out of range"

/-- `if(ip->addrs[i]){ bfree(ip->dev, ip->addrs[i]); ip->addrs[i] = 0; }` -/
def freeDirect (ip : Ptr) (i : ℕ) : Routine P PUnit := do
  let addr := (← getinode ip).addrs i
  if addr ≠ 0 then
    bfree addr
    setinode ip fun d => d.setAddr i 0

def freeEntry (a : Files.Block) (j : ℕ) : Routine P PUnit := do
  if word a j ≠ 0 then bfree (word a j)

def itrunc (ip : Ptr) : Routine P PUnit := do
  (List.range NDIRECT).forM (freeDirect ip)
  let table := (← getinode ip).addrs NDIRECT
  if table ≠ 0 then
    let a ← bread table
    (List.range NINDIRECT).forM (freeEntry a)
    bfree table
    setinode ip fun d => d.setAddr NDIRECT 0
  setinode ip fun d => { d with size := 0 }
  iupdate ip

/-- `if(ip->valid && ip->nlink == 0)`, and if this is the only reference. -/
def lastReference (ip : Ptr) : Routine P Bool := do
  let inode ← getinode ip
  if inode.valid ∧ inode.nlink = 0 then
    let r := (← getinode ip).ref
    pure (r = 1)
  else pure false

def iput (ip : Ptr) : Routine P PUnit := do
  acquiresleep p ip
  if ← lastReference ip then
    itrunc ip
    setinode ip fun d => { d with type := 0 }
    iupdate ip
    setvalid ip false
  releasesleep ip
  Code.modify fun v => v.setEntry ip fun e => { e with ref := e.ref - 1 }

def iunlockput (ip : Ptr) : Routine P PUnit := do
  iunlock p ip
  iput p ip

/-- The loop of `readi`: `dst` is what has been read. -/
def readFrom (ip : Ptr) (n tot off : ℕ) (dst : List Byte) : Routine P (List Byte) := do
  if tot < n then
    let data ← bread (← bmap sb ip (off / BSIZE))
    let m := min (n - tot) (BSIZE - off % BSIZE)
    readFrom ip n (tot + m) (off + m) (dst ++ (List.range m).map fun i => data (off % BSIZE + i))
  else pure dst
termination_by n - tot
decreasing_by
  have := Nat.mod_lt off (show 0 < BSIZE by decide)
  omega

/-- `consoleread`, which gives up the lock of the inode while it reads. -/
def deviceRead (ip : Ptr) (n : ℕ) : Routine P (ℤ × List Byte) := do
  iunlock p ip
  let data ← Code.atomic fun v =>
    .next (v.device 0, { v with device := fun i => v.device (i + 1) })
  ilock p ip
  match data with
  | some data => pure ((data.take n).length, data.take n)
  | none => pure (-1, [])

/-- `consolewrite` -/
def deviceWrite (ip : Ptr) (n : ℕ) : Routine P ℤ := do
  iunlock p ip
  ilock p ip
  pure n

/-- What is returned, and what `dst` gets. -/
def readi (ip : Ptr) (off n : ℕ) : Routine P (ℤ × List Byte) := do
  let inode ← getinode ip
  if inode.type = Files.T_DEV then
    if hasDevice devsw.read inode.major then deviceRead p ip n
    else pure (-1, [])
  else if off > inode.size ∨ uint (off + n) < off then pure (-1, [])
  else
    let n := if uint (off + n) > inode.size then inode.size - off else n
    let dst ← readFrom sb ip n 0 off []
    pure (n, dst)

/-- The loop of `writei`; the last offset is returned. -/
def writeFrom (ip : Ptr) (src : ℕ → Byte) (n tot off : ℕ) : Routine P ℕ := do
  if tot < n then
    let b ← bmap sb ip (off / BSIZE)
    let m := min (n - tot) (BSIZE - off % BSIZE)
    bwrite b fun data => setBytes data (off % BSIZE) m fun i => src (tot + i)
    writeFrom ip src n (tot + m) (off + m)
  else pure off
termination_by n - tot
decreasing_by
  have := Nat.mod_lt off (show 0 < BSIZE by decide)
  omega

def writei (ip : Ptr) (src : ℕ → Byte) (off n : ℕ) : Routine P ℤ := do
  let inode ← getinode ip
  if inode.type = Files.T_DEV then
    if hasDevice devsw.write inode.major then deviceWrite p ip n else pure (-1)
  else if off > inode.size ∨ uint (off + n) < off then pure (-1)
  else if uint (off + n) > MAXFILE * BSIZE then pure (-1)
  else
    let off ← writeFrom sb ip src n 0 off
    if n > 0 ∧ off > (← getinode ip).size then
      setinode ip fun d => { d with size := off }
      iupdate ip
    pure n

/-! ## Directories -/

/-- `if(readi(dp, (char*)&de, off, sizeof(de)) != sizeof(de)) panic(message);` -/
def readDirent (dp : Ptr) (off : ℕ) (message : String) : Routine P Dirent := do
  let (r, bytes) ← readi p sb devsw dp off direntSize
  if r ≠ direntSize then Code.fail message
  else pure (Dirent.ofBytes fun k => bytes.getD k 0)

/-- The loop of `dirlookup`.  The entry of the cache and the offset are returned. -/
def lookupFrom (dp : Ptr) (name : ℕ → Byte) (size off : ℕ) : Routine P (Option (Ptr × ℕ)) := do
  if off < size then
    let de ← readDirent p sb devsw dp off "dirlookup read"
    if de.inum = 0 then lookupFrom dp name size (off + direntSize)
    else if namecmp name de.name = 0 then
      let ip ← iget (← getinode dp).dev de.inum
      pure (some (ip, off))
    else lookupFrom dp name size (off + direntSize)
  else pure none
termination_by size - off
decreasing_by
  all_goals
    simp only [direntSize]
    omega

def dirlookup (dp : Ptr) (name : ℕ → Byte) : Routine P (Option (Ptr × ℕ)) := do
  let inode ← getinode dp
  if inode.type ≠ Files.T_DIR then Code.fail "dirlookup not DIR"
  else lookupFrom p sb devsw dp name inode.size 0

/-- The loop of `dirlink`: the offset of an empty entry, or the end. -/
def emptyFrom (dp : Ptr) (size off : ℕ) : Routine P ℕ := do
  if off < size then
    let de ← readDirent p sb devsw dp off "dirlink read"
    if de.inum = 0 then pure off
    else emptyFrom dp size (off + direntSize)
  else pure off
termination_by size - off
decreasing_by
  simp only [direntSize]
  omega

/-- All bytes of `de.name` are set, whatever they have been. -/
def dirlink (dp : Ptr) (name : ℕ → Byte) (inum : ℕ) : Routine P ℤ := do
  match ← dirlookup p sb devsw dp name with
  | some (ip, _) =>
      iput p ip
      pure (-1)
  | none =>
      let off ← emptyFrom p sb devsw dp (← getinode dp).size 0
      let de : Dirent := ⟨inum % 2 ^ 16, strncpy (fun _ => 0) name DIRSIZ⟩
      if (← writei p sb devsw dp de.bytes off direntSize) ≠ direntSize then Code.fail "dirlink"
      else pure 0

/-! ## Path names -/

/-- The loop of `namex`, which holds a reference to `ip`. -/
def namexFrom (nameiparent : Bool) (ip : Ptr) (path : List Byte) (name : ℕ → Byte) :
    Routine P (Option Ptr × (ℕ → Byte)) := do
  match _h : skipelem path name with
  | some (path, name) =>
      ilock p ip
      if (← getinode ip).type ≠ Files.T_DIR then
        iunlockput p ip
        pure (none, name)
      else if nameiparent ∧ path = [] then
        -- stop one level early
        iunlock p ip
        pure (some ip, name)
      else
        match ← dirlookup p sb devsw ip name with
        | none =>
            iunlockput p ip
            pure (none, name)
        | some (next, _) =>
            iunlockput p ip
            namexFrom nameiparent next path name
  | none =>
      if nameiparent then
        iput p ip
        pure (none, name)
      else pure (some ip, name)
termination_by path.length
decreasing_by exact length_skipelem _h

/-- Where a path begins. -/
def startOf (path : List Byte) : Routine P Ptr := do
  if path.head? = some slash then iget ROOTDEV ROOTINO
  else
    match ← Code.read fun v => v.cwd p with
    | some cwd =>
        idup cwd
        pure cwd
    | none => Code.fail "idup"

/-- The array `name` is not initialized. -/
def namex (path : List Byte) (nameiparent : Bool) : Routine P (Option Ptr × (ℕ → Byte)) := do
  let ip ← startOf p path
  namexFrom p sb devsw nameiparent ip path fun _ => 0

def namei (path : List Byte) : Routine P (Option Ptr) := do
  let (ip, _) ← namex p sb devsw path false
  pure ip

def nameiparent (path : List Byte) : Routine P (Option Ptr × (ℕ → Byte)) :=
  namex p sb devsw path true

end Volume

end Xv6
