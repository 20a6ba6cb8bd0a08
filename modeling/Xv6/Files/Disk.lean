import Mathlib.Algebra.Order.Ring.Int
import Mathlib.Algebra.Order.Ring.Nat
import Mathlib.Data.Int.Notation
import Mathlib.Logic.Function.Basic
import Xv6.Lib.Faulting

/-!
# Blocks, inodes and their contents

The code of `fs.c` up to `writei`, for one system call at a time: the log and the buffer
cache do not show, since nobody else looks.  There is one device.  Its bitmap, its
inodes and its blocks are three areas.

The uints are naturals below `2 ^ 32`.
-/

namespace Xv6.Files

open Faulting

def BSIZE : ℕ := 512
def NDIRECT : ℕ := 12
def NINDIRECT : ℕ := 128
def MAXFILE : ℕ := NDIRECT + NINDIRECT
def NINODE : ℕ := 50
def NDEV : ℕ := 10
def ROOTDEV : ℕ := 1
def ROOTINO : ℕ := 1
def T_DIR : Int16 := 1
def T_FILE : Int16 := 2
def T_DEV : Int16 := 3

abbrev Byte := UInt8

/-- `uchar data[BSIZE]` -/
abbrev Block := ℕ → Byte

/-- `((uint*)data)[i]` -/
def word (data : Block) (i : ℕ) : ℕ :=
  (data (4 * i)).toNat + (data (4 * i + 1)).toNat * 256 + (data (4 * i + 2)).toNat * 256 ^ 2 +
    (data (4 * i + 3)).toNat * 256 ^ 3

/-- `((uint*)data)[i] = w` -/
def setWord (data : Block) (i w : ℕ) : Block := fun k =>
  if k / 4 = i then UInt8.ofNat (w / 256 ^ (k % 4)) else data k

/-- `memmove(data + start, src, n)` -/
def setBytes (data : Block) (start n : ℕ) (src : ℕ → Byte) : Block := fun k =>
  if start ≤ k ∧ k < start + n then src (k - start) else data k

def uint (n : ℕ) : ℕ := n % 2 ^ 32

/-! ## The state -/

/-- There are always metadata blocks. -/
structure Superblock where
  size : ℕ
  nblocks : ℕ
  ninodes : ℕ
  size_lt : size < 2 ^ 32
  nblocks_lt : nblocks < size

/-- The first data block. -/
def Superblock.dataStart (sb : Superblock) : ℕ := sb.size - sb.nblocks

structure Dinode where
  type : Int16
  major : Int16
  minor : Int16
  nlink : Int16
  size : ℕ
  addrs : ℕ → ℕ

/-- An inode of the cache: `ref` and `valid`, the sleep lock, and a copy of the inode of the
disk. -/
structure Inode extends Dinode where
  dev : ℕ
  inum : ℕ
  ref : ℤ
  locked : Bool
  valid : Bool

inductive FdType where
  | FD_NONE
  | FD_PIPE
  | FD_INODE
deriving DecidableEq

structure File where
  type : FdType
  ref : ℕ
  readable : Bool
  writable : Bool
  ip : ℕ
  off : ℕ

structure Proc where
  cwd : ℕ
  ofile : ℕ → Option ℕ

/-- What the log and the disk hold together. -/
structure Disk where
  bitmap : ℕ → Bool
  dinode : ℕ → Dinode
  block : ℕ → Block

/-- `commits` are the contents at the ends of the transactions so far, and `device` is what
devices and pipes return to the next calls of `read`. -/
structure Kernel where
  disk : Disk
  commits : List Disk
  icache : ℕ → Inode
  ftable : ℕ → File
  proc : ℕ → Option Proc
  device : ℕ → List Byte

/-- `devsw`: for which major numbers there are functions. -/
structure Devsw where
  read : ℕ → Bool
  write : ℕ → Bool

abbrev Fs := Prog Kernel

def getinode (ip : ℕ) : Fs Inode := do pure ((← get).icache ip)

def setinode (ip : ℕ) (f : Inode → Inode) : Fs PUnit :=
  modify fun s => { s with icache := Function.update s.icache ip (f (s.icache ip)) }

def bread (b : ℕ) : Fs Block := do pure ((← get).disk.block b)

/-- The block is changed and written to the log. -/
def bwrite (b : ℕ) (f : Block → Block) : Fs PUnit :=
  modify fun s =>
    { s with disk.block := Function.update s.disk.block b (f (s.disk.block b)) }

def setbit (b : ℕ) (bit : Bool) : Fs PUnit :=
  modify fun s => { s with disk.bitmap := Function.update s.disk.bitmap b bit }

/-! ## Blocks -/

def bzero (b : ℕ) : Fs PUnit := bwrite b fun _ _ => 0

def balloc (sb : Superblock) : Fs ℕ := do
  let s ← get
  match (List.range sb.size).find? fun b => !s.disk.bitmap b with
  | some b =>
      setbit b true
      bzero b
      pure b
  | none => fail "balloc: out of blocks"

def bfree (b : ℕ) : Fs PUnit := do
  if !(← get).disk.bitmap b then fail "freeing free block"
  else setbit b false

/-! ## Inodes -/

def iupdate (ip : ℕ) : Fs PUnit :=
  modify fun s =>
    { s with
      disk.dinode :=
        Function.update s.disk.dinode (s.icache ip).inum (s.icache ip).toDinode }

/-- `ip->addrs[i] = addr` -/
def setaddr (ip i addr : ℕ) : Fs PUnit :=
  setinode ip fun inode => { inode with addrs := Function.update inode.addrs i addr }

/-- `if((addr = ip->addrs[i]) == 0) ip->addrs[i] = addr = balloc(ip->dev);` -/
def directBlock (sb : Superblock) (ip i : ℕ) : Fs ℕ := do
  let addr := (← getinode ip).addrs i
  if addr = 0 then
    let addr ← balloc sb
    setaddr ip i addr
    pure addr
  else pure addr

def bmap (sb : Superblock) (ip bn : ℕ) : Fs ℕ := do
  if bn < NDIRECT then directBlock sb ip bn
  else if bn - NDIRECT < NINDIRECT then
    let table ← directBlock sb ip NDIRECT
    let addr := word (← bread table) (bn - NDIRECT)
    if addr = 0 then
      let addr ← balloc sb
      bwrite table fun a => setWord a (bn - NDIRECT) addr
      pure addr
    else pure addr
  else fail "bmap: out of range"

def itrunc (ip : ℕ) : Fs PUnit := do
  (List.range NDIRECT).forM fun i => do
    let addr := (← getinode ip).addrs i
    if addr ≠ 0 then
      bfree addr
      setaddr ip i 0
  let table := (← getinode ip).addrs NDIRECT
  if table ≠ 0 then
    let a ← bread table
    (List.range NINDIRECT).forM fun j => do
      if word a j ≠ 0 then bfree (word a j)
    bfree table
    setaddr ip NDIRECT 0
  setinode ip fun inode => { inode with size := 0 }
  iupdate ip

/-! ## Contents -/

/-- The loop of `readi`: `dst` is what has been read. -/
def readFrom (sb : Superblock) (ip n tot off : ℕ) (dst : List Byte) : Fs (List Byte) := do
  if tot < n then
    let data ← bread (← bmap sb ip (off / BSIZE))
    let m := min (n - tot) (BSIZE - off % BSIZE)
    readFrom sb ip n (tot + m) (off + m) (dst ++ (List.range m).map fun i => data (off % BSIZE + i))
  else pure dst
termination_by n - tot
decreasing_by
  have := Nat.mod_lt off (show 0 < BSIZE by decide)
  omega

/-- Whether `devsw[major]` has a function. -/
def hasDevice (table : ℕ → Bool) (major : Int16) : Bool :=
  0 ≤ major.toInt && major.toInt < NDEV && table major.toInt.toNat

def deviceRead (n : ℕ) : Fs (List Byte) := do
  let data := ((← get).device 0).take n
  modify fun s => { s with device := fun i => s.device (i + 1) }
  pure data

/-- What is returned, and what `dst` gets. -/
def readi (sb : Superblock) (devsw : Devsw) (ip off n : ℕ) : Fs (ℤ × List Byte) := do
  let inode ← getinode ip
  if inode.type = T_DEV then
    if hasDevice devsw.read inode.major then
      let data ← deviceRead n
      pure (data.length, data)
    else pure (-1, [])
  else if off > inode.size ∨ uint (off + n) < off then pure (-1, [])
  else
    let n := if uint (off + n) > inode.size then inode.size - off else n
    let dst ← readFrom sb ip n 0 off []
    pure (n, dst)

/-- The loop of `writei`; the last offset is returned. -/
def writeFrom (sb : Superblock) (ip : ℕ) (src : ℕ → Byte) (n tot off : ℕ) : Fs ℕ := do
  if tot < n then
    let b ← bmap sb ip (off / BSIZE)
    let m := min (n - tot) (BSIZE - off % BSIZE)
    bwrite b fun data => setBytes data (off % BSIZE) m fun i => src (tot + i)
    writeFrom sb ip src n (tot + m) (off + m)
  else pure off
termination_by n - tot
decreasing_by
  have := Nat.mod_lt off (show 0 < BSIZE by decide)
  omega

def writei (sb : Superblock) (devsw : Devsw) (ip : ℕ) (src : ℕ → Byte) (off n : ℕ) : Fs ℤ := do
  let inode ← getinode ip
  if inode.type = T_DEV then
    if hasDevice devsw.write inode.major then pure n else pure (-1)
  else if off > inode.size ∨ uint (off + n) < off then pure (-1)
  else if uint (off + n) > MAXFILE * BSIZE then pure (-1)
  else
    let off ← writeFrom sb ip src n 0 off
    if n > 0 ∧ off > (← getinode ip).size then
      setinode ip fun inode => { inode with size := off }
      iupdate ip
    pure n

end Xv6.Files
