import Xv6.Files.SharedFile
import Xv6.Volume.Machine

/-!
# System calls on files

`file.c` and `sysfile.c`, without pipes, and what `fork` and `exit` do to files.  A process takes
turns with the others at each step of a call.
-/

namespace Xv6

open Files Interleaving Transition
open Inodes (Ptr)
open Ftable (FileId Fd)

namespace Volume

variable {P : Type} [DecidableEq P] (p : P) (sb : Superblock) (devsw : Devsw)

def O_WRONLY : UInt32 := 0x001
def O_RDWR : UInt32 := 0x002
def O_CREATE : UInt32 := 0x200

def setFile (v : Volume P) (f : FileId) (h : OpenFile → OpenFile) : Volume P :=
  { v with file := Function.update v.file f (h (v.file f)) }

def setOfile (v : Volume P) (fd : Fd) (f : Option FileId) : Volume P :=
  { v with ofile := Function.update v.ofile p (Function.update (v.ofile p) fd f) }

/-! ## Open files -/

omit [DecidableEq P] in
def filealloc : Routine P (Option FileId) := Code.atomic fun v =>
  match (List.finRange Ftable.NFILE).find? fun f => (v.file f).ref = 0 with
  | some f => .next (some f, v.setFile f fun file => { file with ref := 1 })
  | none => .next (none, v)

omit [DecidableEq P] in
def filedup (f : FileId) : Routine P PUnit := Code.atomic fun v =>
  if (v.file f).ref < 1 then .panic "filedup"
  else .next (⟨⟩, v.setFile f fun file => { file with ref := file.ref + 1 })

omit [DecidableEq P] in
/-- What `fileclose` does under `ftable.lock`, and the inode if this has been the last reference. -/
def unref (f : FileId) : Routine P (Option Ptr) := Code.atomic fun v =>
  if (v.file f).ref < 1 then .panic "fileclose"
  else if 1 < (v.file f).ref then
    .next (none, v.setFile f fun file => { file with ref := file.ref - 1 })
  else .next ((v.file f).ip, v.setFile f fun file => { file with ref := 0, ip := none })

def fileclose (f : FileId) : Routine P PUnit := do
  match ← unref f with
  | some ip => iput p ip
  | none => pure ⟨⟩

omit [DecidableEq P] in
def getfile (f : FileId) : Routine P OpenFile := Code.read fun v => v.file f

omit [DecidableEq P] in
/-- `if(r > 0) f->off += r;` -/
def advance (f : FileId) (r : ℤ) : Routine P PUnit := do
  if r > 0 then
    Code.modify fun v => v.setFile f fun file => { file with off := file.off + .ofNat r.toNat }

/-- `stati`, under the lock of the inode. -/
def filestat (f : FileId) : Routine P (Option (Inodes.Entry P)) := do
  match (← getfile f).ip with
  | some ip =>
      ilock p ip
      let st ← getinode ip
      iunlock p ip
      pure (some st)
  | none => pure none

def fileread (f : FileId) (n : Int32) : Routine P (ℤ × List Byte) := do
  let file ← getfile f
  if !file.readable then pure (-1, [])
  else
    match file.ip with
    | some ip =>
        ilock p ip
        let (r, data) ← readi p sb devsw ip (← getfile f).off.toNat n.toUInt32.toNat
        advance f r
        iunlock p ip
        pure (r, data)
    | none => Code.fail "fileread"

/-- The loop body of `filewrite`. -/
def writePiece (f : FileId) (ip : Ptr) (src : ℕ → Byte) (n i : ℕ) : Routine P ℤ := do
  ilock p ip
  let r ← writei p sb devsw ip (fun k => src (i + k)) (← getfile f).off.toNat n
  advance f r
  iunlock p ip
  pure r

/-- The loop of `filewrite`. -/
def writePieces (f : FileId) (ip : Ptr) (src : ℕ → Byte) (n : Int32) (i : ℕ) : Routine P ℤ := do
  if i < n.toInt then
    let r ← writePiece p sb devsw f ip src (chunk n i) i
    if r < 0 then pure (Sharing.writeResult n i)
    else if _h : r ≠ chunk n i then Code.fail "short filewrite"
    else writePieces f ip src n (i + r.toNat)
  else pure (Sharing.writeResult n i)
termination_by n.toInt.toNat - i
decreasing_by
  have : 0 < writeMax := by decide
  unfold chunk at *
  omega

def filewrite (f : FileId) (src : ℕ → Byte) (n : Int32) : Routine P ℤ := do
  let file ← getfile f
  if !file.writable then pure (-1)
  else
    match file.ip with
    | some ip => writePieces p sb devsw f ip src n 0
    | none => Code.fail "filewrite"

/-! ## Descriptors -/

omit [DecidableEq P] in
def argfd (fd : Fd) : Routine P (Option FileId) := Code.read fun v => v.ofile p fd

def fdalloc (f : FileId) : Routine P (Option Fd) := Code.atomic fun v =>
  match (List.finRange NOFILE).find? fun fd => (v.ofile p fd).isNone with
  | some fd => .next (some fd, v.setOfile p fd (some f))
  | none => .next (none, v)

def sysDup (fd : Fd) : Routine P ℤ := do
  match ← argfd p fd with
  | none => pure (-1)
  | some f =>
      match ← fdalloc p f with
      | none => pure (-1)
      | some fd =>
          filedup f
          pure fd.1

/-- A negative length is refused by `argptr`. -/
def sysRead (fd : Fd) (n : Int32) : Routine P ℤ := do
  match ← argfd p fd with
  | none => pure (-1)
  | some f =>
      if n < 0 then pure (-1)
      else
        let (r, _) ← fileread p sb devsw f n
        pure r

def sysWrite (fd : Fd) (src : ℕ → Byte) (n : Int32) : Routine P ℤ := do
  match ← argfd p fd with
  | none => pure (-1)
  | some f => if n < 0 then pure (-1) else filewrite p sb devsw f src n

def sysClose (fd : Fd) : Routine P ℤ := do
  match ← argfd p fd with
  | none => pure (-1)
  | some f =>
      Code.modify fun v => v.setOfile p fd none
      fileclose p f
      pure 0

def sysFstat (fd : Fd) : Routine P ℤ := do
  match ← argfd p fd with
  | none => pure (-1)
  | some f =>
      match ← filestat p f with
      | some _ => pure 0
      | none => pure (-1)

/-! ## Links -/

omit [DecidableEq P] in
/-- `ip->nlink += d; iupdate(ip);` -/
def addLinks (ip : Ptr) (d : Int16) : Routine P PUnit := do
  setinode ip fun inode => { inode with nlink := inode.nlink + d }
  iupdate ip

/-- The label `bad` of `sys_link`. -/
def linkBad (ip : Ptr) : Routine P ℤ := do
  ilock p ip
  addLinks ip (-1)
  iunlockput p ip
  pure (-1)

def sysLink (old new : List Byte) : Routine P ℤ := do
  match ← namei p sb devsw old with
  | none => pure (-1)
  | some ip =>
      ilock p ip
      if (← getinode ip).type = Files.T_DIR then
        iunlockput p ip
        pure (-1)
      else
        addLinks ip 1
        iunlock p ip
        match ← nameiparent p sb devsw new with
        | (none, _) => linkBad p ip
        | (some dp, name) =>
            ilock p dp
            let same := (← getinode dp).dev = (← getinode ip).dev
            -- `dirlink` is not called for another device
            let linked ← if same then dirlink p sb devsw dp name (← getinode ip).inum else pure (-1)
            iunlockput p dp
            if linked < 0 then linkBad p ip
            else
              iput p ip
              pure 0

/-- The loop of `isdirempty`, at `off`. -/
def isdiremptyFrom (dp : Ptr) (size off : ℕ) : Routine P Bool := do
  if off < size then
    let de ← readDirent p sb devsw dp off "isdirempty: readi"
    if de.inum ≠ 0 then pure false
    else isdiremptyFrom dp size (off + direntSize)
  else pure true
termination_by size - off
decreasing_by
  simp only [direntSize]
  omega

def isdirempty (dp : Ptr) : Routine P Bool := do
  isdiremptyFrom p sb devsw dp (← getinode dp).size (2 * direntSize)

/-- `sys_unlink` when the inode has been found and locked. -/
def unlinkFound (dp ip : Ptr) (off : ℕ) : Routine P ℤ := do
  if (← getinode ip).nlink.toInt < 1 then Code.fail "unlink: nlink < 1"
  else
    let isDir := (← getinode ip).type = Files.T_DIR
    let busy ← if isDir then do pure !(← isdirempty p sb devsw ip) else pure false
    if busy then
      iunlockput p ip
      iunlockput p dp
      pure (-1)
    else
      if (← writei p sb devsw dp (fun _ => 0) off direntSize) ≠ direntSize then
        Code.fail "unlink: writei"
      else
        if (← getinode ip).type = Files.T_DIR then addLinks dp (-1)
        iunlockput p dp
        addLinks ip (-1)
        iunlockput p ip
        pure 0

/-- `.` and `..` as the compiler stores them. -/
def ofString (s : List Byte) : ℕ → Byte := fun k => s.getD k 0

def dotName : ℕ → Byte := ofString [46]

def dotdotName : ℕ → Byte := ofString [46, 46]

def sysUnlink (path : List Byte) : Routine P ℤ := do
  match ← nameiparent p sb devsw path with
  | (none, _) => pure (-1)
  | (some dp, name) =>
      ilock p dp
      if namecmp name dotName = 0 ∨ namecmp name dotdotName = 0 then
        iunlockput p dp
        pure (-1)
      else
        match ← dirlookup p sb devsw dp name with
        | none =>
            iunlockput p dp
            pure (-1)
        | some (ip, off) =>
            ilock p ip
            unlinkFound p sb devsw dp ip off

/-! ## New inodes -/

/-- `create` where the name is not in the directory. -/
def createNew (dp : Ptr) (name : ℕ → Byte) (type major minor : Int16) : Routine P Ptr := do
  let ip ← ialloc sb (← getinode dp).dev type
  ilock p ip
  setinode ip fun d => { d with major := major, minor := minor, nlink := 1 }
  iupdate ip
  if type = Files.T_DIR then
    addLinks dp 1
    let dot ← dirlink p sb devsw ip dotName (← getinode ip).inum
    if dot < 0 then Code.fail "create dots"
    let dotdot ← dirlink p sb devsw ip dotdotName (← getinode dp).inum
    if dotdot < 0 then Code.fail "create dots"
  let linked ← dirlink p sb devsw dp name (← getinode ip).inum
  if linked < 0 then Code.fail "create: dirlink"
  iunlockput p dp
  pure ip

def create (path : List Byte) (type major minor : Int16) : Routine P (Option Ptr) := do
  match ← nameiparent p sb devsw path with
  | (none, _) => pure none
  | (some dp, name) =>
      ilock p dp
      match ← dirlookup p sb devsw dp name with
      | some (ip, _) =>
          iunlockput p dp
          ilock p ip
          if type = Files.T_FILE ∧ (← getinode ip).type = Files.T_FILE then pure (some ip)
          else
            iunlockput p ip
            pure none
      | none =>
          let ip ← createNew p sb devsw dp name type major minor
          pure (some ip)

/-- `sys_open` up to `filealloc`: the inode, locked. -/
def openInode (path : List Byte) (omode : UInt32) : Routine P (Option Ptr) := do
  if omode &&& O_CREATE ≠ 0 then create p sb devsw path Files.T_FILE 0 0
  else
    match ← namei p sb devsw path with
    | none => pure none
    | some ip =>
        ilock p ip
        if (← getinode ip).type = Files.T_DIR ∧ omode ≠ 0 then
          iunlockput p ip
          pure none
        else pure (some ip)

/-- The fields of the file are set. -/
def openFile (f : FileId) (ip : Ptr) (omode : UInt32) : Routine P PUnit :=
  Code.modify fun v => v.setFile f fun file =>
    { file with
      ip := some ip
      off := 0
      readable := omode &&& O_WRONLY = 0
      writable := omode &&& O_WRONLY ≠ 0 ∨ omode &&& O_RDWR ≠ 0 }

def sysOpen (path : List Byte) (omode : UInt32) : Routine P ℤ := do
  match ← openInode p sb devsw path omode with
  | none => pure (-1)
  | some ip =>
      match ← filealloc with
      | none =>
          iunlockput p ip
          pure (-1)
      | some f =>
          match ← fdalloc p f with
          | none =>
              fileclose p f
              iunlockput p ip
              pure (-1)
          | some fd =>
              iunlock p ip
              openFile f ip omode
              pure fd.1

/-- `sys_mkdir` and `sys_mknod` -/
def sysCreate (path : List Byte) (type major minor : Int16) : Routine P ℤ := do
  match ← create p sb devsw path type major minor with
  | none => pure (-1)
  | some ip =>
      iunlockput p ip
      pure 0

def sysMkdir (path : List Byte) : Routine P ℤ := sysCreate p sb devsw path Files.T_DIR 0 0

def sysMknod (path : List Byte) (major minor : Int16) : Routine P ℤ :=
  sysCreate p sb devsw path Files.T_DEV major minor

def sysChdir (path : List Byte) : Routine P ℤ := do
  match ← namei p sb devsw path with
  | none => pure (-1)
  | some ip =>
      ilock p ip
      if (← getinode ip).type ≠ Files.T_DIR then
        iunlockput p ip
        pure (-1)
      else
        iunlock p ip
        match ← Code.read fun v => v.cwd p with
        | none => Code.fail "iput"
        | some cwd =>
            iput p cwd
            Code.modify fun v => { v with cwd := Function.update v.cwd p (some ip) }
            pure 0

/-! ## Processes -/

/-- One turn of the loop of `fork`.  The number is kept for the child. -/
def forkFd (fd : Fd) : Routine P PUnit := do
  match ← argfd p fd with
  | none => pure ⟨⟩
  | some f => filedup f

/-- The child has the files and the directory of its parent, and it can run. -/
def inherit (v : Volume P) (child : P) (cwd : Ptr) : Volume P :=
  { v with
    cwd := Function.update v.cwd child (some cwd)
    ofile := Function.update v.ofile child (v.ofile p)
    used := Function.update v.used child true }

/-- `fork` and `custmpro`.  The call names the slot that `allocproc` finds, so nobody else can have
taken it meanwhile. -/
def fork (child : P) : Routine P PUnit := do
  if ← Code.read fun v => v.used child then pure ⟨⟩
  else
    (List.finRange NOFILE).forM (forkFd p)
    match ← Code.read fun v => v.cwd p with
    | none => Code.fail "idup"
    | some cwd =>
        idup cwd
        Code.atomic fun v => if v.used child then .blocked else .next (⟨⟩, v.inherit p child cwd)

/-- One turn of the loop of `exit`. -/
def exitFd (fd : Fd) : Routine P PUnit := do
  match ← argfd p fd with
  | none => pure ⟨⟩
  | some f =>
      fileclose p f
      Code.modify fun v => v.setOfile p fd none

/-- `exit`, up to where the process is a zombie, and its slot is free when it has been reaped. -/
def exit (initproc : P) : Routine P PUnit := do
  if p = initproc then Code.fail "init exiting"
  else
    (List.finRange NOFILE).forM (exitFd p)
    match ← Code.read fun v => v.cwd p with
    | none => Code.fail "iput"
    | some cwd =>
        iput p cwd
        Code.modify fun v =>
          { v with cwd := Function.update v.cwd p none, used := Function.update v.used p false }

/-! ## The machine -/

inductive Call (P : Type) where
  | open (path : List Byte) (omode : UInt32)
  | mkdir (path : List Byte)
  | mknod (path : List Byte) (major minor : Int16)
  | link (old new : List Byte)
  | unlink (path : List Byte)
  | chdir (path : List Byte)
  | read (fd : Fd) (n : Int32)
  | write (fd : Fd) (src : ℕ → Byte) (n : Int32)
  | fstat (fd : Fd)
  | dup (fd : Fd)
  | close (fd : Fd)
  | fork (child : P)
  | exit

/-- What a process does in a call; its result is not looked at. -/
def handler (initproc : P) : Call P → Routine P PUnit
  | .open path omode => do discard (sysOpen p sb devsw path omode)
  | .mkdir path => do discard (sysMkdir p sb devsw path)
  | .mknod path major minor => do discard (sysMknod p sb devsw path major minor)
  | .link old new => do discard (sysLink p sb devsw old new)
  | .unlink path => do discard (sysUnlink p sb devsw path)
  | .chdir path => do discard (sysChdir p sb devsw path)
  | .read fd n => do discard (sysRead p sb devsw fd n)
  | .write fd src n => do discard (sysWrite p sb devsw fd src n)
  | .fstat fd => do discard (sysFstat p fd)
  | .dup fd => do discard (sysDup p fd)
  | .close fd => do discard (sysClose p fd)
  | .fork child => fork p child
  | .exit => exit p initproc

/-- A slot of the process table that is free makes no calls. -/
def syscall (sb : Superblock) (devsw : Devsw) (initproc p : P) (c : Call P) : Routine P PUnit := do
  if ← Code.read fun v => v.used p then handler p sb devsw initproc c

/-- Entry 0 of the cache is the root, which has not been read, and it is the current directory of
the first process. -/
def boot (disk : Files.Disk) (device : ℕ → Option (List Byte)) (initproc : P) : Volume P where
  disk := disk
  entry ip :=
    { type := 0, major := 0, minor := 0, nlink := 0, size := 0, addrs := fun _ => 0
      dev := ROOTDEV, inum := ROOTINO, ref := if ip = 0 then 1 else 0, lock := none
      valid := false }
  file _ := ⟨none, 0, false, false, 0⟩
  cwd q := if q = initproc then some 0 else none
  ofile _ _ := none
  used q := q = initproc
  device := device

/-- The system after the boot. -/
def start (disk : Files.Disk) (device : ℕ → Option (List Byte)) (initproc : P) :
    Machine P (Volume P) :=
  ⟨boot disk device initproc, fun _ => .pure ⟨⟩⟩

abbrev step (sb : Superblock) (devsw : Devsw) (initproc : P) :
    Machine P (Volume P) → Interleaving.Action P (Call P) → Outcome (Machine P (Volume P)) :=
  Machine.step (syscall sb devsw initproc)

end Volume

end Xv6
