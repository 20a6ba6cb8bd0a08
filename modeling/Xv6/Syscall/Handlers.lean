import Mathlib.Data.Fin.Basic
import Xv6.Fs.Log

/-!
# System calls and their arguments

`syscall.c` and the handlers of `sysproc.c` and `sysfile.c` of the priority
kernel, each as a function from the state of the kernel to the next state and the
value in `%eax`.  A handler fetches its arguments from the user stack, checks
them, and goes on with a function of another file.

What the handlers go on with is a parameter (`Parts`) wherever it makes no
difference for the arguments.  `fork`, `custmpro`, `kill` and `ps` are those of
the process table, and `begin_op` and `end_op` those of the log.  One call runs at
a time: what other processes do while `begin_op` sleeps is in `Parts.others`.
-/

namespace Xv6

/-! ## Fetching arguments -/

/-- `NOFILE`, the number of file descriptors of a process. -/
def NOFILE : ℕ := 16

/-- `MAXARG`, the number of arguments of `exec`. -/
def MAXARG : ℕ := 32

/-- What the calling process has in reach: its size, its stack pointer, the bytes
of its memory and its open files. -/
structure Caller (F : Type) where
  sz : BitVec 32
  esp : BitVec 32
  mem : BitVec 32 → BitVec 8
  ofile : Fin NOFILE → Option F

namespace Caller

variable {F : Type} (u : Caller F)

/-- `*(int*)(addr)` -/
def word (addr : BitVec 32) : BitVec 32 :=
  u.mem (addr + 3) ++ u.mem (addr + 2) ++ u.mem (addr + 1) ++ u.mem addr

def fetchint (addr : BitVec 32) : Option (BitVec 32) :=
  if addr ≥ u.sz ∨ addr + 4 > u.sz then none else some (u.word addr)

/-- The length of the string at `addr`. -/
def fetchstr (addr : BitVec 32) : Option ℕ :=
  if addr ≥ u.sz then none
  else (List.range (u.sz - addr).toNat).find? fun i => u.mem (addr + BitVec.ofNat 32 i) = 0

def argint (n : ℕ) : Option (BitVec 32) :=
  u.fetchint (u.esp + 4 + 4 * BitVec.ofNat 32 n)

def argptr (n : ℕ) (size : BitVec 32) : Option (BitVec 32) := do
  let i ← u.argint n
  if size.toInt < 0 ∨ i ≥ u.sz ∨ i + size > u.sz then none else some i

def argstr (n : ℕ) : Option (BitVec 32) := do
  let addr ← u.argint n
  let _ ← u.fetchstr addr
  pure addr

def argfd (n : ℕ) : Option (Fin NOFILE × F) := do
  let fd ← u.argint n
  if h : 0 ≤ fd.toInt ∧ fd.toInt < NOFILE then
    let fd : Fin NOFILE := ⟨fd.toInt.toNat, by omega⟩
    (u.ofile fd).map fun f => (fd, f)
  else none

/-- The loop of `sys_exec` over `argv`, with room for `room` more arguments. -/
def fetchargv : ℕ → BitVec 32 → Option (List (BitVec 32))
  | 0, _ => none
  | room + 1, uargv => do
      let uarg ← u.fetchint uargv
      if uarg = 0 then pure []
      else do
        let _ ← u.fetchstr uarg
        let rest ← fetchargv room (uargv + 4)
        pure (uarg :: rest)

end Caller

/-! ## The kernel during a call -/

/-- The state on which the handlers work.  `rest` is what they leave to other
files: the file table, the file system, and the memory, descriptors and threads
of the other processes. -/
structure KernelState (F D : Type) extends Journal where
  cur : Slot
  caller : Caller F
  nextpid : ℕ
  ticks : BitVec 32
  rest : D

/-- A function of the kernel that returns an `int`. -/
abbrev Call (F D : Type) := KernelState F D → KernelState F D × ℤ

/-- What the handlers call.  `others` is what the other processes do while the
caller sleeps in `begin_op`, until its test lets the caller through. -/
structure Parts (F I D : Type) where
  others : KernelState F D → KernelState F D
  others_admits : ∀ s, (others s).log.admits = true
  others_reachable : ∀ s, JournalReachable s.toJournal → JournalReachable (others s).toJournal
  commit : D → D
  kalloc : D → D × Option Addr
  kfree : Addr → D → D
  copyuvm : Caller F → D → D × Option Addr
  copyFiles : Slot → D → D
  exit : Call F D
  wait : Call F D
  procstat : BitVec 32 → BitVec 32 → Call F D
  growproc : BitVec 32 → Call F D
  sleep : BitVec 32 → Call F D
  exec : BitVec 32 → List (BitVec 32) → Call F D
  pipe : BitVec 32 → Call F D
  filedup : F → KernelState F D → KernelState F D
  fileclose : F → KernelState F D → KernelState F D
  fileread : F → BitVec 32 → BitVec 32 → Call F D
  filewrite : F → BitVec 32 → BitVec 32 → Call F D
  filestat : F → BitVec 32 → Call F D
  openFile : BitVec 32 → BitVec 32 → Call F D
  link : BitVec 32 → BitVec 32 → Call F D
  unlink : BitVec 32 → Call F D
  create : BitVec 32 → ℤ → BitVec 32 → BitVec 32 → KernelState F D → KernelState F D × Option I
  namei : BitVec 32 → KernelState F D → KernelState F D × Option I
  isDirectory : I → KernelState F D → Bool
  iunlockput : I → KernelState F D → KernelState F D
  setCwd : I → KernelState F D → KernelState F D

/-- `sizeof(struct stat)` -/
def sizeofStat : BitVec 32 := 20

/-- `sizeof(struct pstat)` -/
def sizeofPstat : BitVec 32 := 20

/-- `T_DIR` -/
def T_DIR : ℤ := 1

/-- `T_DEV` -/
def T_DEV : ℤ := 3

namespace Parts

variable {F I D α : Type} (parts : Parts F I D) (s : KernelState F D)

/-- The state in which `begin_op` lets the caller through. -/
def admitted : KernelState F D :=
  if s.log.admits then s else parts.others s

def beginOp : KernelState F D :=
  { parts.admitted s with toJournal := (parts.admitted s).toJournal.admitOp }

def endOp : KernelState F D :=
  { s with
    toJournal := s.toJournal.endOp
    rest := if s.toJournal.leaveOp.log.committing ∧ 0 < s.log.n then parts.commit s.rest
      else s.rest }

/-- `fork`, and with a priority `custmpro`. -/
def fork (priority : Option ℤ) : KernelState F D × ℤ :=
  match firstUnused s.table with
  | none => (s, -1)
  | some np =>
      let pid := toInt s.nextpid
      let s := { s with
        table := s.table.modify np (allocated pid s.ticks)
        nextpid := s.nextpid + 1 }
      match parts.kalloc s.rest with
      | (rest, none) =>
          ({ s with
            table := s.table.modify np fun q => { q with kstack := none, state := .unused }
            rest := rest }, -1)
      | (rest, some kstack) =>
          let s := { s with table := s.table.modify np fun q => { q with kstack := some kstack } }
          match parts.copyuvm s.caller rest with
          | (rest, none) =>
              ({ s with
                table := s.table.modify np fun q =>
                  { q with pgdir := none, kstack := none, state := .unused }
                rest := parts.kfree kstack rest }, -1)
          | (rest, some pgdir) =>
              ({ s with
                table := s.table.modify np fun q =>
                  { inherit s.cur pgdir priority q with state := .runnable }
                rest := parts.copyFiles np rest }, pid)

/-- `fdalloc`: the first free descriptor. -/
def fdalloc (f : F) : Option (KernelState F D × Fin NOFILE) :=
  ((List.finRange NOFILE).find? fun fd => (s.caller.ofile fd).isNone).map fun fd =>
    ({ s with caller := { s.caller with
      ofile := Function.update s.caller.ofile fd (some f) } }, fd)

/-! ## Handlers -/

/-- `if(... < 0) return -1;` and the rest of a handler. -/
def ifFetched (args : Option α) (go : α → Call F D) : KernelState F D × ℤ :=
  match args with
  | none => (s, -1)
  | some a => go a s

/-- A handler that fetches its arguments between `begin_op` and `end_op`. -/
def ifFetchedInOp (args : Caller F → Option α) (go : α → Call F D) : KernelState F D × ℤ :=
  let s := parts.beginOp s
  match args s.caller with
  | none => (parts.endOp s, -1)
  | some a => go a s

/-- The end of `sys_mkdir` and `sys_mknod`. -/
def endCreate (x : KernelState F D × Option I) : KernelState F D × ℤ :=
  match x with
  | (s, none) => (parts.endOp s, -1)
  | (s, some ip) => (parts.endOp (parts.iunlockput ip s), 0)

def sysFork : KernelState F D × ℤ := parts.fork s none

def sysExit : KernelState F D × ℤ := parts.exit s

def sysWait : KernelState F D × ℤ := parts.wait s

def sysPipe : KernelState F D × ℤ :=
  ifFetched s (s.caller.argptr 0 8) parts.pipe

def sysRead : KernelState F D × ℤ :=
  ifFetched s
    (do
      let (_, f) ← s.caller.argfd 0
      let n ← s.caller.argint 2
      let p ← s.caller.argptr 1 n
      pure (f, p, n))
    fun (f, p, n) => parts.fileread f p n

def sysKill : KernelState F D × ℤ :=
  ifFetched s (s.caller.argint 0) fun pid s =>
    ({ s with table := (kill pid.toInt s.table).1 }, (kill pid.toInt s.table).2)

def sysExec : KernelState F D × ℤ :=
  ifFetched s
    (do
      let path ← s.caller.argstr 0
      let uargv ← s.caller.argint 1
      let argv ← s.caller.fetchargv MAXARG uargv
      pure (path, argv))
    fun (path, argv) => parts.exec path argv

def sysFstat : KernelState F D × ℤ :=
  ifFetched s
    (do
      let (_, f) ← s.caller.argfd 0
      let st ← s.caller.argptr 1 sizeofStat
      pure (f, st))
    fun (f, st) => parts.filestat f st

def sysChdir : KernelState F D × ℤ :=
  parts.ifFetchedInOp s (fun u => u.argstr 0) fun path s =>
    match parts.namei path s with
    | (s, none) => (parts.endOp s, -1)
    | (s, some ip) =>
        if parts.isDirectory ip s then (parts.endOp (parts.setCwd ip s), 0)
        else (parts.endOp (parts.iunlockput ip s), -1)

def sysDup : KernelState F D × ℤ :=
  ifFetched s (s.caller.argfd 0) fun (_, f) s =>
    match fdalloc s f with
    | none => (s, -1)
    | some (s, fd) => (parts.filedup f s, fd.val)

def sysGetpid : KernelState F D × ℤ := (s, (s.table s.cur).pid)

def sysSbrk : KernelState F D × ℤ :=
  ifFetched s (s.caller.argint 0) fun n s =>
    let (s', value) := parts.growproc n s
    if value < 0 then (s', -1) else (s', s.caller.sz.toInt)

def sysSleep : KernelState F D × ℤ :=
  ifFetched s (s.caller.argint 0) parts.sleep

def sysUptime : KernelState F D × ℤ := (s, s.ticks.toInt)

def sysOpen : KernelState F D × ℤ :=
  ifFetched s
    (do
      let path ← s.caller.argstr 0
      let omode ← s.caller.argint 1
      pure (path, omode))
    fun (path, omode) => parts.openFile path omode

def sysWrite : KernelState F D × ℤ :=
  ifFetched s
    (do
      let (_, f) ← s.caller.argfd 0
      let n ← s.caller.argint 2
      let p ← s.caller.argptr 1 n
      pure (f, p, n))
    fun (f, p, n) => parts.filewrite f p n

def sysMknod : KernelState F D × ℤ :=
  parts.ifFetchedInOp s
    (fun u => do
      let path ← u.argstr 0
      let major ← u.argint 1
      let minor ← u.argint 2
      pure (path, major, minor))
    fun (path, major, minor) s => parts.endCreate (parts.create path T_DEV major minor s)

def sysUnlink : KernelState F D × ℤ :=
  ifFetched s (s.caller.argstr 0) parts.unlink

def sysLink : KernelState F D × ℤ :=
  ifFetched s
    (do
      let old ← s.caller.argstr 0
      let new ← s.caller.argstr 1
      pure (old, new))
    fun (old, new) => parts.link old new

def sysMkdir : KernelState F D × ℤ :=
  parts.ifFetchedInOp s (fun u => u.argstr 0) fun path s =>
    parts.endCreate (parts.create path T_DIR 0 0 s)

def sysClose : KernelState F D × ℤ :=
  ifFetched s (s.caller.argfd 0) fun (fd, f) s =>
    (parts.fileclose f { s with caller := { s.caller with
      ofile := Function.update s.caller.ofile fd none } }, 0)

def sysPs : KernelState F D × ℤ := ({ s with table := psTable s.ticks s.table }, 0)

def sysProcstat : KernelState F D × ℤ :=
  ifFetched s
    (do
      let pid ← s.caller.argint 0
      let pstat ← s.caller.argptr 1 sizeofPstat
      pure (pid, pstat))
    fun (pid, pstat) => parts.procstat pid pstat

/-- `sys_custmpro` does not look at the value of `argint`; `junk` is what its
variable `pri` contains before it is set. -/
def sysCustmpro (junk : BitVec 32) : KernelState F D × ℤ :=
  let pri := ((s.caller.argint 0).getD junk).toInt
  if pri < 0 then (s, -1) else parts.fork s (some pri)

end Parts

/-! ## The table of system calls -/

inductive Syscall
  | sysFork
  | sysExit
  | sysWait
  | sysPipe
  | sysRead
  | sysKill
  | sysExec
  | sysFstat
  | sysChdir
  | sysDup
  | sysGetpid
  | sysSbrk
  | sysSleep
  | sysUptime
  | sysOpen
  | sysWrite
  | sysMknod
  | sysUnlink
  | sysLink
  | sysMkdir
  | sysClose
  | sysPs
  | sysProcstat
  | sysCustmpro
  deriving DecidableEq

/-- `syscalls[num]`, from 1 on. -/
def syscalls : List Syscall :=
  [.sysFork, .sysExit, .sysWait, .sysPipe, .sysRead, .sysKill, .sysExec, .sysFstat, .sysChdir,
    .sysDup, .sysGetpid, .sysSbrk, .sysSleep, .sysUptime, .sysOpen, .sysWrite, .sysMknod,
    .sysUnlink, .sysLink, .sysMkdir, .sysClose, .sysPs, .sysProcstat, .sysCustmpro]

def Parts.handler {F I D : Type} (parts : Parts F I D) (junk : BitVec 32) (s : KernelState F D) :
    Syscall → KernelState F D × ℤ
  | .sysFork => parts.sysFork s
  | .sysExit => parts.sysExit s
  | .sysWait => parts.sysWait s
  | .sysPipe => parts.sysPipe s
  | .sysRead => parts.sysRead s
  | .sysKill => Parts.sysKill s
  | .sysExec => parts.sysExec s
  | .sysFstat => parts.sysFstat s
  | .sysChdir => parts.sysChdir s
  | .sysDup => parts.sysDup s
  | .sysGetpid => Parts.sysGetpid s
  | .sysSbrk => parts.sysSbrk s
  | .sysSleep => parts.sysSleep s
  | .sysUptime => Parts.sysUptime s
  | .sysOpen => parts.sysOpen s
  | .sysWrite => parts.sysWrite s
  | .sysMknod => parts.sysMknod s
  | .sysUnlink => parts.sysUnlink s
  | .sysLink => parts.sysLink s
  | .sysMkdir => parts.sysMkdir s
  | .sysClose => parts.sysClose s
  | .sysPs => Parts.sysPs s
  | .sysProcstat => parts.sysProcstat s
  | .sysCustmpro => parts.sysCustmpro s junk

/-- `syscall()`: `num` comes from `%eax`, the value goes back there. -/
def syscall {F I D : Type} (parts : Parts F I D) (junk : BitVec 32) (num : BitVec 32)
    (s : KernelState F D) : KernelState F D × ℤ :=
  if 0 < num.toInt then
    match syscalls[num.toNat - 1]? with
    | some call => parts.handler junk s call
    | none => (s, -1)
  else (s, -1)

end Xv6
