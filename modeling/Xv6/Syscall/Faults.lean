import Xv6.Syscall.Handlers

/-!
# Calls whose arguments cannot be fetched

`ArgumentFault` lists for each system call which fetches of an argument may fail.
If one does, the call returns `-1` and leaves the kernel as it was, with one
exception: `custmpro` goes on with an uninitialised priority
(`argumentFault_harmless`).

`mkdir`, `mknod` and `chdir` call `begin_op` before they fetch their arguments.
They leave the kernel as it was when `begin_op` let them through, because a call
that has written nothing finds an empty log and wakes up nobody.
-/

namespace Xv6

open Transition

variable {F I D α : Type}

/-- A fetch of an argument fails. -/
def ArgumentFault (u : Caller F) : Syscall → Prop
  | .sysFork | .sysExit | .sysWait | .sysGetpid | .sysUptime | .sysPs => False
  | .sysKill | .sysSbrk | .sysSleep | .sysCustmpro => u.argint 0 = none
  | .sysChdir | .sysMkdir | .sysUnlink => u.argstr 0 = none
  | .sysDup | .sysClose => u.argfd 0 = none
  | .sysPipe => u.argptr 0 8 = none
  | .sysRead | .sysWrite =>
      u.argfd 0 = none ∨ u.argint 2 = none ∨ ∃ n, u.argint 2 = some n ∧ u.argptr 1 n = none
  | .sysFstat => u.argfd 0 = none ∨ u.argptr 1 sizeofStat = none
  | .sysProcstat => u.argint 0 = none ∨ u.argptr 1 sizeofPstat = none
  | .sysOpen => u.argstr 0 = none ∨ u.argint 1 = none
  | .sysLink => u.argstr 0 = none ∨ u.argstr 1 = none
  | .sysMknod => u.argstr 0 = none ∨ u.argint 1 = none ∨ u.argint 2 = none
  | .sysExec =>
      u.argstr 0 = none ∨ u.argint 1 = none ∨
        ∃ uargv, u.argint 1 = some uargv ∧ u.fetchargv MAXARG uargv = none

/-- The state in which the call fetches its arguments, but for `begin_op`. -/
def Parts.start (parts : Parts F I D) (s : KernelState F D) : Syscall → KernelState F D
  | .sysChdir | .sysMkdir | .sysMknod => parts.admitted s
  | _ => s

namespace Parts

variable {parts : Parts F I D} {s : KernelState F D}

theorem admits_admitted : (parts.admitted s).log.admits = true := by
  unfold admitted
  split
  · assumption
  · exact parts.others_admits s

theorem reachable_admitted (h : JournalReachable s.toJournal) :
    JournalReachable (parts.admitted s).toJournal := by
  unfold admitted
  split
  · exact h
  · exact parts.others_reachable s h

/-- A call that has written nothing leaves the kernel as it was. -/
theorem endOp_beginOp (h : JournalReachable s.toJournal) :
    parts.endOp (parts.beginOp s) = parts.admitted s := by
  have hinv := JournalInv.of_reachable (parts.reachable_admitted h)
  have hadmits := parts.admits_admitted (s := s)
  have hjournal : (parts.beginOp s).toJournal.endOp = (parts.admitted s).toJournal :=
    Journal.beginOp_endOp hinv hadmits
  have hrest : ¬ ((parts.beginOp s).toJournal.leaveOp.log.committing = true ∧
      0 < (parts.beginOp s).log.n) := by
    rintro ⟨hcommit, hwritten⟩
    have hzero := Journal.n_eq_zero_of_leaveOp_admitOp hinv hadmits hcommit
    exact absurd hzero hwritten.ne'
  unfold endOp
  rw [hjournal, if_neg hrest]
  rfl

theorem ifFetched_of_none {args : Option α} (hfault : args = none) (go : α → Call F D) :
    ifFetched s args go = (s, -1) := by
  rw [hfault]
  rfl

theorem ifFetchedInOp_of_none {args : Caller F → Option α} (h : JournalReachable s.toJournal)
    (hfault : args (parts.admitted s).caller = none) (go : α → Call F D) :
    parts.ifFetchedInOp s args go = (parts.admitted s, -1) := by
  have hargs : args (parts.beginOp s).caller = none := hfault
  unfold ifFetchedInOp
  simp only [hargs]
  rw [endOp_beginOp h]

/-! ## The handlers -/

/-- `fork` takes a pid whenever there is an unused slot. -/
theorem fork_nextpid {priority : Option ℤ} {np : Slot} (h : firstUnused s.table = some np) :
    (parts.fork s priority).1.nextpid = s.nextpid + 1 := by
  unfold fork
  rw [h]
  dsimp only
  split
  · rfl
  · split <;> rfl

theorem fork_eq_iff {priority : Option ℤ} :
    parts.fork s priority = (s, -1) ↔ firstUnused s.table = none := by
  constructor
  · intro h
    by_contra hne
    obtain ⟨np, hnp⟩ := Option.ne_none_iff_exists'.mp hne
    have hnextpid : (parts.fork s priority).1.nextpid = s.nextpid + 1 := fork_nextpid hnp
    rw [h] at hnextpid
    exact absurd hnextpid (Nat.succ_ne_self _).symm
  · intro h
    simp [fork, h]

/-- `custmpro` whose argument cannot be fetched. -/
theorem sysCustmpro_eq_iff {junk : BitVec 32} (hfault : s.caller.argint 0 = none) :
    parts.sysCustmpro s junk = (s, -1) ↔ junk.toInt < 0 ∨ firstUnused s.table = none := by
  unfold sysCustmpro
  simp only [hfault, Option.getD_none]
  by_cases hjunk : junk.toInt < 0
  · simp [hjunk]
  · rw [if_neg hjunk, fork_eq_iff]
    simp [hjunk]

/-- `fileread` and `filewrite` are called with a file, a length and a buffer. -/
theorem fetches_of_fault {u : Caller F}
    (hfault : u.argfd 0 = none ∨ u.argint 2 = none ∨
      ∃ n, u.argint 2 = some n ∧ u.argptr 1 n = none) :
    (do
      let (_, f) ← u.argfd 0
      let n ← u.argint 2
      let p ← u.argptr 1 n
      pure (f, p, n) : Option (F × BitVec 32 × BitVec 32)) = none := by
  rcases hfault with hfd | hn | ⟨n, hn, hp⟩
  · simp [hfd]
  · simp [hn]
  · simp [hn, hp]

/-- All handlers but `sys_custmpro` return `-1` and do nothing else. -/
theorem handler_of_fault {call : Syscall} {junk : BitVec 32} (h : JournalReachable s.toJournal)
    (hfault : ArgumentFault (parts.start s call).caller call) (hcall : call ≠ .sysCustmpro) :
    parts.handler junk s call = (parts.start s call, -1) := by
  cases call <;> simp only [start, ArgumentFault] at hfault
  case sysCustmpro => exact absurd rfl hcall
  case sysPipe | sysSleep | sysUnlink => exact ifFetched_of_none hfault _
  case sysKill | sysSbrk | sysDup | sysClose =>
      simp only [handler, sysKill, sysSbrk, sysDup, sysClose]
      exact ifFetched_of_none hfault _
  case sysRead | sysWrite => exact ifFetched_of_none (fetches_of_fault hfault) _
  case sysFstat | sysProcstat | sysOpen | sysLink =>
      simp only [handler, sysFstat, sysProcstat, sysOpen, sysLink]
      refine ifFetched_of_none ?_ _
      rcases hfault with hfirst | hsecond
      · simp [hfirst]
      · simp [hsecond]
  case sysExec =>
      simp only [handler, sysExec]
      refine ifFetched_of_none ?_ _
      rcases hfault with hpath | huargv | ⟨uargv, huargv, hargv⟩
      · simp [hpath]
      · simp [huargv]
      · simp [huargv, hargv]
  case sysChdir | sysMkdir =>
      simp only [handler, sysChdir, sysMkdir]
      exact ifFetchedInOp_of_none h hfault _
  case sysMknod =>
      simp only [handler, sysMknod]
      refine ifFetchedInOp_of_none h ?_ _
      rcases hfault with hpath | hmajor | hminor
      · simp [hpath]
      · simp [hmajor]
      · simp [hminor]

end Parts

/-! ## System calls -/

theorem syscall_eq_handler {parts : Parts F I D} {junk num : BitVec 32} {call : Syscall}
    {s : KernelState F D} (hnum : 0 < num.toInt) (hcall : syscalls[num.toNat - 1]? = some call) :
    syscall parts junk num s = parts.handler junk s call := by
  unfold syscall
  rw [if_pos hnum, hcall]

/-- A call one of whose arguments cannot be fetched returns `-1` and leaves the
kernel as it was, unless it is `custmpro`, its uninitialised priority happens to be
nonnegative, and there is a slot for a new process. -/
theorem argumentFault_harmless (parts : Parts F I D) (junk num : BitVec 32) (call : Syscall)
    (s : KernelState F D) (hnum : 0 < num.toInt) (hcall : syscalls[num.toNat - 1]? = some call)
    (hreach : JournalReachable s.toJournal)
    (hfault : ArgumentFault (parts.start s call).caller call) :
    syscall parts junk num s = (parts.start s call, -1) ↔
      call ≠ .sysCustmpro ∨ junk.toInt < 0 ∨ firstUnused s.table = none := by
  rw [syscall_eq_handler hnum hcall]
  by_cases hcustmpro : call = .sysCustmpro
  · subst hcustmpro
    simp only [ne_eq, not_true_eq_false, false_or]
    exact Parts.sysCustmpro_eq_iff hfault
  · refine iff_of_true ?_ (Or.inl hcustmpro)
    exact Parts.handler_of_fault hreach hfault hcustmpro

/-! ## A stack pointer at the end of the memory -/

/-- The first process alone. -/
def initAlone : Journal where
  log := Log.boot 30
  table := Ptable.modify (fun _ => {}) initproc fun q => { q with pid := 1, state := .running }

theorem reachable_initAlone : JournalReachable initAlone := by
  refine ⟨30, _, fun p => ?_, .refl⟩
  rintro ⟨hsleeping, -⟩
  by_cases hp : p = initproc
  · simp [Ptable.modify, hp] at hsleeping
  · simp [Ptable.modify, hp] at hsleeping

/-- A kernel in which `fork` and `custmpro` find memory, and all else is refused. -/
def refusing : Parts Unit Unit Unit where
  others s := { s with toJournal := initAlone }
  others_admits _ := rfl
  others_reachable _ _ := reachable_initAlone
  commit := id
  kalloc rest := (rest, some 1)
  kfree _ := id
  copyuvm _ rest := (rest, some 2)
  copyFiles _ := id
  exit s := (s, -1)
  wait s := (s, -1)
  procstat _ _ s := (s, -1)
  growproc _ s := (s, -1)
  sleep _ s := (s, -1)
  exec _ _ s := (s, -1)
  pipe _ s := (s, -1)
  filedup _ := id
  fileclose _ := id
  fileread _ _ _ s := (s, -1)
  filewrite _ _ _ s := (s, -1)
  filestat _ _ s := (s, -1)
  openFile _ _ s := (s, -1)
  link _ _ s := (s, -1)
  unlink _ s := (s, -1)
  create _ _ _ _ s := (s, none)
  namei _ s := (s, none)
  isDirectory _ _ := false
  iunlockput _ := id
  setCwd _ := id

/-- The first process calls with its stack pointer at the end of its memory. -/
def atEnd : KernelState Unit Unit where
  toJournal := initAlone
  cur := initproc
  caller :=
    { sz := 4096
      esp := 4096
      mem := fun _ => 0
      ofile := fun _ => none }
  nextpid := 2
  ticks := 0
  rest := ()

theorem argint_atEnd : atEnd.caller.argint 0 = none := by decide

theorem argstr_atEnd : atEnd.caller.argstr 0 = none := by
  simp [Caller.argstr, argint_atEnd]

/-- `mkdir` refuses there and does nothing. -/
theorem argumentFault_harmless_mkdir : syscall refusing 5 20 atEnd = (atEnd, -1) :=
  (argumentFault_harmless refusing 5 20 .sysMkdir atEnd (by decide) (by decide)
    reachable_initAlone argstr_atEnd).mpr (Or.inl (by decide))

/-- `custmpro` creates a process there. -/
theorem custmpro_fault_forks :
    ¬ ∀ (parts : Parts Unit Unit Unit) (junk num : BitVec 32) (call : Syscall)
      (s : KernelState Unit Unit), 0 < num.toInt → syscalls[num.toNat - 1]? = some call →
      JournalReachable s.toJournal → ArgumentFault (parts.start s call).caller call →
      syscall parts junk num s = (parts.start s call, -1) := by
  intro hclaim
  have hrefused := hclaim refusing 5 24 .sysCustmpro atEnd (by decide) (by decide)
    reachable_initAlone argint_atEnd
  have hvalue : (syscall refusing 5 24 atEnd).2 = 2 := by decide
  rw [hrefused] at hvalue
  exact absurd hvalue (by decide)

end Xv6
