import Xv6.Switch.Code

/-!
# The locking discipline of the kernel

The typestate of a kernel thread is a `Ctx`: the spinlocks it holds, and what it is
in the middle of.  `next` says which acts a thread may do: nobody acquires a lock
that it holds or releases one that it does not hold, `sched` is called with
`ptable.lock` alone and after a new state has been set, and a sleep that is said to
test `killed` has done so.

One lemma for each function of the kernel says in which contexts it may be called,
and that it comes back to the same context.
-/

namespace Xv6.Switch

open Typestate

/-- What a thread is in the middle of. -/
inductive Phase
  | code
  | spinning (l : Spinlock)
  /-- between a new state and `sched`, or between `swtch` and `c->proc = 0` -/
  | leaving
  /-- between `swtch` and the end of `sched` -/
  | resuming
  deriving DecidableEq

structure Ctx where
  process : Bool
  held : List Spinlock
  phase : Phase
  /-- `killed` has been tested, and the sleep is still to come -/
  tested : Bool
  deriving DecidableEq

/-- A thread that holds no lock. -/
abbrev idle (process : Bool) : Ctx := ⟨process, [], .code, false⟩

/-- What an act does to the context of its thread, where it is allowed. -/
def next : Act → Ctx → Option Ctx
  | .acquire l, t =>
      if t.phase = .code ∧ l ∉ t.held then some { t with held := l :: t.held } else none
  | .spin l, t =>
      if t.phase = .spinning l ∧ l ∉ t.held then
        some { t with held := l :: t.held, phase := .code }
      else none
  | .release l, t =>
      if t.phase = .code ∧ l ∈ t.held ∧ (t.tested = true → t.held.erase l ≠ []) then
        some { t with held := t.held.erase l }
      else none
  | .sti, t => if t = idle true ∨ t = idle false then some t else none
  | .setState state killable, t =>
      if t.process = true ∧ t.phase = .code ∧ .ptable ∈ t.held ∧ t.tested = killable ∧
          (state = .sleeping ∨ state = .runnable ∨ state = .zombie) then
        some { t with phase := .leaving, tested := false }
      else none
  | .sched, t =>
      if t = ⟨true, [.ptable], .leaving, false⟩ then some ⟨true, [.ptable], .code, false⟩
      else none
  | .restore _, t =>
      if t = ⟨true, [.ptable], .resuming, false⟩ then some ⟨true, [.ptable], .code, false⟩
      else none
  | .notKilled, t =>
      if t.process = true ∧ t.phase = .code ∧ t.held ≠ [] ∧ t.tested = false then
        some { t with tested := true }
      else none
  | .setKilled, t => if t = idle true then some t else none
  | .wakeup, t | .allocproc, t | .setRunnable, t | .reap, t | .kill, t =>
      if t.phase = .code ∧ .ptable ∈ t.held then some t else none
  | .discard, t => if t.phase = .code then some t else none
  | .dispatch, t =>
      if t = ⟨false, [.ptable], .code, false⟩ then some ⟨false, [.ptable], .leaving, false⟩
      else none
  | .undispatch, t =>
      if t = ⟨false, [.ptable], .leaving, false⟩ then some ⟨false, [.ptable], .code, false⟩
      else none
  | .iret, t => if t = idle true ∨ t = idle false then some t else none

/-- Each part of the kernel keeps to the discipline. -/
structure Disciplined (code : KernelCode) : Prop where
  scheduler : Conforms next (idle false) [.prog code.scheduler] (idle false)
  forkret : Conforms next (idle true) (handled code.forkret []) ⟨true, [.ptable], .code, false⟩
  interrupt : ∀ process user Q R, Q (idle process) →
    Ok next (code.interrupt process user) Q R (idle process)
  syscall : ∀ Q R, Q (idle true) → Ok next code.syscall Q R (idle true)

section Functions

variable {Q R : Ctx → Prop} {b tested : Bool} {held : List Spinlock} {i : ℕ} {p : Prog Act}
variable {body : List (Prog Act)} {t : Ctx}

@[simp] theorem ok_acquire {l : Spinlock} (hl : l ∉ held) :
    Ok next (acquire l) Q R ⟨b, held, .code, tested⟩ ↔ Q ⟨b, l :: held, .code, tested⟩ := by
  simp [acquire, next, hl]

@[simp] theorem ok_release {l : Spinlock} (htested : tested = true → held ≠ []) :
    Ok next (release l) Q R ⟨b, l :: held, .code, tested⟩ ↔ Q ⟨b, held, .code, tested⟩ := by
  by_cases h : tested = true <;> simp [release, next, h, htested]

@[simp] theorem ok_block_nil : Ok next (block []) Q R t ↔ Q t := Iff.rfl

@[simp] theorem ok_block_singleton : Ok next (block [p]) Q R t ↔ Ok next p Q R t := Iff.rfl

@[simp] theorem ok_block_cons {p' : Prog Act} :
    Ok next (block (p :: p' :: body)) Q R t ↔ Ok next p (Ok next (block (p' :: body)) Q R) R t :=
  Iff.rfl

@[simp] theorem ok_function : Ok next (function body) Q R t ↔ Ok next (block body) Q Q t := Iff.rfl

@[simp] theorem ok_may :
    Ok next (may body) Q R t ↔ Ok next (block body) Q R t ∧ Q t := Iff.rfl

@[simp] theorem ok_loop :
    Ok next (loop body) Q R t ↔ Q t ∧ Ok next (block body) (fun t' => t' = t) R t := Iff.rfl

/-! ## Functions that may be called with locks held -/

@[simp] theorem ok_kfree (hkmem : .kmem ∉ held) (htested : tested = true → held ≠ []) :
    Ok next kfree Q R ⟨b, held, .code, tested⟩ ↔ Q ⟨b, held, .code, tested⟩ := by
  simp [kfree, hkmem, ok_release htested]

@[simp] theorem ok_kalloc (hkmem : .kmem ∉ held) (htested : tested = true → held ≠ []) :
    Ok next kalloc Q R ⟨b, held, .code, tested⟩ ↔ Q ⟨b, held, .code, tested⟩ := by
  simp [kalloc, hkmem, ok_release htested]

@[simp] theorem ok_cprintf (hcons : .cons ∉ held) (htested : tested = true → held ≠ []) :
    Ok next cprintf Q R ⟨b, held, .code, tested⟩ ↔ Q ⟨b, held, .code, tested⟩ := by
  simp [cprintf, hcons, ok_release htested]

@[simp] theorem ok_wakeup1 :
    Ok next wakeup1 Q R ⟨b, .ptable :: held, .code, tested⟩ ↔
      Q ⟨b, .ptable :: held, .code, tested⟩ := by
  simp [wakeup1, next]

@[simp] theorem ok_wakeup (hptable : .ptable ∉ held) (htested : tested = true → held ≠ []) :
    Ok next wakeup Q R ⟨b, held, .code, tested⟩ ↔ Q ⟨b, held, .code, tested⟩ := by
  simp [wakeup, hptable, ok_release htested]

/-! ## Sleeping -/

/-- `sleep` is called with the lock that it is given, and with no other. -/
@[simp] theorem ok_sleep {lk : Spinlock} {killable : Bool} :
    Ok next (sleep killable lk) Q R ⟨true, [lk], .code, killable⟩ ↔
      Q ⟨true, [lk], .code, false⟩ := by
  unfold sleep
  split
  · rename_i hlk
    subst hlk
    simp [next]
  · rename_i hlk
    simp [next, acquire, release, hlk, Ne.symm hlk]

@[simp] theorem ok_yield :
    Ok next yield Q R ⟨true, [], .code, false⟩ ↔ Q ⟨true, [], .code, false⟩ := by
  simp [yield, next]

@[simp] theorem next_notKilled {l : Spinlock} :
    next .notKilled ⟨true, [l], .code, false⟩ = some ⟨true, [l], .code, true⟩ := by
  simp [next]

/-- The functions of `vm.c` that free pages are also called with `ptable.lock` held. -/
@[simp] theorem ok_walkpgdir (hkmem : .kmem ∉ held) (htested : tested = true → held ≠ []) :
    Ok next walkpgdir Q R ⟨b, held, .code, tested⟩ ↔ Q ⟨b, held, .code, tested⟩ := by
  simp [walkpgdir, ok_kalloc hkmem htested]

@[simp] theorem ok_deallocuvm (hkmem : .kmem ∉ held) (htested : tested = true → held ≠ []) :
    Ok next deallocuvm Q R ⟨b, held, .code, tested⟩ ↔ Q ⟨b, held, .code, tested⟩ := by
  simp [deallocuvm, ok_kfree hkmem htested, ok_walkpgdir hkmem htested]

@[simp] theorem ok_freevm (hkmem : .kmem ∉ held) (htested : tested = true → held ≠ []) :
    Ok next freevm Q R ⟨b, held, .code, tested⟩ ↔ Q ⟨b, held, .code, tested⟩ := by
  simp [freevm, ok_kfree hkmem htested, ok_deallocuvm hkmem htested]

/-! ## Interrupt handlers -/

@[simp] theorem ok_procdump :
    Ok next procdump Q R ⟨b, [], .code, false⟩ ↔ Q ⟨b, [], .code, false⟩ := by
  simp [procdump]

@[simp] theorem ok_consoleintr :
    Ok next consoleintr Q R ⟨b, [], .code, false⟩ ↔ Q ⟨b, [], .code, false⟩ := by
  simp [consoleintr]

@[simp] theorem ok_ideintr :
    Ok next ideintr Q R ⟨b, [], .code, false⟩ ↔ Q ⟨b, [], .code, false⟩ := by
  simp [ideintr]

@[simp] theorem ok_timer :
    Ok next timer Q R ⟨b, [], .code, false⟩ ↔ Q ⟨b, [], .code, false⟩ := by
  simp [timer]

/-! ## Functions that are called without a lock -/

@[simp] theorem ok_acquiresleep :
    Ok next acquiresleep Q R ⟨true, [], .code, false⟩ ↔ Q ⟨true, [], .code, false⟩ := by
  simp [acquiresleep]

@[simp] theorem ok_releasesleep :
    Ok next releasesleep Q R ⟨true, [], .code, false⟩ ↔ Q ⟨true, [], .code, false⟩ := by
  simp [releasesleep]

@[simp] theorem ok_holdingsleep :
    Ok next holdingsleep Q R ⟨true, [], .code, false⟩ ↔ Q ⟨true, [], .code, false⟩ := by
  simp [holdingsleep]

@[simp] theorem ok_iderw :
    Ok next iderw Q R ⟨true, [], .code, false⟩ ↔ Q ⟨true, [], .code, false⟩ := by
  simp [iderw]

@[simp] theorem ok_bget :
    Ok next bget Q R ⟨true, [], .code, false⟩ ↔ Q ⟨true, [], .code, false⟩ := by
  simp [bget]

@[simp] theorem ok_bread :
    Ok next bread Q R ⟨true, [], .code, false⟩ ↔ Q ⟨true, [], .code, false⟩ := by
  simp [bread]

@[simp] theorem ok_bwrite :
    Ok next bwrite Q R ⟨true, [], .code, false⟩ ↔ Q ⟨true, [], .code, false⟩ := by
  simp [bwrite]

@[simp] theorem ok_brelse :
    Ok next brelse Q R ⟨true, [], .code, false⟩ ↔ Q ⟨true, [], .code, false⟩ := by
  simp [brelse]

@[simp] theorem ok_installTrans :
    Ok next installTrans Q R ⟨true, [], .code, false⟩ ↔ Q ⟨true, [], .code, false⟩ := by
  simp [installTrans]

@[simp] theorem ok_readHead :
    Ok next readHead Q R ⟨true, [], .code, false⟩ ↔ Q ⟨true, [], .code, false⟩ := by
  simp [readHead]

@[simp] theorem ok_writeHead :
    Ok next writeHead Q R ⟨true, [], .code, false⟩ ↔ Q ⟨true, [], .code, false⟩ := by
  simp [writeHead]

@[simp] theorem ok_recoverFromLog :
    Ok next recoverFromLog Q R ⟨true, [], .code, false⟩ ↔ Q ⟨true, [], .code, false⟩ := by
  simp [recoverFromLog]

@[simp] theorem ok_beginOp :
    Ok next beginOp Q R ⟨true, [], .code, false⟩ ↔ Q ⟨true, [], .code, false⟩ := by
  simp [beginOp]

@[simp] theorem ok_writeLog :
    Ok next writeLog Q R ⟨true, [], .code, false⟩ ↔ Q ⟨true, [], .code, false⟩ := by
  simp [writeLog]

@[simp] theorem ok_commit :
    Ok next commit Q R ⟨true, [], .code, false⟩ ↔ Q ⟨true, [], .code, false⟩ := by
  simp [commit]

@[simp] theorem ok_endOp :
    Ok next endOp Q R ⟨true, [], .code, false⟩ ↔ Q ⟨true, [], .code, false⟩ := by
  simp [endOp]

@[simp] theorem ok_logWrite :
    Ok next logWrite Q R ⟨true, [], .code, false⟩ ↔ Q ⟨true, [], .code, false⟩ := by
  simp [logWrite]

@[simp] theorem ok_readsb :
    Ok next readsb Q R ⟨true, [], .code, false⟩ ↔ Q ⟨true, [], .code, false⟩ := by
  simp [readsb]

@[simp] theorem ok_initlog :
    Ok next initlog Q R ⟨true, [], .code, false⟩ ↔ Q ⟨true, [], .code, false⟩ := by
  simp [initlog]

@[simp] theorem ok_bzero :
    Ok next bzero Q R ⟨true, [], .code, false⟩ ↔ Q ⟨true, [], .code, false⟩ := by
  simp [bzero]

@[simp] theorem ok_balloc :
    Ok next balloc Q R ⟨true, [], .code, false⟩ ↔ Q ⟨true, [], .code, false⟩ := by
  simp [balloc]

@[simp] theorem ok_bfree :
    Ok next bfree Q R ⟨true, [], .code, false⟩ ↔ Q ⟨true, [], .code, false⟩ := by
  simp [bfree]

@[simp] theorem ok_iinit :
    Ok next iinit Q R ⟨true, [], .code, false⟩ ↔ Q ⟨true, [], .code, false⟩ := by
  simp [iinit]

@[simp] theorem ok_iget :
    Ok next iget Q R ⟨true, [], .code, false⟩ ↔ Q ⟨true, [], .code, false⟩ := by
  simp [iget]

@[simp] theorem ok_ialloc :
    Ok next ialloc Q R ⟨true, [], .code, false⟩ ↔ Q ⟨true, [], .code, false⟩ := by
  simp [ialloc]

@[simp] theorem ok_iupdate :
    Ok next iupdate Q R ⟨true, [], .code, false⟩ ↔ Q ⟨true, [], .code, false⟩ := by
  simp [iupdate]

@[simp] theorem ok_idup :
    Ok next idup Q R ⟨true, [], .code, false⟩ ↔ Q ⟨true, [], .code, false⟩ := by
  simp [idup]

@[simp] theorem ok_ilock :
    Ok next ilock Q R ⟨true, [], .code, false⟩ ↔ Q ⟨true, [], .code, false⟩ := by
  simp [ilock]

@[simp] theorem ok_iunlock :
    Ok next iunlock Q R ⟨true, [], .code, false⟩ ↔ Q ⟨true, [], .code, false⟩ := by
  simp [iunlock]

@[simp] theorem ok_itrunc :
    Ok next itrunc Q R ⟨true, [], .code, false⟩ ↔ Q ⟨true, [], .code, false⟩ := by
  simp [itrunc]

@[simp] theorem ok_iput :
    Ok next iput Q R ⟨true, [], .code, false⟩ ↔ Q ⟨true, [], .code, false⟩ := by
  simp [iput]

@[simp] theorem ok_iunlockput :
    Ok next iunlockput Q R ⟨true, [], .code, false⟩ ↔ Q ⟨true, [], .code, false⟩ := by
  simp [iunlockput]

@[simp] theorem ok_bmap :
    Ok next bmap Q R ⟨true, [], .code, false⟩ ↔ Q ⟨true, [], .code, false⟩ := by
  simp [bmap]

@[simp] theorem ok_consoleread :
    Ok next consoleread Q R ⟨true, [], .code, false⟩ ↔ Q ⟨true, [], .code, false⟩ := by
  simp [consoleread]

@[simp] theorem ok_consolewrite :
    Ok next consolewrite Q R ⟨true, [], .code, false⟩ ↔ Q ⟨true, [], .code, false⟩ := by
  simp [consolewrite]

@[simp] theorem ok_readi :
    Ok next readi Q R ⟨true, [], .code, false⟩ ↔ Q ⟨true, [], .code, false⟩ := by
  simp [readi]

@[simp] theorem ok_writei :
    Ok next writei Q R ⟨true, [], .code, false⟩ ↔ Q ⟨true, [], .code, false⟩ := by
  simp [writei]

@[simp] theorem ok_dirlookup :
    Ok next dirlookup Q R ⟨true, [], .code, false⟩ ↔ Q ⟨true, [], .code, false⟩ := by
  simp [dirlookup]

@[simp] theorem ok_dirlink :
    Ok next dirlink Q R ⟨true, [], .code, false⟩ ↔ Q ⟨true, [], .code, false⟩ := by
  simp [dirlink]

@[simp] theorem ok_namex :
    Ok next namex Q R ⟨true, [], .code, false⟩ ↔ Q ⟨true, [], .code, false⟩ := by
  simp [namex]

@[simp] theorem ok_namei :
    Ok next namei Q R ⟨true, [], .code, false⟩ ↔ Q ⟨true, [], .code, false⟩ := by
  simp [namei]

@[simp] theorem ok_nameiparent :
    Ok next nameiparent Q R ⟨true, [], .code, false⟩ ↔ Q ⟨true, [], .code, false⟩ := by
  simp [nameiparent]

@[simp] theorem ok_mappages :
    Ok next mappages Q R ⟨true, [], .code, false⟩ ↔ Q ⟨true, [], .code, false⟩ := by
  simp [mappages]

@[simp] theorem ok_setupkvm :
    Ok next setupkvm Q R ⟨true, [], .code, false⟩ ↔ Q ⟨true, [], .code, false⟩ := by
  simp [setupkvm]

@[simp] theorem ok_loaduvm :
    Ok next loaduvm Q R ⟨true, [], .code, false⟩ ↔ Q ⟨true, [], .code, false⟩ := by
  simp [loaduvm]

@[simp] theorem ok_allocuvm :
    Ok next allocuvm Q R ⟨true, [], .code, false⟩ ↔ Q ⟨true, [], .code, false⟩ := by
  simp [allocuvm]

@[simp] theorem ok_copyuvm :
    Ok next copyuvm Q R ⟨true, [], .code, false⟩ ↔ Q ⟨true, [], .code, false⟩ := by
  simp [copyuvm]

@[simp] theorem ok_pipeclose :
    Ok next pipeclose Q R ⟨true, [], .code, false⟩ ↔ Q ⟨true, [], .code, false⟩ := by
  simp [pipeclose]

@[simp] theorem ok_pipewrite :
    Ok next pipewrite Q R ⟨true, [], .code, false⟩ ↔ Q ⟨true, [], .code, false⟩ := by
  simp [pipewrite]

@[simp] theorem ok_piperead :
    Ok next piperead Q R ⟨true, [], .code, false⟩ ↔ Q ⟨true, [], .code, false⟩ := by
  simp [piperead]

@[simp] theorem ok_filealloc :
    Ok next filealloc Q R ⟨true, [], .code, false⟩ ↔ Q ⟨true, [], .code, false⟩ := by
  simp [filealloc]

@[simp] theorem ok_filedup :
    Ok next filedup Q R ⟨true, [], .code, false⟩ ↔ Q ⟨true, [], .code, false⟩ := by
  simp [filedup]

@[simp] theorem ok_fileclose :
    Ok next fileclose Q R ⟨true, [], .code, false⟩ ↔ Q ⟨true, [], .code, false⟩ := by
  simp [fileclose]

@[simp] theorem ok_filestat :
    Ok next filestat Q R ⟨true, [], .code, false⟩ ↔ Q ⟨true, [], .code, false⟩ := by
  simp [filestat]

@[simp] theorem ok_fileread :
    Ok next fileread Q R ⟨true, [], .code, false⟩ ↔ Q ⟨true, [], .code, false⟩ := by
  simp [fileread]

@[simp] theorem ok_filewrite :
    Ok next filewrite Q R ⟨true, [], .code, false⟩ ↔ Q ⟨true, [], .code, false⟩ := by
  simp [filewrite]

@[simp] theorem ok_pipealloc :
    Ok next pipealloc Q R ⟨true, [], .code, false⟩ ↔ Q ⟨true, [], .code, false⟩ := by
  simp [pipealloc]

@[simp] theorem ok_exec :
    Ok next exec Q R ⟨true, [], .code, false⟩ ↔ Q ⟨true, [], .code, false⟩ := by
  simp [exec]

/-! ## The life of a process and the system calls -/

@[simp] theorem ok_allocproc :
    Ok next allocproc Q R ⟨true, [], .code, false⟩ ↔ Q ⟨true, [], .code, false⟩ := by
  simp [allocproc, next]

@[simp] theorem ok_growproc :
    Ok next growproc Q R ⟨true, [], .code, false⟩ ↔ Q ⟨true, [], .code, false⟩ := by
  simp [growproc]

@[simp] theorem ok_fork :
    Ok next fork Q R ⟨true, [], .code, false⟩ ↔ Q ⟨true, [], .code, false⟩ := by
  simp [fork, next]

@[simp] theorem ok_custmpro :
    Ok next custmpro Q R ⟨true, [], .code, false⟩ ↔ Q ⟨true, [], .code, false⟩ := by
  simp [custmpro, next]

@[simp] theorem ok_kill :
    Ok next kill Q R ⟨true, [], .code, false⟩ ↔ Q ⟨true, [], .code, false⟩ := by
  simp [kill, next]

@[simp] theorem ok_exit : Ok next exit Q R ⟨true, [], .code, false⟩ := by
  simp [exit, next]

@[simp] theorem ok_wait :
    Ok next wait Q R ⟨true, [], .code, false⟩ ↔ Q ⟨true, [], .code, false⟩ := by
  simp [wait, next]

@[simp] theorem ok_procstat :
    Ok next procstat Q R ⟨true, [], .code, false⟩ ↔ Q ⟨true, [], .code, false⟩ := by
  simp [procstat, next]

@[simp] theorem ok_ps :
    Ok next ps Q R ⟨true, [], .code, false⟩ ↔ Q ⟨true, [], .code, false⟩ := by
  simp [ps, next]

@[simp] theorem ok_sysProcstat :
    Ok next sysProcstat Q R ⟨true, [], .code, false⟩ ↔ Q ⟨true, [], .code, false⟩ := by
  simp [sysProcstat]

@[simp] theorem ok_sysKill :
    Ok next sysKill Q R ⟨true, [], .code, false⟩ ↔ Q ⟨true, [], .code, false⟩ := by
  simp [sysKill]

@[simp] theorem ok_sysSbrk :
    Ok next sysSbrk Q R ⟨true, [], .code, false⟩ ↔ Q ⟨true, [], .code, false⟩ := by
  simp [sysSbrk]

@[simp] theorem ok_sysSleep :
    Ok next sysSleep Q R ⟨true, [], .code, false⟩ ↔ Q ⟨true, [], .code, false⟩ := by
  simp [sysSleep]

@[simp] theorem ok_sysUptime :
    Ok next sysUptime Q R ⟨true, [], .code, false⟩ ↔ Q ⟨true, [], .code, false⟩ := by
  simp [sysUptime]

@[simp] theorem ok_sysCustmpro :
    Ok next sysCustmpro Q R ⟨true, [], .code, false⟩ ↔ Q ⟨true, [], .code, false⟩ := by
  simp [sysCustmpro]

@[simp] theorem ok_sysDup :
    Ok next sysDup Q R ⟨true, [], .code, false⟩ ↔ Q ⟨true, [], .code, false⟩ := by
  simp [sysDup]

@[simp] theorem ok_sysRead :
    Ok next sysRead Q R ⟨true, [], .code, false⟩ ↔ Q ⟨true, [], .code, false⟩ := by
  simp [sysRead]

@[simp] theorem ok_sysWrite :
    Ok next sysWrite Q R ⟨true, [], .code, false⟩ ↔ Q ⟨true, [], .code, false⟩ := by
  simp [sysWrite]

@[simp] theorem ok_sysClose :
    Ok next sysClose Q R ⟨true, [], .code, false⟩ ↔ Q ⟨true, [], .code, false⟩ := by
  simp [sysClose]

@[simp] theorem ok_sysFstat :
    Ok next sysFstat Q R ⟨true, [], .code, false⟩ ↔ Q ⟨true, [], .code, false⟩ := by
  simp [sysFstat]

@[simp] theorem ok_sysLink :
    Ok next sysLink Q R ⟨true, [], .code, false⟩ ↔ Q ⟨true, [], .code, false⟩ := by
  simp [sysLink]

@[simp] theorem ok_isdirempty :
    Ok next isdirempty Q R ⟨true, [], .code, false⟩ ↔ Q ⟨true, [], .code, false⟩ := by
  simp [isdirempty]

@[simp] theorem ok_sysUnlink :
    Ok next sysUnlink Q R ⟨true, [], .code, false⟩ ↔ Q ⟨true, [], .code, false⟩ := by
  simp [sysUnlink]

@[simp] theorem ok_create :
    Ok next create Q R ⟨true, [], .code, false⟩ ↔ Q ⟨true, [], .code, false⟩ := by
  simp [create]

@[simp] theorem ok_sysOpen :
    Ok next sysOpen Q R ⟨true, [], .code, false⟩ ↔ Q ⟨true, [], .code, false⟩ := by
  simp [sysOpen]

@[simp] theorem ok_sysMkdir :
    Ok next sysMkdir Q R ⟨true, [], .code, false⟩ ↔ Q ⟨true, [], .code, false⟩ := by
  simp [sysMkdir]

@[simp] theorem ok_sysMknod :
    Ok next sysMknod Q R ⟨true, [], .code, false⟩ ↔ Q ⟨true, [], .code, false⟩ := by
  simp [sysMknod]

@[simp] theorem ok_sysChdir :
    Ok next sysChdir Q R ⟨true, [], .code, false⟩ ↔ Q ⟨true, [], .code, false⟩ := by
  simp [sysChdir]

@[simp] theorem ok_sysExec :
    Ok next sysExec Q R ⟨true, [], .code, false⟩ ↔ Q ⟨true, [], .code, false⟩ := by
  simp [sysExec]

@[simp] theorem ok_sysPipe :
    Ok next sysPipe Q R ⟨true, [], .code, false⟩ ↔ Q ⟨true, [], .code, false⟩ := by
  simp [sysPipe]

/-- Every system call may be called without a lock, and comes back so if it comes
back. -/
theorem ok_of_mem_syscalls (kernel : Kernel) (hQ : Q ⟨true, [], .code, false⟩) :
    ∀ p ∈ syscalls kernel, Ok next p Q R ⟨true, [], .code, false⟩ := by
  cases kernel <;> simp [syscalls, hQ]

theorem ok_syscall (kernel : Kernel) (hQ : Q ⟨true, [], .code, false⟩) :
    Ok next (syscall kernel) Q R ⟨true, [], .code, false⟩ := by
  simp only [syscall, ok_function, ok_block_singleton, ok_pick]
  intro i
  cases hp : (syscalls kernel)[i]? with
  | none => simpa using hQ
  | some p => exact ok_of_mem_syscalls kernel hQ p (List.mem_of_getElem? hp)

theorem ok_trap (process user : Bool) (hQ : Q ⟨process, [], .code, false⟩) :
    Ok next (trap process user) Q R ⟨process, [], .code, false⟩ := by
  cases process <;> cases user <;> simp [trap, next, hQ]

end Functions

theorem disciplined_kernelCode (kernel : Kernel) : Disciplined (kernelCode kernel) where
  scheduler := by
    cases kernel <;> simp [kernelCode, conforms_prog, scheduler, next]
  forkret := by
    simp [handled, kernelCode, conforms_prog, forkret, next]
  interrupt process user Q R hQ := ok_trap process user hQ
  syscall Q R hQ := by
    simp [kernelCode, trapSyscall, ok_syscall, hQ]

end Xv6.Switch
