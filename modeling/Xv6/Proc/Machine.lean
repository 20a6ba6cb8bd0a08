import Mathlib.Tactic.Simps.Basic
import Xv6.Proc.Table

/-!
# CPUs, kernel threads and `ptable.lock`

The state of the process subsystem of a machine whose CPUs are the elements of
`C`, and its steps.  What a step does under `ptable.lock` is done at once; the
lock itself stays in the state, because `sched()` and `scheduler()` hand it from
one kernel thread to the next:

* a thread that calls `sched()` leaves the CPU in `Ctrl.back`, where the
  scheduler of that CPU returns from `swtch` and holds the lock;
* the scheduler dispatches a process and leaves the CPU in `Ctrl.run` while the
  lock is still held; the process releases it in its next step, `resume`.

What `proc.c` does without the lock are steps of their own: `allocproc` after
its `release`, `copyuvm` and the copying of fields in `fork`, the failure paths
that set `state = UNUSED`, and `exec`.

`myproc()` is the process whose context the CPU executes (`Ctrl.run`); that it
is also `c->proc` is proved in `Dispatch.lean`.  A step that the code ends in a
`panic` has the outcome `panic`.  `kalloc` may fail, and may return any page
that is neither a kernel stack nor a page directory: the pages of user memory
are not tracked.  The two checks of `sched()` that concern `ncli` and the
interrupt flag are left out here.
-/

namespace Xv6

open Transition

/-! ## State -/

/-- How far a system call of a kernel thread has got between two of its steps. -/
inductive Pc
  | user
  | forkKalloc (np : Slot) (priority : Option ℤ)
  | forkCopyuvm (np : Slot) (priority : Option ℤ)
  | forkRunnable (np : Slot)
  | wait
  | procstat (pid : ℤ) (pstat : Bool)
  | exit
  | execLoad (pgdir : Addr)
  | execSwitch (oldpgdir : Option Addr)
  | execFree (oldpgdir : Option Addr)
  deriving DecidableEq

/-- Where `swtch` to the thread leads: `onCpu` for a thread that has not called
`sched()` since it last released `ptable.lock`. -/
inductive Resume
  | onCpu
  | forkret
  | yield
  | sleep
  | zombie
  deriving DecidableEq

/-- The kernel thread of a slot.  `ret` is what its last system call returned,
`pstat` what its last `wait` or `procstat` stored through a `pstat` pointer. -/
structure Thread where
  pc : Pc := .user
  resume : Resume := .forkret
  ret : ℤ := 0
  pstat : Option Pstat := none
  deriving DecidableEq

/-- What a CPU executes: the top of the loop of `scheduler()`, its scan of the
table (the priority kernel's from slot `first` on), the context of a process,
or `scheduler()` just after the `swtch` that came back from a process. -/
inductive Ctrl
  | idle
  | scan (first : ℕ)
  | run (p : Slot)
  | back (p : Slot)
  deriving DecidableEq

/-- `struct cpu`, with the page table in `cr3`: `none` is `kpgdir`. -/
structure Cpu where
  ctrl : Ctrl := .idle
  proc : Option Slot := none
  cr3 : Option Addr := none
  deriving DecidableEq

/-- `nextpid` counts without wrapping; the `int` of the code is `toInt nextpid`.
`lock` is the CPU that holds `ptable.lock`.  `used` lists the pages in use as
kernel stacks and page directories. -/
structure State (C : Type) where
  proc : Ptable
  nextpid : ℕ
  thread : Slot → Thread
  cpu : C → Cpu
  lock : Option C
  ticks : BitVec 32
  used : List Addr

inductive Action (C : Type)
  | acquire (c : C)
  | pick (c : C)
  | back (c : C)
  | resume (c : C)
  | yield (c : C)
  | sleep (c : C) (address : ℕ)
  | wakeup (c : C) (address : ℕ)
  | tick
  | kill (c : C) (pid : ℤ)
  | fork (c : C) (priority : Option ℤ)
  | kalloc (c : C) (page : Option Addr)
  | copyuvm (c : C) (page : Option Addr)
  | runnable (c : C)
  | exit (c : C)
  | zombie (c : C)
  | wait (c : C)
  | procstat (c : C) (pid : ℤ) (pstat : Bool)
  | ps (c : C)
  | exec (c : C) (page : Addr)
  | execBad (c : C)
  | execCommit (c : C)
  | execSwitch (c : C)
  | execFree (c : C)
  | growproc (c : C)
  | fault (c : C)
  deriving DecidableEq

namespace State

variable {C : Type} [DecidableEq C]

@[simps] def setProc (s : State C) (p : Slot) (change : Proc → Proc) : State C :=
  { s with proc := s.proc.modify p change }

@[simps] def setThread (s : State C) (p : Slot) (change : Thread → Thread) : State C :=
  { s with thread := Function.update s.thread p (change (s.thread p)) }

@[simps] def setCpu (s : State C) (c : C) (cpu : Cpu) : State C :=
  { s with cpu := Function.update s.cpu c cpu }

/-- The system call of `p` returns `value`. -/
@[simps!] def ret (s : State C) (p : Slot) (value : ℤ) : State C :=
  s.setThread p fun t => { t with pc := .user, ret := value }

/-- The system call of `p` has got to `pc`. -/
@[simps!] def goto (s : State C) (p : Slot) (pc : Pc) : State C :=
  s.setThread p fun t => { t with pc := pc }

/-! ## Locks and context switches -/

/-- `acquire(&ptable.lock)`: spins while another CPU holds the lock. -/
def acquire (s : State C) (c : C) : Outcome (State C) :=
  match s.lock with
  | none => .next { s with lock := some c }
  | some holder => if holder = c then .panic "acquire" else .blocked

/-- `release(&ptable.lock)` -/
def release (s : State C) (c : C) : Outcome (State C) :=
  if s.lock = some c then .next { s with lock := none } else .panic "release"

/-- `sched()`, called by process `p`; the thread comes back at `resume`. -/
def sched (s : State C) (c : C) (p : Slot) (resume : Resume) : Outcome (State C) :=
  if s.lock ≠ some c then .panic "sched ptable.lock"
  else if (s.proc p).state = .running then .panic "sched running"
  else .next ((s.setThread p fun t => { t with resume := resume }).setCpu c
    { s.cpu c with ctrl := .back p })

/-- The process whose thread executes on CPU `c`, past its `resume`. -/
def myproc (s : State C) (c : C) : Outcome Slot :=
  match (s.cpu c).ctrl with
  | .run p => if (s.thread p).resume = .onCpu then .next p else .blocked
  | _ => .blocked

/-- The process on CPU `c` when its thread stands at `pc`. -/
def procAt (s : State C) (c : C) (pc : Pc) : Outcome Slot := do
  let p ← s.myproc c
  if (s.thread p).pc = pc then pure p else .blocked

/-! ## `scheduler()` -/

/-- The process that the scan of `scheduler()` switches to next. -/
def choose (kernel : Kernel) (table : Ptable) (first : ℕ) : Option Slot :=
  match kernel with
  | .fcfs => minP table
  | .priority => (nextRunnable table first).map (highP table)

/-- `c->proc = p; switchuvm(p); p->state = RUNNING; swtch(...)` -/
def dispatch (s : State C) (c : C) (p : Slot) : Outcome (State C) := do
  let pgdir ← switchuvm (s.proc p)
  pure ((s.setCpu c { ctrl := .run p, proc := some p, cr3 := some pgdir }).setProc p
    fun q => { q with state := .running })

/-- The end of a pass over the table. -/
def endPass (s : State C) (c : C) : Outcome (State C) := do
  let s ← s.release c
  pure (s.setCpu c { s.cpu c with ctrl := .idle })

/-- `scheduler()` from the top of its loop to the start of the scan. -/
def startPass (s : State C) (c : C) : Outcome (State C) :=
  if (s.cpu c).ctrl = .idle then do
    let s ← s.acquire c
    pure (s.setCpu c { s.cpu c with ctrl := .scan 0 })
  else .blocked

/-- `scheduler()` from its scan to the next `swtch`, or to the end of the pass. -/
def pick (kernel : Kernel) (s : State C) (c : C) : Outcome (State C) :=
  match (s.cpu c).ctrl with
  | .scan first =>
      match choose kernel s.proc first with
      | some p => s.dispatch c p
      | none => s.endPass c
  | _ => .blocked

/-- `scheduler()` after `swtch` returned: `switchkvm(); c->proc = 0`.  The FCFS
kernel's pass ends here; the priority kernel's scan goes on behind slot `p`. -/
def back (kernel : Kernel) (s : State C) (c : C) : Outcome (State C) :=
  match (s.cpu c).ctrl with
  | .back p =>
      let s := s.setCpu c { ctrl := .scan (p + 1), proc := none, cr3 := none }
      match kernel with
      | .fcfs => s.endPass c
      | .priority => .next s
  | _ => .blocked

/-! ## Sleeping, waking, killing -/

def yield (s : State C) (c : C) : Outcome (State C) := do
  let p ← s.myproc c
  let s ← s.acquire c
  (s.setProc p fun q => { q with state := .runnable }).sched c p .yield

/-- `p->chan = chan; p->state = SLEEPING; sched()`, with `ptable.lock` held. -/
def sleepOn (s : State C) (c : C) (p : Slot) (chan : Chan) : Outcome (State C) :=
  (s.setProc p fun q => { q with chan := some chan, state := .sleeping }).sched c p .sleep

/-- `sleep(chan, lk)` with a lock other than `ptable.lock`, called from anywhere
but `fork`, `wait`, `procstat` and the end of `exec`. -/
def sleep (s : State C) (c : C) (address : ℕ) : Outcome (State C) := do
  let p ← s.myproc c
  match (s.thread p).pc with
  | .user | .exit | .execLoad _ => do
      let s ← s.acquire c
      s.sleepOn c p (.other address)
  | _ => .blocked

/-- Interrupts are on: the scheduler is between two passes, or a thread executes
past its `resume`. -/
def interruptible (s : State C) (c : C) : Bool :=
  match (s.cpu c).ctrl with
  | .idle => true
  | .run p => decide ((s.thread p).resume = .onCpu)
  | _ => false

/-- `wakeup(chan)`, by a thread or by an interrupt handler. -/
def wakeup (s : State C) (c : C) (address : ℕ) : Outcome (State C) :=
  if s.interruptible c then do
    let s ← s.acquire c
    { s with proc := wakeup1 (some (.other address)) s.proc }.release c
  else .blocked

def kill (s : State C) (c : C) (pid : ℤ) : Outcome (State C) := do
  let p ← s.procAt c .user
  let s ← s.acquire c
  let (table, value) := Xv6.kill pid s.proc
  let s ← { s with proc := table }.release c
  pure (s.ret p value)

/-! ## `fork` and `custmpro` -/

/-- `allocproc` up to its `release`.  `custmpro` passes a priority. -/
def fork (kernel : Kernel) (s : State C) (c : C) (priority : Option ℤ) : Outcome (State C) := do
  let p ← s.procAt c .user
  if kernel = .fcfs ∧ priority ≠ none then .blocked
  else do
    let s ← s.acquire c
    match firstUnused s.proc with
    | none => do
        let s ← s.release c
        pure (s.ret p (-1))
    | some np => do
        let s ← { s.setProc np (allocated (toInt s.nextpid) s.ticks) with
          nextpid := s.nextpid + 1 }.release c
        pure (s.goto p (.forkKalloc np priority))

/-- The rest of `allocproc`: the kernel stack, with a context that starts at
`forkret`. -/
def kalloc (s : State C) (c : C) (page : Option Addr) : Outcome (State C) := do
  let p ← s.myproc c
  match (s.thread p).pc with
  | .forkKalloc np priority =>
      match page with
      | none =>
          .next ((s.setProc np fun q => { q with kstack := none, state := .unused }).ret p (-1))
      | some kstack =>
          if kstack ∈ s.used then .blocked
          else .next ((({ s with used := kstack :: s.used }.setProc np
            fun q => { q with kstack := some kstack }).setThread np fun _ => ({} : Thread)).goto p
              (.forkCopyuvm np priority))
  | _ => .blocked

/-- `copyuvm` in `fork`, and the copying of the parent's fields or the failure
path. -/
def copyuvm (s : State C) (c : C) (page : Option Addr) : Outcome (State C) := do
  let p ← s.myproc c
  match (s.thread p).pc with
  | .forkCopyuvm np priority =>
      match page with
      | none =>
          match (s.proc np).kstack with
          | none => .panic "kfree"
          | some kstack =>
              .next (({ s with used := s.used.erase kstack }.setProc np
                fun q => { q with pgdir := none, kstack := none, state := .unused }).ret p (-1))
      | some pgdir =>
          if pgdir ∈ s.used then .blocked
          else .next (({ s with used := pgdir :: s.used }.setProc np
            (inherit p pgdir priority)).goto p (.forkRunnable np))
  | _ => .blocked

/-- The end of `fork`: `acquire; np->state = RUNNABLE; release; return pid`. -/
def runnable (s : State C) (c : C) : Outcome (State C) := do
  let p ← s.myproc c
  match (s.thread p).pc with
  | .forkRunnable np => do
      let s ← s.acquire c
      let s ← (s.setProc np fun q => { q with state := .runnable }).release c
      pure (s.ret p (s.proc np).pid)
  | _ => .blocked

/-! ## `exit`, `wait` and `procstat` -/

/-- `exit` up to its `acquire`, where it may sleep while it closes files. -/
def exit (s : State C) (c : C) : Outcome (State C) := do
  let p ← s.procAt c .user
  if p = initproc then .panic "init exiting" else pure (s.goto p .exit)

/-- `exit` from its `acquire` on. -/
def zombie (s : State C) (c : C) : Outcome (State C) := do
  let p ← s.procAt c .exit
  let s ← s.acquire c
  { s with proc := exitTable p s.ticks s.proc }.sched c p .zombie

/-- `kfree(p->kstack); freevm(p->pgdir)` and the clearing of the slot. -/
def reap (s : State C) (z : Slot) : Outcome (State C) :=
  match (s.proc z).kstack, (s.proc z).pgdir with
  | none, _ => .panic "kfree"
  | some _, none => .panic "freevm: no pgdir"
  | some kstack, some pgdir =>
      .next ({ s with used := (s.used.erase kstack).erase pgdir }.setProc z Proc.reaped)

/-- The end of a round of `wait` or `procstat` that found nothing to reap: give
up, or sleep until the next child exits. -/
def giveUpOrSleep (s : State C) (c : C) (p : Slot) : Outcome (State C) :=
  let s := s.setProc p fun q => { q with etime := s.ticks }
  if !havekids s.proc p || (s.proc p).killed then do
    let s ← s.release c
    pure (s.ret p (-1))
  else s.sleepOn c p (.proc p)

/-- One round of the loop of `wait`, with `ptable.lock` held. -/
def waitLoop (s : State C) (c : C) (p : Slot) : Outcome (State C) :=
  match waitFinds s.proc p with
  | some z => do
      let pid := (s.proc z).pid
      let s ← s.reap z
      let s ← s.release c
      pure (s.ret p pid)
  | none => s.giveUpOrSleep c p

/-- One round of the loop of `procstat`; `pstat` says that the pointer is not
null. -/
def procstatLoop (kernel : Kernel) (s : State C) (c : C) (p : Slot) (pid : ℤ) (pstat : Bool) :
    Outcome (State C) :=
  match procstatFinds s.proc p pid with
  | some z => do
      let report := if pstat then some ((s.proc z).report kernel) else none
      let s ← s.reap z
      let s ← s.release c
      pure ((s.setThread p fun t => { t with pstat := report }).ret p pid)
  | none => s.giveUpOrSleep c p

def wait (s : State C) (c : C) : Outcome (State C) := do
  let p ← s.procAt c .user
  let s ← s.acquire c
  (s.setThread p fun t => { t with pc := .wait, pstat := none }).waitLoop c p

def procstat (kernel : Kernel) (s : State C) (c : C) (pid : ℤ) (pstat : Bool) :
    Outcome (State C) := do
  let p ← s.procAt c .user
  let s ← s.acquire c
  (s.setThread p fun t => { t with pc := .procstat pid pstat, pstat := none }).procstatLoop
    kernel c p pid pstat

def ps (s : State C) (c : C) : Outcome (State C) := do
  let p ← s.procAt c .user
  let s ← s.acquire c
  let s ← { s with proc := psTable s.ticks s.proc }.release c
  pure (s.ret p 0)

/-- What the thread does that the scheduler has just switched to: it returns
from `sched()`, or starts at `forkret`, with `ptable.lock` held. -/
def resume (kernel : Kernel) (s : State C) (c : C) : Outcome (State C) :=
  match (s.cpu c).ctrl with
  | .run p =>
      match (s.thread p).resume with
      | .onCpu => .blocked
      | .zombie => .panic "zombie exit"
      | .forkret | .yield => do
          let s ← s.release c
          pure (s.setThread p fun t => { t with resume := .onCpu })
      | .sleep =>
          let s := (s.setProc p fun q => { q with chan := none }).setThread p
            fun t => { t with resume := .onCpu }
          match (s.thread p).pc with
          | .wait => s.waitLoop c p
          | .procstat pid pstat => s.procstatLoop kernel c p pid pstat
          | _ => s.release c
  | _ => .blocked

/-! ## Address spaces -/

/-- `exec` up to the point of no return, with a new page directory. -/
def exec (s : State C) (c : C) (page : Addr) : Outcome (State C) := do
  let p ← s.procAt c .user
  if page ∈ s.used then .blocked
  else pure ({ s with used := page :: s.used }.goto p (.execLoad page))

/-- The `bad:` exit of `exec`. -/
def execBad (s : State C) (c : C) : Outcome (State C) := do
  let p ← s.myproc c
  match (s.thread p).pc with
  | .execLoad page => pure ({ s with used := s.used.erase page }.ret p (-1))
  | _ => .blocked

/-- `oldpgdir = curproc->pgdir; curproc->pgdir = pgdir` -/
def execCommit (s : State C) (c : C) : Outcome (State C) := do
  let p ← s.myproc c
  match (s.thread p).pc with
  | .execLoad page =>
      pure ((s.setProc p fun q => { q with pgdir := some page }).goto p
        (.execSwitch (s.proc p).pgdir))
  | _ => .blocked

/-- `switchuvm(curproc)`, called by the process itself. -/
def reload (s : State C) (c : C) (p : Slot) : Outcome (State C) := do
  let pgdir ← switchuvm (s.proc p)
  pure (s.setCpu c { s.cpu c with cr3 := some pgdir })

/-- `switchuvm(curproc)` in `exec`. -/
def execSwitch (s : State C) (c : C) : Outcome (State C) := do
  let p ← s.myproc c
  match (s.thread p).pc with
  | .execSwitch oldpgdir => do
      let s ← s.reload c p
      pure (s.goto p (.execFree oldpgdir))
  | _ => .blocked

/-- `freevm(oldpgdir)` in `exec`. -/
def execFree (s : State C) (c : C) : Outcome (State C) := do
  let p ← s.myproc c
  match (s.thread p).pc with
  | .execFree none => .panic "freevm: no pgdir"
  | .execFree (some oldpgdir) => pure ({ s with used := s.used.erase oldpgdir }.ret p 0)
  | _ => .blocked

/-- `switchuvm(curproc)` at the end of `growproc`. -/
def growproc (s : State C) (c : C) : Outcome (State C) := do
  let p ← s.procAt c .user
  s.reload c p

/-- A trap from user space that is the process's own fault: `killed = 1`. -/
def fault (s : State C) (c : C) : Outcome (State C) := do
  let p ← s.procAt c .user
  pure (s.setProc p fun q => { q with killed := true })

end State

/-! ## The machine -/

variable {C : Type} [DecidableEq C]

def step (kernel : Kernel) (s : State C) : Action C → Outcome (State C)
  | .acquire c => s.startPass c
  | .pick c => s.pick kernel c
  | .back c => s.back kernel c
  | .resume c => s.resume kernel c
  | .yield c => s.yield c
  | .sleep c address => s.sleep c address
  | .wakeup c address => s.wakeup c address
  | .tick => .next { s with ticks := s.ticks + 1 }
  | .kill c pid => s.kill c pid
  | .fork c priority => s.fork kernel c priority
  | .kalloc c page => s.kalloc c page
  | .copyuvm c page => s.copyuvm c page
  | .runnable c => s.runnable c
  | .exit c => s.exit c
  | .zombie c => s.zombie c
  | .wait c => s.wait c
  | .procstat c pid pstat => s.procstat kernel c pid pstat
  | .ps c => s.ps c
  | .exec c page => s.exec c page
  | .execBad c => s.execBad c
  | .execCommit c => s.execCommit c
  | .execSwitch c => s.execSwitch c
  | .execFree c => s.execFree c
  | .growproc c => s.growproc c
  | .fault c => s.fault c

/-- The state in which `main()` enters `scheduler()`: `userinit` has made the
first process, and nothing has run. -/
def boot (C : Type) (kstack pgdir : Addr) : State C where
  proc := Ptable.modify (fun _ => {}) initproc fun p =>
    { allocated (toInt 1) 0 p with
      kstack := some kstack
      pgdir := some pgdir
      state := .runnable }
  nextpid := 2
  thread := fun _ => {}
  cpu := fun _ => {}
  lock := none
  ticks := 0
  used := [kstack, pgdir]

/-- A state that some run of the machine reaches from boot. -/
def Reachable (kernel : Kernel) (s : State C) : Prop :=
  ∃ kstack pgdir, kstack ≠ pgdir ∧ Reaches (step kernel) (boot C kstack pgdir) s

/-- The only CPU dispatches the first process. -/
def atUser : List (Action Unit) :=
  [.acquire (), .pick (), .resume ()]

/-- A call of `fork` or `custmpro` that succeeds, on the only CPU. -/
def forks (priority : Option ℤ) (kstack pgdir : Addr) : List (Action Unit) :=
  [.fork () priority, .kalloc () (some kstack), .copyuvm () (some pgdir), .runnable ()]

end Xv6
