import Mathlib.Logic.Function.Basic
import Xv6.Lib.Transition
import Xv6.Lib.Typestate
import Xv6.Proc.Table

/-!
# CPUs, spinlocks and the switch between threads

The processors with their interrupt flag and the counters of `pushcli`, the
spinlocks, and the threads that run in the kernel: one for each process and the
scheduler of each CPU.  What a thread has left to do is a stack of programs over
the acts below.  The code of the kernel is a parameter (`KernelCode`).

A step is one act or one step of control of the thread that a CPU is on, or the
beginning of an interrupt or a system call.  `acquire` is two acts, since a CPU
spins with interrupts off, and so is `sched`, which goes on when the thread is
resumed.

The acts on the process table are given without the conditions under which the
kernel does them (which sleepers are woken, which process is chosen): any process
may be concerned that is in the state for it.  A CPU that has panicked is one that
takes no more steps.
-/

namespace Xv6.Switch

open Transition Typestate

/-! ## Acts -/

/-- The spinlocks; `sleeplock i` is the one inside a sleep-lock. -/
inductive Spinlock
  | ptable
  | tickslock
  | log
  | icache
  | bcache
  | ide
  | cons
  | ftable
  | kmem
  | pipe (i : ℕ)
  | sleeplock (i : ℕ)
  deriving DecidableEq

inductive Act
  | acquire (l : Spinlock)
  /-- `acquire`, after `pushcli` -/
  | spin (l : Spinlock)
  | release (l : Spinlock)
  | sti
  /-- `myproc()->state = state`; `killable` marks the sleep of a loop that tests `killed` -/
  | setState (state : ProcState) (killable : Bool)
  | sched
  /-- `sched`, after `swtch` -/
  | restore (intena : Bool)
  /-- `myproc()->killed` is tested and found to be 0 -/
  | notKilled
  /-- `myproc()->killed = 1` -/
  | setKilled
  | wakeup
  | allocproc
  | setRunnable
  | discard
  | reap
  | kill
  /-- the scheduler, up to its `swtch` -/
  | dispatch
  /-- `c->proc = 0` -/
  | undispatch
  | iret
  deriving DecidableEq

inductive Thread (P C : Type)
  | proc (p : P)
  | scheduler (c : C)
  deriving DecidableEq

/-- What a thread has left to do. -/
abbrev Stack := List (Item Act)

structure KernelCode where
  scheduler : Prog Act
  forkret : Prog Act
  /-- `trap` for an interrupt, with or without a process, in user space or not -/
  interrupt (process user : Bool) : Prog Act
  /-- `trap` for a system call -/
  syscall : Prog Act

/-! ## States -/

/-- `interruptible` is `FL_IF`, and `current` is the thread whose stack the CPU is on. -/
structure Cpu (P C : Type) where
  interruptible : Bool
  ncli : ℕ
  intena : Bool
  proc : Option P
  current : Thread P C

structure Machine (P C : Type) where
  cpu : C → Cpu P C
  holder : Spinlock → Option C
  state : P → ProcState
  killed : P → Bool
  stack : Thread P C → Stack

variable {P C : Type}

def Cpu.pushcli (cpu : Cpu P C) : Cpu P C :=
  { cpu with
    interruptible := false
    ncli := cpu.ncli + 1
    intena := if cpu.ncli = 0 then cpu.interruptible else cpu.intena }

def Cpu.popcli (cpu : Cpu P C) : Outcome (Cpu P C) :=
  if cpu.interruptible then .panic "popcli - interruptible"
  else if cpu.ncli = 0 then .panic "popcli"
  else .next { cpu with
    ncli := cpu.ncli - 1
    interruptible := decide (cpu.ncli - 1 = 0) && cpu.intena }

/-- An interrupt handler returns to where the thread was interrupted. -/
def handled (handler : Prog Act) (k : Stack) : Stack :=
  .prog handler :: .prog (.act .iret) :: k

namespace Machine

variable [DecidableEq P] [DecidableEq C]

def setCpu (m : Machine P C) (c : C) (cpu : Cpu P C) : Machine P C :=
  { m with cpu := Function.update m.cpu c cpu }

def setStack (m : Machine P C) (thread : Thread P C) (k : Stack) : Machine P C :=
  { m with stack := Function.update m.stack thread k }

def setProcState (m : Machine P C) (p : P) (state : ProcState) : Machine P C :=
  { m with state := Function.update m.state p state }

/-- The stack that the CPU is on. -/
def top (m : Machine P C) (c : C) : Stack :=
  m.stack (m.cpu c).current

/-- The thread on the CPU goes on with these items. -/
def goOn (m : Machine P C) (c : C) (k : Stack) : Machine P C :=
  m.setStack (m.cpu c).current k

/-- An act on a process in a state for it, which gets a new state. -/
def change (m : Machine P C) (q : P) (old new : ProcState) : Outcome (Machine P C) :=
  if m.state q = old then .next (m.setProcState q new) else .blocked

/-- `sched()` up to its `swtch`. -/
def sched (m : Machine P C) (c : C) (rest : Stack) (p : P) : Outcome (Machine P C) :=
  if m.holder .ptable ≠ some c then .panic "sched ptable.lock"
  else if (m.cpu c).ncli ≠ 1 then .panic "sched locks"
  else if m.state p = .running then .panic "sched running"
  else if (m.cpu c).interruptible then .panic "sched interruptible"
  else .next ((m.setStack (.proc p) (.prog (.act (.restore (m.cpu c).intena)) :: rest)).setCpu c
    { m.cpu c with current := .scheduler c })

omit [DecidableEq P] in
@[simp] theorem setCpu_cpu (m : Machine P C) (c : C) (cpu : Cpu P C) :
    (m.setCpu c cpu).cpu = Function.update m.cpu c cpu := rfl

omit [DecidableEq P] in
@[simp] theorem setCpu_holder (m : Machine P C) (c : C) (cpu : Cpu P C) :
    (m.setCpu c cpu).holder = m.holder := rfl

omit [DecidableEq P] in
@[simp] theorem setCpu_state (m : Machine P C) (c : C) (cpu : Cpu P C) :
    (m.setCpu c cpu).state = m.state := rfl

omit [DecidableEq P] in
@[simp] theorem setCpu_stack (m : Machine P C) (c : C) (cpu : Cpu P C) :
    (m.setCpu c cpu).stack = m.stack := rfl

@[simp] theorem setStack_cpu (m : Machine P C) (thread : Thread P C) (k : Stack) :
    (m.setStack thread k).cpu = m.cpu := rfl

@[simp] theorem setStack_holder (m : Machine P C) (thread : Thread P C) (k : Stack) :
    (m.setStack thread k).holder = m.holder := rfl

@[simp] theorem setStack_state (m : Machine P C) (thread : Thread P C) (k : Stack) :
    (m.setStack thread k).state = m.state := rfl

@[simp] theorem setStack_stack (m : Machine P C) (thread : Thread P C) (k : Stack) :
    (m.setStack thread k).stack = Function.update m.stack thread k := rfl

omit [DecidableEq C] in
@[simp] theorem setProcState_cpu (m : Machine P C) (p : P) (state : ProcState) :
    (m.setProcState p state).cpu = m.cpu := rfl

omit [DecidableEq C] in
@[simp] theorem setProcState_holder (m : Machine P C) (p : P) (state : ProcState) :
    (m.setProcState p state).holder = m.holder := rfl

omit [DecidableEq C] in
@[simp] theorem setProcState_state (m : Machine P C) (p : P) (state : ProcState) :
    (m.setProcState p state).state = Function.update m.state p state := rfl

omit [DecidableEq C] in
@[simp] theorem setProcState_stack (m : Machine P C) (p : P) (state : ProcState) :
    (m.setProcState p state).stack = m.stack := rfl

@[simp] theorem goOn_cpu (m : Machine P C) (c : C) (k : Stack) : (m.goOn c k).cpu = m.cpu := rfl

@[simp] theorem goOn_holder (m : Machine P C) (c : C) (k : Stack) :
    (m.goOn c k).holder = m.holder := rfl

@[simp] theorem goOn_state (m : Machine P C) (c : C) (k : Stack) :
    (m.goOn c k).state = m.state := rfl

@[simp] theorem goOn_stack (m : Machine P C) (c : C) (k : Stack) :
    (m.goOn c k).stack = Function.update m.stack (m.cpu c).current k := rfl

theorem goOn_top (m : Machine P C) (c : C) : m.goOn c (m.top c) = m := by
  simp [goOn, top, setStack]

/-- The act on top of the stack of CPU `c`, which concerns process `q` where it is
about another process. -/
def exec (code : KernelCode) (m : Machine P C) (c : C) (q : P) (rest : Stack) :
    Act → Outcome (Machine P C)
  | .acquire l =>
      if m.holder l = some c then .panic "acquire"
      else .next ((m.goOn c (.prog (.act (.spin l)) :: rest)).setCpu c (m.cpu c).pushcli)
  | .spin l =>
      if m.holder l = none then
        .next { m.goOn c rest with holder := Function.update m.holder l (some c) }
      else .blocked
  | .release l =>
      if m.holder l ≠ some c then .panic "release"
      else match (m.cpu c).popcli with
        | .next cpu =>
            .next { (m.goOn c rest).setCpu c cpu with holder := Function.update m.holder l none }
        | .blocked => .blocked
        | .panic message => .panic message
  | .sti => .next ((m.goOn c rest).setCpu c { m.cpu c with interruptible := true })
  | .setState state _ =>
      match (m.cpu c).proc with
      | some p => .next ((m.goOn c rest).setProcState p state)
      | none => .blocked
  | .sched =>
      match (m.cpu c).proc with
      | some p => m.sched c rest p
      | none => .blocked
  | .restore intena => .next ((m.goOn c rest).setCpu c { m.cpu c with intena := intena })
  | .notKilled =>
      match (m.cpu c).proc with
      | some p => if m.killed p then .blocked else .next (m.goOn c rest)
      | none => .blocked
  | .setKilled =>
      match (m.cpu c).proc with
      | some p => .next { m.goOn c rest with killed := Function.update m.killed p true }
      | none => .blocked
  | .wakeup => (m.goOn c rest).change q .sleeping .runnable
  | .allocproc =>
      ((m.goOn c rest).setStack (.proc q) (handled code.forkret [])).change q .unused .embryo
  | .setRunnable => (m.goOn c rest).change q .embryo .runnable
  | .discard => (m.goOn c rest).change q .embryo .unused
  | .reap =>
      { m.goOn c rest with killed := Function.update m.killed q false }.change q .zombie .unused
  | .kill =>
      .next { m.goOn c rest with
        killed := Function.update m.killed q true
        state := Function.update m.state q
          (if m.state q = .sleeping then .runnable else m.state q) }
  | .dispatch =>
      if m.state q = .runnable then
        .next (((m.goOn c rest).setProcState q .running).setCpu c
          { m.cpu c with proc := some q, current := .proc q })
      else .blocked
  | .undispatch => .next ((m.goOn c rest).setCpu c { m.cpu c with proc := none })
  | .iret => .next ((m.goOn c rest).setCpu c { m.cpu c with interruptible := true })

end Machine

/-! ## Steps -/

inductive Event (P C : Type)
  /-- The thread on CPU `c` takes a step. -/
  | run (c : C) (left : Bool) (i : ℕ) (q : P)
  | interrupt (c : C)
  | syscall (c : C)
  /-- `myproc()` and the like: `pushcli` and then `popcli` -/
  | peek (c : C)

section Steps

variable [DecidableEq P] [DecidableEq C]

def step (code : KernelCode) (m : Machine P C) : Event P C → Outcome (Machine P C)
  | .run c left i q =>
      match m.top c with
      | .prog (.act a) :: rest => m.exec code c q rest a
      | k =>
          match advance left i k with
          | some k' => .next (m.goOn c k')
          | none => .blocked
  | .interrupt c =>
      if (m.cpu c).interruptible then
        .next ((m.goOn c (handled (code.interrupt (m.cpu c).proc.isSome (m.top c).isEmpty)
          (m.top c))).setCpu c { m.cpu c with interruptible := false })
      else .blocked
  | .syscall c =>
      match (m.cpu c).current, m.top c with
      | .proc _, [] => .next (m.goOn c (handled code.syscall []))
      | _, _ => .blocked
  | .peek c =>
      match (m.cpu c).pushcli.popcli with
      | .next cpu => .next (m.setCpu c cpu)
      | .blocked => .blocked
      | .panic message => .panic message

/-- All CPUs enter `scheduler()`, and `userinit` has made the first process. -/
def boot (C : Type) (code : KernelCode) (initproc : P) : Machine P C where
  cpu c :=
    { interruptible := false, ncli := 0, intena := false, proc := none, current := .scheduler c }
  holder _ := none
  state p := if p = initproc then .runnable else .unused
  killed _ := false
  stack
    | .proc _ => handled code.forkret []
    | .scheduler _ => [.prog code.scheduler]

end Steps

end Xv6.Switch
