import Mathlib.Data.Nat.Notation
import Xv6.Lib.RingBuffer
import Xv6.Lib.Transition

/-!
# Pipes

`pipewrite`, `piperead` and `pipeclose` as the steps of any number of processes.
What a process does between two points where another can notice it is one step: it
takes `p->lock`, it stores or hands out one byte, it wakes up sleepers, it returns.

`sleep` takes `ptable.lock` before it gives up `p->lock`, and puts the process to
sleep afterwards (`dozing`); until then nobody can wake up anybody.  `kill` makes a
sleeper runnable, and so does `wakeup` of its channel.

`PipeHistory` keeps the bytes that have been stored and those that have been handed
out.
-/

namespace Xv6

open Transition

/-- The capacity of a pipe. -/
def PIPESIZE : ℕ := 512

instance : NeZero PIPESIZE := ⟨by decide⟩

/-- `struct pipe` without its lock. -/
structure Pipe (β : Type) where
  data : Fin PIPESIZE → β
  nread : UInt32
  nwrite : UInt32
  readopen : Bool
  writeopen : Bool

/-- What processes sleep on: `&p->nread` or `&p->nwrite`. -/
inductive PipeChan
  | nread
  | nwrite
  deriving DecidableEq

/-- A call with its local variables: `write src i` has stored the bytes before `i` of
`src`, and `read n dst` has handed out `dst`. -/
inductive PipeCall (β : Type)
  | write (src : List β) (i : ℕ)
  | read (n : ℕ) (dst : List β)
  | close (writable : Bool)
  deriving DecidableEq

/-- Where a call is.  `test` is the test of the loop that waits, `copy` the loop of
`piperead` that copies, `wakeFull` the wakeup of `pipewrite` before it sleeps, and `wake`
the one before it returns.  `woken` is a process that has been woken up and needs
`p->lock` again. -/
inductive PipeStage
  | test
  | copy
  | wakeFull
  | wake
  | sleep
  | dozing
  | asleep
  | woken
  | giveUp
  | finish
  deriving DecidableEq

namespace PipeStage

/-- The process holds `p->lock`. -/
def locks : PipeStage → Bool
  | test | copy | wakeFull | wake | sleep | giveUp | finish => true
  | dozing | asleep | woken => false

/-- The process is in `sleep`, where it waits to be woken up. -/
def waits : PipeStage → Bool
  | dozing | asleep => true
  | _ => false

end PipeStage

/-- What a call sleeps on. -/
def PipeCall.chan {β : Type} : PipeCall β → PipeChan
  | write _ _ => .nwrite
  | _ => .nread

/-- The channel that a call wakes up. -/
def PipeCall.wakes {β : Type} : PipeCall β → PipeChan
  | write _ _ => .nread
  | read _ _ => .nwrite
  | close true => .nread
  | close false => .nwrite

/-- Where a call is when it has the lock for the first time. -/
def PipeCall.start {β : Type} : PipeCall β → PipeCall β × PipeStage
  | write src _ => (write src 0, .test)
  | read n _ => (read n [], .test)
  | close writable => (close writable, .wake)

/-- A process that uses the pipe, or does not (`none`). -/
abbrev PipePc (β : Type) := Option (PipeCall β × PipeStage)

namespace Pipe

variable {β : Type} (p : Pipe β)

/-- `p->nread == p->nwrite` -/
def empty : Bool :=
  p.nread == p.nwrite

/-- `p->nwrite == p->nread + PIPESIZE` -/
def full : Bool :=
  p.nwrite == p.nread + UInt32.ofNat PIPESIZE

/-- `p->data[p->nwrite++ % PIPESIZE] = x` -/
def put (x : β) : Pipe β :=
  { p with
    data := Function.update p.data (RingBuffer.slot PIPESIZE p.nwrite) x
    nwrite := p.nwrite + 1 }

/-- `p->data[p->nread++ % PIPESIZE]` -/
def first : β :=
  p.data (RingBuffer.slot PIPESIZE p.nread)

def pop : Pipe β :=
  { p with nread := p.nread + 1 }

/-- Close an end. -/
def shut (writable : Bool) : Pipe β :=
  if writable then { p with writeopen := false } else { p with readopen := false }

/-- What a call does to the pipe when it has the lock. -/
def enter : PipeCall β → Pipe β
  | .close writable => p.shut writable
  | _ => p

/-- The end that the file of the call refers to is open. -/
def opened : PipeCall β → Bool
  | .write _ _ | .close true => p.writeopen
  | .read _ _ | .close false => p.readopen

end Pipe

/-- A pipe and its users; `lock` and `ptable` are who holds `p->lock` and, in `sleep`,
`ptable.lock`. -/
structure Piping (P β : Type) where
  pipe : Pipe β
  lock : Option P
  ptable : Option P
  pc : P → PipePc β
  killed : P → Bool

inductive PipeAction (P β : Type)
  | call (p : P) (c : PipeCall β)
  | proceed (p : P)
  | kill (p : P)

namespace Piping

variable {P β : Type} [DecidableEq P] (s : Piping P β) (p : P)

def goto (pc : PipePc β) : Piping P β :=
  { s with pc := Function.update s.pc p pc }

/-- Give up `p->lock` and return. -/
def ret : Piping P β :=
  { s with lock := none }.goto p none

/-- `wakeup(chan)` -/
def wakeup {P β : Type} (s : Piping P β) (chan : PipeChan) : Piping P β :=
  { s with pc := fun q =>
      match s.pc q with
      | some (c, .asleep) => if c.chan = chan then some (c, .woken) else some (c, .asleep)
      | pc => pc }

@[simp] theorem goto_pipe (pc : PipePc β) : (s.goto p pc).pipe = s.pipe := rfl

@[simp] theorem ret_pipe : (s.ret p).pipe = s.pipe := rfl

@[simp] theorem wakeup_pipe {P β : Type} (s : Piping P β) (chan : PipeChan) :
    (s.wakeup chan).pipe = s.pipe := rfl

/-- The first step of a call, on a file that is open: `acquire(&p->lock)`.  A close
also clears the flag of its end. -/
def call (c : PipeCall β) : Outcome (Piping P β) :=
  if s.pc p = none ∧ s.lock = none ∧ s.pipe.opened c = true then
    .next ({ s with lock := some p, pipe := s.pipe.enter c }.goto p (some c.start))
  else .blocked

/-- The next step of a process that holds `p->lock`. -/
def locked (c : PipeCall β) (stage : PipeStage) : Outcome (Piping P β) :=
  match c, stage with
  | .write src i, .test =>
      match src[i]? with
      | none => .next (s.goto p (some (c, .wake)))
      | some x =>
          if s.pipe.full then
            if s.pipe.readopen = false ∨ s.killed p = true then
              .next (s.goto p (some (c, .giveUp)))
            else .next (s.goto p (some (c, .wakeFull)))
          else .next ({ s with pipe := s.pipe.put x }.goto p (some (.write src (i + 1), .test)))
  | .read _ _, .test =>
      if s.pipe.empty ∧ s.pipe.writeopen = true then
        if s.killed p then .next (s.goto p (some (c, .giveUp)))
        else .next (s.goto p (some (c, .sleep)))
      else .next (s.goto p (some (c, .copy)))
  | .read n dst, .copy =>
      if dst.length < n ∧ s.pipe.empty = false then
        .next ({ s with pipe := s.pipe.pop }.goto p (some (.read n (dst ++ [s.pipe.first]), .copy)))
      else .next (s.goto p (some (c, .wake)))
  | _, .wakeFull =>
      if s.ptable = none then .next ((s.wakeup c.wakes).goto p (some (c, .sleep))) else .blocked
  | _, .wake =>
      if s.ptable = none then .next ((s.wakeup c.wakes).goto p (some (c, .finish))) else .blocked
  | _, .sleep =>
      -- `acquire(&ptable.lock); release(lk)`
      if s.ptable = none then
        .next ({ s with ptable := some p, lock := none }.goto p (some (c, .dozing)))
      else .blocked
  | _, .giveUp | _, .finish => .next (s.ret p)
  | _, _ => .blocked

/-- The next step of a process in one of the calls. -/
def proceed : Outcome (Piping P β) :=
  match s.pc p with
  | none => .blocked
  | some (_, .asleep) => .blocked
  | some (c, .dozing) => .next ({ s with ptable := none }.goto p (some (c, .asleep)))
  | some (c, .woken) =>
      if s.lock = none then .next ({ s with lock := some p }.goto p (some (c, .test)))
      else .blocked
  | some (c, stage) => s.locked p c stage

/-- `kill` marks the process and makes it runnable if it sleeps. -/
def kill : Outcome (Piping P β) :=
  if s.ptable = none then
    .next { s with
      killed := Function.update s.killed p true
      pc := Function.update s.pc p (match s.pc p with
        | some (c, .asleep) => some (c, .woken)
        | pc => pc) }
  else .blocked

def step : PipeAction P β → Outcome (Piping P β)
  | .call p c => s.call p c
  | .proceed p => s.proceed p
  | .kill p => s.kill p

/-- After `pipealloc`; the page holds anything. -/
def alloc {β : Type} (P : Type) (data : Fin PIPESIZE → β) (killed : P → Bool) : Piping P β where
  pipe := { data, nread := 0, nwrite := 0, readopen := true, writeopen := true }
  lock := none
  ptable := none
  pc _ := none
  killed := killed

end Piping

/-! ## The history of a run -/

/-- The bytes that have been stored and those that have been handed out, in order. -/
structure PipeHistory (β : Type) where
  stored : List β
  taken : List β

namespace PipeHistory

def record {P β : Type} (h : PipeHistory β) (s : Piping P β) : PipeAction P β → Piping P β →
    PipeHistory β
  | .proceed p, t =>
      match s.pc p, t.pc p with
      | some (.write src i, .test), some (.write _ _, .test) =>
          { h with stored := h.stored ++ src[i]?.toList }
      | some (.read _ dst, .copy), some (.read _ dst', .copy) =>
          { h with taken := h.taken ++ dst'.drop dst.length }
      | _, _ => h
  | _, _ => h

end PipeHistory

/-! ## The steps -/

/-- A call that holds `p->lock` goes on without touching anything. -/
inductive PipeMove {P β : Type} (s : Piping P β) (p : P) : PipeCall β → PipeStage → PipeStage → Prop
  | written {src i} (hend : src[i]? = none) : PipeMove s p (.write src i) .test .wake
  | blocked {src i} (hfull : s.pipe.full = true) (hopen : s.pipe.readopen = true) :
      PipeMove s p (.write src i) .test .wakeFull
  | stop {src i} (hleft : i < src.length) (hfull : s.pipe.full = true)
      (hstop : s.pipe.readopen = false ∨ s.killed p = true) :
      PipeMove s p (.write src i) .test .giveUp
  | empty {n dst} (hempty : s.pipe.empty = true) (hopen : s.pipe.writeopen = true) :
      PipeMove s p (.read n dst) .test .sleep
  | killed {n dst} : PipeMove s p (.read n dst) .test .giveUp
  | ready {n dst} (hready : ¬ (s.pipe.empty = true ∧ s.pipe.writeopen = true)) :
      PipeMove s p (.read n dst) .test .copy
  | copied {n dst} (hdone : ¬ (dst.length < n ∧ s.pipe.empty = false)) :
      PipeMove s p (.read n dst) .copy .wake

/-- All steps. -/
inductive PipeStep {P β : Type} [DecidableEq P] (s : Piping P β) :
    PipeAction P β → Piping P β → Prop
  | call {p} (c) (hpc : s.pc p = none) (hlock : s.lock = none) (hopen : s.pipe.opened c = true) :
      PipeStep s (.call p c)
        ({ s with lock := some p, pipe := s.pipe.enter c }.goto p (some c.start))
  | move {p c stage stage'} (hpc : s.pc p = some (c, stage)) (hmove : PipeMove s p c stage stage') :
      PipeStep s (.proceed p) (s.goto p (some (c, stage')))
  | put {p src i x} (hpc : s.pc p = some (.write src i, .test)) (hx : src[i]? = some x)
      (hroom : s.pipe.full = false) :
      PipeStep s (.proceed p)
        ({ s with pipe := s.pipe.put x }.goto p (some (.write src (i + 1), .test)))
  | pop {p n dst} (hpc : s.pc p = some (.read n dst, .copy)) (hlt : dst.length < n)
      (hfull : s.pipe.empty = false) :
      PipeStep s (.proceed p)
        ({ s with pipe := s.pipe.pop }.goto p (some (.read n (dst ++ [s.pipe.first]), .copy)))
  | wakeFull {p c} (hpc : s.pc p = some (c, .wakeFull)) (hfree : s.ptable = none) :
      PipeStep s (.proceed p) ((s.wakeup c.wakes).goto p (some (c, .sleep)))
  | wake {p c} (hpc : s.pc p = some (c, .wake)) (hfree : s.ptable = none) :
      PipeStep s (.proceed p) ((s.wakeup c.wakes).goto p (some (c, .finish)))
  | sleep {p c} (hpc : s.pc p = some (c, .sleep)) (hfree : s.ptable = none) :
      PipeStep s (.proceed p)
        ({ s with ptable := some p, lock := none }.goto p (some (c, .dozing)))
  | ret {p c stage} (hpc : s.pc p = some (c, stage)) (hstage : stage = .giveUp ∨ stage = .finish) :
      PipeStep s (.proceed p) (s.ret p)
  | doze {p c} (hpc : s.pc p = some (c, .dozing)) :
      PipeStep s (.proceed p) ({ s with ptable := none }.goto p (some (c, .asleep)))
  | resume {p c} (hpc : s.pc p = some (c, .woken)) (hlock : s.lock = none) :
      PipeStep s (.proceed p) ({ s with lock := some p }.goto p (some (c, .test)))
  | killSleeper {p c} (hpc : s.pc p = some (c, .asleep)) (hfree : s.ptable = none) :
      PipeStep s (.kill p)
        ({ s with killed := Function.update s.killed p true }.goto p (some (c, .woken)))
  | kill {p} (hpc : ∀ c, s.pc p ≠ some (c, .asleep)) (hfree : s.ptable = none) :
      PipeStep s (.kill p) { s with killed := Function.update s.killed p true }

namespace Piping

variable {P β : Type} [DecidableEq P] {s t : Piping P β} {p : P} {c : PipeCall β}
variable {stage : PipeStage} {a : PipeAction P β}

theorem step_of_locked (hpc : s.pc p = some (c, stage)) (h : s.locked p c stage = .next t) :
    PipeStep s (.proceed p) t := by
  cases stage with
  | test =>
      cases c with
      | write src i =>
          simp only [locked] at h
          cases hx : src[i]? with
          | none =>
              rw [hx] at h
              obtain rfl := Outcome.next.inj h
              exact .move hpc (.written hx)
          | some x =>
              rw [hx] at h
              dsimp only at h
              split at h
              case isFalse hroom =>
                obtain rfl := Outcome.next.inj h
                exact .put hpc hx (by simpa using hroom)
              case isTrue hfull =>
                split at h
                case isTrue hstop =>
                  obtain rfl := Outcome.next.inj h
                  obtain ⟨hleft, -⟩ := List.getElem?_eq_some_iff.mp hx
                  exact .move hpc (.stop hleft hfull hstop)
                case isFalse hgo =>
                  obtain rfl := Outcome.next.inj h
                  refine .move hpc (.blocked hfull ?_)
                  exact Bool.not_eq_false _ ▸ fun hclosed => hgo (Or.inl hclosed)
      | read n dst =>
          simp only [locked] at h
          split at h
          case isFalse hready =>
            obtain rfl := Outcome.next.inj h
            exact .move hpc (.ready hready)
          case isTrue hempty =>
            split at h
            case isTrue hkilled =>
              obtain rfl := Outcome.next.inj h
              exact .move hpc .killed
            case isFalse =>
              obtain rfl := Outcome.next.inj h
              exact .move hpc (.empty hempty.1 hempty.2)
      | close writable => simp [locked] at h
  | copy =>
      cases c with
      | read n dst =>
          simp only [locked] at h
          split at h
          case isTrue hnext =>
            obtain rfl := Outcome.next.inj h
            exact .pop hpc hnext.1 hnext.2
          case isFalse hdone =>
            obtain rfl := Outcome.next.inj h
            exact .move hpc (.copied hdone)
      | write src i => simp [locked] at h
      | close writable => simp [locked] at h
  | wakeFull =>
      simp only [locked] at h
      split at h
      case isTrue hfree =>
        obtain rfl := Outcome.next.inj h
        exact .wakeFull hpc hfree
      case isFalse => simp at h
  | wake =>
      simp only [locked] at h
      split at h
      case isTrue hfree =>
        obtain rfl := Outcome.next.inj h
        exact .wake hpc hfree
      case isFalse => simp at h
  | sleep =>
      simp only [locked] at h
      split at h
      case isTrue hfree =>
        obtain rfl := Outcome.next.inj h
        exact .sleep hpc hfree
      case isFalse => simp at h
  | giveUp =>
      obtain rfl := Outcome.next.inj (by simpa only [locked] using h)
      exact .ret hpc (Or.inl rfl)
  | finish =>
      obtain rfl := Outcome.next.inj (by simpa only [locked] using h)
      exact .ret hpc (Or.inr rfl)
  | dozing => simp [locked] at h
  | asleep => simp [locked] at h
  | woken => simp [locked] at h

theorem step_cases (h : s.step a = .next t) : PipeStep s a t := by
  cases a with
  | call p c =>
      simp only [step, call] at h
      split at h
      case isTrue hcall =>
        obtain rfl := Outcome.next.inj h
        exact .call c hcall.1 hcall.2.1 hcall.2.2
      case isFalse => simp at h
  | proceed p =>
      simp only [step, proceed] at h
      split at h
      case h_1 => simp at h
      case h_2 => simp at h
      case h_3 c hpc =>
        obtain rfl := Outcome.next.inj h
        exact .doze hpc
      case h_4 c hpc =>
        split at h
        case isTrue hlock =>
          obtain rfl := Outcome.next.inj h
          exact .resume hpc hlock
        case isFalse => simp at h
      case h_5 c stage _ _ _ hpc => exact step_of_locked hpc h
  | kill p =>
      simp only [step, kill] at h
      split at h
      case isFalse => simp at h
      case isTrue hfree =>
        obtain rfl := Outcome.next.inj h
        split
        case h_1 c hpc => exact .killSleeper hpc hfree
        case h_2 hpc =>
          rw [Function.update_eq_self]
          exact .kill (fun c => hpc c) hfree

end Piping

end Xv6
