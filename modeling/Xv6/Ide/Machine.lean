import Mathlib.Data.List.Basic
import Mathlib.Logic.Function.Basic
import Xv6.Lib.Transition

/-!
# The disk driver

`iderw` and `ideintr` of `ide.c` as the steps of any number of processes, with the disk.
What is done under `idelock` is one step, up to the point where it is given up.  `sleep`
takes `ptable.lock` before that and puts the process to sleep afterwards (`dozing`);
until then nobody can wake up anybody, and `kill` wakes up too.

The disk carries out one command at a time and raises one interrupt for it, without
error.  Between two calls a process locks a buffer, changes it and unlocks it; which
block a buffer is for is decided while it is locked (`acquire`).

`Requests` is the record of a run: the buffers in the order in which `iderw` has queued
them, in the order in which commands have been started for them, and those that have been
served, and what a buffer was when it was last queued.
-/

namespace Xv6.Ide

open Transition

/-- The number of blocks of the file system. -/
def FSSIZE : ℕ := 1000

/-- `struct buf`, as far as the driver uses it; the flags are `B_VALID` and `B_DIRTY`. -/
structure Buf (D : Type) where
  valid : Bool
  dirty : Bool
  dev : ℕ
  blockno : ℕ
  data : D

/-- The drive and its block that a buffer is for. -/
def Buf.place {D : Type} (b : Buf D) : ℕ × ℕ := (b.dev % 2, b.blockno)

/-- `(b->flags & (B_VALID|B_DIRTY)) == B_VALID` -/
def Buf.synced {D : Type} (b : Buf D) : Bool := b.valid && !b.dirty

/-- A command to the disk, and the buffer for which it was given. -/
structure Command (B D : Type) where
  buf : B
  place : ℕ × ℕ
  write : Option D

/-- What `idestart` tells the disk. -/
def Buf.command {B D : Type} (buf : Buf D) (b : B) : Command B D where
  buf := b
  place := buf.place
  write := if buf.dirty then some buf.data else none

/-- `raised` is a disk that has carried out a command and raised its interrupt; the block can be
read from its port. -/
inductive Device (B D : Type) where
  | idle
  | busy (c : Command B D)
  | raised (c : Command B D) (data : D)

/-- A process in `iderw`, or not in it (`idle`). -/
inductive Stage (B : Type) where
  | idle
  | dozing (b : B)
  | asleep (b : B)
  | woken (b : B)
  deriving DecidableEq

/-- The buffer of the call. -/
def Stage.on {B : Type} : Stage B → Option B
  | idle => none
  | dozing b | asleep b | woken b => some b

/-- The buffers with the holders of their locks, `idequeue`, and who is in `sleep` with
`ptable.lock`. -/
structure Driver (P B D : Type) where
  buf : B → Buf D
  holder : B → Option P
  queue : List B
  device : Device B D
  disk : ℕ × ℕ → D
  ptable : Option P
  stage : P → Stage B

inductive Action (P B D : Type)
  | acquire (p : P) (b : B) (dev blockno : ℕ)
  | modify (p : P) (b : B) (valid dirty : Bool) (data : D)
  | release (p : P) (b : B)
  | iderw (p : P) (b : B)
  | resume (p : P)
  | doze (p : P)
  | complete
  | ideintr
  | kill (p : P)

namespace Driver

variable {P B D : Type} [DecidableEq P] [DecidableEq B] (s : Driver P B D)

/-- `idewait` spins while the disk is busy. -/
def idestart (b : B) : Outcome (Driver P B D) :=
  if (s.buf b).blockno ≥ FSSIZE then .panic "incorrect blockno"
  else match s.device with
    | .idle => .next { s with device := .busy ((s.buf b).command b) }
    | _ => .blocked

/-- One round of the loop that waits, `sleep(b, &idelock)`. -/
def wait (p : P) (b : B) : Outcome (Driver P B D) :=
  if (s.buf b).synced then .next { s with stage := Function.update s.stage p .idle }
  else if s.ptable = none then
    .next { s with ptable := some p, stage := Function.update s.stage p (.dozing b) }
  else .blocked

def iderw (havedisk1 : Bool) (p : P) (b : B) : Outcome (Driver P B D) :=
  if s.holder b ≠ some p then .panic "iderw: buf not locked"
  else if (s.buf b).synced then .panic "iderw: nothing to do"
  else if (s.buf b).dev ≠ 0 ∧ !havedisk1 then .panic "iderw: ide disk 1 not present"
  else
    let s := { s with queue := s.queue ++ [b] }
    (if s.queue.head? = some b then s.idestart b else .next s) >>= fun s => s.wait p b

/-- `wakeup(b)` -/
def wakeup (b : B) : Driver P B D :=
  { s with stage := fun p => if s.stage p = .asleep b then .woken b else s.stage p }

/-- The head of the queue has been served. -/
def finish (b : B) (rest : List B) (data : D) : Driver P B D :=
  let buf := { s.buf b with
    data := if (s.buf b).dirty then (s.buf b).data else data
    valid := true
    dirty := false }
  wakeup { s with queue := rest, device := .idle, buf := Function.update s.buf b buf } b

def ideintr : Outcome (Driver P B D) :=
  match s.device, s.queue with
  | .raised _ _, [] => .next { s with device := .idle }
  | .raised _ data, b :: rest =>
      if s.ptable = none then
        let s := s.finish b rest data
        match rest with
        | [] => .next s
        | b :: _ => s.idestart b
      else .blocked
  | _, _ => .blocked

/-- The disk carries out its command. -/
def complete : Outcome (Driver P B D) :=
  match s.device with
  | .busy c =>
      let disk := match c.write with
        | some data => Function.update s.disk c.place data
        | none => s.disk
      .next { s with disk, device := .raised c (disk c.place) }
  | _ => .blocked

def step (havedisk1 : Bool) (s : Driver P B D) : Action P B D → Outcome (Driver P B D)
  | .acquire p b dev blockno =>
      if s.stage p = .idle ∧ s.holder b = none then
        .next { s with
          holder := Function.update s.holder b (some p)
          buf := Function.update s.buf b { s.buf b with dev, blockno } }
      else .blocked
  | .modify p b valid dirty data =>
      if s.stage p = .idle ∧ s.holder b = some p then
        .next { s with buf := Function.update s.buf b { s.buf b with valid, dirty, data } }
      else .blocked
  | .release p b =>
      if s.stage p = .idle ∧ s.holder b = some p then
        .next { s with holder := Function.update s.holder b none }
      else .blocked
  | .iderw p b => if s.stage p = .idle then s.iderw havedisk1 p b else .blocked
  | .resume p =>
      match s.stage p with
      | .woken b => s.wait p b
      | _ => .blocked
  | .doze p =>
      match s.stage p with
      | .dozing b =>
          .next { s with ptable := none, stage := Function.update s.stage p (.asleep b) }
      | _ => .blocked
  | .complete => s.complete
  | .ideintr => s.ideintr
  | .kill p =>
      if s.ptable = none then
        match s.stage p with
        | .asleep b => .next { s with stage := Function.update s.stage p (.woken b) }
        | _ => .next s
      else .blocked

/-- When the machine starts, with anything on the disk and in the buffers. -/
def boot (P : Type) {B D : Type} (disk : ℕ × ℕ → D) (buf : B → Buf D) : Driver P B D where
  buf := buf
  holder _ := none
  queue := []
  device := .idle
  disk := disk
  ptable := none
  stage _ := .idle

end Driver

/-- The buffer cache has one buffer for each block, and the kernel uses one device: a buffer is
not locked for a block for which another one is locked. -/
def Promised {P B D : Type} (s : Driver P B D) : Action P B D → Driver P B D → Prop
  | .acquire _ b _ _, t =>
      ∀ b', b' ≠ b → s.holder b' ≠ none → (s.buf b').place ≠ (t.buf b).place
  | _, _ => True

/-- The history of the requests. -/
structure Requests (B D : Type) where
  queued : List B
  started : List B
  served : List B
  entry : B → Buf D

/-- The buffer for which the disk has a command to carry out. -/
def Device.busyWith {B D : Type} : Device B D → Option B
  | busy c => some c.buf
  | _ => none

namespace Requests

variable {P B D : Type} [DecidableEq B]

def record (h : Requests B D) (s : Driver P B D) (a : Action P B D) (t : Driver P B D) :
    Requests B D :=
  let h := { h with
    started := h.started ++ if s.device.busyWith = none then t.device.busyWith.toList else [] }
  match a with
  | .iderw _ b =>
      { h with queued := h.queued ++ [b], entry := Function.update h.entry b (s.buf b) }
  | .ideintr => { h with served := h.served ++ s.queue.take 1 }
  | _ => h

def empty (buf : B → Buf D) : Requests B D where
  queued := []
  started := []
  served := []
  entry := buf

end Requests

/-! ## The steps -/

section Steps

variable {P B D : Type} {s t : Driver P B D} {havedisk1 : Bool}

/-- A process goes to sleep on `b`. -/
def Driver.sleep [DecidableEq P] (s : Driver P B D) (p : P) (b : B) : Driver P B D :=
  { s with ptable := some p, stage := Function.update s.stage p (.dozing b) }

/-- A command for `b` is given to the disk. -/
def Driver.start (s : Driver P B D) (b : B) : Driver P B D :=
  { s with device := .busy ((s.buf b).command b) }

theorem idestart_eq_next {b : B} (h : s.idestart b = .next t) :
    s.device = .idle ∧ t = s.start b := by
  unfold Driver.idestart at h
  split at h
  · cases h
  · split at h
    · rename_i hdevice
      exact ⟨hdevice, (Outcome.next.inj h).symm⟩
    · cases h

variable [DecidableEq P]

theorem wait_eq_next {p : P} {b : B} (h : s.wait p b = .next t) :
    (s.buf b).synced = true ∧ t = { s with stage := Function.update s.stage p .idle } ∨
      (s.buf b).synced = false ∧ s.ptable = none ∧ t = s.sleep p b := by
  unfold Driver.wait at h
  split at h
  · rename_i hsynced
    exact Or.inl ⟨hsynced, (Outcome.next.inj h).symm⟩
  · rename_i hsynced
    split at h
    · rename_i hptable
      exact Or.inr ⟨by simpa using hsynced, hptable, (Outcome.next.inj h).symm⟩
    · cases h

variable [DecidableEq B]

/-- All steps. -/
inductive Step (s : Driver P B D) : Action P B D → Driver P B D → Prop
  | acquire {p b} (dev blockno) (hstage : s.stage p = .idle) (hfree : s.holder b = none) :
      Step s (.acquire p b dev blockno)
        { s with
          holder := Function.update s.holder b (some p)
          buf := Function.update s.buf b { s.buf b with dev, blockno } }
  | modify {p b} (valid dirty data) (hstage : s.stage p = .idle) (hheld : s.holder b = some p) :
      Step s (.modify p b valid dirty data)
        { s with buf := Function.update s.buf b { s.buf b with valid, dirty, data } }
  | release {p b} (hstage : s.stage p = .idle) (hheld : s.holder b = some p) :
      Step s (.release p b) { s with holder := Function.update s.holder b none }
  | queueStart {p b} (hstage : s.stage p = .idle) (hheld : s.holder b = some p)
      (hsynced : (s.buf b).synced = false) (hhead : (s.queue ++ [b]).head? = some b)
      (hdevice : s.device = .idle) (hptable : s.ptable = none) :
      Step s (.iderw p b) (({ s with queue := s.queue ++ [b] }.start b).sleep p b)
  | queueBehind {p b} (hstage : s.stage p = .idle) (hheld : s.holder b = some p)
      (hsynced : (s.buf b).synced = false) (hhead : (s.queue ++ [b]).head? ≠ some b)
      (hptable : s.ptable = none) :
      Step s (.iderw p b) ({ s with queue := s.queue ++ [b] }.sleep p b)
  | ret {p b} (hstage : s.stage p = .woken b) (hsynced : (s.buf b).synced = true) :
      Step s (.resume p) { s with stage := Function.update s.stage p .idle }
  | again {p b} (hstage : s.stage p = .woken b) (hsynced : (s.buf b).synced = false)
      (hptable : s.ptable = none) : Step s (.resume p) (s.sleep p b)
  | doze {p b} (hstage : s.stage p = .dozing b) :
      Step s (.doze p) { s with ptable := none, stage := Function.update s.stage p (.asleep b) }
  | write {c data} (hdevice : s.device = .busy c) (hwrite : c.write = some data) :
      Step s .complete
        { s with disk := Function.update s.disk c.place data, device := .raised c data }
  | read {c} (hdevice : s.device = .busy c) (hwrite : c.write = none) :
      Step s .complete { s with device := .raised c (s.disk c.place) }
  | spurious {c data} (hdevice : s.device = .raised c data) (hqueue : s.queue = []) :
      Step s .ideintr { s with device := .idle }
  | last {c data b} (hdevice : s.device = .raised c data) (hqueue : s.queue = [b])
      (hptable : s.ptable = none) : Step s .ideintr (s.finish b [] data)
  | next {c data b b' rest} (hdevice : s.device = .raised c data)
      (hqueue : s.queue = b :: b' :: rest) (hptable : s.ptable = none) :
      Step s .ideintr ((s.finish b (b' :: rest) data).start b')
  | killSleeper {p b} (hstage : s.stage p = .asleep b) (hptable : s.ptable = none) :
      Step s (.kill p) { s with stage := Function.update s.stage p (.woken b) }
  | kill {p} (hptable : s.ptable = none) : Step s (.kill p) s

theorem iderw_cases {p : P} {b : B} (hstage : s.stage p = .idle)
    (h : s.iderw havedisk1 p b = .next t) : Step s (.iderw p b) t := by
  unfold Driver.iderw at h
  split at h
  · cases h
  rename_i hheld
  rw [not_not] at hheld
  split at h
  · cases h
  rename_i hsynced
  have hsynced' : (s.buf b).synced = false := by simpa using hsynced
  split at h
  · cases h
  obtain ⟨r, hr, hwait⟩ := Outcome.bind_eq_next.mp h
  split at hr
  · rename_i hhead
    obtain ⟨hdevice, rfl⟩ := idestart_eq_next hr
    rcases wait_eq_next hwait with ⟨hcontra, -⟩ | ⟨-, hptable, rfl⟩
    · exact absurd hcontra hsynced
    · exact .queueStart hstage hheld hsynced' hhead hdevice hptable
  · rename_i hhead
    obtain rfl := Outcome.next.inj hr
    rcases wait_eq_next hwait with ⟨hcontra, -⟩ | ⟨-, hptable, rfl⟩
    · exact absurd hcontra hsynced
    · exact .queueBehind hstage hheld hsynced' hhead hptable

theorem ideintr_cases (h : s.ideintr = .next t) : Step s .ideintr t := by
  unfold Driver.ideintr at h
  split at h
  · rename_i hdevice hqueue
    obtain rfl := Outcome.next.inj h
    exact .spurious hdevice hqueue
  · rename_i hdevice hqueue
    split at h
    · rename_i hptable
      split at h
      · obtain rfl := Outcome.next.inj h
        exact .last hdevice hqueue hptable
      · obtain ⟨-, rfl⟩ := idestart_eq_next h
        exact .next hdevice hqueue hptable
    · cases h
  · cases h

theorem complete_cases (h : s.complete = .next t) : Step s .complete t := by
  unfold Driver.complete at h
  split at h
  · rename_i c hdevice
    obtain rfl := Outcome.next.inj h
    cases hwrite : c.write with
    | none =>
        exact .read hdevice hwrite
    | some data =>
        have hstep := Step.write hdevice hwrite
        simpa [hwrite] using hstep
  · cases h

theorem step_cases {a : Action P B D} (h : s.step havedisk1 a = .next t) : Step s a t := by
  cases a with
  | acquire p b dev blockno =>
      simp only [Driver.step] at h
      split at h
      · rename_i hguard
        obtain rfl := Outcome.next.inj h
        exact .acquire dev blockno hguard.1 hguard.2
      · cases h
  | modify p b valid dirty data =>
      simp only [Driver.step] at h
      split at h
      · rename_i hguard
        obtain rfl := Outcome.next.inj h
        exact .modify valid dirty data hguard.1 hguard.2
      · cases h
  | release p b =>
      simp only [Driver.step] at h
      split at h
      · rename_i hguard
        obtain rfl := Outcome.next.inj h
        exact .release hguard.1 hguard.2
      · cases h
  | iderw p b =>
      simp only [Driver.step] at h
      split at h
      · rename_i hstage
        exact iderw_cases hstage h
      · cases h
  | resume p =>
      simp only [Driver.step] at h
      split at h
      · rename_i b hstage
        rcases wait_eq_next h with ⟨hsynced, rfl⟩ | ⟨hsynced, hptable, rfl⟩
        · exact .ret hstage hsynced
        · exact .again hstage hsynced hptable
      · cases h
  | doze p =>
      simp only [Driver.step] at h
      split at h
      · rename_i b hstage
        obtain rfl := Outcome.next.inj h
        exact .doze hstage
      · cases h
  | complete => exact complete_cases h
  | ideintr => exact ideintr_cases h
  | kill p =>
      simp only [Driver.step] at h
      split at h
      · rename_i hptable
        split at h
        · rename_i b hstage
          obtain rfl := Outcome.next.inj h
          exact .killSleeper hstage hptable
        · obtain rfl := Outcome.next.inj h
          exact .kill hptable
      · cases h

end Steps

end Xv6.Ide
