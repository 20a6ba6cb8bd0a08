import Mathlib.Algebra.Order.Ring.Int
import Mathlib.Algebra.Order.Ring.Nat
import Xv6.Lib.Scan
import Xv6.Lib.Transition

/-!
# The process table

`struct proc`, `ptable.proc` and the parts of `proc.c` that run between
`acquire(&ptable.lock)` and the next `release` or `sched`, as functions on the
table.  `Machine.lean` puts them in the order in which the kernel threads and
the schedulers of the CPUs call them.

Both kernels of the repository share this code.  They differ in `scheduler()`,
in `custmpro`, which only the priority kernel has, and in the `priority` field
of what `procstat` reports.

A `struct proc *` into the table is its slot, and a null pointer is `none`.
`name`, `sz`, `tf`, `ofile` and `cwd` are left out: no function here reads
them.  `ttime` and `tatime` of `struct proc` are never used by the code.
-/

namespace Xv6

open Transition

/-! ## Data -/

/-- `NPROC`, the number of slots of the process table. -/
def NPROC : ℕ := 64

instance : NeZero NPROC := ⟨by decide⟩

abbrev Slot := Fin NPROC

/-- The address of a page of physical memory, as `kalloc` returns it. -/
abbrev Addr := ℕ

/-- The two kernels: `fcfs/` and `priority/`. -/
inductive Kernel
  | fcfs
  | priority
  deriving DecidableEq

inductive ProcState
  | unused
  | embryo
  | sleeping
  | runnable
  | running
  | zombie
  deriving DecidableEq

/-- A sleep channel: the address of a `struct proc`, on which `wait` and
`procstat` sleep, or any other kernel address. -/
inductive Chan
  | proc (p : Slot)
  | other (address : ℕ)
  deriving DecidableEq

structure Proc where
  pgdir : Option Addr := none
  kstack : Option Addr := none
  state : ProcState := .unused
  pid : ℤ := 0
  parent : Option Slot := none
  chan : Option Chan := none
  killed : Bool := false
  ctime : BitVec 32 := 0
  etime : BitVec 32 := 0
  priority : ℤ := 0
  deriving DecidableEq

abbrev Ptable := Slot → Proc

/-- `struct pstat`; the FCFS kernel's has no `priority`. -/
structure Pstat where
  ctime : BitVec 32
  etime : BitVec 32
  ttime : BitVec 32
  tatime : BitVec 32
  priority : Option ℤ
  deriving DecidableEq

/-- The process that `userinit` created in the first slot. -/
def initproc : Slot := 0

/-- `for(p = ptable.proc; p < &ptable.proc[NPROC]; p++)` -/
def slots : List Slot := List.finRange NPROC

/-- The `int` whose 32 bits are the low bits of `n`. -/
def toInt (n : ℕ) : ℤ := Int.bmod n (2 ^ 32)

/-- A table in which one slot has changed. -/
def Ptable.modify (table : Ptable) (p : Slot) (change : Proc → Proc) : Ptable :=
  Function.update table p (change (table p))

/-! ## Creating a process -/

/-- The scan of `allocproc` for an unused slot. -/
def firstUnused (table : Ptable) : Option Slot :=
  slots.find? fun p => decide ((table p).state = .unused)

/-- What `allocproc` writes at `found:`. -/
def allocated (pid : ℤ) (ticks : BitVec 32) (p : Proc) : Proc :=
  { p with state := .embryo, pid := pid, ctime := ticks, etime := 0 }

/-- What `fork` and `custmpro` copy into the child once it has an address
space.  Only `custmpro` passes a priority. -/
def inherit (parent : Slot) (pgdir : Addr) (priority : Option ℤ) (p : Proc) : Proc :=
  { p with
    pgdir := some pgdir
    parent := some parent
    priority := priority.getD p.priority }

/-! ## Sleeping, waking and killing -/

/-- Wake up all processes sleeping on `chan`. -/
def wakeup1 (chan : Option Chan) (table : Ptable) : Ptable := fun p =>
  if (table p).state = .sleeping ∧ (table p).chan = chan then
    { table p with state := .runnable }
  else table p

/-- What `kill` does to the process it found. -/
def Proc.kill (p : Proc) : Proc :=
  { p with killed := true, state := if p.state = .sleeping then .runnable else p.state }

/-- The slot that the scan of `kill` stops at: it tests the pid only, not the
state. -/
def killFinds (pid : ℤ) (table : Ptable) : Option Slot :=
  slots.find? fun p => decide ((table p).pid = pid)

def kill (pid : ℤ) (table : Ptable) : Ptable × ℤ :=
  match killFinds pid table with
  | some p => (table.modify p Proc.kill, 0)
  | none => (table, -1)

/-! ## Exit and the two reapers -/

/-- One round of the loop by which `exit` passes its children to init. -/
def passToInit (cur : Slot) (table : Ptable) (p : Slot) : Ptable :=
  if (table p).parent = some cur then
    if (table p).state = .zombie then
      wakeup1 (some (.proc initproc)) (table.modify p fun q => { q with parent := some initproc })
    else table.modify p fun q => { q with parent := some initproc }
  else table

/-- The part of `exit` under `ptable.lock`, up to the call of `sched`. -/
def exitTable (cur : Slot) (ticks : BitVec 32) (table : Ptable) : Ptable :=
  (slots.foldl (passToInit cur) (wakeup1 ((table cur).parent.map .proc) table)).modify cur
    fun p => { p with etime := ticks, state := .zombie }

/-- `havekids` of `wait` and `havechild` of `procstat`. -/
def havekids (table : Ptable) (cur : Slot) : Bool :=
  slots.any fun p => decide ((table p).parent = some cur)

/-- The zombie child that one scan of `wait` finds. -/
def waitFinds (table : Ptable) (cur : Slot) : Option Slot :=
  slots.find? fun p => decide ((table p).parent = some cur ∧ (table p).state = .zombie)

/-- The zombie child that one scan of `procstat` finds. -/
def procstatFinds (table : Ptable) (cur : Slot) (pid : ℤ) : Option Slot :=
  slots.find? fun p =>
    decide ((table p).parent = some cur ∧ (table p).pid = pid ∧ (table p).state = .zombie)

/-- What both reapers leave in the slot of a reaped child. -/
def Proc.reaped (p : Proc) : Proc :=
  { p with kstack := none, pid := 0, parent := none, killed := false, state := .unused }

/-- What `procstat` stores through its `pstat` argument. -/
def Proc.report (kernel : Kernel) (p : Proc) : Pstat where
  ctime := p.ctime
  etime := p.etime
  ttime := p.etime - p.ctime
  tatime := p.etime - p.ctime
  priority := match kernel with
    | .fcfs => none
    | .priority => some p.priority

/-- `ps` sets the end time of every process it lists. -/
def psTable (ticks : BitVec 32) (table : Ptable) : Ptable := fun p =>
  if (table p).state = .unused then table p else { table p with etime := ticks }

/-! ## Choosing the next process -/

/-- The scan of the FCFS scheduler: `minP` is the first runnable slot of least
`ctime`, compared as a signed `int`. -/
def minP (table : Ptable) : Option Slot :=
  Scan.least (fun p => (table p).state = .runnable) (fun p => (table p).ctime.toInt) slots

/-- The outer scan of the priority scheduler, from slot `first` on. -/
def nextRunnable (table : Ptable) (first : ℕ) : Option Slot :=
  slots.find? fun p => decide (first ≤ p.val ∧ (table p).state = .runnable)

/-- The inner scan of the priority scheduler, which starts from `highP = p`. -/
def highP (table : Ptable) (p : Slot) : Slot :=
  Scan.leastFrom (fun p1 => (table p1).state = .runnable) (fun p1 => (table p1).priority) p slots

/-- The page directory that `switchuvm` loads into `cr3`. -/
def switchuvm (p : Proc) : Outcome Addr :=
  if p.kstack = none then .panic "switchuvm: no kstack"
  else match p.pgdir with
    | none => .panic "switchuvm: no pgdir"
    | some pgdir => .next pgdir

/-! ## Reading a changed table -/

/-- A change that keeps a field of one entry keeps it in all of them. -/
theorem update_field {ι γ β : Type} [DecidableEq ι] {f : ι → γ} {i : ι} {v : γ} (field : γ → β)
    (h : field v = field (f i)) (j : ι) : field (Function.update f i v j) = field (f j) := by
  by_cases hj : j = i
  · subst hj
    rw [Function.update_self, h]
  · rw [Function.update_of_ne hj]

namespace Ptable

variable (table : Ptable) (p : Slot) (change : Proc → Proc)

theorem modify_apply (q : Slot) :
    table.modify p change q = if q = p then change (table q) else table q := by
  unfold modify
  by_cases h : q = p
  · subst h
    simp
  · simp [h]

@[simp] theorem modify_self : table.modify p change p = change (table p) := by
  simp [modify]

@[simp] theorem modify_of_ne {q : Slot} (h : q ≠ p) : table.modify p change q = table q := by
  simp [modify, h]

/-- A change that keeps a field in one slot keeps it in the whole table. -/
theorem modify_field {β : Type} (field : Proc → β) (h : ∀ q, field (change q) = field q)
    (q : Slot) : field (table.modify p change q) = field (table q) :=
  update_field field (h _) q

variable {change}

@[simp] theorem modify_state (h : ∀ q, (change q).state = q.state) (q : Slot) :
    (table.modify p change q).state = (table q).state :=
  modify_field table p change Proc.state h q

@[simp] theorem modify_kstack (h : ∀ q, (change q).kstack = q.kstack) (q : Slot) :
    (table.modify p change q).kstack = (table q).kstack :=
  modify_field table p change Proc.kstack h q

@[simp] theorem modify_pgdir (h : ∀ q, (change q).pgdir = q.pgdir) (q : Slot) :
    (table.modify p change q).pgdir = (table q).pgdir :=
  modify_field table p change Proc.pgdir h q

@[simp] theorem modify_chan (h : ∀ q, (change q).chan = q.chan) (q : Slot) :
    (table.modify p change q).chan = (table q).chan :=
  modify_field table p change Proc.chan h q

variable (change)

theorem modify_modify (change' : Proc → Proc) :
    (table.modify p change).modify p change' = table.modify p fun q => change' (change q) := by
  unfold modify
  simp

end Ptable

theorem mem_slots (p : Slot) : p ∈ slots := List.mem_finRange p

theorem slots_sorted : slots.Pairwise (· < ·) := Scan.finRange_sorted NPROC

/-- A scan of the whole table finds the first slot that passes its test. -/
theorem find?_slots_eq_some_iff {test : Slot → Prop} [DecidablePred test] {m : Slot} :
    (slots.find? fun p => decide (test p)) = some m ↔ test m ∧ ∀ p, test p → m ≤ p := by
  rw [Scan.find?_eq_some_iff slots_sorted]
  simp [mem_slots]

theorem find?_slots_eq_none_iff {test : Slot → Prop} [DecidablePred test] :
    (slots.find? fun p => decide (test p)) = none ↔ ∀ p, ¬ test p := by
  simp [List.find?_eq_none, mem_slots]

theorem havekids_congr {table table' : Ptable} {cur : Slot}
    (h : ∀ p, (table' p).parent = (table p).parent) :
    havekids table' cur = havekids table cur := by
  unfold havekids
  simp only [h]

theorem waitFinds_eq_some_iff {table : Ptable} {cur z : Slot} :
    waitFinds table cur = some z ↔
      ((table z).parent = some cur ∧ (table z).state = .zombie) ∧
        ∀ q, (table q).parent = some cur ∧ (table q).state = .zombie → z ≤ q :=
  find?_slots_eq_some_iff

theorem procstatFinds_eq_some_iff {table : Ptable} {cur z : Slot} {pid : ℤ} :
    procstatFinds table cur pid = some z ↔
      ((table z).parent = some cur ∧ (table z).pid = pid ∧ (table z).state = .zombie) ∧
        ∀ q, (table q).parent = some cur ∧ (table q).pid = pid ∧ (table q).state = .zombie →
          z ≤ q :=
  find?_slots_eq_some_iff

theorem killFinds_eq_some_iff {table : Ptable} {pid : ℤ} {p : Slot} :
    killFinds pid table = some p ↔ (table p).pid = pid ∧ ∀ q, (table q).pid = pid → p ≤ q :=
  find?_slots_eq_some_iff

theorem killFinds_eq_none_iff {table : Ptable} {pid : ℤ} :
    killFinds pid table = none ↔ ∀ p, (table p).pid ≠ pid :=
  find?_slots_eq_none_iff

/-! ## The choice of the next process -/

theorem minP_eq_some_iff {table : Ptable} {p : Slot} :
    minP table = some p ↔ (table p).state = .runnable ∧ ∀ q, (table q).state = .runnable →
      Scan.rank (fun p => (table p).ctime.toInt) p ≤
        Scan.rank (fun p => (table p).ctime.toInt) q := by
  unfold minP
  rw [Scan.least_eq_some_iff slots_sorted]
  simp [mem_slots]

theorem nextRunnable_eq_some_iff {table : Ptable} {first : ℕ} {p : Slot} :
    nextRunnable table first = some p ↔ (first ≤ p.val ∧ (table p).state = .runnable) ∧
      ∀ q : Slot, first ≤ q.val ∧ (table q).state = .runnable → p ≤ q :=
  find?_slots_eq_some_iff

theorem nextRunnable_eq_none_iff {table : Ptable} {first : ℕ} :
    nextRunnable table first = none ↔ ∀ q : Slot, first ≤ q.val → (table q).state ≠ .runnable := by
  unfold nextRunnable
  rw [find?_slots_eq_none_iff]
  simp only [not_and, ne_eq]

theorem highP_runnable {table : Ptable} {p : Slot} (h : (table p).state = .runnable) :
    (table (highP table p)).state = .runnable :=
  Scan.leastFrom_sel (fun p => (table p).state = .runnable) (fun p => (table p).priority) h slots

theorem highP_le (table : Ptable) (p : Slot) {q : Slot} (h : (table q).state = .runnable) :
    (table (highP table p)).priority ≤ (table q).priority :=
  (Scan.leastFrom_key_le (fun p => (table p).state = .runnable) (fun p => (table p).priority)
    p slots).2 q (mem_slots q) h

theorem toInt_of_le {n : ℕ} (h : n < 2 ^ 31) : toInt n = n := by
  unfold toInt
  rw [Int.bmod_def, Int.emod_eq_of_lt (by omega) (by omega)]
  split <;> omega

/-! ## What the operations do to one slot -/

/-- `q'` is `q`, possibly woken up. -/
def Proc.Wakes (q q' : Proc) : Prop :=
  q' = q ∨ q.state = .sleeping ∧ q' = { q with state := .runnable }

/-- `q` once its parent `cur` has exited. -/
def Proc.orphaned (cur : Slot) (q : Proc) : Proc :=
  { q with parent := if q.parent = some cur then some initproc else q.parent }

namespace Proc

variable {q q' q'' : Proc}

theorem Wakes.refl (q : Proc) : q.Wakes q := Or.inl rfl

theorem Wakes.trans (h : q.Wakes q') (h' : q'.Wakes q'') : q.Wakes q'' := by
  rcases h with rfl | ⟨hsleeping, rfl⟩
  · exact h'
  · rcases h' with rfl | ⟨hstate, _⟩
    · exact Or.inr ⟨hsleeping, rfl⟩
    · simp at hstate

theorem Wakes.state_eq_or (h : q.Wakes q') :
    q'.state = q.state ∨ q.state = .sleeping ∧ q'.state = .runnable := by
  rcases h with rfl | ⟨hsleeping, rfl⟩
  · exact Or.inl rfl
  · exact Or.inr ⟨hsleeping, rfl⟩

theorem orphaned_orphaned (cur : Slot) (q : Proc) :
    (q.orphaned cur).orphaned cur = q.orphaned cur := by
  unfold orphaned
  by_cases h : q.parent = some cur <;> simp [h]

theorem Wakes.of_orphaned {cur : Slot} (h : (q.orphaned cur).Wakes q') :
    ∃ x, q.Wakes x ∧ q' = x.orphaned cur := by
  rcases h with rfl | ⟨hsleeping, rfl⟩
  · exact ⟨q, .refl q, rfl⟩
  · exact ⟨{ q with state := .runnable }, Or.inr ⟨hsleeping, rfl⟩, rfl⟩

end Proc

theorem wakeup1_wakes (chan : Option Chan) (table : Ptable) (p : Slot) :
    (table p).Wakes (wakeup1 chan table p) := by
  unfold wakeup1
  split
  · rename_i h
    exact Or.inr ⟨h.1, rfl⟩
  · exact .refl _

theorem kill_apply (pid : ℤ) (table : Ptable) (q : Slot) :
    (kill pid table).1 q = table q ∨
      killFinds pid table = some q ∧ (kill pid table).1 q = (table q).kill := by
  unfold kill
  split
  · rename_i p hfound
    by_cases hq : q = p
    · subst hq
      exact Or.inr ⟨hfound, Ptable.modify_self _ _ _⟩
    · exact Or.inl (Ptable.modify_of_ne _ _ _ hq)
  · exact Or.inl rfl

@[simp] theorem psTable_state (ticks : BitVec 32) (table : Ptable) (p : Slot) :
    (psTable ticks table p).state = (table p).state := by
  unfold psTable
  split <;> rfl

theorem passToInit_apply (cur : Slot) (table : Ptable) (p q : Slot) :
    ∃ x, (table q).Wakes x ∧
      passToInit cur table p q = if q = p then x.orphaned cur else x := by
  unfold passToInit
  by_cases hparent : (table p).parent = some cur
  · have hpassed : table.modify p (fun q => { q with parent := some initproc }) q =
        if q = p then (table q).orphaned cur else table q := by
      rw [Ptable.modify_apply]
      split
      · rename_i hq
        subst hq
        simp [Proc.orphaned, hparent]
      · rfl
    rw [if_pos hparent]
    split
    · have hwakes := wakeup1_wakes (some (.proc initproc))
        (table.modify p fun q => { q with parent := some initproc }) q
      rw [hpassed] at hwakes
      by_cases hq : q = p
      · simp only [if_pos hq] at hwakes ⊢
        exact hwakes.of_orphaned
      · simp only [if_neg hq] at hwakes ⊢
        exact ⟨_, hwakes, rfl⟩
    · exact ⟨table q, .refl _, hpassed⟩
  · rw [if_neg hparent]
    refine ⟨table q, .refl _, ?_⟩
    split
    · rename_i hq
      subst hq
      simp [Proc.orphaned, hparent]
    · rfl

/-- What the loop of `exit` does to one slot. -/
theorem foldl_passToInit_apply (cur : Slot) (l : List Slot) (table : Ptable) (q : Slot) :
    ∃ x, (table q).Wakes x ∧
      l.foldl (passToInit cur) table q = if q ∈ l then x.orphaned cur else x := by
  induction l generalizing table with
  | nil => exact ⟨table q, .refl _, rfl⟩
  | cons p rest ih =>
      obtain ⟨x, hx, hp⟩ := passToInit_apply cur table p q
      obtain ⟨y, hy, hrest⟩ := ih (passToInit cur table p)
      rw [List.foldl_cons, hrest]
      rw [hp] at hy
      by_cases hq : q = p
      · rw [if_pos hq] at hy
        obtain ⟨z, hz, rfl⟩ := hy.of_orphaned
        refine ⟨z, hx.trans hz, ?_⟩
        rw [Proc.orphaned_orphaned, ite_self, if_pos (by simp [hq])]
      · rw [if_neg hq] at hy
        refine ⟨y, hx.trans hy, ?_⟩
        simp [hq]

theorem exitTable_of_ne {cur q : Slot} (ticks : BitVec 32) (table : Ptable) (h : q ≠ cur) :
    ∃ x, (table q).Wakes x ∧ exitTable cur ticks table q = x.orphaned cur := by
  obtain ⟨x, hx, hq⟩ := foldl_passToInit_apply cur slots
    (wakeup1 ((table cur).parent.map .proc) table) q
  refine ⟨x, (wakeup1_wakes _ _ _).trans hx, ?_⟩
  rw [exitTable, Ptable.modify_of_ne _ _ _ h, hq, if_pos (mem_slots q)]

theorem exitTable_self (cur : Slot) (ticks : BitVec 32) (table : Ptable) :
    ∃ x, (table cur).Wakes x ∧
      exitTable cur ticks table cur = { x.orphaned cur with etime := ticks, state := .zombie } := by
  obtain ⟨x, hx, hcur⟩ := foldl_passToInit_apply cur slots
    (wakeup1 ((table cur).parent.map .proc) table) cur
  refine ⟨x, (wakeup1_wakes _ _ _).trans hx, ?_⟩
  rw [exitTable, Ptable.modify_self, hcur, if_pos (mem_slots cur)]

end Xv6
