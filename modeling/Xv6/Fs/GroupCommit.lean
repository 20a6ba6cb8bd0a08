import Mathlib.Data.Finset.Card
import Xv6.Fs.Recovery

/-!
# Transactions of many processes

`begin_op`, `log_write`, `end_op` and `commit()` as the steps of any number of
processes.  What a process does while it holds `log.lock` is one step, and so is
what it reads or writes of the log without the lock: the two tests with which
`log_write` begins, and each write of a commit.

`LogHistory` numbers the operations and the commits, and keeps which operation
has logged which block and which commit has installed it.

`log_write` tests for room before it takes the lock.  In a run in which there is
still room when it has the lock (`HasRoom`) the operations are atomic, no block
is written outside the log and no wakeup is lost (`group_commit`).  Two processes
that both test before one of them appends to the log fill it up to its last entry,
and the commit then writes the block after the log (`overflows`).
-/

namespace Xv6

open Transition

/-! ## The log and its users -/

/-- Where a process is in its use of the log. -/
inductive LogPc
  | outside
  | asleep
  | woken
  | working
  | tested (b : ℕ)
  | locking (b : ℕ)
  | commit
  | writeLog (tail : ℕ)
  | writeHead
  | installTrans (tail : ℕ)
  | eraseLog
  | eraseHead
  | finish
  deriving DecidableEq

namespace LogPc

/-- Between `begin_op` and `end_op`. -/
def operates : LogPc → Bool
  | working | tested _ | locking _ => true
  | _ => false

/-- In `end_op` between `log.committing = 1` and `log.committing = 0`. -/
def commits : LogPc → Bool
  | commit | writeLog _ | writeHead | installTrans _ | eraseLog | eraseHead | finish => true
  | _ => false

/-- The commit has written the log or will do so. -/
def writes : LogPc → Bool
  | writeLog _ | writeHead | installTrans _ | eraseLog | eraseHead => true
  | _ => false

/-- After `log.lh.n = 0` in `commit()`. -/
def erased : LogPc → Bool
  | eraseHead | finish => true
  | _ => false

/-- The block that `log_write` was called for. -/
def block : LogPc → Option ℕ
  | tested b | locking b => some b
  | _ => none

/-- The block that `log_write` is about to append. -/
def locks : LogPc → Option ℕ
  | locking b => some b
  | _ => none

/-- The order of the steps of `commit()`, where `n` is `log.lh.n`. -/
def advance (n : ℕ) : LogPc → LogPc
  | commit => if 0 < n then writeLog 0 else finish
  | writeLog tail => if tail < n then writeLog (tail + 1) else writeHead
  | writeHead => installTrans 0
  | installTrans tail => if tail < n then installTrans (tail + 1) else eraseLog
  | eraseLog => eraseHead
  | eraseHead => finish
  | pc => pc

end LogPc

/-- `struct log`, where `lh` is `lh.block[0..lh.n)`, and its users. -/
structure Logging (P : Type) where
  start : ℕ
  size : ℕ
  outstanding : ℕ
  committing : Bool
  lh : List ℕ
  pc : P → LogPc

inductive LogCall (P : Type)
  | beginOp (p : P)
  | logWrite (p : P) (b : ℕ)
  | endOp (p : P)
  | proceed (p : P)
  | kill (p : P)

namespace Logging

/-- The log as `begin_op` sees it. -/
def log {P : Type} (s : Logging P) : Log where
  size := s.size
  outstanding := s.outstanding
  committing := s.committing
  n := s.lh.length

/-- The first test of `log_write`. -/
def full {P : Type} (s : Logging P) : Bool :=
  decide (s.lh.length ≥ LOGSIZE ∨ s.lh.length ≥ s.size - 1)

variable {P : Type} [DecidableEq P] (s : Logging P) (p : P)

def goto (pc : LogPc) : Logging P :=
  { s with pc := Function.update s.pc p pc }

/-- `wakeup(&log)` -/
def wakeup : Logging P :=
  { s with pc := fun q => if s.pc q = .asleep then .woken else s.pc q }

/-- Append the block to the header, if it is not there yet. -/
def absorb {P : Type} (s : Logging P) (b : ℕ) : Logging P :=
  { s with lh := if b ∈ s.lh then s.lh else s.lh ++ [b] }

/-- One round of the loop of `begin_op`. -/
def beginOp : Outcome (Logging P) :=
  if s.pc p = .outside ∨ s.pc p = .woken then
    if s.log.admits then
      .next ({ s with outstanding := s.outstanding + 1 }.goto p .working)
    else .next (s.goto p .asleep)
  else .blocked

/-- `log_write` up to its first test. -/
def logWrite (b : ℕ) : Outcome (Logging P) :=
  if s.pc p = .working then
    if s.full then .panic "too big a transaction" else .next (s.goto p (.tested b))
  else .blocked

/-- `end_op` up to its commit. -/
def endOp : Outcome (Logging P) :=
  if s.pc p = .working then
    if s.committing then .panic "log.committing"
    else if s.outstanding - 1 = 0 then
      .next ({ s with outstanding := 0, committing := true }.goto p .commit)
    else .next ({ s with outstanding := s.outstanding - 1 }.wakeup.goto p .outside)
  else .blocked

/-- What a process does next in `log_write`, or in `end_op` when it commits. -/
def proceed : Outcome (Logging P) :=
  match s.pc p with
  | .outside | .asleep | .woken | .working => .blocked
  | .tested b =>
      if s.outstanding < 1 then .panic "log_write outside of trans"
      else .next (s.goto p (.locking b))
  | .locking b => .next ((s.absorb b).goto p .working)
  | .eraseLog => .next ({ s with lh := [] }.goto p .eraseHead)
  | .finish => .next ({ s with committing := false }.wakeup.goto p .outside)
  | pc => .next (s.goto p (pc.advance s.lh.length))

/-- `kill` makes a sleeper runnable, which then tests again. -/
def kill : Outcome (Logging P) :=
  if s.pc p = .asleep then .next (s.goto p .woken) else .blocked

def step : LogCall P → Outcome (Logging P)
  | .beginOp p => s.beginOp p
  | .logWrite p b => s.logWrite p b
  | .endOp p => s.endOp p
  | .proceed p => s.proceed p
  | .kill p => s.kill p

/-- The log after `recover_from_log`. -/
def boot (P : Type) (start size : ℕ) : Logging P where
  start := start
  size := size
  outstanding := 0
  committing := false
  lh := []
  pc _ := .outside

end Logging

/-! ## The history of a run -/

/-- The operations that have begun, each with the number of commits that were done
before it, and for each process its last one; the commits that are done; and the
pairs of an operation and a block that it has logged, of a commit and a block that
it has installed, and the blocks of the log that were written. -/
structure LogHistory (P : Type) where
  ops : ℕ
  op : P → ℕ
  window : ℕ → ℕ
  commits : ℕ
  logged : List (ℕ × ℕ)
  installed : List (ℕ × ℕ)
  written : List ℕ

namespace LogHistory

def boot (P : Type) : LogHistory P where
  ops := 0
  op _ := 0
  window _ := 0
  commits := 0
  logged := []
  installed := []
  written := []

variable {P : Type} [DecidableEq P] (h : LogHistory P)

def begin (p : P) : LogHistory P :=
  { h with
    ops := h.ops + 1
    op := Function.update h.op p h.ops
    window := Function.update h.window h.ops h.commits }

/-- What a step of a process adds, which is at `pc` before it. -/
def proceed {P : Type} (h : LogHistory P) (s : Logging P) (p : P) : LogHistory P :=
  match s.pc p with
  | .locking b => { h with logged := h.logged ++ [(h.op p, b)] }
  | .writeLog tail =>
      if tail < s.lh.length then { h with written := h.written ++ [s.start + tail + 1] } else h
  | .writeHead | .eraseHead => { h with written := h.written ++ [s.start] }
  | .installTrans tail =>
      match s.lh[tail]? with
      | some b => { h with installed := h.installed ++ [(h.commits, b)] }
      | none => h
  | .finish => { h with commits := h.commits + 1 }
  | _ => h

def record (s : Logging P) : LogCall P → Logging P → LogHistory P
  | .beginOp p, t => if (t.pc p).operates then h.begin p else h
  | .proceed p, _ => h.proceed s p
  | _, _ => h

end LogHistory

/-! ## The steps -/

namespace LogPc

theorem commits_of_erased {pc : LogPc} (h : pc.erased = true) : pc.commits = true := by
  cases pc <;> simp [erased, commits] at h ⊢

theorem not_erased {pc : LogPc} (h : pc.commits = false) : pc.erased = false := by
  cases pc <;> simp [erased, commits] at h ⊢

theorem commits_of_writes {pc : LogPc} (h : pc.writes = true) : pc.commits = true := by
  cases pc <;> simp [writes, commits] at h ⊢

theorem not_commits_of_operates {pc : LogPc} (h : pc.operates = true) : pc.commits = false := by
  cases pc <;> simp [operates, commits] at h ⊢

theorem commits_advance {pc : LogPc} (h : pc.commits = true) (n : ℕ) :
    (pc.advance n).commits = true := by
  cases pc <;> grind [advance, commits]

theorem writes_advance {pc : LogPc} {n : ℕ} (h : (pc.advance n).writes = true) :
    pc.writes = true ∨ 0 < n := by
  cases pc <;> grind [advance, writes]

theorem block_of_not_operates {pc : LogPc} (h : pc.operates = false) : pc.block = none := by
  cases pc <;> simp [operates, block] at h ⊢

theorem not_operates_of_commits {pc : LogPc} (h : pc.commits = true) : pc.operates = false := by
  cases pc <;> simp [operates, commits] at h ⊢

/-- Where there is nothing to write, the log is empty already. -/
theorem erased_advance {pc : LogPc} {n : ℕ} (herase : pc ≠ eraseLog)
    (h : (pc.advance n).erased = true) : pc.erased = true ∨ n = 0 := by
  cases pc <;> grind [advance, erased]

end LogPc

section Steps

variable {P : Type} {s t : Logging P} {a : LogCall P} {p q : P} {b : ℕ}

namespace Logging

@[simp] theorem absorb_pc (s : Logging P) (b : ℕ) : (s.absorb b).pc = s.pc := rfl

@[simp] theorem absorb_outstanding (s : Logging P) (b : ℕ) :
    (s.absorb b).outstanding = s.outstanding := rfl

@[simp] theorem absorb_committing (s : Logging P) (b : ℕ) :
    (s.absorb b).committing = s.committing := rfl

theorem mem_absorb {b' : ℕ} : b' ∈ (s.absorb b).lh ↔ b' ∈ s.lh ∨ b' = b := by
  unfold absorb
  by_cases hb : b ∈ s.lh
  · simp only [if_pos hb]
    constructor
    · exact Or.inl
    · rintro (h | rfl)
      · exact h
      · exact hb
  · simp [hb]

theorem length_le_absorb : s.lh.length ≤ (s.absorb b).lh.length := by
  unfold absorb
  by_cases hb : b ∈ s.lh <;> simp [hb]

theorem nodup_absorb (h : s.lh.Nodup) : (s.absorb b).lh.Nodup := by
  unfold absorb
  by_cases hb : b ∈ s.lh
  · simpa [hb] using h
  · simp only [if_neg hb]
    exact h.append (List.nodup_singleton b) (List.disjoint_singleton.mpr hb)

/-- A sleeper is the only one whom `wakeup` moves. -/
theorem wakeup_pc (s : Logging P) (q : P) :
    s.wakeup.pc q = s.pc q ∨ s.pc q = .asleep ∧ s.wakeup.pc q = .woken := by
  unfold wakeup
  by_cases hq : s.pc q = .asleep
  · exact Or.inr ⟨hq, if_pos hq⟩
  · exact Or.inl (if_neg hq)

theorem wakeup_ne_asleep (s : Logging P) (q : P) : s.wakeup.pc q ≠ .asleep := by
  rcases s.wakeup_pc q with h | ⟨-, h⟩
  · intro hasleep
    rw [h] at hasleep
    simp [wakeup, hasleep] at h
  · simp [h]

@[simp] theorem wakeup_committing (s : Logging P) : s.wakeup.committing = s.committing := rfl

@[simp] theorem wakeup_outstanding (s : Logging P) : s.wakeup.outstanding = s.outstanding := rfl

@[simp] theorem wakeup_lh (s : Logging P) : s.wakeup.lh = s.lh := rfl

/-- `wakeup` changes nothing that tells an operation or a commit. -/
@[simp] theorem operates_wakeup (s : Logging P) (q : P) :
    (s.wakeup.pc q).operates = (s.pc q).operates := by
  rcases s.wakeup_pc q with h | ⟨hq, h⟩
  · rw [h]
  · rw [h, hq]
    rfl

@[simp] theorem block_wakeup (s : Logging P) (q : P) :
    (s.wakeup.pc q).block = (s.pc q).block := by
  rcases s.wakeup_pc q with h | ⟨hq, h⟩
  · rw [h]
  · rw [h, hq]
    rfl

@[simp] theorem commits_wakeup (s : Logging P) (q : P) :
    (s.wakeup.pc q).commits = (s.pc q).commits := by
  rcases s.wakeup_pc q with h | ⟨hq, h⟩
  · rw [h]
  · rw [h, hq]
    rfl

@[simp] theorem erased_wakeup (s : Logging P) (q : P) :
    (s.wakeup.pc q).erased = (s.pc q).erased := by
  rcases s.wakeup_pc q with h | ⟨hq, h⟩
  · rw [h]
  · rw [h, hq]
    rfl

variable [DecidableEq P]

@[simp] theorem goto_pc (s : Logging P) (p : P) (pc : LogPc) :
    (s.goto p pc).pc = Function.update s.pc p pc := rfl

@[simp] theorem goto_outstanding (s : Logging P) (p : P) (pc : LogPc) :
    (s.goto p pc).outstanding = s.outstanding := rfl

@[simp] theorem goto_committing (s : Logging P) (p : P) (pc : LogPc) :
    (s.goto p pc).committing = s.committing := rfl

@[simp] theorem goto_lh (s : Logging P) (p : P) (pc : LogPc) : (s.goto p pc).lh = s.lh := rfl

@[simp] theorem goto_size (s : Logging P) (p : P) (pc : LogPc) :
    (s.goto p pc).size = s.size := rfl

@[simp] theorem goto_start (s : Logging P) (p : P) (pc : LogPc) :
    (s.goto p pc).start = s.start := rfl

@[simp] theorem goto_log (s : Logging P) (p : P) (pc : LogPc) : (s.goto p pc).log = s.log := rfl

end Logging

variable [DecidableEq P]

/-- What a step does. -/
inductive LogStep (s : Logging P) : LogCall P → Logging P → Prop
  | enter (p : P) (hpc : s.pc p = .outside ∨ s.pc p = .woken) (hadmits : s.log.admits = true) :
      LogStep s (.beginOp p) ({ s with outstanding := s.outstanding + 1 }.goto p .working)
  | sleep (p : P) (hpc : s.pc p = .outside ∨ s.pc p = .woken) (hadmits : s.log.admits ≠ true) :
      LogStep s (.beginOp p) (s.goto p .asleep)
  | call (p : P) (b : ℕ) (hpc : s.pc p = .working) (hfull : s.full ≠ true) :
      LogStep s (.logWrite p b) (s.goto p (.tested b))
  | check (p : P) (b : ℕ) (hpc : s.pc p = .tested b) :
      LogStep s (.proceed p) (s.goto p (.locking b))
  | absorb (p : P) (b : ℕ) (hpc : s.pc p = .locking b) :
      LogStep s (.proceed p) ((s.absorb b).goto p .working)
  | leave (p : P) (hpc : s.pc p = .working) (hidle : s.committing ≠ true)
      (hmore : s.outstanding - 1 ≠ 0) :
      LogStep s (.endOp p) ({ s with outstanding := s.outstanding - 1 }.wakeup.goto p .outside)
  | last (p : P) (hpc : s.pc p = .working) (hidle : s.committing ≠ true)
      (hlast : s.outstanding - 1 = 0) :
      LogStep s (.endOp p) ({ s with outstanding := 0, committing := true }.goto p .commit)
  | erase (p : P) (hpc : s.pc p = .eraseLog) :
      LogStep s (.proceed p) ({ s with lh := [] }.goto p .eraseHead)
  | advance (p : P) (hcommits : (s.pc p).commits = true) (herase : s.pc p ≠ .eraseLog)
      (hfinish : s.pc p ≠ .finish) :
      LogStep s (.proceed p) (s.goto p ((s.pc p).advance s.lh.length))
  | finish (p : P) (hpc : s.pc p = .finish) :
      LogStep s (.proceed p) ({ s with committing := false }.wakeup.goto p .outside)
  | kill (p : P) (hpc : s.pc p = .asleep) : LogStep s (.kill p) (s.goto p .woken)

theorem Logging.logStep (hstep : s.step a = .next t) : LogStep s a t := by
  cases a with
  | beginOp p =>
      simp only [step, beginOp] at hstep
      split at hstep
      · rename_i hpc
        split at hstep
        · rename_i hadmits
          obtain rfl := Outcome.next.inj hstep
          exact .enter p hpc hadmits
        · rename_i hadmits
          obtain rfl := Outcome.next.inj hstep
          exact .sleep p hpc hadmits
      · simp at hstep
  | logWrite p b =>
      simp only [step, logWrite] at hstep
      split at hstep
      · rename_i hpc
        split at hstep
        · simp at hstep
        · rename_i hfull
          obtain rfl := Outcome.next.inj hstep
          exact .call p b hpc hfull
      · simp at hstep
  | endOp p =>
      simp only [step, endOp] at hstep
      split at hstep
      · rename_i hpc
        split at hstep
        · simp at hstep
        · rename_i hidle
          split at hstep
          · rename_i hlast
            obtain rfl := Outcome.next.inj hstep
            exact .last p hpc hidle hlast
          · rename_i hmore
            obtain rfl := Outcome.next.inj hstep
            exact .leave p hpc hidle hmore
      · simp at hstep
  | proceed p =>
      simp only [step, proceed] at hstep
      cases hpc : s.pc p with
      | outside => simp [hpc] at hstep
      | asleep => simp [hpc] at hstep
      | woken => simp [hpc] at hstep
      | working => simp [hpc] at hstep
      | tested b =>
          rw [hpc] at hstep
          dsimp only at hstep
          split at hstep
          · simp at hstep
          · obtain rfl := Outcome.next.inj hstep
            exact .check p b hpc
      | locking b =>
          rw [hpc] at hstep
          obtain rfl := Outcome.next.inj hstep
          exact .absorb p b hpc
      | eraseLog =>
          rw [hpc] at hstep
          obtain rfl := Outcome.next.inj hstep
          exact .erase p hpc
      | finish =>
          rw [hpc] at hstep
          obtain rfl := Outcome.next.inj hstep
          exact .finish p hpc
      | _ =>
          rw [hpc] at hstep
          obtain rfl := Outcome.next.inj hstep
          rw [← hpc]
          exact .advance p (by simp [hpc, LogPc.commits]) (by simp [hpc]) (by simp [hpc])
  | kill p =>
      simp only [step, kill] at hstep
      split at hstep
      · rename_i hpc
        obtain rfl := Outcome.next.inj hstep
        exact .kill p hpc
      · simp at hstep

theorem LogStep.start_eq (hstep : LogStep s a t) : t.start = s.start := by
  cases hstep <;> rfl

theorem LogStep.size_eq (hstep : LogStep s a t) : t.size = s.size := by
  cases hstep <;> rfl

/-! ## The invariant -/

/-- As many operations are at work as `log.outstanding` says. -/
def Logging.Counted {P : Type} (s : Logging P) : Prop :=
  ∃ ops : Finset P, (∀ p, p ∈ ops ↔ (s.pc p).operates = true) ∧ ops.card = s.outstanding

namespace Logging.Counted

omit [DecidableEq P] in
theorem congr (h : s.Counted) (hpc : ∀ q, (t.pc q).operates = (s.pc q).operates)
    (hout : t.outstanding = s.outstanding) : t.Counted := by
  obtain ⟨ops, hops, hcard⟩ := h
  exact ⟨ops, fun q => by rw [hops, hpc], by rw [hcard, hout]⟩

omit [DecidableEq P] in
theorem pos (h : s.Counted) (hp : (s.pc p).operates = true) : 0 < s.outstanding := by
  obtain ⟨ops, hops, hcard⟩ := h
  rw [← hcard]
  exact Finset.card_pos.mpr ⟨p, (hops p).mpr hp⟩

theorem insert (h : s.Counted) (hp : (s.pc p).operates = false)
    (ht : ∀ q, (t.pc q).operates = true ↔ q = p ∨ (s.pc q).operates = true)
    (hout : t.outstanding = s.outstanding + 1) : t.Counted := by
  obtain ⟨ops, hops, hcard⟩ := h
  have hnew : p ∉ ops := by simp [hops, hp]
  refine ⟨Insert.insert p ops, fun q => ?_, ?_⟩
  · rw [Finset.mem_insert, hops, ht]
  · rw [Finset.card_insert_of_notMem hnew, hcard, hout]

theorem erase (h : s.Counted) (hp : (s.pc p).operates = true)
    (ht : ∀ q, (t.pc q).operates = true ↔ q ≠ p ∧ (s.pc q).operates = true)
    (hout : t.outstanding = s.outstanding - 1) : t.Counted := by
  obtain ⟨ops, hops, hcard⟩ := h
  refine ⟨ops.erase p, fun q => ?_, ?_⟩
  · rw [Finset.mem_erase, hops, ht]
  · rw [Finset.card_erase_of_mem ((hops p).mpr hp), hcard, hout]

end Logging.Counted

/-- What is the same of the old and of the new place of a process is so of all. -/
theorem apply_update {β : Type} {f : LogPc → β} {pc : LogPc} (h : f pc = f (s.pc p)) (q : P) :
    f (Function.update s.pc p pc q) = f (s.pc q) := by
  by_cases hq : q = p
  · subst hq
    rw [Function.update_self, h]
  · rw [Function.update_of_ne hq]

theorem LogStep.counted (hstep : LogStep s a t) (h : s.Counted) : t.Counted := by
  cases hstep with
  | enter p hpc hadmits =>
      refine h.insert (p := p) ?_ (fun q => ?_) rfl
      · rcases hpc with hpc | hpc <;> simp [hpc, LogPc.operates]
      · by_cases hq : q = p
        · simp [hq, LogPc.operates]
        · simp [hq]
  | leave p hpc hidle hmore =>
      refine h.erase (p := p) (by simp [hpc, LogPc.operates]) (fun q => ?_) rfl
      by_cases hq : q = p
      · simp [hq, LogPc.operates]
      · simp only [Logging.goto_pc, Function.update_of_ne hq, Logging.operates_wakeup]
        simp [hq]
  | last p hpc hidle hlast =>
      refine h.erase (p := p) (by simp [hpc, LogPc.operates]) (fun q => ?_) hlast.symm
      by_cases hq : q = p
      · simp [hq, LogPc.operates]
      · simp [hq]
  | finish p hpc =>
      refine h.congr (fun q => ?_) rfl
      by_cases hq : q = p
      · simp [hq, hpc, LogPc.operates]
      · simp only [Logging.goto_pc, Function.update_of_ne hq, Logging.operates_wakeup]
  | advance p hcommits herase hfinish =>
      refine h.congr (apply_update ?_) rfl
      have hafter := LogPc.commits_advance hcommits s.lh.length
      grind [LogPc.not_commits_of_operates]
  | sleep p hpc hadmits =>
      refine h.congr (apply_update ?_) rfl
      rcases hpc with hpc | hpc <;> rw [hpc] <;> rfl
  | call p b hpc | check p b hpc | absorb p b hpc | erase p hpc | kill p hpc =>
      exact h.congr (apply_update (by simp [hpc, LogPc.operates])) rfl

/-- Commits begin in `end_op` and end with `log.committing = 0`. -/
theorem LogStep.commits (hstep : LogStep s a t) :
    (t.committing = s.committing ∧ ∀ q, (t.pc q).commits = (s.pc q).commits) ∨
      (s.committing = false ∧ t.committing = true ∧
        ∃ p, ∀ q, (t.pc q).commits = true → q = p ∨ (s.pc q).commits = true) ∨
      (t.committing = false ∧ ∃ p, s.pc p = .finish ∧
        ∀ q, (t.pc q).commits = true → q ≠ p ∧ (s.pc q).commits = true) := by
  cases hstep with
  | last p hpc hidle hlast =>
      refine Or.inr (Or.inl ⟨by simpa using hidle, rfl, p, fun q hq => ?_⟩)
      by_cases hqp : q = p
      · exact Or.inl hqp
      · exact Or.inr (by simpa [hqp] using hq)
  | finish p hpc =>
      refine Or.inr (Or.inr ⟨rfl, p, hpc, fun q hq => ?_⟩)
      by_cases hqp : q = p
      · simp [hqp, LogPc.commits] at hq
      · exact ⟨hqp, by simpa [hqp] using hq⟩
  | leave p hpc hidle hmore =>
      refine Or.inl ⟨rfl, fun q => ?_⟩
      by_cases hq : q = p
      · simp [hq, hpc, LogPc.commits]
      · simp [hq]
  | advance p hcommits herase hfinish =>
      exact Or.inl ⟨rfl, apply_update (by rw [LogPc.commits_advance hcommits, hcommits])⟩
  | enter p hpc | sleep p hpc =>
      refine Or.inl ⟨rfl, apply_update (f := LogPc.commits) ?_⟩
      rcases hpc with hpc | hpc <;> simp [hpc, LogPc.commits]
  | call p b hpc | check p b hpc | absorb p b hpc | erase p hpc | kill p hpc =>
      exact Or.inl ⟨rfl, apply_update (by simp [hpc, LogPc.commits])⟩

structure Logging.Inv {P : Type} (s : Logging P) : Prop where
  counted : s.Counted
  committing : ∀ p, (s.pc p).commits = true → s.committing = true
  committer : ∀ p q, (s.pc p).commits = true → (s.pc q).commits = true → p = q
  alone : s.committing = true → s.outstanding = 0
  empty : s.outstanding = 0 → s.committing = false → s.lh = []
  erased : ∀ p, (s.pc p).erased = true → s.lh = []
  nodup : s.lh.Nodup
  awake : s.log.admits = true → ∀ p, s.pc p ≠ .asleep


namespace Logging.Inv

theorem committing_step (h : s.Inv) (hstep : LogStep s a t) (hq : (t.pc q).commits = true) :
    t.committing = true := by
  rcases hstep.commits with ⟨hsame, hpc⟩ | ⟨-, hcommitting, -⟩ | ⟨-, p, hp, hpc⟩
  · rw [hsame]
    exact h.committing q (by rw [← hpc, hq])
  · exact hcommitting
  · -- whoever is left would have been a second committer
    obtain ⟨hne, hbefore⟩ := hpc q hq
    exact absurd (h.committer q p hbefore (by simp [hp, LogPc.commits])) hne

theorem committer_step (h : s.Inv) (hstep : LogStep s a t) (hp : (t.pc p).commits = true)
    (hq : (t.pc q).commits = true) : p = q := by
  rcases hstep.commits with ⟨-, hpc⟩ | ⟨hidle, -, r, hpc⟩ | ⟨-, r, hr, hpc⟩
  · exact h.committer p q (by rw [← hpc, hp]) (by rw [← hpc, hq])
  · -- there was no committer before the first one
    have hnone : ∀ q, (s.pc q).commits ≠ true := fun q hq => by
      have hcommitting := h.committing q hq
      simp [hidle] at hcommitting
    rw [(hpc p hp).resolve_right (hnone p), (hpc q hq).resolve_right (hnone q)]
  · exact h.committer p q (hpc p hp).2 (hpc q hq).2

omit [DecidableEq P] in
theorem not_committing (h : s.Inv) (hp : (s.pc p).operates = true) : s.committing = false := by
  by_contra hcommitting
  have hpos := h.counted.pos hp
  have hnone := h.alone (by simpa using hcommitting)
  omega

omit [DecidableEq P] in
theorem others (h : s.Inv) (hp : (s.pc p).commits = true) (q : P) (hq : q ≠ p) :
    (s.pc q).commits = false := by
  by_contra hcommits
  exact hq (h.committer q p (by simpa using hcommits) hp)

theorem alone_step (h : s.Inv) (hstep : LogStep s a t) (hcommitting : t.committing = true) :
    t.outstanding = 0 := by
  cases hstep with
  | enter p hpc hadmits =>
      have hidle := (Log.admits_iff.mp hadmits).1
      have hcommitting : s.committing = true := hcommitting
      simp [Logging.log, hcommitting] at hidle
  | leave p hpc hidle hmore => exact absurd hcommitting hidle
  | last p hpc hidle hlast => rfl
  | finish p hpc => exact absurd hcommitting (by simp)
  | sleep p | call p b | check p b | absorb p b | erase p | advance p | kill p =>
      exact h.alone hcommitting

theorem empty_step (h : s.Inv) (hstep : LogStep s a t) (hout : t.outstanding = 0)
    (hidle : t.committing = false) : t.lh = [] := by
  cases hstep with
  | enter p hpc hadmits => simp at hout
  | leave p hpc hbefore hmore => exact absurd hout hmore
  | last p hpc hbefore hlast => simp at hidle
  | finish p hpc => exact h.erased p (by simp [hpc, LogPc.erased])
  | erase p hpc => rfl
  | absorb p b hpc =>
      have hpos := h.counted.pos (p := p) (by simp [hpc, LogPc.operates])
      have hout : s.outstanding = 0 := hout
      omega
  | sleep p | call p b | check p b | advance p | kill p => exact h.empty hout hidle

/-- A commit comes to where the log is empty, or empties it. -/
theorem erased_or_empty (hstep : LogStep s a t) (hq : (t.pc q).erased = true) :
    (s.pc q).erased = true ∨ t.lh = [] := by
  have hmoved : ∀ {p : P} {pc : LogPc}, pc.erased = false →
      (Function.update s.pc p pc q).erased = true → (s.pc q).erased = true := by
    intro p pc hpc hafter
    by_cases hqp : q = p
    · simp [hqp, hpc] at hafter
    · simpa [hqp] using hafter
  cases hstep with
  | erase p hpc => exact Or.inr rfl
  | advance p hcommits herase hfinish =>
      by_cases hqp : q = p
      · subst hqp
        refine (LogPc.erased_advance (n := s.lh.length) herase ?_).imp_right fun hlength => ?_
        · simpa using hq
        · exact List.eq_nil_of_length_eq_zero hlength
      · exact Or.inl (by simpa [hqp] using hq)
  | leave p hpc hidle hmore | finish p hpc =>
      by_cases hqp : q = p
      · simp [hqp, LogPc.erased] at hq
      · exact Or.inl (by simpa [hqp] using hq)
  | enter p | sleep p | call p b | check p b | absorb p b | last p | kill p =>
      exact Or.inl (hmoved rfl hq)

theorem erased_step (h : s.Inv) (hstep : LogStep s a t) (hq : (t.pc q).erased = true) :
    t.lh = [] := by
  rcases erased_or_empty hstep hq with hbefore | hempty
  · have hnil := h.erased q hbefore
    cases hstep with
    | absorb p b hpc =>
        -- nothing is logged during a commit
        have hidle := h.not_committing (p := p) (by simp [hpc, LogPc.operates])
        rw [h.committing q (LogPc.commits_of_erased hbefore)] at hidle
        simp at hidle
    | erase p => rfl
    | _ => exact hnil
  · exact hempty

theorem awake_step (h : s.Inv) (hstep : LogStep s a t) (hadmits : t.log.admits = true) (q : P) :
    t.pc q ≠ .asleep := by
  have hmoved : ∀ {p : P} {pc : LogPc}, pc ≠ .asleep → s.log.admits = true →
      Function.update s.pc p pc q ≠ .asleep := by
    intro p pc hpc hbefore
    by_cases hqp : q = p
    · simpa [hqp] using hpc
    · simpa [hqp] using h.awake hbefore q
  cases hstep with
  | sleep p hpc hbefore => exact absurd hadmits hbefore
  | last p hpc => simp [Log.admits, Logging.log] at hadmits
  | leave p hpc | finish p hpc =>
      by_cases hqp : q = p
      · simp [hqp]
      · simpa [hqp] using Logging.wakeup_ne_asleep _ q
  | enter p hpc hbefore => exact hmoved (by simp) hbefore
  | absorb p b hpc =>
      refine hmoved (by simp) ?_
      -- the log grows, so what fits now has fitted before
      obtain ⟨hidle, hroom⟩ := Log.admits_iff.mp hadmits
      have hlength := Logging.length_le_absorb (s := s) (b := b)
      have hbefore : s.lh.length + (s.outstanding + 1) * MAXOPBLOCKS ≤ LOGSIZE :=
        le_trans (Nat.add_le_add_right hlength _) hroom
      exact Log.admits_iff.mpr ⟨hidle, hbefore⟩
  | erase p hpc =>
      have hcommitting := h.committing p (by simp [hpc, LogPc.commits])
      have hidle := (Log.admits_iff.mp hadmits).1
      simp [Logging.log, hcommitting] at hidle
  | advance p hcommits herase hfinish =>
      refine hmoved ?_ hadmits
      have hafter := LogPc.commits_advance hcommits s.lh.length
      intro hasleep
      simp [hasleep, LogPc.commits] at hafter
  | call p b hpc | check p b hpc | kill p hpc => exact hmoved (by simp) hadmits

theorem step (h : s.Inv) (hstep : LogStep s a t) : t.Inv where
  counted := hstep.counted h.counted
  committing _ := h.committing_step hstep
  committer _ _ := h.committer_step hstep
  alone := h.alone_step hstep
  empty := h.empty_step hstep
  erased _ := h.erased_step hstep
  nodup := by
    cases hstep with
    | absorb p b hpc => exact Logging.nodup_absorb h.nodup
    | erase p hpc => exact List.nodup_nil
    | _ => exact h.nodup
  awake := h.awake_step hstep

end Logging.Inv

/-! ## What is installed -/

/-- What the commit has installed when it is there. -/
def LogHistory.Stage {P : Type} (h : LogHistory P) (lh : List ℕ) : LogPc → Prop
  | .installTrans tail => ∀ i < tail, ∀ b, lh[i]? = some b → (h.commits, b) ∈ h.installed
  | .eraseLog => ∀ b ∈ lh, (h.commits, b) ∈ h.installed
  | .eraseHead | .finish => ∀ o b, (o, b) ∈ h.logged → h.window o = h.commits →
      (h.commits, b) ∈ h.installed
  | _ => True

/-- The blocks that operations have logged are in the log, and after the commit
they are installed. -/
structure LogHistory.Inv {P : Type} (s : Logging P) (h : LogHistory P) : Prop where
  logged_lt : ∀ o b, (o, b) ∈ h.logged → o < h.ops
  window_le : ∀ o < h.ops, h.window o ≤ h.commits
  current : ∀ p, (s.pc p).operates = true → h.op p < h.ops ∧ h.window (h.op p) = h.commits
  kept : (∀ p, (s.pc p).erased = false) → ∀ o b, (o, b) ∈ h.logged →
    h.window o = h.commits → b ∈ s.lh
  source : ∀ b ∈ s.lh, ∃ o, (o, b) ∈ h.logged ∧ h.window o = h.commits
  stage : ∀ p, h.Stage s.lh (s.pc p)
  done : ∀ o b, (o, b) ∈ h.logged → h.window o < h.commits → (h.window o, b) ∈ h.installed

namespace LogHistory

variable {h : LogHistory P} {lh : List ℕ} {pc : LogPc}

omit [DecidableEq P] in
theorem stage_of_not_commits (hpc : pc.commits = false) : h.Stage lh pc := by
  cases pc <;> simp [LogPc.commits, Stage] at hpc ⊢

namespace Inv

omit [DecidableEq P] in
/-- A step that leaves the log and the commit as they are. -/
theorem quiet (hh : h.Inv s) (hlh : t.lh = s.lh)
    (hop : ∀ q, (t.pc q).operates = true → (s.pc q).operates = true)
    (herased : ∀ q, (s.pc q).erased = true → (t.pc q).erased = true)
    (hstage : ∀ q, h.Stage s.lh (t.pc q)) : h.Inv t where
  logged_lt := hh.logged_lt
  window_le := hh.window_le
  current p hp := hh.current p (hop p hp)
  kept hnone o b hb hwindow := by
    rw [hlh]
    refine hh.kept (fun p => ?_) o b hb hwindow
    by_contra hp
    have hafter := herased p (by simpa using hp)
    simp [hnone p] at hafter
  source := by
    rw [hlh]
    exact hh.source
  stage p := by
    rw [hlh]
    exact hstage p
  done := hh.done

theorem goto (hh : h.Inv s) (hop : pc.operates = true → (s.pc p).operates = true)
    (herased : (s.pc p).erased = true → pc.erased = true) (hstage : h.Stage s.lh pc) :
    h.Inv (s.goto p pc) := by
  refine hh.quiet rfl ?_ ?_ ?_
  · exact (Function.forall_update_iff _ fun q pc => LogPc.operates pc = true → _).mpr
      ⟨hop, fun _ _ => id⟩
  · exact (Function.forall_update_iff _ fun q pc => _ → LogPc.erased pc = true).mpr
      ⟨herased, fun _ _ => id⟩
  · exact (Function.forall_update_iff _ fun _ pc => h.Stage _ pc).mpr
      ⟨hstage, fun q _ => hh.stage q⟩

omit [DecidableEq P] in
theorem wakeup (hh : h.Inv s) (out : ℕ) : h.Inv ({ s with outstanding := out }.wakeup) := by
  refine hh.quiet rfl (fun q hq => by simpa using hq) (fun q hq => by simpa using hq) fun q => ?_
  rcases Logging.wakeup_pc { s with outstanding := out } q with hsame | ⟨-, hwoken⟩
  · rw [hsame]
    exact hh.stage q
  · rw [hwoken]
    trivial

/-- An operation begins, and nothing is logged for it yet. -/
theorem enter (hh : h.Inv s) (hpc : (s.pc p).erased = false) (out : ℕ) :
    (h.begin p).Inv ({ s with outstanding := out }.goto p .working) := by
  have hwindow : ∀ o, o < h.ops → (h.begin p).window o = h.window o := fun o ho =>
    Function.update_of_ne ho.ne _ _
  have hlogged : ∀ o b, (o, b) ∈ h.logged → (h.begin p).window o = h.window o := fun o b hb =>
    hwindow o (hh.logged_lt o b hb)
  constructor
  case logged_lt => exact fun o b hb => (hh.logged_lt o b hb).trans (Nat.lt_succ_self _)
  case window_le =>
    intro o ho
    by_cases hnew : o = h.ops
    · rw [hnew]
      exact (Function.update_self ..).le
    · have ho : o < h.ops + 1 := ho
      rw [hwindow o (by omega)]
      exact hh.window_le o (by omega)
  case current =>
    refine (Function.forall_update_iff _ fun q pc => LogPc.operates pc = true → _).mpr
      ⟨fun _ => ?_, ?_⟩
    · simp [begin]
    · intro q hqp hq
      obtain ⟨hlt, hsame⟩ := hh.current q hq
      have hop : (h.begin p).op q = h.op q := Function.update_of_ne hqp _ _
      rw [hop, hwindow _ hlt]
      exact ⟨hlt.trans (Nat.lt_succ_self _), hsame⟩
  case kept =>
    intro hnone o b hb hsame
    rw [hlogged o b hb] at hsame
    refine hh.kept (fun q => ?_) o b hb hsame
    by_cases hqp : q = p
    · rw [hqp, hpc]
    · simpa [hqp] using hnone q
  case source =>
    intro b hb
    obtain ⟨o, ho, hsame⟩ := hh.source b hb
    exact ⟨o, ho, by rw [hlogged o b ho, hsame]; rfl⟩
  case stage =>
    refine (Function.forall_update_iff _ fun _ pc => (h.begin p).Stage s.lh pc).mpr
      ⟨trivial, fun q _ => ?_⟩
    have hold := hh.stage q
    cases hq : s.pc q <;> rw [hq] at hold <;> try exact hold
    case eraseHead | finish =>
      intro o b hb hsame
      rw [hlogged o b hb] at hsame
      exact hold o b hb hsame
  case done =>
    intro o b hb hlt
    rw [hlogged o b hb] at hlt ⊢
    exact hh.done o b hb hlt

/-- A block is logged, while nobody commits. -/
theorem absorb (hs : s.Inv) (hh : h.Inv s) (hpc : s.pc p = .locking b) :
    ({ h with logged := h.logged ++ [(h.op p, b)] } : LogHistory P).Inv
      ((s.absorb b).goto p .working) := by
  have hoperates : (s.pc p).operates = true := by rw [hpc]; rfl
  obtain ⟨hlt, hsame⟩ := hh.current p hoperates
  have hidle : ∀ q, (s.pc q).commits = false := by
    intro q
    by_contra hq
    have hcommitting := hs.committing q (by simpa using hq)
    simp [hs.not_committing hoperates] at hcommitting
  have hcases : ∀ {o b'}, (o, b') ∈ h.logged ++ [(h.op p, b)] →
      (o, b') ∈ h.logged ∨ o = h.op p ∧ b' = b := by
    intro o b' hb
    simpa using hb
  constructor
  case logged_lt =>
    intro o b' hb
    rcases hcases hb with hb | ⟨rfl, rfl⟩
    · exact hh.logged_lt o b' hb
    · exact hlt
  case window_le => exact hh.window_le
  case current =>
    exact (Function.forall_update_iff _ fun q pc => LogPc.operates pc = true → _).mpr
      ⟨fun _ => hh.current p hoperates, fun q _ => hh.current q⟩
  case kept =>
    intro _ o b' hb hwindow
    refine Logging.mem_absorb.mpr ?_
    rcases hcases hb with hb | ⟨rfl, rfl⟩
    · exact Or.inl (hh.kept (fun q => LogPc.not_erased (hidle q)) o b' hb hwindow)
    · exact Or.inr rfl
  case source =>
    intro b' hb
    rcases Logging.mem_absorb.mp hb with hb | rfl
    · obtain ⟨o, ho, hwindow⟩ := hh.source b' hb
      exact ⟨o, List.mem_append_left _ ho, hwindow⟩
    · exact ⟨h.op p, by simp, hsame⟩
  case stage =>
    exact (Function.forall_update_iff _ fun _ pc => Stage _ _ pc).mpr
      ⟨trivial, fun q _ => stage_of_not_commits (hidle q)⟩
  case done =>
    intro o b' hb hlater
    rcases hcases hb with hb | ⟨rfl, rfl⟩
    · exact hh.done o b' hb hlater
    · exact absurd hlater (by simp [hsame])

theorem erase (hs : s.Inv) (hh : h.Inv s) (hpc : s.pc p = .eraseLog) :
    h.Inv ({ s with lh := [] }.goto p .eraseHead) := by
  have hothers := hs.others (p := p) (by rw [hpc]; rfl)
  have hwhole : ∀ b ∈ s.lh, (h.commits, b) ∈ h.installed := by
    simpa only [hpc, Stage] using hh.stage p
  constructor
  case logged_lt => exact hh.logged_lt
  case window_le => exact hh.window_le
  case current =>
    exact (Function.forall_update_iff _ fun q pc => LogPc.operates pc = true → _).mpr
      ⟨by simp [LogPc.operates], fun q _ => hh.current q⟩
  case kept =>
    intro hnone
    have herased := hnone p
    simp [LogPc.erased] at herased
  case source => exact fun b hb => absurd hb List.not_mem_nil
  case stage =>
    refine (Function.forall_update_iff _ fun _ pc => h.Stage _ pc).mpr
      ⟨fun o b hb hwindow => hwhole b ?_, fun q hq => stage_of_not_commits (hothers q hq)⟩
    refine hh.kept (fun q => ?_) o b hb hwindow
    by_cases hq : q = p
    · rw [hq, hpc]
      rfl
    · exact LogPc.not_erased (hothers q hq)
  case done => exact hh.done

theorem finish (hs : s.Inv) (hh : h.Inv s) (hpc : s.pc p = .finish) :
    ({ h with commits := h.commits + 1 } : LogHistory P).Inv
      ({ s with committing := false }.wakeup.goto p .outside) := by
  have hcommits : (s.pc p).commits = true := by rw [hpc]; rfl
  have hothers := hs.others hcommits
  constructor
  case logged_lt => exact hh.logged_lt
  case window_le => exact fun o ho => (hh.window_le o ho).trans (Nat.le_succ _)
  case current =>
    refine (Function.forall_update_iff _ fun q pc => LogPc.operates pc = true → _).mpr
      ⟨by simp [LogPc.operates], fun q _ hq => ?_⟩
    rw [Logging.operates_wakeup] at hq
    have hidle := hs.not_committing hq
    simp [hs.committing p hcommits] at hidle
  case kept =>
    intro _ o b hb hwindow
    have hle := hh.window_le o (hh.logged_lt o b hb)
    have hwindow : h.window o = h.commits + 1 := hwindow
    omega
  case source =>
    have hnil := hs.erased p (by rw [hpc]; rfl)
    simp [hnil]
  case stage =>
    refine (Function.forall_update_iff _ fun _ pc => Stage _ _ pc).mpr
      ⟨trivial, fun q hq => stage_of_not_commits ?_⟩
    rw [Logging.commits_wakeup]
    exact hothers q hq
  case done =>
    intro o b hb hlater
    rcases (Nat.lt_succ_iff.mp hlater).lt_or_eq with hearlier | hnow
    · exact hh.done o b hb hearlier
    · -- the commit that ends now has installed the block
      have hinstalled := hh.stage p
      rw [hpc] at hinstalled
      have hwindow : h.window o = h.commits := hnow
      rw [hwindow]
      exact hinstalled o b hb hwindow

omit [DecidableEq P] in
/-- A commit installs more and writes more. -/
theorem extend (hh : h.Inv s) (installed : List (ℕ × ℕ)) (written : List ℕ) :
    ({ h with installed := h.installed ++ installed, written := written } : LogHistory P).Inv s
    where
  logged_lt := hh.logged_lt
  window_le := hh.window_le
  current := hh.current
  kept := hh.kept
  source := hh.source
  stage p := by
    have hstage := hh.stage p
    cases hpc : s.pc p <;> rw [hpc] at hstage <;> try exact trivial
    case installTrans tail =>
      exact fun i hi b hb => List.mem_append_left _ (hstage i hi b hb)
    case eraseLog => exact fun b hb => List.mem_append_left _ (hstage b hb)
    case eraseHead | finish =>
      exact fun o b hb hwindow => List.mem_append_left _ (hstage o b hb hwindow)
  done o b hb hlater := List.mem_append_left _ (hh.done o b hb hlater)

omit [DecidableEq P] in
theorem proceed (hh : h.Inv s) (hcommits : (s.pc p).commits = true) (hfinish : s.pc p ≠ .finish) :
    (h.proceed s p).Inv s := by
  unfold LogHistory.proceed
  split
  · rename_i b hpc
    simp [hpc, LogPc.commits] at hcommits
  · split
    · simpa using hh.extend [] (h.written ++ [_])
    · exact hh
  · simpa using hh.extend [] (h.written ++ [_])
  · simpa using hh.extend [] (h.written ++ [_])
  · split
    · exact hh.extend [_] h.written
    · exact hh
  · exact absurd ‹_› hfinish
  · exact hh

/-- What has been installed when the commit goes on. -/
theorem stage_advance (hs : s.Inv) (hh : h.Inv s) (hcommits : (s.pc p).commits = true)
    (herase : s.pc p ≠ .eraseLog) (hfinish : s.pc p ≠ .finish) :
    (h.proceed s p).Stage s.lh ((s.pc p).advance s.lh.length) := by
  have hstage := hh.stage p
  cases hpc : s.pc p with
  | commit =>
      by_cases hlength : 0 < s.lh.length
      · simp [LogPc.advance, hlength, Stage]
      · -- there is nothing in the log, so nothing was logged
        have hnil : s.lh = [] := List.eq_nil_of_length_eq_zero (by omega)
        have hnone : ∀ q, (s.pc q).erased = false := by
          intro q
          by_cases hq : q = p
          · rw [hq, hpc]
            rfl
          · exact LogPc.not_erased (hs.others hcommits q hq)
        simp only [LogPc.advance, if_neg hlength, LogHistory.proceed, hpc]
        intro o b hb hwindow
        have hmem := hh.kept hnone o b hb hwindow
        simp [hnil] at hmem
  | writeLog tail =>
      simp only [LogPc.advance]
      split <;> trivial
  | writeHead => exact fun i hi => absurd hi (Nat.not_lt_zero i)
  | installTrans tail =>
      rw [hpc] at hstage
      by_cases htail : tail < s.lh.length
      · simp only [LogPc.advance, if_pos htail, LogHistory.proceed, hpc,
          List.getElem?_eq_getElem htail]
        intro i hi b hb
        refine List.mem_append.mpr ?_
        rcases (Nat.lt_succ_iff.mp hi).lt_or_eq with hlt | rfl
        · exact Or.inl (hstage i hlt b hb)
        · rw [List.getElem?_eq_getElem htail] at hb
          obtain rfl := Option.some.inj hb
          exact Or.inr List.mem_cons_self
      · simp only [LogPc.advance, if_neg htail, LogHistory.proceed, hpc,
          List.getElem?_eq_none (not_lt.mp htail)]
        intro b hb
        obtain ⟨i, hi⟩ := List.mem_iff_getElem?.mp hb
        have hlt := (List.getElem?_eq_some_iff.mp hi).1
        exact hstage i (by omega) b hi
  | eraseLog => exact absurd hpc herase
  | eraseHead =>
      rw [hpc] at hstage
      simp only [LogPc.advance, LogHistory.proceed, hpc]
      exact hstage
  | finish => exact absurd hpc hfinish
  | _ => simp [hpc, LogPc.commits] at hcommits

theorem step (hs : s.Inv) (hh : h.Inv s) (hstep : LogStep s a t) : (h.record s a t).Inv t := by
  cases hstep with
  | enter p hpc hadmits =>
      have hrecord : h.record s (.beginOp p)
          ({ s with outstanding := s.outstanding + 1 }.goto p .working) = h.begin p := by
        simp [record, LogPc.operates]
      rw [hrecord]
      refine hh.enter ?_ _
      rcases hpc with hpc | hpc <;> rw [hpc] <;> rfl
  | sleep p hpc hadmits =>
      have hrecord : h.record s (.beginOp p) (s.goto p .asleep) = h := by
        simp [record, LogPc.operates]
      rw [hrecord]
      refine hh.goto (by simp [LogPc.operates]) ?_ trivial
      rcases hpc with hpc | hpc <;> simp [hpc, LogPc.erased]
  | call p b hpc hfull =>
      exact hh.goto (by simp [hpc, LogPc.operates]) (by simp [hpc, LogPc.erased]) trivial
  | check p b hpc =>
      simp only [record, LogHistory.proceed, hpc]
      exact hh.goto (by simp [hpc, LogPc.operates]) (by simp [hpc, LogPc.erased]) trivial
  | absorb p b hpc =>
      simp only [record, LogHistory.proceed, hpc]
      exact hh.absorb hs hpc
  | leave p hpc hidle hmore =>
      refine (hh.wakeup _).goto (by simp [LogPc.operates]) (fun herased => ?_) trivial
      rw [Logging.erased_wakeup] at herased
      simp [hpc, LogPc.erased] at herased
  | last p hpc hidle hlast =>
      have hsame : h.Inv { s with outstanding := 0, committing := true } :=
        hh.quiet rfl (fun _ => id) (fun _ => id) hh.stage
      exact hsame.goto (by simp [LogPc.operates]) (by simp [hpc, LogPc.erased]) trivial
  | erase p hpc =>
      simp only [record, LogHistory.proceed, hpc]
      exact hh.erase hs hpc
  | advance p hcommits herase hfinish =>
      have hafter := LogPc.commits_advance hcommits s.lh.length
      refine (hh.proceed hcommits hfinish).goto (fun hop => ?_) (fun herased => ?_)
        (hh.stage_advance hs hcommits herase hfinish)
      · simp [LogPc.not_commits_of_operates hop] at hafter
      · cases hpc : s.pc p <;> simp [hpc, LogPc.erased, LogPc.advance] at herased hfinish ⊢
  | finish p hpc =>
      simp only [record, LogHistory.proceed, hpc]
      exact hh.finish hs hpc
  | kill p hpc =>
      exact hh.goto (by simp [LogPc.operates]) (by simp [hpc, LogPc.erased]) trivial

end Inv

end LogHistory

/-! ## What is written to the log -/

/-- When `log_write` has the lock, there is still room for the block, or the block is
in the log already. -/
def HasRoom {P : Type} (s : Logging P) : LogCall P → Prop
  | .proceed p => ∀ b ∈ (s.pc p).locks, b ∈ s.lh ∨ s.full = false
  | _ => True

instance {P : Type} (s : Logging P) : DecidablePred (HasRoom s)
  | .proceed p => inferInstanceAs (Decidable (∀ b ∈ (s.pc p).locks, b ∈ s.lh ∨ s.full = false))
  | .beginOp _ | .logWrite _ _ | .endOp _ | .kill _ => isTrue trivial

structure LogHistory.InRoom {P : Type} (start size : ℕ) (s : Logging P) (h : LogHistory P) :
    Prop where
  start_eq : s.start = start
  size_eq : s.size = size
  room : 0 < s.lh.length → s.lh.length < size
  writes : ∀ p, (s.pc p).writes = true → 0 < size
  written : ∀ b ∈ h.written, InLog start size b

namespace LogHistory.InRoom

variable {start size : ℕ} {h : LogHistory P}

theorem room_step (hroom : h.InRoom start size s) (hstep : LogStep s a t) (hfits : HasRoom s a)
    (hlength : 0 < t.lh.length) : t.lh.length < size := by
  cases hstep with
  | absorb p b hpc =>
      rcases hfits b (by rw [hpc]; rfl) with hb | hfull
      · have hsame : (s.absorb b).lh = s.lh := if_pos hb
        simp only [Logging.goto_lh, hsame] at hlength ⊢
        exact hroom.room hlength
      · have hsize := hroom.size_eq
        have hmore : (s.absorb b).lh.length ≤ s.lh.length + 1 := by
          unfold Logging.absorb
          by_cases hb : b ∈ s.lh <;> simp [hb]
        simp only [Logging.full, decide_eq_false_iff_not] at hfull
        simp only [Logging.goto_lh]
        omega
  | erase p hpc => simp at hlength
  | _ => exact hroom.room hlength

theorem writes_step (hroom : h.InRoom start size s) (hstep : LogStep s a t) (q : P)
    (hq : (t.pc q).writes = true) : 0 < size := by
  have hmoved : ∀ {p : P} {pc : LogPc}, (pc.writes = true → 0 < size) →
      (Function.update s.pc p pc q).writes = true → 0 < size := by
    intro p pc hpc hafter
    by_cases hqp : q = p
    · exact hpc (by simpa [hqp] using hafter)
    · exact hroom.writes q (by simpa [hqp] using hafter)
  cases hstep with
  | advance p hcommits herase hfinish =>
      refine hmoved (fun hafter => ?_) hq
      rcases LogPc.writes_advance hafter with hbefore | hpos
      · exact hroom.writes p hbefore
      · have hlt := hroom.room hpos
        omega
  | erase p hpc => exact hroom.writes p (by rw [hpc]; rfl)
  | leave p hpc | finish p hpc =>
      by_cases hqp : q = p
      · simp [hqp, LogPc.writes] at hq
      · simp only [Logging.goto_pc, Function.update_of_ne hqp] at hq
        rcases Logging.wakeup_pc _ q with hsame | ⟨-, hwoken⟩
        · rw [hsame] at hq
          exact hroom.writes q hq
        · rw [hwoken] at hq
          simp [LogPc.writes] at hq
  | _ => exact hmoved (by simp [LogPc.writes]) hq

omit [DecidableEq P] in
theorem written_step (hroom : h.InRoom start size s) (p : P) :
    ∀ b ∈ (h.proceed s p).written, InLog start size b := by
  have happend : ∀ b, InLog start size b → ∀ b' ∈ h.written ++ [b], InLog start size b' := by
    intro b hb b' hmem
    rcases List.mem_append.mp hmem with hmem | hmem
    · exact hroom.written b' hmem
    · rw [List.mem_singleton.mp hmem]
      exact hb
  have hstart := hroom.start_eq
  have hwrites := hroom.writes p
  cases hpc : s.pc p with
  | writeLog tail =>
      simp only [LogHistory.proceed, hpc]
      split
      · rename_i htail
        have hlt := hroom.room (by omega)
        exact happend _ ⟨by omega, by omega⟩
      · exact hroom.written
  | writeHead | eraseHead =>
      simp only [LogHistory.proceed, hpc]
      simp only [hpc, LogPc.writes, true_implies] at hwrites
      exact happend _ ⟨by omega, by omega⟩
  | installTrans tail =>
      simp only [LogHistory.proceed, hpc]
      split <;> exact hroom.written
  | _ => simpa [LogHistory.proceed, hpc] using hroom.written

theorem step (hroom : h.InRoom start size s) (hstep : LogStep s a t) (hfits : HasRoom s a) :
    (h.record s a t).InRoom start size t where
  start_eq := hstep.start_eq.trans hroom.start_eq
  size_eq := hstep.size_eq.trans hroom.size_eq
  room := hroom.room_step hstep hfits
  writes := hroom.writes_step hstep
  written := by
    cases a with
    | beginOp p =>
        simp only [record]
        split <;> exact hroom.written
    | proceed p => exact hroom.written_step p
    | _ => exact hroom.written

end LogHistory.InRoom

end Steps

/-! ## Group commit -/

section Runs

variable {P : Type} [DecidableEq P] {start size : ℕ} {s : Logging P × LogHistory P}

/-- A state and the history that led to it. -/
structure GroupCommit (start size : ℕ) (s : Logging P × LogHistory P) : Prop where
  exclusive : ∀ p q, (s.1.pc p).commits = true → (s.1.pc q).operates = false
  waits : ∀ p q t, (s.1.pc p).commits = true → s.1.step (.beginOp q) = .next t →
    (t.pc q).operates = false
  together : ∀ o b, (o, b) ∈ s.2.logged → s.2.window o < s.2.commits →
    (s.2.window o, b) ∈ s.2.installed
  nodup : s.1.lh.Nodup
  written : ∀ b ∈ s.2.written, InLog start size b
  endOp : ∀ p, (s.1.step (.endOp p)).Safe
  awake : s.1.outstanding = 0 → s.1.committing = false → ∀ p, s.1.pc p ≠ .asleep

/-- The steps of the log with its history. -/
abbrev logTrace : Logging P × LogHistory P → LogCall P → Outcome (Logging P × LogHistory P) :=
  traced Logging.step LogHistory.record

theorem Logging.inv_boot (P : Type) (start size : ℕ) : (Logging.boot P start size).Inv where
  counted := ⟨∅, by simp [Logging.boot, LogPc.operates], rfl⟩
  committing := by simp [Logging.boot, LogPc.commits]
  committer := by simp [Logging.boot, LogPc.commits]
  alone _ := rfl
  empty _ _ := rfl
  erased := by simp [Logging.boot, LogPc.erased]
  nodup := List.nodup_nil
  awake := by simp [Logging.boot]

theorem LogHistory.inv_boot (P : Type) (start size : ℕ) :
    (LogHistory.boot P).Inv (Logging.boot P start size) where
  logged_lt := by simp [LogHistory.boot]
  window_le := by simp [LogHistory.boot]
  current := by simp [Logging.boot, LogPc.operates]
  kept := by simp [LogHistory.boot]
  source := by simp [Logging.boot]
  stage := by simp [Logging.boot, LogHistory.Stage]
  done := by simp [LogHistory.boot]

theorem LogHistory.inRoom_boot (P : Type) (start size : ℕ) :
    (LogHistory.boot P).InRoom start size (Logging.boot P start size) where
  start_eq := rfl
  size_eq := rfl
  room := by simp [Logging.boot]
  writes := by simp [Logging.boot, LogPc.writes]
  written := by simp [LogHistory.boot]

/-- In every run the log and its history keep their invariants. -/
theorem inv_of_logTrace (run : Reaches logTrace (Logging.boot P start size, LogHistory.boot P) s) :
    s.1.Inv ∧ s.2.Inv s.1 := by
  refine run.invariant (I := fun s => s.1.Inv ∧ s.2.Inv s.1)
    ⟨Logging.inv_boot P start size, LogHistory.inv_boot P start size⟩ ?_
  rintro s a t hstep - ⟨hs, hh⟩
  obtain ⟨hlog, hrecord⟩ := traced_eq_next.mp hstep
  rw [hrecord]
  exact ⟨hs.step (Logging.logStep hlog), hh.step hs (Logging.logStep hlog)⟩

theorem inRoom_of_logTrace
    (run : Run logTrace (fun s a _ => HasRoom s.1 a)
      (Logging.boot P start size, LogHistory.boot P) s) :
    s.2.InRoom start size s.1 := by
  refine run.invariant (I := fun s => s.2.InRoom start size s.1)
    (LogHistory.inRoom_boot P start size) ?_
  intro s a t hstep hfits hroom
  obtain ⟨hlog, hrecord⟩ := traced_eq_next.mp hstep
  rw [hrecord]
  exact hroom.step (Logging.logStep hlog) hfits

/-- In a run in which the log has room for every block when it is logged, operations
are atomic. -/
theorem group_commit
    (run : Run logTrace (fun s a _ => HasRoom s.1 a)
      (Logging.boot P start size, LogHistory.boot P) s) :
    GroupCommit start size s := by
  obtain ⟨hs, hh⟩ := inv_of_logTrace run.reaches
  have hroom := inRoom_of_logTrace run
  constructor
  case exclusive =>
    intro p q hp
    by_contra hq
    have hidle := hs.not_committing (p := q) (by simpa using hq)
    simp [hs.committing p hp] at hidle
  case waits =>
    intro p q t hp hstep
    have hcommitting := hs.committing p hp
    cases Logging.logStep hstep with
    | enter q hpc hadmits =>
        have hidle := (Log.admits_iff.mp hadmits).1
        simp [Logging.log, hcommitting] at hidle
    | sleep q hpc hadmits => simp [LogPc.operates]
  case together => exact hh.done
  case nodup => exact hs.nodup
  case written => exact hroom.written
  case endOp =>
    intro p
    simp only [Logging.step, Logging.endOp]
    split
    · rename_i hpc
      have hidle := hs.not_committing (p := p) (by rw [hpc]; rfl)
      rw [if_neg (by simp [hidle])]
      split <;> simp
    · simp
  case awake =>
    intro hout hidle
    refine hs.awake (Log.admits_iff.mpr ⟨hidle, ?_⟩)
    simp [Logging.log, hout, hs.empty hout hidle, LOGSIZE, MAXOPBLOCKS]

/-- `log_write` of these blocks, one after another. -/
def logCalls (p : P) (blocks : List ℕ) : List (LogCall P) :=
  blocks.flatMap fun b => [.logWrite p b, .proceed p, .proceed p]

/-- An operation that logs two blocks and commits them. -/
theorem group_commit_twoBlocks :
    ∃ s : Logging Bool × LogHistory Bool, GroupCommit 2 30 s ∧
      s.2.commits = 1 ∧ s.2.installed = [(0, 40), (0, 41)] := by
  have hrun : (exec (checked logTrace fun s a _ => HasRoom s.1 a)
      (Logging.boot Bool 2 30, LogHistory.boot Bool)
      (.beginOp true :: logCalls true [40, 41, 40] ++
        .endOp true :: List.replicate 11 (.proceed true))).test
        (fun s => decide (s.2.commits = 1 ∧ s.2.installed = [(0, 40), (0, 41)])) = true := by
    decide +kernel
  obtain ⟨s, run, hcheck⟩ := run_of_test hrun
  exact ⟨s, group_commit run, of_decide_eq_true hcheck⟩

/-- In a log of 20 blocks, two operations log nine blocks each.  Their next `log_write` calls both
find room for one more block, and the log gets both. -/
theorem overflows : ∃ s : Logging (Fin 2) × LogHistory (Fin 2),
    Reaches logTrace (Logging.boot (Fin 2) 2 20, LogHistory.boot (Fin 2)) s ∧
      ¬ GroupCommit 2 20 s := by
  have hrun : (exec logTrace (Logging.boot (Fin 2) 2 20, LogHistory.boot (Fin 2))
      ([.beginOp 0, .beginOp 1] ++
        logCalls 0 (List.range' 100 9) ++ logCalls 1 (List.range' 200 9) ++
        [.logWrite 0 109, .logWrite 1 209, .proceed 0, .proceed 0, .proceed 1, .proceed 1,
          .endOp 0, .endOp 1] ++
        List.replicate 21 (.proceed 1))).test
        (fun s => decide (22 ∈ s.2.written)) = true := by
    decide +kernel
  obtain ⟨s, hreaches, hcheck⟩ := reaches_of_test hrun
  refine ⟨s, hreaches, fun hgroup => ?_⟩
  have hinLog := hgroup.written 22 (of_decide_eq_true hcheck)
  exact absurd hinLog (by decide)

end Runs

end Xv6
