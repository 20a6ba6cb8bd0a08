import Xv6.Proc.Table

/-!
# Who may start a file-system call

The part of `log.c` by which `begin_op` and `end_op` decide when a call may start
and when the log is committed.  A call that would leave too little room in the
log, or that comes during a commit, sleeps on `&log`.

The state is the log together with the process table, because the sleepers are
found there.  All that the rest of the kernel does to the table is one action,
`other`: nobody else puts a process to sleep on `&log`.

When a call may start nobody sleeps on `&log`, and a log on which no call works
is empty (`JournalInv`).  So a call that starts and ends without having written
anything leaves no trace (`Journal.beginOp_endOp`).
-/

namespace Xv6

open Transition

/-- The number of blocks that a call may write. -/
def MAXOPBLOCKS : ℕ := 10

def LOGSIZE : ℕ := 3 * MAXOPBLOCKS

/-- `struct log`; `n` is `lh.n`, the number of blocks in the log. -/
structure Log where
  size : ℕ
  outstanding : ℕ
  committing : Bool
  n : ℕ
  deriving DecidableEq

/-- `&log` -/
def Chan.log : Chan := .other 0x801126a0

/-- The process sleeps in `begin_op`. -/
def Proc.sleepsOnLog (q : Proc) : Prop :=
  q.state = .sleeping ∧ q.chan = some Chan.log

instance (q : Proc) : Decidable q.sleepsOnLog :=
  inferInstanceAs (Decidable (_ ∧ _))

structure Journal where
  log : Log
  table : Ptable

/-- The test of `begin_op`. -/
def Log.admits (log : Log) : Bool :=
  !log.committing && decide (log.n + (log.outstanding + 1) * MAXOPBLOCKS ≤ LOGSIZE)

namespace Journal

/-- `log.outstanding += 1` -/
def admitOp (j : Journal) : Journal :=
  { j with log := { j.log with outstanding := j.log.outstanding + 1 } }

/-- `end_op` up to its commit: the last call starts the commit, the others wake up
who waits for room. -/
def leaveOp (j : Journal) : Journal :=
  if j.log.outstanding = 1 then
    { j with log := { j.log with outstanding := 0, committing := true } }
  else
    { log := { j.log with outstanding := j.log.outstanding - 1 }
      table := wakeup1 (some Chan.log) j.table }

/-- The end of a commit, which has emptied the log. -/
def committed (j : Journal) : Journal where
  log := { j.log with committing := false, n := 0 }
  table := wakeup1 (some Chan.log) j.table

end Journal

inductive LogAction
  | beginOp (p : Slot)
  | logWrite (absorbed : Bool)
  | endOp
  | commit
  | other (table : Ptable)

/-- The steps of `log.c` under `log.lock`. -/
def logStep (j : Journal) : LogAction → Outcome Journal
  | .beginOp p =>
      if j.log.admits then .next j.admitOp
      else .next { j with table := j.table.modify p fun q =>
        { q with chan := some Chan.log, state := .sleeping } }
  | .logWrite absorbed =>
      if j.log.n ≥ LOGSIZE ∨ j.log.n ≥ j.log.size - 1 then .panic "too big a transaction"
      else if j.log.outstanding < 1 then .panic "log_write outside of trans"
      else .next { j with log := { j.log with n := if absorbed then j.log.n else j.log.n + 1 } }
  | .endOp =>
      if j.log.outstanding = 0 then .blocked
      else if j.log.committing then .panic "log.committing"
      else .next j.leaveOp
  | .commit => if j.log.committing then .next j.committed else .blocked
  | .other table =>
      if ∀ p, (table p).sleepsOnLog → (j.table p).sleepsOnLog then .next { j with table := table }
      else .blocked

/-- The log after `recover_from_log`. -/
def Log.boot (size : ℕ) : Log where
  size := size
  outstanding := 0
  committing := false
  n := 0

def JournalReachable (j : Journal) : Prop :=
  ∃ size table, (∀ p, ¬ (table p).sleepsOnLog) ∧ Reaches logStep ⟨Log.boot size, table⟩ j

/-! ## The invariant -/

structure JournalInv (j : Journal) : Prop where
  empty : j.log.outstanding = 0 → j.log.committing = false → j.log.n = 0
  alone : j.log.committing = true → j.log.outstanding = 0
  awake : j.log.admits = true → ∀ p, ¬ (j.table p).sleepsOnLog

theorem Log.admits_iff {log : Log} :
    log.admits = true ↔
      log.committing = false ∧ log.n + (log.outstanding + 1) * MAXOPBLOCKS ≤ LOGSIZE := by
  simp [admits]

/-- Nobody sleeps on `&log` after a wakeup. -/
theorem not_sleepsOnLog_wakeup1 (table : Ptable) (p : Slot) :
    ¬ (wakeup1 (some Chan.log) table p).sleepsOnLog := by
  rintro ⟨hsleeping, hchan⟩
  unfold wakeup1 at hsleeping hchan
  split at hsleeping
  · simp at hsleeping
  · rename_i hnot
    rw [if_neg hnot] at hchan
    exact hnot ⟨hsleeping, hchan⟩

theorem wakeup1_eq_self {table : Ptable} (h : ∀ p, ¬ (table p).sleepsOnLog) :
    wakeup1 (some Chan.log) table = table := by
  funext p
  exact if_neg (h p)

theorem JournalInv.step {j j' : Journal} {a : LogAction} (h : JournalInv j)
    (hstep : logStep j a = .next j') : JournalInv j' := by
  cases a with
  | beginOp p =>
      simp only [logStep] at hstep
      split at hstep
      · rename_i hadmits
        obtain rfl := Outcome.next.inj hstep
        obtain ⟨hcommitting, hroom⟩ := Log.admits_iff.mp hadmits
        refine ⟨by simp [Journal.admitOp], by simp [Journal.admitOp, hcommitting], fun _ => ?_⟩
        exact h.awake hadmits
      · rename_i hfull
        obtain rfl := Outcome.next.inj hstep
        exact ⟨h.empty, h.alone, fun hadmits => absurd hadmits hfull⟩
  | logWrite absorbed =>
      simp only [logStep] at hstep
      split at hstep
      · simp at hstep
      · split at hstep
        · simp at hstep
        · rename_i hopen
          obtain rfl := Outcome.next.inj hstep
          refine ⟨fun hnone => absurd hnone (by simpa using hopen), h.alone, fun hadmits => ?_⟩
          obtain ⟨hcommitting, hroom⟩ := Log.admits_iff.mp hadmits
          -- the log grows, so what fits now has fitted before
          refine h.awake (Log.admits_iff.mpr ⟨hcommitting, le_trans ?_ hroom⟩)
          dsimp only
          split <;> omega
  | endOp =>
      simp only [logStep] at hstep
      split at hstep
      · simp at hstep
      · split at hstep
        · simp at hstep
        · rename_i hcommitting
          obtain rfl := Outcome.next.inj hstep
          unfold Journal.leaveOp
          split
          · -- the last call: nobody may start until the commit is done
            exact ⟨by simp, fun _ => rfl, fun hadmits => by simp [Log.admits] at hadmits⟩
          · rename_i hnone hmore
            -- other calls are at work, and all sleepers are woken up
            refine ⟨fun hzero => ?_, fun hc => absurd hc hcommitting, fun _ => ?_⟩
            · dsimp only at hzero
              omega
            · exact not_sleepsOnLog_wakeup1 j.table
  | commit =>
      simp only [logStep] at hstep
      split at hstep
      · obtain rfl := Outcome.next.inj hstep
        exact ⟨fun _ _ => rfl, by simp [Journal.committed],
          fun _ => not_sleepsOnLog_wakeup1 j.table⟩
      · simp at hstep
  | other table =>
      simp only [logStep] at hstep
      split at hstep
      · rename_i hkept
        obtain rfl := Outcome.next.inj hstep
        exact ⟨h.empty, h.alone, fun hadmits p hp => h.awake hadmits p (hkept p hp)⟩
      · simp at hstep

theorem JournalInv.of_reachable {j : Journal} (h : JournalReachable j) : JournalInv j := by
  obtain ⟨size, table, hawake, hreaches⟩ := h
  refine hreaches.invariant ?_ fun _ _ _ hstep _ hinv => hinv.step hstep
  exact ⟨fun _ _ => rfl, by simp [Log.boot], fun _ => hawake⟩

/-- No call is at work during a commit, so that `end_op` does not panic. -/
theorem endOp_safe {j : Journal} (h : JournalReachable j) : (logStep j .endOp).Safe := by
  have hinv := JournalInv.of_reachable h
  simp only [logStep]
  split
  · simp
  · rename_i hopen
    rw [if_neg fun hcommitting => hopen (hinv.alone hcommitting)]
    simp

/-! ## A call that writes nothing -/

namespace Journal

/-- `end_op` with the commit that it may have to do. -/
def endOp (j : Journal) : Journal :=
  if j.leaveOp.log.committing then j.leaveOp.committed else j.leaveOp

/-- The commit of a call that has written nothing finds an empty log. -/
theorem n_eq_zero_of_leaveOp_admitOp {j : Journal} (h : JournalInv j)
    (hadmits : j.log.admits = true) (hcommit : j.admitOp.leaveOp.log.committing = true) :
    j.log.n = 0 := by
  obtain ⟨hcommitting, -⟩ := Log.admits_iff.mp hadmits
  by_cases hlast : j.log.outstanding = 0
  · exact h.empty hlast hcommitting
  · simp [leaveOp, admitOp, hlast, hcommitting] at hcommit

theorem beginOp_endOp {j : Journal} (h : JournalInv j) (hadmits : j.log.admits = true) :
    j.admitOp.endOp = j := by
  obtain ⟨hcommitting, -⟩ := Log.admits_iff.mp hadmits
  have htable := wakeup1_eq_self (h.awake hadmits)
  obtain ⟨⟨size, outstanding, committing, n⟩, table⟩ := j
  obtain rfl : committing = false := hcommitting
  by_cases hlast : outstanding = 0
  · subst hlast
    -- alone: the commit that follows finds an empty log
    obtain rfl : n = 0 := h.empty rfl rfl
    simpa [endOp, leaveOp, admitOp, committed] using htable
  · simpa [endOp, leaveOp, admitOp, hlast] using htable

end Journal

end Xv6
