import Xv6.Pipe.Machine

/-!
# A pipe is a queue of bytes

The bytes that have been stored are those that have been handed out and then those
that the buffer holds (`PipeInv.fifo`), so what readers get is what writers gave, in
order and without loss.  It does not matter that the counters wrap, because the
capacity divides `2 ^ 32` (`RingBuffer`).

The buffer and the flags change only under `p->lock` (`PipeStep.pipe_eq_or`), so what a
reader has found out stays so until it returns: when it has got nothing, the pipe was
empty and its write end closed (`PipeInv.ended`).
-/

namespace Xv6

open Transition

variable {P β : Type}

/-- The bytes in the buffer, in the order in which they will be read. -/
def Pipe.content (p : Pipe β) : List β :=
  RingBuffer.content p.data p.nread (RingBuffer.filled p.nread p.nwrite)

namespace Pipe

variable {p : Pipe β} {x : β}

theorem dvd_wrap : PIPESIZE ∣ 2 ^ 32 := by decide

theorem empty_iff : p.empty = true ↔ RingBuffer.filled p.nread p.nwrite = 0 := by
  rw [RingBuffer.filled_eq_zero_iff, empty, beq_iff_eq]

theorem full_iff : p.full = true ↔ RingBuffer.filled p.nread p.nwrite = PIPESIZE := by
  rw [RingBuffer.filled_eq_iff (by decide), full, beq_iff_eq]

theorem content_of_empty (h : p.empty = true) : p.content = [] := by
  rw [content, empty_iff.mp h, RingBuffer.content_zero]

/-- A pipe that is not full has room for one more byte. -/
theorem filled_lt (hbound : RingBuffer.filled p.nread p.nwrite ≤ PIPESIZE)
    (hroom : p.full = false) : RingBuffer.filled p.nread p.nwrite < PIPESIZE := by
  refine lt_of_le_of_ne hbound fun heq => ?_
  rw [full_iff.mpr heq] at hroom
  simp at hroom

theorem filled_put (hbound : RingBuffer.filled p.nread p.nwrite ≤ PIPESIZE)
    (hroom : p.full = false) :
    RingBuffer.filled (p.put x).nread (p.put x).nwrite =
      RingBuffer.filled p.nread p.nwrite + 1 := by
  have hlt := filled_lt hbound hroom
  refine RingBuffer.filled_push rfl ?_
  have hsize : PIPESIZE < 2 ^ 32 := by decide
  omega

theorem content_put (hbound : RingBuffer.filled p.nread p.nwrite ≤ PIPESIZE)
    (hroom : p.full = false) : (p.put x).content = p.content ++ [x] := by
  rw [content, filled_put hbound hroom]
  exact RingBuffer.content_push dvd_wrap rfl (filled_lt hbound hroom) x

/-- What taking a byte out of a pipe that is not empty does. -/
theorem filled_pop (hfull : p.empty = false) :
    RingBuffer.filled p.nread p.nwrite =
      RingBuffer.filled p.pop.nread p.pop.nwrite + 1 := by
  obtain ⟨n, hn⟩ : ∃ n, RingBuffer.filled p.nread p.nwrite = n + 1 := by
    refine Nat.exists_eq_succ_of_ne_zero fun hzero => ?_
    rw [empty_iff.mpr hzero] at hfull
    simp at hfull
  rw [hn]
  exact congrArg (· + 1) (RingBuffer.filled_pop hn).symm

theorem content_pop (hfull : p.empty = false) : p.content = p.first :: p.pop.content := by
  rw [content, filled_pop hfull, RingBuffer.content_pop]
  rfl

@[simp] theorem enter_data (c : PipeCall β) : (p.enter c).content = p.content ∧
    (p.enter c).nread = p.nread ∧ (p.enter c).nwrite = p.nwrite := by
  cases c with
  | close writable => cases writable <;> exact ⟨rfl, rfl, rfl⟩
  | write src i => exact ⟨rfl, rfl, rfl⟩
  | read n dst => exact ⟨rfl, rfl, rfl⟩

end Pipe

/-! ## The lock -/

section Lock

variable {s t : Piping P β} {p q : P} {c : PipeCall β} {stage : PipeStage} {a : PipeAction P β}

/-- The process is at a point where it holds `p->lock`. -/
def Piping.Locks (s : Piping P β) (p : P) : Prop :=
  ∃ c stage, s.pc p = some (c, stage) ∧ stage.locks = true

def PipeAction.actor : PipeAction P β → P
  | call p _ | proceed p | kill p => p

theorem PipeMove.locks (h : PipeMove s p c stage stage') : stage.locks = true ∧
    stage'.locks = true := by
  cases h <;> exact ⟨rfl, rfl⟩

/-- A process is woken up, or nothing happens to it. -/
theorem Piping.wakeup_pc (s : Piping P β) (chan : PipeChan) (q : P) :
    (s.wakeup chan).pc q = s.pc q ∨
      ∃ c, s.pc q = some (c, .asleep) ∧ (s.wakeup chan).pc q = some (c, .woken) := by
  unfold wakeup
  dsimp only
  split
  · rename_i c hpc
    split
    · exact Or.inr ⟨c, hpc, rfl⟩
    · exact Or.inl hpc.symm
  · exact Or.inl rfl

variable [DecidableEq P]

@[simp] theorem Piping.goto_pc_self (s : Piping P β) (p : P) (pc : PipePc β) :
    (s.goto p pc).pc p = pc := by simp [goto]

theorem Piping.goto_pc_of_ne (s : Piping P β) (pc : PipePc β) (h : q ≠ p) :
    (s.goto p pc).pc q = s.pc q := by simp [goto, h]

/-- What a step does to the processes that do not take it. -/
theorem PipeStep.other (h : PipeStep s a t) (hq : q ≠ a.actor) :
    t.pc q = s.pc q ∨ ∃ c, s.pc q = some (c, .asleep) ∧ t.pc q = some (c, .woken) := by
  cases h with
  | call c => exact Or.inl (Piping.goto_pc_of_ne _ _ hq)
  | move => exact Or.inl (Piping.goto_pc_of_ne _ _ hq)
  | put => exact Or.inl (Piping.goto_pc_of_ne _ _ hq)
  | pop => exact Or.inl (Piping.goto_pc_of_ne _ _ hq)
  | @wakeFull p c =>
      have hother := (s.wakeup c.wakes).goto_pc_of_ne (some (c, .sleep)) hq
      exact hother ▸ s.wakeup_pc c.wakes q
  | @wake p c =>
      have hother := (s.wakeup c.wakes).goto_pc_of_ne (some (c, .finish)) hq
      exact hother ▸ s.wakeup_pc c.wakes q
  | sleep => exact Or.inl (Piping.goto_pc_of_ne _ _ hq)
  | ret => exact Or.inl (Piping.goto_pc_of_ne _ _ hq)
  | doze => exact Or.inl (Piping.goto_pc_of_ne _ _ hq)
  | resume => exact Or.inl (Piping.goto_pc_of_ne _ _ hq)
  | killSleeper => exact Or.inl (Piping.goto_pc_of_ne _ _ hq)
  | kill => exact Or.inl rfl

theorem PipeStep.locks_other (h : PipeStep s a t) (hq : q ≠ a.actor) : t.Locks q ↔ s.Locks q := by
  unfold Piping.Locks
  rcases h.other hq with heq | ⟨c, hs, ht⟩
  · rw [heq]
  · rw [hs, ht]
    simp [PipeStage.locks]

theorem Piping.locks_goto {pc : PipePc β} :
    (s.goto p pc).Locks p ↔ ∃ c stage, pc = some (c, stage) ∧ stage.locks = true := by
  simp [Locks]

omit [DecidableEq P] in
theorem Piping.locks_of_pc (hpc : s.pc p = some (c, stage)) : s.Locks p ↔ stage.locks = true := by
  simp [Locks, hpc]

/-- A step takes the lock, gives it up, or leaves it with whom it is. -/
theorem PipeStep.lock_cases (h : PipeStep s a t) :
    s.lock = none ∧ t.lock = some a.actor ∧ t.Locks a.actor ∨
      s.Locks a.actor ∧ t.lock = none ∧ ¬ t.Locks a.actor ∨
      t.lock = s.lock ∧ (t.Locks a.actor ↔ s.Locks a.actor) := by
  cases h with
  | @call p c hpc hlock =>
      refine Or.inl ⟨hlock, rfl, Piping.locks_goto.mpr ⟨c.start.1, c.start.2, rfl, ?_⟩⟩
      cases c <;> rfl
  | @move p c stage stage' hpc hmove =>
      refine Or.inr (Or.inr ⟨rfl, iff_of_true ?_ ?_⟩)
      · exact Piping.locks_goto.mpr ⟨c, stage', rfl, hmove.locks.2⟩
      · exact (Piping.locks_of_pc hpc).mpr hmove.locks.1
  | put hpc =>
      exact Or.inr (Or.inr ⟨rfl, iff_of_true (Piping.locks_goto.mpr ⟨_, _, rfl, rfl⟩)
        ((Piping.locks_of_pc hpc).mpr rfl)⟩)
  | pop hpc =>
      exact Or.inr (Or.inr ⟨rfl, iff_of_true (Piping.locks_goto.mpr ⟨_, _, rfl, rfl⟩)
        ((Piping.locks_of_pc hpc).mpr rfl)⟩)
  | wakeFull hpc =>
      exact Or.inr (Or.inr ⟨rfl, iff_of_true (Piping.locks_goto.mpr ⟨_, _, rfl, rfl⟩)
        ((Piping.locks_of_pc hpc).mpr rfl)⟩)
  | wake hpc =>
      exact Or.inr (Or.inr ⟨rfl, iff_of_true (Piping.locks_goto.mpr ⟨_, _, rfl, rfl⟩)
        ((Piping.locks_of_pc hpc).mpr rfl)⟩)
  | sleep hpc =>
      refine Or.inr (Or.inl ⟨(Piping.locks_of_pc hpc).mpr rfl, rfl, ?_⟩)
      simp [PipeAction.actor, Piping.locks_goto, PipeStage.locks]
  | ret hpc hstage =>
      refine Or.inr (Or.inl ⟨(Piping.locks_of_pc hpc).mpr ?_, rfl, ?_⟩)
      · rcases hstage with rfl | rfl <;> rfl
      · simp [PipeAction.actor, Piping.ret, Piping.locks_goto]
  | doze hpc =>
      refine Or.inr (Or.inr ⟨rfl, ?_⟩)
      simp [PipeAction.actor, Piping.locks_goto, Piping.locks_of_pc hpc, PipeStage.locks]
  | resume hpc hlock => exact Or.inl ⟨hlock, rfl, Piping.locks_goto.mpr ⟨_, _, rfl, rfl⟩⟩
  | killSleeper hpc =>
      refine Or.inr (Or.inr ⟨rfl, ?_⟩)
      simp [PipeAction.actor, Piping.locks_goto, Piping.locks_of_pc hpc, PipeStage.locks]
  | kill => exact Or.inr (Or.inr ⟨rfl, Iff.rfl⟩)

/-- The lock belongs to the process that is at a point where it holds it. -/
def Piping.LockInv (s : Piping P β) : Prop :=
  ∀ q, s.Locks q ↔ s.lock = some q

theorem Piping.LockInv.step (hinv : s.LockInv) (h : PipeStep s a t) : t.LockInv := by
  intro q
  by_cases hq : q = a.actor
  · subst hq
    rcases h.lock_cases with ⟨-, ht, hlocks⟩ | ⟨-, ht, hnot⟩ | ⟨ht, hiff⟩
    · exact iff_of_true hlocks ht
    · exact iff_of_false hnot (by simp [ht])
    · rw [hiff, ht]
      exact hinv _
  · rw [h.locks_other hq, hinv q]
    rcases h.lock_cases with ⟨hs, ht, -⟩ | ⟨hlocks, ht, -⟩ | ⟨ht, -⟩
    · simp [hs, ht, Ne.symm hq]
    · simp [(hinv _).mp hlocks, ht, Ne.symm hq]
    · rw [ht]

/-- The pipe changes only in the hands of a process that has the lock. -/
theorem PipeStep.pipe_eq_or (h : PipeStep s a t) :
    t.pipe = s.pipe ∨ s.lock = none ∨ s.Locks a.actor := by
  cases h with
  | call c hpc hlock => exact Or.inr (Or.inl hlock)
  | put hpc => exact Or.inr (Or.inr ((Piping.locks_of_pc hpc).mpr rfl))
  | pop hpc => exact Or.inr (Or.inr ((Piping.locks_of_pc hpc).mpr rfl))
  | move => exact Or.inl rfl
  | wakeFull => exact Or.inl rfl
  | wake => exact Or.inl rfl
  | sleep => exact Or.inl rfl
  | ret => exact Or.inl rfl
  | doze => exact Or.inl rfl
  | resume => exact Or.inl rfl
  | killSleeper => exact Or.inl rfl
  | kill => exact Or.inl rfl

/-- Whoever has the lock finds the pipe as it was after the steps of others. -/
theorem Piping.LockInv.pipe_eq (hinv : s.LockInv) (h : PipeStep s a t) (hq : q ≠ a.actor)
    (hlocks : s.Locks q) : t.pipe = s.pipe := by
  have hlock := (hinv q).mp hlocks
  rcases h.pipe_eq_or with heq | hnone | hactor
  · exact heq
  · simp [hnone] at hlock
  · rw [(hinv _).mp hactor] at hlock
    exact absurd (Option.some.inj hlock).symm hq

end Lock

/-! ## The queue -/

structure PipeInv (s : Piping P β) (h : PipeHistory β) : Prop where
  lock : s.LockInv
  bound : RingBuffer.filled s.pipe.nread s.pipe.nwrite ≤ PIPESIZE
  fifo : h.stored = h.taken ++ s.pipe.content
  copying : ∀ q n, s.pc q = some (.read n [], .copy) → s.pipe.empty = true →
    s.pipe.writeopen = false
  ended : ∀ q n stage, s.pc q = some (.read n [], stage) → stage = .wake ∨ stage = .finish →
    0 < n → s.pipe.empty = true ∧ s.pipe.writeopen = false

section Queue

variable [DecidableEq P] {s t : Piping P β} {p q : P} {a : PipeAction P β} {h : PipeHistory β}

theorem PipeStep.fifo (hstep : PipeStep s a t)
    (hbound : RingBuffer.filled s.pipe.nread s.pipe.nwrite ≤ PIPESIZE)
    (hfifo : h.stored = h.taken ++ s.pipe.content) :
    RingBuffer.filled t.pipe.nread t.pipe.nwrite ≤ PIPESIZE ∧
      (h.record s a t).stored = (h.record s a t).taken ++ t.pipe.content := by
  cases hstep with
  | call c =>
      obtain ⟨hcontent, hnread, hnwrite⟩ := s.pipe.enter_data c
      show RingBuffer.filled (s.pipe.enter c).nread (s.pipe.enter c).nwrite ≤ PIPESIZE ∧
        h.stored = h.taken ++ (s.pipe.enter c).content
      rw [hcontent, hnread, hnwrite]
      exact ⟨hbound, hfifo⟩
  | move hpc hmove => exact ⟨hbound, by cases hmove <;> simpa [PipeHistory.record, hpc] using hfifo⟩
  | @put p src i x hpc hx hroom =>
      refine ⟨?_, ?_⟩
      · show RingBuffer.filled (s.pipe.put x).nread (s.pipe.put x).nwrite ≤ PIPESIZE
        rw [Pipe.filled_put hbound hroom]
        exact Pipe.filled_lt hbound hroom
      · show _ = _ ++ (s.pipe.put x).content
        rw [Pipe.content_put hbound hroom]
        simp [PipeHistory.record, hpc, hx, hfifo]
  | @pop p n dst hpc hlt hfull =>
      have hpop := Pipe.filled_pop hfull
      refine ⟨?_, ?_⟩
      · show RingBuffer.filled s.pipe.pop.nread s.pipe.pop.nwrite ≤ PIPESIZE
        omega
      · show _ = _ ++ s.pipe.pop.content
        rw [Pipe.content_pop hfull] at hfifo
        simp [PipeHistory.record, hpc, hfifo]
  | wakeFull hpc => exact ⟨hbound, by simpa [PipeHistory.record, hpc] using hfifo⟩
  | wake hpc => exact ⟨hbound, by simpa [PipeHistory.record, hpc] using hfifo⟩
  | sleep hpc => exact ⟨hbound, by simpa [PipeHistory.record, hpc] using hfifo⟩
  | ret hpc hstage =>
      refine ⟨hbound, ?_⟩
      rcases hstage with rfl | rfl <;> simpa [PipeHistory.record, hpc] using hfifo
  | doze hpc => exact ⟨hbound, by simpa [PipeHistory.record, hpc] using hfifo⟩
  | resume hpc => exact ⟨hbound, by simpa [PipeHistory.record, hpc] using hfifo⟩
  | killSleeper hpc => exact ⟨hbound, hfifo⟩
  | kill => exact ⟨hbound, hfifo⟩

/-- The end of a read that has got nothing: the process that takes the step. -/
theorem PipeInv.actor_step (hinv : PipeInv s h) (hstep : PipeStep s a t) :
    (∀ n, t.pc a.actor = some (.read n [], .copy) → t.pipe.empty = true →
      t.pipe.writeopen = false) ∧
    ∀ n stage, t.pc a.actor = some (.read n [], stage) → stage = .wake ∨ stage = .finish →
      0 < n → t.pipe.empty = true ∧ t.pipe.writeopen = false := by
  cases hstep with
  | @call p c hpc hlock hopen => cases c <;> simp [PipeAction.actor, PipeCall.start]
  | @move p c stage stage' hpc hmove =>
      cases hmove with
      | @ready n dst hready =>
          refine ⟨fun _ _ hempty => ?_, by simp [PipeAction.actor]⟩
          exact Bool.not_eq_true _ ▸ fun hopen => hready ⟨hempty, hopen⟩
      | @copied n dst hdone =>
          refine ⟨by simp [PipeAction.actor], fun m stage hm _ hpos => ?_⟩
          obtain ⟨⟨rfl, rfl⟩, -⟩ : (n = m ∧ dst = []) ∧ _ := by
            simpa [PipeAction.actor] using hm
          have hempty : s.pipe.empty = true := by simpa [hpos] using hdone
          exact ⟨hempty, hinv.copying p n hpc hempty⟩
      | written => simp [PipeAction.actor]
      | blocked => simp [PipeAction.actor]
      | stop => simp [PipeAction.actor]
      | empty => simp [PipeAction.actor]
      | killed => simp [PipeAction.actor]
  | put => simp [PipeAction.actor]
  | pop => simp [PipeAction.actor]
  | wakeFull hpc => simp [PipeAction.actor]
  | @wake p c hpc =>
      refine ⟨by simp [PipeAction.actor], fun n stage hn _ hpos => ?_⟩
      obtain ⟨rfl, -⟩ : c = .read n [] ∧ _ := by simpa [PipeAction.actor] using hn
      exact hinv.ended p n .wake hpc (Or.inl rfl) hpos
  | sleep => simp [PipeAction.actor]
  | ret => simp [PipeAction.actor, Piping.ret]
  | doze => simp [PipeAction.actor]
  | resume => simp [PipeAction.actor]
  | killSleeper => simp [PipeAction.actor]
  | @kill p hpc => exact ⟨fun n => hinv.copying p n, fun n => hinv.ended p n⟩

theorem PipeInv.step (hinv : PipeInv s h) (hstep : PipeStep s a t) :
    PipeInv t (h.record s a t) := by
  obtain ⟨hbound, hfifo⟩ := hstep.fifo hinv.bound hinv.fifo
  obtain ⟨hcopying, hended⟩ := hinv.actor_step hstep
  -- what the others have found out stays, because they have the lock
  have hkeep : ∀ q ≠ a.actor, ∀ n dst stage, t.pc q = some (.read n dst, stage) →
      stage.locks = true → s.pc q = some (.read n dst, stage) ∧ t.pipe = s.pipe := by
    intro q hq n dst stage hpc hlocks
    have hs : s.pc q = some (.read n dst, stage) := by
      rcases hstep.other hq with heq | ⟨c, -, ht⟩
      · rw [← heq, hpc]
      · obtain ⟨-, rfl⟩ : _ ∧ PipeStage.woken = stage := by simpa [ht] using hpc
        simp [PipeStage.locks] at hlocks
    exact ⟨hs, hinv.lock.pipe_eq hstep hq ((Piping.locks_of_pc hs).mpr hlocks)⟩
  refine ⟨hinv.lock.step hstep, hbound, hfifo, fun q n hpc => ?_, fun q n stage hpc hstage => ?_⟩
  · by_cases hq : q = a.actor
    · subst hq
      exact hcopying n hpc
    · obtain ⟨hs, hpipe⟩ := hkeep q hq n [] .copy hpc rfl
      rw [hpipe]
      exact hinv.copying q n hs
  · by_cases hq : q = a.actor
    · subst hq
      exact hended n stage hpc hstage
    · have hlocks : stage.locks = true := by rcases hstage with rfl | rfl <;> rfl
      obtain ⟨hs, hpipe⟩ := hkeep q hq n [] stage hpc hlocks
      rw [hpipe]
      exact hinv.ended q n stage hs hstage

omit [DecidableEq P] in
theorem PipeInv.alloc (data : Fin PIPESIZE → β) (killed : P → Bool) :
    PipeInv (Piping.alloc P data killed) ⟨[], []⟩ where
  lock q := by simp [Piping.Locks, Piping.alloc]
  bound := by simp [Piping.alloc, RingBuffer.filled]
  fifo := by simp [Piping.alloc, Pipe.content, RingBuffer.filled]
  copying := by simp [Piping.alloc]
  ended := by simp [Piping.alloc]

theorem PipeInv.of_reaches {data : Fin PIPESIZE → β} {killed : P → Bool}
    {s : Piping P β × PipeHistory β}
    (run : Reaches (traced Piping.step PipeHistory.record)
      (Piping.alloc P data killed, ⟨[], []⟩) s) :
    PipeInv s.1 s.2 := by
  refine run.invariant (I := fun s => PipeInv s.1 s.2) (PipeInv.alloc data killed) ?_
  intro s a t hstep _ hinv
  obtain ⟨hstep, hrecord⟩ := traced_eq_next.mp hstep
  rw [hrecord]
  exact hinv.step (Piping.step_cases hstep)

/-- Every run of any number of readers and writers, with kills and closes. -/
theorem pipe_fifo {data : Fin PIPESIZE → β} {killed : P → Bool} {s : Piping P β × PipeHistory β}
    (run : Reaches (traced Piping.step PipeHistory.record)
      (Piping.alloc P data killed, ⟨[], []⟩) s) :
    (s.1.pipe.nwrite - s.1.pipe.nread).toNat ≤ PIPESIZE ∧
      s.2.stored = s.2.taken ++ s.1.pipe.content ∧
      ∀ p n, s.1.pc p = some (.read n [], .finish) → 0 < n →
        s.2.taken = s.2.stored ∧ s.1.pipe.writeopen = false := by
  have hinv := PipeInv.of_reaches run
  refine ⟨hinv.bound, hinv.fifo, fun p n hpc hpos => ?_⟩
  obtain ⟨hempty, hclosed⟩ := hinv.ended p n .finish hpc (Or.inr rfl) hpos
  refine ⟨?_, hclosed⟩
  rw [hinv.fifo, Pipe.content_of_empty hempty, List.append_nil]

/-- Two bytes are written and read, the write end is closed, and a second read finds the
end of the file. -/
def fifoActions : List (PipeAction Bool UInt8) :=
  [.call true (.write [7, 8] 0)] ++ List.replicate 5 (.proceed true) ++
    [.call false (.read 5 [])] ++ List.replicate 6 (.proceed false) ++
    [.call true (.close true)] ++ List.replicate 2 (.proceed true) ++
    [.call false (.read 5 [])] ++ List.replicate 3 (.proceed false)

theorem pipe_fifo_sample : ∃ s : Piping Bool UInt8 × PipeHistory UInt8,
    (s.2.stored = [7, 8] ∧ s.1.pc false = some (.read 5 [], .finish)) ∧
      s.2.taken = s.2.stored ∧ s.1.pipe.writeopen = false := by
  have htest : (exec (traced Piping.step PipeHistory.record)
      (Piping.alloc Bool (fun _ => 0) fun _ => false, ⟨[], []⟩) fifoActions).test
        (fun s => decide (s.2.stored = [7, 8] ∧ s.1.pc false = some (.read 5 [], .finish))) =
      true := by decide +kernel
  obtain ⟨s, hrun, hcheck⟩ := reaches_of_test htest
  obtain ⟨hstored, hpc⟩ := of_decide_eq_true hcheck
  exact ⟨s, ⟨hstored, hpc⟩, (pipe_fifo hrun).2.2 false 5 hpc (by decide)⟩

end Queue

end Xv6
