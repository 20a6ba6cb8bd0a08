import Xv6.Proc.Family

/-!
# Processes are reaped once

`History` counts the processes that are ever created, so that a process can be
told from others that use its slot later.  With it the tree of `Family.lean` is
that of `fork`, and each process that exits is reaped at most once, by its parent
of that time (`family`).
-/

namespace Xv6

open Transition

variable {C : Type} {kernel : Kernel} {s s' : State C} {a : Action C} {c : C} {p q n : Slot}

/-! ## The processes of a run -/

/-- The process is reaped by this step. -/
def Reaped (s s' : State C) (z : Slot) : Prop :=
  (s.proc z).state = .zombie ∧ (s'.proc z).state = .unused

/-- The slot is allocated by this step. -/
def Created (s s' : State C) (n : Slot) : Prop :=
  (s.proc n).state = .unused ∧ (s'.proc n).state ≠ .unused

instance (s s' : State C) : DecidablePred (Reaped s s') :=
  fun _ => inferInstanceAs (Decidable (_ ∧ _))

instance (s s' : State C) : DecidablePred (Created s s') :=
  fun _ => inferInstanceAs (Decidable (_ ∧ _))

/-- `created` processes have been created so far, and are numbered in that order.
For each slot, the number of its last process and of the process that forked it;
and the processes that have exited, and that were reaped. -/
structure History where
  created : ℕ
  serial : Slot → ℕ
  forker : Slot → Option ℕ
  exited : List ℕ
  returned : List ℕ

/-- The thread that builds the child in a slot. -/
def builder (s : State C) (n : Slot) : Option Slot :=
  slots.find? fun p => decide ((s.thread p).pc.child = some n)

/-- Bring the history up to date after a step. -/
def History.record (history : History) (s s' : State C) : History where
  created := if ∃ n, Created s s' n then history.created + 1 else history.created
  serial n := if Created s s' n then history.created else history.serial n
  forker n := if Created s s' n then (builder s' n).map history.serial else history.forker n
  exited := ((slots.filter fun p => Exits s s' p).map history.serial) ++ history.exited
  returned := ((slots.filter fun z => Reaped s s' z).map history.serial) ++ history.returned

/-- At boot there is the first process only, which was not forked. -/
def History.boot : History where
  created := 1
  serial _ := 0
  forker _ := none
  exited := []
  returned := []

structure HistoryInv (s : State C) (history : History) : Prop where
  lt : ∀ n, (s.proc n).state ≠ .unused → history.serial n < history.created
  distinct : ∀ n m, (s.proc n).state ≠ .unused → (s.proc m).state ≠ .unused →
    history.serial n = history.serial m → n = m
  zombie : ∀ n, (s.proc n).state ≠ .unused →
    (history.serial n ∈ history.exited ↔ (s.proc n).state = .zombie)
  exited_lt : ∀ k ∈ history.exited, k < history.created
  exited : history.exited.Nodup
  returned : history.returned.Nodup
  returned_exited : ∀ k ∈ history.returned, k ∈ history.exited
  returned_gone : ∀ k ∈ history.returned, ∀ n, (s.proc n).state ≠ .unused → history.serial n ≠ k
  builder : ∀ n p, (s.thread p).pc.child = some n → history.forker n = some (history.serial p)
  forker : ∀ n p, n ≠ initproc → (s.proc n).state.live → (s.proc n).parent = some p →
    ∃ k, history.forker n = some k ∧
      (k ∉ history.exited ∧ history.serial p = k ∨ k ∈ history.exited ∧ p = initproc)

section Steps

variable [DecidableEq C] {history : History}

/-- A slot in use has kept its process, or has been allocated by this step. -/
theorem Step.created_or_used (hinv : Inv s) (hstep : Step kernel s a s')
    (hused : (s'.proc n).state ≠ .unused) :
    Created s s' n ∧ firstUnused s.proc = some n ∧ (s'.proc n).state = .embryo ∨
      ¬ Created s s' n ∧ (s.proc n).state ≠ .unused := by
  rcases (hstep.life hinv n).pid_eq hinv hused with ⟨hbefore, -⟩ | ⟨-, hunused, hnew⟩
  · exact Or.inr ⟨fun h => hbefore h.1, hbefore⟩
  · exact Or.inl ⟨⟨(find?_slots_eq_some_iff.mp hunused).1, hused⟩, hunused, by rw [hnew, allocated]⟩

/-- A thread builds the child that it built before, or has just allocated it. -/
theorem Step.child_eq (hstep : Step kernel s a s') (hchild : (s'.thread p).pc.child = some n) :
    (s.thread p).pc.child = some n ∨ firstUnused s.proc = some n := by
  have hadvance := hstep.advance p
  generalize (s'.thread p).pc = pc at hadvance hchild
  cases hadvance with
  | same => exact Or.inl hchild
  | request _ _ hcall => cases pc <;> simp [Pc.call, Pc.child] at hcall hchild
  | forkKalloc c np priority haction hunused =>
      obtain rfl : np = n := by simpa [Pc.child] using hchild
      exact Or.inr hunused
  | forkCopyuvm np priority hpc => exact Or.inl (by simpa [hpc, Pc.child] using hchild)
  | forkRunnable np priority hpc => exact Or.inl (by simpa [hpc, Pc.child] using hchild)
  | _ => simp [Pc.child] at hchild

omit [DecidableEq C] in
/-- A thread in the middle of `fork` is that of a process. -/
theorem Inv.used_of_child (h : Inv s) (hchild : (s.thread p).pc.child = some n) :
    (s.proc p).state ≠ .unused := by
  intro hunused
  rcases h.dead p (Or.inl hunused) with hpc | hpc <;> simp [hpc, Pc.child] at hchild

theorem Step.used_of_exits (hinv : Inv s) (hstep : Step kernel s a s') (h : Exits s s' p) :
    (s.proc p).state ≠ .unused := by
  obtain ⟨c, -, hctrl, -⟩ := hstep.zombie_of_exits hinv h
  simp [(hinv.run c p hctrl).2]

namespace HistoryInv

omit [DecidableEq C] in
theorem mem_exited_record {k : ℕ} :
    k ∈ (history.record s s').exited ↔
      (∃ p, Exits s s' p ∧ history.serial p = k) ∨ k ∈ history.exited := by
  simp [History.record, mem_slots]

omit [DecidableEq C] in
theorem mem_returned_record {k : ℕ} :
    k ∈ (history.record s s').returned ↔
      (∃ z, Reaped s s' z ∧ history.serial z = k) ∨ k ∈ history.returned := by
  simp [History.record, mem_slots]

omit [DecidableEq C] in
theorem serial_record (hnot : ¬ Created s s' n) :
    (history.record s s').serial n = history.serial n := by
  simp [History.record, hnot]

omit [DecidableEq C] in
theorem created_le : history.created ≤ (history.record s s').created := by
  simp only [History.record]
  split <;> omega

theorem lt_step (h : HistoryInv s history) (hinv : Inv s) (hstep : Step kernel s a s')
    (hused : (s'.proc n).state ≠ .unused) :
    (history.record s s').serial n < (history.record s s').created := by
  rcases hstep.created_or_used hinv hused with ⟨hcreated, -⟩ | ⟨hnot, hbefore⟩
  · have hany : ∃ n, Created s s' n := ⟨n, hcreated⟩
    simp [History.record, hcreated, hany]
  · rw [serial_record hnot]
    exact (h.lt n hbefore).trans_le created_le

theorem distinct_step (h : HistoryInv s history) (hinv : Inv s) (hstep : Step kernel s a s')
    (hn : (s'.proc n).state ≠ .unused) (hq : (s'.proc q).state ≠ .unused)
    (heq : (history.record s s').serial n = (history.record s s').serial q) : n = q := by
  rcases hstep.created_or_used hinv hn with ⟨hcreated, hfirst, -⟩ | ⟨hnot, hbefore⟩ <;>
    rcases hstep.created_or_used hinv hq with ⟨hcreated', hfirst', -⟩ | ⟨hnot', hbefore'⟩
  · exact Option.some.inj (hfirst.symm.trans hfirst')
  · -- the new process has a number of its own
    have hlt := h.lt q hbefore'
    rw [serial_record hnot'] at heq
    simp [History.record, hcreated] at heq
    omega
  · have hlt := h.lt n hbefore
    rw [serial_record hnot] at heq
    simp [History.record, hcreated'] at heq
    omega
  · rw [serial_record hnot, serial_record hnot'] at heq
    exact h.distinct n q hbefore hbefore' heq

theorem exited_lt_step (h : HistoryInv s history) (hinv : Inv s) (hstep : Step kernel s a s')
    {k : ℕ} (hk : k ∈ (history.record s s').exited) : k < history.created := by
  rcases mem_exited_record.mp hk with ⟨p, hexits, rfl⟩ | hk
  · exact h.lt p (hstep.used_of_exits hinv hexits)
  · exact h.exited_lt k hk

/-- The number of a process that was there before is that of no new one. -/
theorem ne_serial_of_lt (hinv : Inv s) (hstep : Step kernel s a s') {k : ℕ}
    (hk : k < history.created)
    (hold : (s.proc n).state ≠ .unused → history.serial n ≠ k)
    (hused : (s'.proc n).state ≠ .unused) : (history.record s s').serial n ≠ k := by
  rcases hstep.created_or_used hinv hused with ⟨hcreated, -⟩ | ⟨hnot, hbefore⟩
  · simp only [History.record, if_pos hcreated]
    omega
  · rw [serial_record hnot]
    exact hold hbefore

theorem mem_exited_iff (h : HistoryInv s history) (hinv : Inv s) (hstep : Step kernel s a s')
    (hbefore : (s.proc n).state ≠ .unused) :
    history.serial n ∈ (history.record s s').exited ↔
      Exits s s' n ∨ (s.proc n).state = .zombie := by
  rw [mem_exited_record, h.zombie n hbefore]
  refine or_congr_left ⟨?_, fun hexits => ⟨n, hexits, rfl⟩⟩
  rintro ⟨p, hexits, heq⟩
  exact h.distinct p n (hstep.used_of_exits hinv hexits) hbefore heq ▸ hexits

theorem zombie_step (h : HistoryInv s history) (hinv : Inv s) (hstep : Step kernel s a s')
    (hused : (s'.proc n).state ≠ .unused) :
    (history.record s s').serial n ∈ (history.record s s').exited ↔
      (s'.proc n).state = .zombie := by
  rcases hstep.created_or_used hinv hused with ⟨hcreated, -, hembryo⟩ | ⟨hnot, hbefore⟩
  · refine iff_of_false (fun hk => ?_) (by simp [hembryo])
    have hlt := h.exited_lt_step hinv hstep hk
    simp [History.record, hcreated] at hlt
  · rw [serial_record hnot, h.mem_exited_iff hinv hstep hbefore]
    constructor
    · rintro (hexits | hzombie)
      · exact hexits.2
      · exact (hstep.zombie_or_unused hinv hzombie).resolve_right hused
    · intro hzombie
      by_cases hn : (s.proc n).state = .zombie
      · exact Or.inr hn
      · exact Or.inl ⟨hn, hzombie⟩

theorem exited_step (h : HistoryInv s history) (hinv : Inv s) (hstep : Step kernel s a s') :
    (history.record s s').exited.Nodup := by
  refine List.Nodup.append (List.Nodup.map_on ?_ ((List.nodup_finRange NPROC).filter _)) h.exited ?_
  · intro p hp q hq heq
    have hp : Exits s s' p := by simpa using (List.mem_filter.mp hp).2
    have hq : Exits s s' q := by simpa using (List.mem_filter.mp hq).2
    exact h.distinct p q (hstep.used_of_exits hinv hp) (hstep.used_of_exits hinv hq) heq
  · intro k hk hk'
    obtain ⟨p, hp, rfl⟩ := List.mem_map.mp hk
    have hp : Exits s s' p := by simpa using (List.mem_filter.mp hp).2
    exact hp.1 ((h.zombie p (hstep.used_of_exits hinv hp)).mp hk')

omit [DecidableEq C] in
theorem returned_step (h : HistoryInv s history) :
    (history.record s s').returned.Nodup := by
  have hused : ∀ {z : Slot}, Reaped s s' z → (s.proc z).state ≠ .unused := by
    intro z hz
    simp [hz.1]
  refine List.Nodup.append (List.Nodup.map_on ?_ ((List.nodup_finRange NPROC).filter _))
    h.returned ?_
  · intro p hp q hq heq
    have hp : Reaped s s' p := by simpa using (List.mem_filter.mp hp).2
    have hq : Reaped s s' q := by simpa using (List.mem_filter.mp hq).2
    exact h.distinct p q (hused hp) (hused hq) heq
  · intro k hk hk'
    obtain ⟨z, hz, rfl⟩ := List.mem_map.mp hk
    have hz : Reaped s s' z := by simpa using (List.mem_filter.mp hz).2
    exact h.returned_gone _ hk' z (hused hz) rfl

omit [DecidableEq C] in
theorem returned_exited_step (h : HistoryInv s history) {k : ℕ}
    (hk : k ∈ (history.record s s').returned) : k ∈ history.exited := by
  rcases mem_returned_record.mp hk with ⟨z, hz, rfl⟩ | hk
  · exact (h.zombie z (by simp [hz.1])).mpr hz.1
  · exact h.returned_exited k hk

theorem returned_gone_step (h : HistoryInv s history) (hinv : Inv s) (hstep : Step kernel s a s')
    {k : ℕ} (hk : k ∈ (history.record s s').returned) (hused : (s'.proc n).state ≠ .unused) :
    (history.record s s').serial n ≠ k := by
  refine ne_serial_of_lt hinv hstep (h.exited_lt k (h.returned_exited_step hk)) (fun hn => ?_) hused
  rcases mem_returned_record.mp hk with ⟨z, hz, rfl⟩ | hk
  · intro heq
    obtain rfl := h.distinct n z hn (by simp [hz.1]) heq
    exact hused hz.2
  · exact h.returned_gone k hk n hn

theorem builder_step (h : HistoryInv s history) (hinv : Inv s) (hstep : Step kernel s a s')
    (hchild : (s'.thread p).pc.child = some n) :
    (history.record s s').forker n = some ((history.record s s').serial p) := by
  have hinv' := hinv.step hstep
  -- the thread of a slot that has just been allocated builds nothing
  have hnot : ¬ Created s s' p := by
    intro hcreated
    rcases hstep.created_or_used hinv hcreated.2 with ⟨-, -, hembryo⟩ | ⟨hnot, -⟩
    · rcases hinv'.dead p (Or.inr (Or.inl hembryo)) with hpc | hpc <;>
        simp [hpc, Pc.child] at hchild
    · exact hnot hcreated
  rw [serial_record hnot]
  rcases hstep.child_eq hchild with hbefore | hunused
  · have hn : ¬ Created s s' n := by
      intro hcreated
      simpa [hinv.embryo p n hbefore] using hcreated.1
    simp only [History.record, if_neg hn]
    exact h.builder n p hbefore
  · have hembryo := hinv'.embryo p n hchild
    have hcreated : Created s s' n := ⟨(find?_slots_eq_some_iff.mp hunused).1, by simp [hembryo]⟩
    have hbuilder : Xv6.builder s' n = some p :=
      find?_slots_eq_some_iff.mpr ⟨hchild, fun q hq => (hinv'.builder q p n hq hchild).ge⟩
    simp [History.record, hcreated, hbuilder]

theorem forker_step (h : HistoryInv s history) (htree : TreeInv s) (hinv : Inv s)
    (hstep : Step kernel s a s') (hn : n ≠ initproc) (hlive' : (s'.proc n).state.live)
    (hparent' : (s'.proc n).parent = some p) :
    ∃ k, (history.record s s').forker n = some k ∧
      (k ∉ (history.record s s').exited ∧ (history.record s s').serial p = k ∨
        k ∈ (history.record s s').exited ∧ p = initproc) := by
  have hnot : ¬ Created s s' n := by
    intro hcreated
    rcases hstep.created_or_used hinv hcreated.2 with ⟨-, -, hembryo⟩ | ⟨hnot, -⟩
    · simp [hembryo, ProcState.live] at hlive'
    · exact hnot hcreated
  have hforker : (history.record s s').forker n = history.forker n := by
    simp [History.record, hnot]
  have hused : ∀ {q : Slot}, (s.proc q).state.alive → (s.proc q).state ≠ .unused ∧
      (s.proc q).state ≠ .zombie ∧ (history.record s s').serial q = history.serial q := by
    intro q halive
    have hstate : (s.proc q).state ≠ .unused ∧ (s.proc q).state ≠ .zombie := by
      constructor <;> intro hq <;> simp [hq, ProcState.alive] at halive
    exact ⟨hstate.1, hstate.2, serial_record fun hcreated => hstate.1 hcreated.1⟩
  rw [hforker]
  by_cases hlive : (s.proc n).state.live
  · obtain ⟨q, hparent, halive⟩ := htree.parent n hn hlive
    obtain ⟨hq, hq', hserial⟩ := hused halive
    rw [hstep.parent_of_live hinv hlive hlive', hparent, Option.map_some] at hparent'
    obtain rfl := Option.some.inj hparent'
    obtain ⟨k, hk, hcases⟩ := h.forker n q hn hlive hparent
    refine ⟨k, hk, ?_⟩
    rcases hcases with ⟨hpast, rfl⟩ | ⟨hpast, rfl⟩
    · -- the parent is the process that forked it
      by_cases hexits : Exits s s' q
      · exact Or.inr ⟨mem_exited_record.mpr (Or.inl ⟨q, hexits, rfl⟩), if_pos hexits⟩
      · refine Or.inl ⟨?_, by rw [if_neg hexits, hserial]⟩
        rw [h.mem_exited_iff hinv hstep hq]
        rintro (hexits' | hzombie)
        · exact hexits hexits'
        · exact hq' hzombie
    · exact Or.inr ⟨mem_exited_record.mpr (Or.inr hpast), ite_self _⟩
  · obtain ⟨c, q, rfl, hctrl, hpc, hsame⟩ :=
      (hstep.life hinv n).started_of_live hinv hlive hlive'
    have hchild : (s.thread q).pc.child = some n := by rw [hpc]; rfl
    have hrunning := (hinv.run c q hctrl).2
    obtain ⟨hq, hq', hserial⟩ := hused (q := q) (by simp [hrunning, ProcState.alive])
    have hparent : (s.proc n).parent = some q :=
      (htree.embryo n q (hinv.embryo q n hchild)).mpr (by rw [hpc]; rfl)
    obtain rfl : q = p := Option.some.inj (hparent.symm.trans (hsame.symm.trans hparent'))
    refine ⟨history.serial q, h.builder n q hchild, Or.inl ⟨?_, hserial⟩⟩
    rw [h.mem_exited_iff hinv hstep hq]
    rintro (hexits | hzombie)
    · obtain ⟨c', haction, -⟩ := hstep.zombie_of_exits hinv hexits
      simp at haction
    · exact hq' hzombie

theorem step (h : HistoryInv s history) (htree : TreeInv s) (hinv : Inv s)
    (hstep : Step kernel s a s') : HistoryInv s' (history.record s s') where
  lt _ := h.lt_step hinv hstep
  distinct _ _ := h.distinct_step hinv hstep
  zombie _ := h.zombie_step hinv hstep
  exited_lt _ hk := (h.exited_lt_step hinv hstep hk).trans_le created_le
  exited := h.exited_step hinv hstep
  returned := h.returned_step
  returned_exited _ hk := mem_exited_record.mpr (Or.inr (h.returned_exited_step hk))
  returned_gone _ hk _ := h.returned_gone_step hinv hstep hk
  builder _ _ := h.builder_step hinv hstep
  forker _ _ := h.forker_step htree hinv hstep

omit [DecidableEq C] in
theorem boot (kstack pgdir : Addr) : HistoryInv (boot C kstack pgdir) History.boot := by
  have hinit : ∀ n, ((Xv6.boot C kstack pgdir).proc n).state ≠ .unused → n = initproc := by
    intro n hn
    by_contra hne
    simp [Xv6.boot, hne] at hn
  constructor
  case distinct => exact fun n m hn hm _ => (hinit n hn).trans (hinit m hm).symm
  case zombie =>
    intro n hn
    obtain rfl := hinit n hn
    simp [History.boot, Xv6.boot]
  case forker =>
    intro n p hn hlive
    refine absurd (hinit n ?_) hn
    intro hunused
    simp [hunused, ProcState.live] at hlive
  all_goals simp [History.boot, Xv6.boot, Pc.child]

end HistoryInv

/-! ## Reaping -/

/-- `p` takes a round of `wait` or `procstat` by this action. -/
def TakesRound (s : State C) (a : Action C) (c : C) (p : Slot) : Prop :=
  (s.cpu c).ctrl = .run p ∧ ∃ request : Pc, request.waiting ∧
    (request.call c a ∨ a = .resume c ∧ (s.thread p).pc = request)

/-- What a step has to do with reaping.  A process is reaped by a call of its
parent, which returns its pid and frees its pages; a call that returns reaps one
process or fails; and the pages of a process are freed only when it is reaped. -/
structure Reaping (s : State C) (a : Action C) (s' : State C) : Prop where
  parent : ∀ z, Reaped s s' z → ∃ c p, TakesRound s a c p ∧ (s.proc z).parent = some p ∧
    (s'.thread p).pc = .user ∧ (s'.thread p).ret = (s.proc z).pid ∧
      ∀ x, (s.proc z).kstack = some x ∨ (s.proc z).pgdir = some x → x ∈ s.used ∧ x ∉ s'.used
  call : ∀ c p, TakesRound s a c p → (s'.thread p).pc = .user →
    (s'.thread p).ret = -1 ∧ (∀ z, ¬ Reaped s s' z) ∨
      ∃ z, Reaped s s' z ∧ (∀ z', Reaped s s' z' → z' = z) ∧
        (s'.thread p).ret = (s.proc z).pid
  freed : ∀ z x, (s.proc z).state.live → (s.proc z).kstack = some x ∨ (s.proc z).pgdir = some x →
    x ∈ s.used ∧ (x ∉ s'.used → Reaped s s' z)

omit [DecidableEq C] in
/-- The pages of a process stay its own until it is reaped, or `exec` replaces
the page directory. -/
theorem Life.pages_of_live {q' : Proc} (hinv : Inv s) (h : Life kernel s a n q')
    (hlive : (s.proc n).state.live) :
    q'.state.live ∧ q'.kstack = (s.proc n).kstack ∧
        (q'.pgdir = (s.proc n).pgdir ∨ ∃ c, a = .execCommit c ∧ (s.cpu c).ctrl = .run n) ∨
      (s.proc n).state = .zombie ∧ q'.state = .unused := by
  have hembryo : ∀ {p : Slot}, (s.thread p).pc.child ≠ some n := by
    intro p hchild
    simp [hinv.embryo p n hchild, ProcState.live] at hlive
  cases h with
  | same | resumed | gaveUp | fault | listed => exact Or.inl ⟨hlive, rfl, Or.inl rfl⟩
  | committed c _ haction hctrl => exact Or.inl ⟨hlive, rfl, Or.inr ⟨c, haction, hctrl⟩⟩
  | exited _ x _ _ hx =>
      rcases hx with rfl | ⟨-, rfl⟩ <;> exact Or.inl ⟨rfl, rfl, Or.inl rfl⟩
  | orphaned _ _ x _ _ _ hx =>
      rcases hx with rfl | ⟨-, rfl⟩
      · exact Or.inl ⟨hlive, rfl, Or.inl rfl⟩
      · exact Or.inl ⟨rfl, rfl, Or.inl rfl⟩
  | killed =>
      refine Or.inl ⟨?_, rfl, Or.inl rfl⟩
      by_cases hsleeping : (s.proc n).state = .sleeping
      · simp [Proc.kill, hsleeping, ProcState.live]
      · simp [Proc.kill, hsleeping, hlive]
  | allocated _ _ _ hunused =>
      simp [(find?_slots_eq_some_iff.mp hunused).1, ProcState.live] at hlive
  | stacked _ _ _ _ _ hchild => exact absurd hchild hembryo
  | inherited _ p _ _ _ _ hpc => exact absurd (by rw [hpc]; rfl) (hembryo (p := p))
  | freed _ _ _ _ _ hchild => exact absurd hchild hembryo
  | reaped _ _ _ _ _ _ hzombie => exact Or.inr ⟨hzombie, rfl⟩
  | _ => exact Or.inl ⟨rfl, rfl, Or.inl rfl⟩

theorem Step.used_of_execCommit (hstep : Step kernel s (.execCommit c) s') : s'.used = s.used := by
  cases hstep with
  | round _ _ _ _ _ _ hentry => simpa using hentry.action_eq
  | execCommit => rfl

/-- What a round reaps, and what it returns. -/
theorem Round.reaps (hinv : Inv s) {request : Pc} {scanning : State C}
    (hentry : Entry s c p request a scanning) (hround : Round kernel scanning c p request s') :
    (∀ z, ¬ Reaped s s' z) ∧ ((s'.thread p).pc = .user → (s'.thread p).ret = -1) ∨
      ∃ z kstack pgdir, Reaped s s' z ∧ (∀ z', Reaped s s' z' → z' = z) ∧
        (s.proc z).parent = some p ∧ (s.proc z).kstack = some kstack ∧
          (s.proc z).pgdir = some pgdir ∧ s'.used = (s.used.erase kstack).erase pgdir ∧
            (s'.thread p).pc = .user ∧ (s'.thread p).ret = (s.proc z).pid := by
  have hctrl := hentry.ctrl
  have hne : ∀ {z : Slot}, Reaped s s' z → z ≠ p := by
    rintro z hz rfl
    simpa [(hinv.run c z hctrl).2] using hz.1
  cases hround with
  | reaped z kstack pgdir hfinds hkstack hpgdir hlock =>
      have hz : z ≠ p := finds_ne hfinds ((hentry.state_eq p).trans (hinv.run c p hctrl).2)
      obtain ⟨hparent, hzombie⟩ := finds_spec hfinds
      have hpid : (answered kernel request (scanning.proc z) (scanning.thread p)).ret =
          (scanning.proc z).pid := by
        cases request with
        | procstat pid pstat => exact (procstatFinds_eq_some_iff.mp hfinds).1.2.1.symm
        | _ => rfl
      have hpc : (answered kernel request (scanning.proc z) (scanning.thread p)).pc = .user := by
        cases request <;> rfl
      rw [hentry.proc_of_ne hz] at hparent hzombie hkstack hpgdir
      refine Or.inr ⟨z, kstack, pgdir, ⟨hzombie, by simp [Proc.reaped]⟩, fun z' hz' => ?_, hparent,
        hkstack, hpgdir, by simp [hentry.used], by simpa using hpc, ?_⟩
      · by_contra hne'
        have hunused := hz'.2
        simp [hne', hentry.proc_of_ne (hne hz'), hz'.1] at hunused
      · simpa [hentry.proc_of_ne hz] using hpid
  | gaveUp hfinds hcannot hlock =>
      refine Or.inl ⟨fun z hz => ?_, fun _ => by simp⟩
      have hunused := hz.2
      simp [hne hz, hentry.proc_of_ne (hne hz), hz.1] at hunused
  | slept hfinds hkids hkilled hlock =>
      refine Or.inl ⟨fun z hz => ?_, fun huser => ?_⟩
      · have hunused := hz.2
        simp [hne hz, hentry.proc_of_ne (hne hz), hz.1] at hunused
      · have hwaiting := hentry.waiting
        simp [hentry.pc_eq] at huser
        simp [huser, Pc.waiting] at hwaiting

theorem Step.reaping (hinv : Inv s) (hpages : PageInv s) (hstep : Step kernel s a s') :
    Reaping s a s' := by
  have hpages' := hpages.step hinv hstep
  constructor
  case parent =>
    intro z hz
    obtain ⟨c, p, request, hwaiting, haction, hctrl⟩ :=
      (hstep.life hinv z).reaped_of_zombie hinv hz.1 hz.2
    obtain ⟨scanning, hentry, hround⟩ := hstep.exists_round hinv hctrl request hwaiting haction
    rcases hround.reaps hinv hentry with ⟨hnone, -⟩ |
      ⟨z', kstack, pgdir, -, honly, hparent, hkstack, hpgdir, hused, hpc, hret⟩
    · exact absurd hz (hnone z)
    obtain rfl := honly z hz
    refine ⟨c, p, ⟨hctrl, request, hwaiting, haction⟩, hparent, hpc, hret, fun x hx => ?_⟩
    have hholds : s.holds (.kstack z) = some kstack := hkstack
    have hholds' : s.holds (.pgdir z) = some pgdir := by
      simp [State.holds, hz.1, hpgdir, ProcState.live]
    have hnodup := hpages.exclusive.nodup
    rw [hused]
    rcases hx with hx | hx
    · obtain rfl : kstack = x := Option.some.inj (hkstack.symm.trans hx)
      exact ⟨hpages.exclusive.listed _ _ hholds,
        fun hmem => hnodup.not_mem_erase (List.mem_of_mem_erase hmem)⟩
    · obtain rfl : pgdir = x := Option.some.inj (hpgdir.symm.trans hx)
      exact ⟨hpages.exclusive.listed _ _ hholds', (hnodup.erase _).not_mem_erase⟩
  case call =>
    rintro c p ⟨hctrl, request, hwaiting, haction⟩ huser
    obtain ⟨scanning, hentry, hround⟩ := hstep.exists_round hinv hctrl request hwaiting haction
    rcases hround.reaps hinv hentry with ⟨hnone, hret⟩ |
      ⟨z, kstack, pgdir, hz, honly, -, -, -, -, -, hret⟩
    · exact Or.inl ⟨hret huser, hnone⟩
    · exact Or.inr ⟨z, hz, honly, hret⟩
  case freed =>
    intro z x hlive hx
    have hlisted : x ∈ s.used := by
      rcases hx with hx | hx
      · exact hpages.exclusive.listed (.kstack z) x hx
      · exact hpages.exclusive.listed (.pgdir z) x (by simp [State.holds, hlive, hx])
    refine ⟨hlisted, fun hfreed => ?_⟩
    rcases (hstep.life hinv z).pages_of_live hinv hlive with ⟨hlive', hkstack, hpgdir⟩ | hreaped
    · -- the process still holds the page, or has handed it to its thread in `exec`
      refine absurd ?_ hfreed
      rcases hx with hx | hx
      · exact hpages'.exclusive.listed (.kstack z) x (hkstack.trans hx)
      · rcases hpgdir with hpgdir | ⟨c, rfl, -⟩
        · refine hpages'.exclusive.listed (.pgdir z) x ?_
          rw [State.holds, if_pos hlive', hpgdir, hx]
        · rwa [hstep.used_of_execCommit]
    · exact hreaped

/-- The table and the history of the processes it holds.  The parent of a process
is alive: it is the process that forked it, or init if that one has exited. -/
structure Family (s : State C) (history : History) : Prop where
  unused : ∀ n, (s.proc n).state = .unused → (s.proc n).parent = none
  parent : ∀ n, n ≠ initproc → (s.proc n).state.live →
    ∃ p k, (s.proc n).parent = some p ∧ (s.proc p).state.alive ∧ history.forker n = some k ∧
      (k ∉ history.exited ∧ history.serial p = k ∨ k ∈ history.exited ∧ p = initproc)
  returned : history.returned.Nodup
  exited : ∀ k ∈ history.returned, k ∈ history.exited

/-- In every run the living are children of the living, every process is reaped
at most once, by its parent of that time, and its pages are freed then and at no
other time. -/
theorem family (kernel : Kernel) (kstack pgdir : Addr) (s : State C) (history : History)
    (hne : kstack ≠ pgdir)
    (run : Reaches (recorded (step kernel) History.record)
      (boot C kstack pgdir, History.boot) (s, history)) :
    Family s history ∧ ∀ a s', step kernel s a = .next s' → Reaping s a s' := by
  obtain ⟨hinv, hpages, htree, hhistory⟩ :
      Inv s ∧ PageInv s ∧ TreeInv s ∧ HistoryInv s history := run.invariant
    (I := fun x : State C × History => Inv x.1 ∧ PageInv x.1 ∧ TreeInv x.1 ∧ HistoryInv x.1 x.2)
    ⟨.boot kstack pgdir, .boot hne, .boot kstack pgdir, .boot kstack pgdir⟩
    fun x a y hstep _ ⟨hinv, hpages, htree, hhistory⟩ => by
      obtain ⟨hstep, hrecord⟩ := recorded_eq_next.mp hstep
      have hstep := step_cases hstep
      rw [hrecord]
      exact ⟨hinv.step hstep, hpages.step hinv hstep, htree.step hinv hstep,
        hhistory.step htree hinv hstep⟩
  refine ⟨⟨htree.unused, fun n hn hlive => ?_, hhistory.returned, hhistory.returned_exited⟩,
    fun a s' hstep => (step_cases hstep).reaping hinv hpages⟩
  obtain ⟨p, hparent, halive⟩ := htree.parent n hn hlive
  obtain ⟨k, hk, hcases⟩ := hhistory.forker n p hn hlive hparent
  exact ⟨p, k, hparent, halive, hk, hcases⟩

end Steps

/-! ## An orphan -/

/-- The first process waits for its child, which forks a child of its own and
exits. -/
def orphaned : List (Action Unit) :=
  atUser ++ forks none 3 4 ++ [.wait (), .back (), .acquire (), .pick (), .resume ()] ++
    forks none 5 6 ++ [.exit (), .zombie (), .back (), .acquire (), .pick ()]

/-- The grandchild is a child of the first process when that reaps its child. -/
theorem family_orphaned : ∃ (s s' : State Unit) (history : History), Family s history ∧
    (s.proc 2).parent = some initproc ∧ history.forker 2 = some 1 ∧ 1 ∈ history.exited ∧
      Reaping s (.resume ()) s' ∧ Reaped s s' 1 := by
  have hrun : (exec (recorded (step .fcfs) History.record) (boot Unit 1 2, History.boot)
      orphaned).test (fun s =>
        decide ((s.1.proc 2).parent = some initproc ∧ s.2.forker 2 = some 1 ∧
          s.2.exited = [1] ∧ (s.1.proc 1).state = .zombie) &&
        (step .fcfs s.1 (.resume ())).test fun s' =>
          decide ((s'.proc 1).state = .unused)) = true := by
    decide +kernel
  obtain ⟨⟨s, history⟩, run, hrun⟩ := reaches_of_test hrun
  obtain ⟨hbefore, hrun⟩ := Bool.and_eq_true_iff.mp hrun
  obtain ⟨hparent, hforker, hexited, hzombie⟩ := of_decide_eq_true hbefore
  obtain ⟨s', hstep, hunused⟩ := Outcome.test_eq_true.mp hrun
  obtain ⟨hfamily, hreaping⟩ := family .fcfs 1 2 s history (by decide) run
  have hmem : 1 ∈ history.exited := by
    change history.exited = [1] at hexited
    simp [hexited]
  exact ⟨s, s', history, hfamily, hparent, hforker, hmem, hreaping _ s' hstep,
    hzombie, of_decide_eq_true hunused⟩

end Xv6
