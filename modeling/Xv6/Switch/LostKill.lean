import Xv6.Switch.Protocol

/-!
# Kills and sleeps

The waits of `wait`, `procstat`, `piperead`, `pipewrite`, `consoleread` and
`sys_sleep` test `killed` before they sleep, and `kill` wakes a process that it
finds asleep.  The obstacle is the time between: `piperead`, `pipewrite`,
`consoleread` and `sys_sleep` test `killed` under a lock of their own, and `kill` sets
it under `ptable.lock`, which `sleep` acquires only later.  A kill in this window
finds the process running, wakes nobody, and the process sleeps on
(`kill_lost`).  With no kill in the window none is lost (`kill_not_lost`).
-/

namespace Xv6.Switch

open Transition Typestate

variable {P C : Type} {m m' : Machine P C} {ts : Thread P C → Ctx} {c : C} {p q : P} {rest : Stack}
variable {code : KernelCode} {a : Act} {left : Bool} {i : ℕ}

/-! ## The window -/

/-- What the processes are waiting for: `tested p` where `p` has found `killed` to be 0
and its sleep is still to come, and `killable p` where its last sleep was of this
kind. -/
structure Waits (P : Type) where
  tested : P → Bool
  killable : P → Bool

section Steps

variable [DecidableEq P] [DecidableEq C]

/-- What an act of process `proc` that concerns process `q` tells about the waits. -/
def Waits.act (r : Waits P) (proc : Option P) (q : P) : Act → Waits P
  | .notKilled => { r with tested := fun p => decide (proc = some p) || r.tested p }
  | .setState _ killable =>
      { tested := fun p => !decide (proc = some p) && r.tested p
        killable := fun p => if proc = some p then killable else r.killable p }
  | .allocproc => { r with tested := Function.update r.tested q false }
  | _ => r

def Waits.record (r : Waits P) (s : Machine P C) (e : Event P C) (_ : Machine P C) : Waits P :=
  match e with
  | .run c _ _ q =>
      match s.top c with
      | .prog (.act a) :: _ => r.act (s.cpu c).proc q a
      | _ => r
  | _ => r

/-- What comes next is the act of `kill`. -/
def kills : Stack → Bool
  | .prog (.act .kill) :: _ => true
  | _ => false

/-- The step is not a `kill` of a process in the window. -/
def OutsideWindow (s : Machine P C × Waits P) (e : Event P C) (_ : Machine P C × Waits P) : Prop :=
  match e with
  | .run c _ _ q => kills (s.1.top c) = true → s.2.tested q = false
  | _ => True

instance (s : Machine P C × Waits P) (e : Event P C) (t : Machine P C × Waits P) :
    Decidable (OutsideWindow s e t) :=
  match e with
  | .run _ _ _ _ => inferInstanceAs (Decidable (_ → _))
  | .interrupt _ | .syscall _ | .peek _ => .isTrue trivial

/-- A killed process sleeps in one of the waits that test `killed`. -/
def LostKill (m : Machine P C) (r : Waits P) (p : P) : Prop :=
  m.killed p = true ∧ m.state p = .sleeping ∧ r.killable p = true

instance (m : Machine P C) (r : Waits P) (p : P) : Decidable (LostKill m r p) :=
  inferInstanceAs (Decidable (_ ∧ _ ∧ _))

/-! ## The invariant -/

structure Awake (m : Machine P C) (ts : Thread P C → Ctx) (r : Waits P) : Prop where
  tested : ∀ p, r.tested p = (ts (.proc p)).tested
  alive : ∀ p, r.tested p = true → m.killed p = false
  asleep : ∀ p, ¬LostKill m r p

variable {r r' : Waits P}

omit [DecidableEq P] [DecidableEq C] in
/-- A step that kills nobody and puts nobody to sleep. -/
theorem Awake.calm (h : Awake m ts r) {ts' : Thread P C → Ctx}
    (htested : ∀ p, r'.tested p = (ts' (.proc p)).tested)
    (hkept : ∀ p, r'.tested p = true → r.tested p = true) (hkillable : r'.killable = r.killable)
    (hkilled : ∀ p, m'.killed p = true → m.killed p = true)
    (hstate : ∀ p, m'.state p = .sleeping → m.state p = .sleeping) : Awake m' ts' r' where
  tested := htested
  alive p hp := by
    have halive := h.alive p (hkept p hp)
    by_contra hnot
    rw [hkilled p (by simpa using hnot)] at halive
    simp at halive
  asleep p := by
    rintro ⟨hp, hsleeping, hr⟩
    exact h.asleep p ⟨hkilled p hp, hstate p hsleeping, by rwa [← hkillable]⟩

/-- Kills and new states come from these acts only. -/
theorem Machine.exec_calm (hexec : m.exec code c q rest a = .next m')
    (hsetState : ∀ state killable, a ≠ .setState state killable) (hkill : a ≠ .kill)
    (hsetKilled : a ≠ .setKilled) :
    (∀ p, m'.killed p = true → m.killed p = true) ∧
      ∀ p, m'.state p = .sleeping → m.state p = .sleeping := by
  have hupdate : ∀ state p, state ≠ .sleeping →
      Function.update m.state q state p = .sleeping → m.state p = .sleeping := by
    intro state p hne hp
    by_cases hpq : p = q
    · subst hpq
      rw [Function.update_self] at hp
      exact absurd hp hne
    · rwa [Function.update_of_ne hpq] at hp
  cases a with
  | setState state killable => exact absurd rfl (hsetState state killable)
  | kill => exact absurd rfl hkill
  | setKilled => exact absurd rfl hsetKilled
  | wakeup | allocproc | setRunnable | discard =>
      simp only [exec, change] at hexec
      split at hexec
      · obtain rfl := Outcome.next.inj hexec
        exact ⟨fun p hp => hp, fun p => hupdate _ p (by simp)⟩
      · simp at hexec
  | reap =>
      simp only [exec, change] at hexec
      split at hexec
      · obtain rfl := Outcome.next.inj hexec
        refine ⟨fun p (hp : Function.update m.killed q false p = true) => ?_,
          fun p => hupdate _ p (by simp)⟩
        by_cases hpq : p = q
        · subst hpq
          simp at hp
        · rwa [Function.update_of_ne hpq] at hp
      · simp at hexec
  | dispatch =>
      simp only [exec] at hexec
      split at hexec
      · obtain rfl := Outcome.next.inj hexec
        exact ⟨fun p hp => hp, fun p => hupdate _ p (by simp)⟩
      · simp at hexec
  | sched =>
      simp only [exec] at hexec
      split at hexec
      · unfold sched at hexec
        split_ifs at hexec
        obtain rfl := Outcome.next.inj hexec
        exact ⟨fun p hp => hp, fun p hp => hp⟩
      · simp at hexec
  | release l =>
      simp only [exec] at hexec
      split at hexec
      · simp at hexec
      · split at hexec
        · obtain rfl := Outcome.next.inj hexec
          exact ⟨fun p hp => hp, fun p hp => hp⟩
        · simp at hexec
        · simp at hexec
  | sti | iret | restore | undispatch =>
      obtain rfl := Outcome.next.inj hexec
      exact ⟨fun p hp => hp, fun p hp => hp⟩
  | acquire l =>
      simp only [exec] at hexec
      split at hexec
      · simp at hexec
      · obtain rfl := Outcome.next.inj hexec
        exact ⟨fun p hp => hp, fun p hp => hp⟩
  | spin l =>
      simp only [exec] at hexec
      split at hexec
      · obtain rfl := Outcome.next.inj hexec
        exact ⟨fun p hp => hp, fun p hp => hp⟩
      · simp at hexec
  | notKilled =>
      simp only [exec] at hexec
      split at hexec
      · split at hexec
        · simp at hexec
        · obtain rfl := Outcome.next.inj hexec
          exact ⟨fun p hp => hp, fun p hp => hp⟩
      · simp at hexec

omit [DecidableEq P] [DecidableEq C] in
theorem after_tested {t t' : Ctx} (hnext : next a t = some t')
    (hsetState : ∀ state killable, a ≠ .setState state killable) (hnotKilled : a ≠ .notKilled) :
    (after a t).tested = t.tested := by
  cases a with
  | setState state killable => exact absurd rfl (hsetState state killable)
  | notKilled => exact absurd rfl hnotKilled
  | acquire l => rfl
  | sched => rfl
  | _ =>
      simp only [after, hnext, Option.getD_some]
      simp only [next, Option.ite_none_right_eq_some, Option.some.injEq] at hnext
      obtain ⟨hallowed, rfl⟩ := hnext
      simp [hallowed]

/-- An act that is neither of the window nor makes a process. -/
theorem Awake.follow_tested (h : Awake m ts r) (htop : m.top c = .prog (.act a) :: rest) {t' : Ctx}
    (hnext : next a (ts (m.cpu c).current) = some t')
    (hsetState : ∀ state killable, a ≠ .setState state killable) (hnotKilled : a ≠ .notKilled)
    (hallocproc : a ≠ .allocproc) (p : P) :
    r.tested p = (follow m ts (.run c left i q) (.proc p)).tested := by
  simp only [follow, htop, if_neg hallocproc]
  by_cases hp : Thread.proc p = (m.cpu c).current
  · rw [hp, Function.update_self, after_tested hnext hsetState hnotKilled, ← hp]
    exact h.tested p
  · rw [Function.update_of_ne hp]
    exact h.tested p

theorem Awake.allocproc (h : Awake m ts r) (hinv : Inv m ts)
    (htop : m.top c = .prog (.act .allocproc) :: rest)
    (hexec : m.exec code c q rest .allocproc = .next m') :
    Awake m' (follow m ts (.run c left i q)) (r.act (m.cpu c).proc q .allocproc) := by
  obtain ⟨t', hnext, -⟩ := conforms_act.mp (htop ▸ hinv.fits c)
  obtain ⟨hkilled, hstate⟩ := Machine.exec_calm hexec (by simp) (by simp) (by simp)
  refine h.calm (fun p => ?_) (fun p hp => ?_) rfl hkilled hstate
  · simp only [Waits.act, follow, htop, if_true]
    by_cases hpq : p = q
    · simp [hpq]
    · rw [Function.update_of_ne hpq, Function.update_of_ne (by simpa using hpq)]
      have hsame : after .allocproc (ts (m.cpu c).current) = ts (m.cpu c).current := by
        rw [Inv.after_eq hnext (by simp) (by simp)]
        simp only [next, Option.ite_none_right_eq_some, Option.some.injEq] at hnext
        exact hnext.2.symm
      rw [hsame, Function.update_eq_self]
      exact h.tested p
  · by_cases hpq : p = q
    · simp [Waits.act, hpq] at hp
    · simpa [Waits.act, hpq] using hp

/-- The window opens. -/
theorem Awake.notKilled (h : Awake m ts r) (hinv : Inv m ts)
    (htop : m.top c = .prog (.act .notKilled) :: rest)
    (hexec : m.exec code c q rest .notKilled = .next m') :
    Awake m' (follow m ts (.run c left i q)) (r.act (m.cpu c).proc q .notKilled) := by
  obtain ⟨t', hnext, -⟩ := conforms_act.mp (htop ▸ hinv.fits c)
  obtain ⟨⟨hprocess, -, -, -⟩, rfl⟩ := by simpa [next] using hnext
  simp only [Machine.exec] at hexec
  split at hexec
  · rename_i p₁ hproc
    have hcurrent := hinv.current_eq hprocess hproc
    split at hexec
    · simp at hexec
    · rename_i halive
      obtain rfl := Outcome.next.inj hexec
      refine ⟨fun p => ?_, fun p hp => ?_, h.asleep⟩
      · simp only [Waits.act, follow, htop, hcurrent, hproc]
        by_cases hp : p = p₁
        · subst hp
          simp [after, hcurrent ▸ hnext]
        · simp [hp, Ne.symm hp, h.tested p]
      · by_cases hpp : p = p₁
        · subst hpp
          have hkilled : m.killed p = false := by simpa using halive
          exact hkilled
        · exact h.alive p (by simpa [Waits.act, hproc, Ne.symm hpp] using hp)
  · simp at hexec

/-- The window closes: the process has not been killed since it looked. -/
theorem Awake.setState (h : Awake m ts r) (hinv : Inv m ts) {state : ProcState} {killable : Bool}
    (htop : m.top c = .prog (.act (.setState state killable)) :: rest)
    (hexec : m.exec code c q rest (.setState state killable) = .next m') :
    Awake m' (follow m ts (.run c left i q))
      (r.act (m.cpu c).proc q (.setState state killable)) := by
  obtain ⟨t', hnext, -⟩ := conforms_act.mp (htop ▸ hinv.fits c)
  obtain ⟨⟨hprocess, -, -, htested, -⟩, rfl⟩ := by simpa [next] using hnext
  simp only [Machine.exec] at hexec
  split at hexec
  · rename_i p₁ hproc
    have hcurrent := hinv.current_eq hprocess hproc
    obtain rfl := Outcome.next.inj hexec
    refine ⟨fun p => ?_, fun p hp => ?_, fun p => ?_⟩
    · simp only [Waits.act, follow, htop, hcurrent, hproc]
      by_cases hp : p = p₁
      · subst hp
        simp [after, hcurrent ▸ hnext]
      · simp [hp, Ne.symm hp, h.tested p]
    · refine h.alive p ?_
      simp only [Waits.act, Bool.and_eq_true] at hp
      exact hp.2
    · rintro ⟨hkilled, hsleeping, hkillable⟩
      by_cases hpp : p = p₁
      · subst hpp
        have hlooked : r.tested p = true := by
          rw [h.tested, ← hcurrent, htested]
          simpa [Waits.act, hproc] using hkillable
        have halive := h.alive p hlooked
        have hkilled : m.killed p = true := hkilled
        simp [halive] at hkilled
      · refine h.asleep p ⟨hkilled, ?_, ?_⟩
        · simpa [hpp] using hsleeping
        · simpa [Waits.act, hproc, Ne.symm hpp] using hkillable
  · simp at hexec

/-- `trap` kills the running process, in user space. -/
theorem Awake.setKilled (h : Awake m ts r) (hinv : Inv m ts)
    (htop : m.top c = .prog (.act .setKilled) :: rest)
    (hexec : m.exec code c q rest .setKilled = .next m') :
    Awake m' (follow m ts (.run c left i q)) (r.act (m.cpu c).proc q .setKilled) := by
  obtain ⟨t', hnext, -⟩ := conforms_act.mp (htop ▸ hinv.fits c)
  obtain ⟨hidle, -⟩ : ts (m.cpu c).current = idle true ∧ ts (m.cpu c).current = t' := by
    simpa [next] using hnext
  simp only [Machine.exec] at hexec
  split at hexec
  · rename_i p₁ hproc
    have hcurrent := hinv.current_eq (c := c) (by rw [hidle]) hproc
    rw [hcurrent] at hidle
    obtain rfl := Outcome.next.inj hexec
    refine ⟨h.follow_tested htop hnext (by simp) (by simp) (by simp), fun p hp => ?_, fun p => ?_⟩
    · by_cases hpp : p = p₁
      · subst hpp
        have htested : r.tested p = true := hp
        rw [h.tested, hidle] at htested
        simp at htested
      · simpa [hpp] using h.alive p hp
    · rintro ⟨hkilled, hsleeping, hkillable⟩
      by_cases hpp : p = p₁
      · subst hpp
        have hrunning := hinv.running c p hcurrent (by rw [hidle]; simp)
        have hsleeping : m.state p = .sleeping := hsleeping
        simp [hrunning] at hsleeping
      · exact h.asleep p ⟨by simpa [hpp] using hkilled, hsleeping, hkillable⟩
  · simp at hexec

/-- Outside the window a kill finds the process asleep and wakes it, or finds it
running and still to test `killed`. -/
theorem Awake.kill (h : Awake m ts r) (hinv : Inv m ts)
    (htop : m.top c = .prog (.act .kill) :: rest)
    (hexec : m.exec code c q rest .kill = .next m') (houtside : r.tested q = false) :
    Awake m' (follow m ts (.run c left i q)) (r.act (m.cpu c).proc q .kill) := by
  obtain ⟨t', hnext, -⟩ := conforms_act.mp (htop ▸ hinv.fits c)
  obtain rfl := Outcome.next.inj hexec
  refine ⟨h.follow_tested htop hnext (by simp) (by simp) (by simp), fun p hp => ?_, fun p => ?_⟩
  · by_cases hpq : p = q
    · subst hpq
      have htested : r.tested p = true := hp
      simp [houtside] at htested
    · simpa [hpq] using h.alive p hp
  · rintro ⟨hkilled, hsleeping, hkillable⟩
    by_cases hpq : p = q
    · subst hpq
      by_cases hstate : m.state p = .sleeping <;> simp [hstate] at hsleeping
    · exact h.asleep p ⟨by simpa [hpq] using hkilled, by simpa [hpq] using hsleeping, hkillable⟩

theorem Awake.exec (h : Awake m ts r) (hinv : Inv m ts)
    (htop : m.top c = .prog (.act a) :: rest) (hexec : m.exec code c q rest a = .next m')
    (houtside : a = .kill → r.tested q = false) :
    Awake m' (follow m ts (.run c left i q)) (r.act (m.cpu c).proc q a) := by
  obtain ⟨t', hnext, -⟩ := conforms_act.mp (htop ▸ hinv.fits c)
  cases a with
  | notKilled => exact h.notKilled hinv htop hexec
  | setState state killable => exact h.setState hinv htop hexec
  | setKilled => exact h.setKilled hinv htop hexec
  | kill => exact h.kill hinv htop hexec (houtside rfl)
  | allocproc => exact h.allocproc hinv htop hexec
  | _ =>
      obtain ⟨hkilled, hstate⟩ := Machine.exec_calm hexec (by simp) (by simp) (by simp)
      exact h.calm (h.follow_tested htop hnext (by simp) (by simp) (by simp)) (fun _ hp => hp) rfl
        hkilled hstate

/-- A step that is not an act changes neither states nor kills. -/
theorem step_control {e : Event P C} (hstep : step code m e = .next m')
    (hact : ∀ c left i q a rest, e = .run c left i q → m.top c ≠ .prog (.act a) :: rest) :
    m'.killed = m.killed ∧ m'.state = m.state ∧ follow m ts e = ts ∧ r.record m e m' = r := by
  cases e with
  | run c left i q =>
      have hcontrol : ¬∃ a rest, m.top c = .prog (.act a) :: rest := fun ⟨a, rest, htop⟩ =>
        hact c left i q a rest rfl htop
      have hrecord : r.record m (.run c left i q) m' = r := by
        simp only [Waits.record]
        split
        · rename_i a rest htop
          exact absurd ⟨a, rest, htop⟩ hcontrol
        · rfl
      simp only [step] at hstep
      split at hstep
      · rename_i a rest htop
        exact absurd ⟨a, rest, htop⟩ hcontrol
      · split at hstep
        · obtain rfl := Outcome.next.inj hstep
          exact ⟨rfl, rfl, follow_of_not_act hcontrol, hrecord⟩
        · simp at hstep
  | interrupt c | syscall c | peek c =>
      simp only [step] at hstep
      split at hstep
      all_goals first
        | obtain rfl := Outcome.next.inj hstep
          exact ⟨rfl, rfl, rfl, rfl⟩
        | simp at hstep

theorem Awake.step (h : Awake m ts r) (hinv : Inv m ts) {e : Event P C}
    (hstep : Switch.step code m e = .next m')
    (houtside : OutsideWindow (m, r) e (m', r.record m e m')) :
    Awake m' (follow m ts e) (r.record m e m') := by
  by_cases hact : ∃ c left i q a rest, e = .run c left i q ∧ m.top c = .prog (.act a) :: rest
  · obtain ⟨c, left, i, q, a, rest, rfl, htop⟩ := hact
    have hexec : m.exec code c q rest a = .next m' := by simpa [Switch.step, htop] using hstep
    have hrecord : r.record m (.run c left i q) m' = r.act (m.cpu c).proc q a := by
      simp [Waits.record, htop]
    rw [hrecord]
    refine h.exec hinv htop hexec ?_
    rintro rfl
    simpa [OutsideWindow, htop, kills] using houtside
  · obtain ⟨hkilled, hstate, hfollow, hrecord⟩ : m'.killed = m.killed ∧ m'.state = m.state ∧
        follow m ts e = ts ∧ r.record m e m' = r := step_control hstep
      fun c left i q a rest he htop => hact ⟨c, left, i, q, a, rest, he, htop⟩
    rw [hfollow, hrecord]
    exact h.calm h.tested (fun _ hp => hp) rfl (by simp [hkilled]) (by simp [hstate])

/-! ## Runs from the boot -/

/-- Nobody has tested `killed` yet. -/
def Waits.none : Waits P := ⟨fun _ => false, fun _ => false⟩

/-- A kill that hits no process between its test of `killed` and its sleep is not
lost. -/
theorem kill_not_lost (kernel : Kernel) (initproc : P) (m : Machine P C) (r : Waits P)
    (run : Run (traced (step (kernelCode kernel)) Waits.record) OutsideWindow
      (boot C (kernelCode kernel) initproc, Waits.none) (m, r)) (p : P) : ¬LostKill m r p := by
  have hinv : ∃ ts, Inv m ts ∧ Awake m ts r := by
    refine run.invariant (I := fun s => ∃ ts, Inv s.1 ts ∧ Awake s.1 ts s.2) ?_ ?_
    · refine ⟨atBoot, inv_boot (disciplined_kernelCode kernel) initproc, ?_⟩
      refine ⟨fun p => rfl, fun p hp => rfl, fun p => ?_⟩
      rintro ⟨hkilled, -⟩
      simp [boot] at hkilled
    · rintro s e t hstep houtside ⟨ts, hinv, hawake⟩
      obtain ⟨hmachine, hrecord⟩ := traced_eq_next.mp hstep
      refine ⟨follow s.1 ts e, hinv.step (disciplined_kernelCode kernel) hmachine, ?_⟩
      rw [hrecord]
      exact hawake.step hinv hmachine houtside
  obtain ⟨ts, -, hawake⟩ := hinv
  exact hawake.asleep p

end Steps

/-! ## A child that is killed

A process forks a child on one CPU.  On the other the child calls `sleep`, tests
`killed` and goes to sleep; the parent calls `kill`. -/

def bootAndFork : List (Event Bool Bool) :=
  along false false [(13, true, 0), (1, false, 0), (3, true, 0)] ++ [.syscall false] ++
  along false true [(2, true, 0), (1, false, 0), (11, true, 0), (1, false, 0), (12, true, 0),
    (1, false, 0), (3, true, 0), (1, false, 0), (19, true, 0), (1, false, 0), (2, true, 0),
    (1, false, 0), (15, true, 0), (1, false, 0), (3, true, 0)]

def childTests : List (Event Bool Bool) :=
  along true true [(13, true, 0), (1, false, 0), (3, true, 0)] ++ [.syscall true] ++
  along true true [(2, true, 0), (1, false, 0), (3, true, 0), (1, true, 12), (2, true, 0),
    (1, false, 0), (7, true, 0), (1, false, 0), (1, true, 0)]

def childSleeps : List (Event Bool Bool) :=
  along true true [(12, true, 0)]

def parentKills : List (Event Bool Bool) :=
  [.syscall false] ++
  along false true [(2, true, 0), (1, false, 0), (3, true, 0), (1, true, 5), (2, true, 0),
    (1, false, 0), (14, true, 0), (1, false, 0), (3, true, 0)]

theorem kill_not_lost_asleep : ∃ (m : Machine Bool Bool) (r : Waits Bool),
    (m.killed true = true ∧ r.killable true = true) ∧ ¬LostKill m r true := by
  have hrun : (Transition.exec
      (checked (traced (step (kernelCode .fcfs)) Waits.record) OutsideWindow)
      (boot Bool (kernelCode .fcfs) false, Waits.none)
      (bootAndFork ++ childTests ++ childSleeps ++ parentKills)).test
      (fun s => decide (s.1.killed true = true ∧ s.2.killable true = true)) = true := by
    decide +kernel
  obtain ⟨⟨m, r⟩, run, hcheck⟩ := run_of_test hrun
  exact ⟨m, r, of_decide_eq_true hcheck, kill_not_lost .fcfs false m r run true⟩

theorem kill_lost : ∃ (m : Machine Bool Bool) (r : Waits Bool),
    Reaches (traced (step (kernelCode .fcfs)) Waits.record)
      (boot Bool (kernelCode .fcfs) false, Waits.none) (m, r) ∧
      m.holder .ptable = none ∧ m.holder .tickslock = none ∧ LostKill m r true := by
  have hrun : (Transition.exec (traced (step (kernelCode .fcfs)) Waits.record)
      (boot Bool (kernelCode .fcfs) false, Waits.none)
      (bootAndFork ++ childTests ++ parentKills ++ childSleeps)).test
      (fun s => decide (s.1.holder .ptable = none ∧ s.1.holder .tickslock = none ∧
        LostKill s.1 s.2 true)) = true := by
    decide +kernel
  obtain ⟨⟨m, r⟩, hreach, hcheck⟩ := reaches_of_test hrun
  exact ⟨m, r, hreach, of_decide_eq_true hcheck⟩

end Xv6.Switch
