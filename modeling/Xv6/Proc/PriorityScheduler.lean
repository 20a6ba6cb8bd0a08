import Xv6.Proc.Scheduler
import Xv6.Proc.Ownership

/-!
# The scheduler of the priority kernel

Every dispatch is of a process of least priority number among the `RUNNABLE`
ones, and a pass that begins with a `RUNNABLE` process dispatches one
(`priority_dispatch`).

Among processes of equal priority the scan goes round, as long as it never
leaves its slot for a dispatch further back while a process that is due waits
further ahead (`roundRobin_of_fairStop`).  When it does, that process can be
passed over for ever (`not_roundRobin`).
-/

namespace Xv6

open Transition

variable {C : Type} {s s' t : State C} {a : Action C} {c : C} {p q : Slot}

/-! ## The choice -/

theorem choose_priority_le {table : Ptable} {first : ℕ}
    (h : State.choose .priority table first = some p) (hq : (table q).state = .runnable) :
    (table p).priority ≤ (table q).priority := by
  obtain ⟨p', -, rfl⟩ := Option.map_eq_some_iff.mp h
  exact highP_le table p' hq

theorem exists_choose_priority {table : Ptable} (hq : (table q).state = .runnable) :
    ∃ p, State.choose .priority table 0 = some p := by
  have hnext : nextRunnable table 0 ≠ none := by
    intro hnone
    exact nextRunnable_eq_none_iff.mp hnone q (Nat.zero_le _) hq
  obtain ⟨p', hp'⟩ := Option.ne_none_iff_exists'.mp hnext
  exact ⟨highP table p', by simp [State.choose, hp']⟩

/-! ## Dispatches -/

section Dispatch

variable [DecidableEq C]

/-- The scan of CPU `c` stands at the first slot, and there is somebody to run. -/
def Pending (c : C) (s : State C) : Prop :=
  (s.cpu c).ctrl = .scan 0 ∧ ∃ q, (s.proc q).state = .runnable

theorem Pending.dispatches (hpending : Pending c s) (hpages : PageInv s) :
    ∃ s' p, step .priority s (.pick c) = .next s' ∧ Dispatches s s' c p := by
  obtain ⟨hctrl, q, hq⟩ := hpending
  obtain ⟨p, hchoose⟩ := exists_choose_priority hq
  obtain ⟨s', hstep, hdispatch⟩ := exists_dispatch hpages hctrl hchoose
  exact ⟨s', p, hstep, hdispatch⟩

theorem Pending.step (hpending : Pending c s) (hinv : Inv s) (hstep : Step .priority s a s')
    (hnot : ∀ p, ¬ Dispatches s s' c p) : Pending c s' := by
  obtain ⟨hctrl, q, hq⟩ := hpending
  by_cases ha : a = .pick c
  · subst ha
    cases hstep with
    | endPass c first hctrl' hnone =>
        obtain rfl : 0 = first := by simpa [hctrl] using hctrl'
        obtain ⟨p, hchoose⟩ := exists_choose_priority hq
        simp [hnone] at hchoose
    | dispatch c first p pgdir => exact absurd ⟨by simp [hctrl], by simp⟩ (hnot p)
    | round _ _ _ _ _ _ hentry => simpa using hentry.action_eq
  · obtain ⟨hctrl', hsame⟩ := hstep.scanning hinv hctrl ha
    refine ⟨hctrl', q, ?_⟩
    rcases hsame q with ⟨hrunnable, -⟩ | ⟨-, hnot⟩
    · exact hrunnable
    · exact absurd hq hnot

/-- Whoever a CPU dispatches was `RUNNABLE` and had the least priority number,
a process becomes `RUNNING` in no other way, and a pass that begins with a
`RUNNABLE` process is not over before it has dispatched one. -/
theorem priority_dispatch (hreach : Reachable .priority s) :
    (∀ a s' c p, step .priority s a = .next s' → Dispatches s s' c p →
      (s.proc p).state = .runnable ∧ (s'.proc p).state = .running ∧
        ∀ q, (s.proc q).state = .runnable → (s.proc p).priority ≤ (s.proc q).priority) ∧
      (∀ a s' p, step .priority s a = .next s' → (s.proc p).state ≠ .running →
        (s'.proc p).state = .running → ∃ c, Dispatches s s' c p) ∧
      ∀ c q t, (s.cpu c).ctrl = .scan 0 → (s.proc q).state = .runnable →
        Run (step .priority) (fun s _ s' => ∀ p, ¬ Dispatches s s' c p) s t →
          ∃ t' p, step .priority t (.pick c) = .next t' ∧ Dispatches t t' c p := by
  have hinv := Inv.of_reachable hreach
  refine ⟨fun a s' c p hstep hdispatch => ?_, fun a s' p hstep hbefore hafter => ?_,
    fun c q t hctrl hq run => ?_⟩
  · obtain ⟨-, first, pgdir, -, hchoose, rfl⟩ := (step_cases hstep).of_dispatches hdispatch
    exact ⟨choose_runnable hchoose, by simp, fun q hq => choose_priority_le hchoose hq⟩
  · exact (step_cases hstep).dispatches_of_running hinv hbefore hafter
  · have hpending : Pending c t := hinv.run_invariant run ⟨hctrl, q, hq⟩
      fun _ _ _ hstep hnot hinv hpending => hpending.step hinv hstep hnot
    obtain ⟨kstack, pgdir, hne, hreaches⟩ := hreach
    have hreach' : Reachable .priority t := ⟨kstack, pgdir, hne, hreaches.trans run.reaches⟩
    exact hpending.dispatches (PageInv.of_reachable hreach')

end Dispatch

/-- Two CPUs after boot: the pass that the second one begins dispatches the
first process, whatever the other does in the meantime. -/
theorem priority_dispatch_boot : ∃ s : State Bool, (s.cpu true).ctrl = .scan 0 ∧
    ∃ t' p, step .priority s (.pick true) = .next t' ∧ Dispatches s t' true p := by
  have hrun : (exec (step .priority) (boot Bool 1 2) [.acquire true, .tick]).test
      (fun s => decide ((s.cpu true).ctrl = .scan 0 ∧ (s.proc initproc).state = .runnable)) =
        true := by
    decide +kernel
  obtain ⟨s, hreaches, hs⟩ := reaches_of_test hrun
  obtain ⟨hctrl, hrunnable⟩ := of_decide_eq_true hs
  have hreach : Reachable .priority s := ⟨1, 2, by decide, hreaches⟩
  exact ⟨s, hctrl, (priority_dispatch hreach).2.2 true initproc s hctrl hrunnable .refl⟩

/-! ## Rounds among equals -/

/-- `q` is `RUNNABLE`, and no `RUNNABLE` process has a smaller priority number. -/
def Least (table : Ptable) (q : Slot) : Prop :=
  (table q).state = .runnable ∧
    ∀ r, (table r).state = .runnable → (table q).priority ≤ (table r).priority

/-- The outer scan stands at `p`, which is not to run now, and processes that are
sit on both sides of it. -/
def Straddled (table : Ptable) (p : Slot) : Prop :=
  ¬ Least table p ∧ ∃ q₁ q₂, q₁ < p ∧ p < q₂ ∧ Least table q₁ ∧ Least table q₂

instance (table : Ptable) : DecidablePred (Least table) :=
  fun _ => inferInstanceAs (Decidable (_ ∧ _))

instance (table : Ptable) : DecidablePred (Straddled table) :=
  fun _ => inferInstanceAs (Decidable (_ ∧ _))

/-- If a scan is in progress, it does not stop at a straddled slot. -/
def FairStop (s : State Unit) : Prop :=
  ∀ first p, (s.cpu ()).ctrl = .scan first → nextRunnable s.proc first = some p →
    ¬ Straddled s.proc p

instance (s : State Unit) : Decidable (FairStop s) :=
  match hctrl : (s.cpu ()).ctrl with
  | .scan first =>
      decidable_of_iff (∀ p, nextRunnable s.proc first = some p → ¬ Straddled s.proc p)
        ⟨fun h first' p hfirst => by
          obtain rfl : first = first' := by simpa [hctrl] using hfirst
          exact h p, fun h p => h first p hctrl⟩
  | .idle => isTrue (by simp [FairStop, hctrl])
  | .run p => isTrue (by simp [FairStop, hctrl])
  | .back p => isTrue (by simp [FairStop, hctrl])

/-- The process that gives the CPU back stays `RUNNABLE`. -/
def Yields (s s' : State Unit) : Prop :=
  ∀ p, (s.cpu ()).ctrl = .run p → (s'.cpu ()).ctrl = .back p → (s'.proc p).state = .runnable

instance (s s' : State Unit) : Decidable (Yields s s') :=
  inferInstanceAs (Decidable (∀ _, _))

/-- Round robin: once `a` has been dispatched, it is not dispatched again while an
equal `b` is still waiting. -/
def RoundRobin : Prop :=
  ∀ (s s₁ t t' : State Unit) (a b : Slot), Reachable .priority s → a ≠ b →
    step .priority s (.pick ()) = .next s₁ → Dispatches s s₁ () a →
      (s₁.proc b).state = .runnable → (s₁.proc b).priority = (s₁.proc a).priority →
        Run (step .priority) (fun s _ s' => Yields s s' ∧ (s'.proc b).state = .runnable ∧
          (s'.proc b).priority = (s'.proc a).priority) s₁ t →
            step .priority t (.pick ()) = .next t' → ¬ Dispatches t t' () a

/-- Where the cursor of the scan may stand while `b` waits for its turn and `a`
has had its own: not between them, seen from `b` on. -/
def CursorOk (a b : Slot) (first : ℕ) : Prop :=
  (b < a → first ≤ b ∨ a < first) ∧ (a < b → a < first ∧ first ≤ b)

/-- The next dispatch, while two equals are first in line: it is not of `a`, and
the cursor does not pass `b`. -/
theorem cursorOk_of_choose {table : Ptable} {first : ℕ} {a b p : Slot}
    (hchoose : State.choose .priority table first = some p) (ha : Least table a)
    (hb : Least table b) (hab : a ≠ b) (hpb : p ≠ b)
    (hfair : ∀ p', nextRunnable table first = some p' → ¬ Straddled table p')
    (hfirst : CursorOk a b first) : p ≠ a ∧ CursorOk a b (p + 1) := by
  obtain ⟨p', hnext, hhighP⟩ := Option.map_eq_some_iff.mp hchoose
  obtain ⟨⟨hle, hrunnable⟩, hnearest⟩ := nextRunnable_eq_some_iff.mp hnext
  have hp'b : first ≤ b → p' ≤ b := fun h => hnearest b ⟨h, hb.1⟩
  -- a scan that leaves its slot goes to the first of those that are due
  have hjump : p ≠ p' → p ≤ a ∧ p ≤ b ∧ ¬ Least table p' := by
    intro hne
    have hmoved : highP table p' ≠ p' := hhighP ▸ hne
    have hfirstLeast : ∀ q, Least table q → p ≤ q := by
      intro q hq
      by_contra hlt
      have hlt : q < highP table p' := by
        rw [hhighP]
        exact not_le.mp hlt
      have hless := Scan.leastFrom_first slots_sorted hmoved (mem_slots q) hq.1 hlt
      exact absurd (hq.2 _ (highP_runnable hrunnable)) (not_le.mpr hless)
    refine ⟨hfirstLeast a ha, hfirstLeast b hb, fun hleast => hmoved ?_⟩
    exact Scan.leastFrom_eq_start fun i _ hi => hleast.2 i hi
  have hstraddled : p ≠ p' → ¬ (a < p' ∧ p' < b) := by
    rintro hne ⟨hap, hpb'⟩
    exact hfair p' hnext ⟨(hjump hne).2.2, a, b, hap, hpb', ha, hb⟩
  have hp'nb : p ≠ p' → p' ≠ b := by
    rintro hne rfl
    exact (hjump hne).2.2 hb
  obtain ⟨hbefore, hafter⟩ := hfirst
  unfold CursorOk
  -- the scan stays at its slot `p'`, or jumps back to the first of those that are due
  by_cases hpp : p = p'
  · subst hpp
    simp only [Fin.lt_def, Fin.le_def, ne_eq, Fin.ext_iff] at *
    omega
  · have hjump := hjump hpp
    have hstraddled := hstraddled hpp
    have hp'nb := hp'nb hpp
    simp only [Fin.lt_def, Fin.le_def, ne_eq, Fin.ext_iff] at *
    omega

/-- Where the scan of the CPU goes on. -/
def Ctrl.cursor : Ctrl → ℕ
  | .idle => 0
  | .scan first => first
  | .run p => p + 1
  | .back p => p + 1

/-- The cursor moves when a pass ends, and when a process is dispatched. -/
theorem Step.cursor [DecidableEq C] (hstep : Step .priority s a s') (c : C) :
    (s'.cpu c).ctrl.cursor = (s.cpu c).ctrl.cursor ∨
      (∃ first, (s.cpu c).ctrl = .scan first ∧ State.choose .priority s.proc first = none ∧
        (s'.cpu c).ctrl.cursor = 0) ∨
      ∃ first p, (s.cpu c).ctrl = .scan first ∧ State.choose .priority s.proc first = some p ∧
        (s'.cpu c).ctrl.cursor = p + 1 ∧
          s'.proc = s.proc.modify p fun q => { q with state := .running } := by
  have hsame : ∀ {cpu : Cpu} {c' : C}, cpu.ctrl.cursor = (s.cpu c').ctrl.cursor →
      (Function.update s.cpu c' cpu c).ctrl.cursor = (s.cpu c).ctrl.cursor :=
    fun h => update_field (fun cpu : Cpu => cpu.ctrl.cursor) h c
  cases hstep with
  | startPass c' hctrl => exact Or.inl (hsame (by rw [hctrl]; rfl))
  | endPass c' first hctrl hchoose =>
      by_cases hc : c = c'
      · subst hc
        exact Or.inr (Or.inl ⟨first, hctrl, hchoose, by simp [Ctrl.cursor]⟩)
      · exact Or.inl (by simp [hc])
  | dispatch c' first p pgdir hctrl hchoose =>
      by_cases hc : c = c'
      · subst hc
        exact Or.inr (Or.inr ⟨first, p, hctrl, hchoose, by simp [Ctrl.cursor], rfl⟩)
      · exact Or.inl (by simp [hc])
  | backFcfs c' p hkernel => simp at hkernel
  | backPriority c' p _ hctrl => exact Or.inl (hsame (by rw [hctrl]; rfl))
  | yield c' p hctrl => exact Or.inl (hsame (by rw [hctrl]; rfl))
  | sleep c' p address hctrl => exact Or.inl (hsame (by rw [hctrl]; rfl))
  | zombie c' p hctrl => exact Or.inl (hsame (by rw [hctrl]; rfl))
  | growproc c' p pgdir => exact Or.inl (hsame rfl)
  | execSwitch c' p oldpgdir pgdir => exact Or.inl (hsame rfl)
  | round a c' p request scanning s' hentry hround =>
      have hctrl := hentry.ctrl
      rw [← hentry.cpu] at hctrl hsame ⊢
      cases hround with
      | reaped => exact Or.inl rfl
      | gaveUp => exact Or.inl rfl
      | slept => exact Or.inl (hsame (by rw [hctrl]; rfl))
  | _ => exact Or.inl rfl

section OneCpu

variable {s s₁ s' t t' : State Unit} {a : Action Unit} {p x y : Slot}

theorem Step.ready (hinv : Inv s) (hstep : Step .priority s a s') (hyields : Yields s s')
    (hready : (s.proc p).state.Ready) : (s'.proc p).state.Ready := by
  rcases hready with hrunnable | hrunning
  · exact hstep.ready_of_runnable hinv hrunnable
  · obtain ⟨c, hctrl⟩ := hinv.owner p hrunning
    rcases hstep.ctrl_of_run hctrl with hrun | hback
    · exact Or.inr ((hinv.step hstep).run c p hrun).2
    · exact Or.inl (hyields p hctrl hback)

theorem Step.priority_eq_of_ready (hinv : Inv s) (hstep : Step .priority s a s')
    (hready : (s.proc p).state.Ready) : (s'.proc p).priority = (s.proc p).priority := by
  refine (hstep.life hinv p).priority_eq hinv ?_
  rcases hready with h | h <;> simp [h]

/-- What holds from the dispatch of `x` on while its equal `y` waits: the cursor
stands right, or a process of smaller priority number is there to stay. -/
structure Turn (x y : Slot) (s : State Unit) : Prop where
  ready : (s.proc x).state.Ready
  waiting : (s.proc y).state = .runnable
  equal : (s.proc y).priority = (s.proc x).priority
  turn : (∃ z, (s.proc z).state.Ready ∧ (s.proc z).priority < (s.proc x).priority) ∨
    CursorOk x y (s.cpu ()).ctrl.cursor

theorem Turn.step (h : Turn x y s) (hxy : x ≠ y) (hinv : Inv s) (hstep : Step .priority s a s')
    (hok : FairStop s) (hyields : Yields s s') (hwaiting : (s'.proc y).state = .runnable) :
    Turn x y s' := by
  have hx := hstep.priority_eq_of_ready hinv h.ready
  have hy := hstep.priority_eq_of_ready hinv (Or.inl h.waiting)
  refine ⟨hstep.ready hinv hyields h.ready, hwaiting, by rw [hx, hy, h.equal], ?_⟩
  rcases h.turn with ⟨z, hz, hless⟩ | hcursor
  · refine Or.inl ⟨z, hstep.ready hinv hyields hz, ?_⟩
    rw [hx, hstep.priority_eq_of_ready hinv hz]
    exact hless
  · rcases hstep.cursor () with hsame | ⟨first, hctrl, hnone, hzero⟩ |
      ⟨first, p, hctrl, hchoose, hnext, hproc⟩
    · rw [hsame]
      exact Or.inr hcursor
    · -- the end of a pass is behind `y`, so `y` is not ahead of the cursor
      rw [hctrl, Ctrl.cursor] at hcursor
      rw [hzero]
      refine Or.inr ⟨fun _ => Or.inl (Nat.zero_le _), fun hlt => ?_⟩
      have hnot : nextRunnable s.proc first = none := by
        simpa [State.choose] using hnone
      exact absurd h.waiting (nextRunnable_eq_none_iff.mp hnot y (hcursor.2 hlt).2)
    · rw [hctrl, Ctrl.cursor] at hcursor
      rw [hnext, hx]
      have hxrunnable := hinv.runnable_of_scan hctrl h.ready
      have hle := choose_priority_le hchoose hxrunnable
      have hp : (s'.proc p).state = .running ∧ (s'.proc p).priority = (s.proc p).priority := by
        simp [hproc]
      rcases hle.lt_or_eq with hless | heq
      · exact Or.inl ⟨p, Or.inr hp.1, hp.2.symm ▸ hless⟩
      · have hleast : ∀ r, (s.proc r).state = .runnable →
            (s.proc x).priority ≤ (s.proc r).priority :=
          fun r hr => heq ▸ choose_priority_le hchoose hr
        have hpy : p ≠ y := by
          rintro rfl
          simp [hp.1] at hwaiting
        refine Or.inr (cursorOk_of_choose hchoose ⟨hxrunnable, hleast⟩
          ⟨h.waiting, fun r hr => h.equal ▸ hleast r hr⟩ hxy hpy (fun p' hp' => ?_) hcursor).2
        exact hok first p' hctrl hp'

theorem Turn.not_dispatches (h : Turn x y s) (hxy : x ≠ y) (hinv : Inv s)
    (hstep : Step .priority s a s') (hok : FairStop s) : ¬ Dispatches s s' () x := by
  intro hdispatch
  obtain ⟨-, first, pgdir, hctrl, hchoose, -⟩ := hstep.of_dispatches hdispatch
  have hleast : Least s.proc x :=
    ⟨choose_runnable hchoose, fun r hr => choose_priority_le hchoose hr⟩
  rcases h.turn with ⟨z, hz, hless⟩ | hcursor
  · exact absurd (hleast.2 z (hinv.runnable_of_scan hctrl hz)) (not_le.mpr hless)
  · rw [hctrl, Ctrl.cursor] at hcursor
    have hnot := (cursorOk_of_choose hchoose hleast
      ⟨h.waiting, fun r hr => h.equal ▸ hleast.2 r hr⟩ hxy hxy
        (fun p' hp' => hok first p' hctrl hp') hcursor).1
    exact hnot rfl

/-- Round robin among equals in the runs in which no scan stops at a straddled
slot. -/
theorem roundRobin_of_fairStop (hreach : Reachable .priority s) (hxy : x ≠ y)
    (hfirst : step .priority s (.pick ()) = .next s₁) (hdispatch : Dispatches s s₁ () x)
    (hwaiting : (s₁.proc y).state = .runnable)
    (hequal : (s₁.proc y).priority = (s₁.proc x).priority)
    (run : Run (step .priority) (fun s _ s' => FairStop s ∧ Yields s s' ∧
      (s'.proc y).state = .runnable ∧ (s'.proc y).priority = (s'.proc x).priority) s₁ t)
    (hok : FairStop t) (hlast : step .priority t (.pick ()) = .next t') :
    ¬ Dispatches t t' () x := by
  have hinv := Inv.of_reachable hreach
  have hinv₁ := hinv.step (step_cases hfirst)
  have hturn₁ : Turn x y s₁ := by
    have hctrl : (s₁.cpu ()).ctrl = .run x := hdispatch.2
    refine ⟨Or.inr (hinv₁.run () x hctrl).2, hwaiting, hequal, Or.inr ?_⟩
    rw [hctrl, Ctrl.cursor]
    simp only [CursorOk, Fin.lt_def]
    omega
  have hturn : Turn x y t := hinv₁.run_invariant run hturn₁
    fun _ _ _ hstep hguard hinv hturn => hturn.step hxy hinv hstep hguard.1 hguard.2.1
      hguard.2.2.1
  exact hturn.not_dispatches hxy (hinv₁.of_run run) (step_cases hlast) hok

/-- The first process makes two processes of priority 5 and waits. -/
def twoChildren : List (Action Unit) :=
  atUser ++ forks (some 5) 3 4 ++ forks (some 5) 5 6 ++ [.wait (), .back ()]

/-- After the time slice of slot 1 it is the turn of slot 2. -/
theorem roundRobin_twoChildren : ∃ t t' : State Unit, step .priority t (.pick ()) = .next t' ∧
    Dispatches t t' () 2 ∧ ¬ Dispatches t t' () 1 := by
  have hrun : (exec (step .priority) (boot Unit 1 2) twoChildren).test (fun s =>
      (step .priority s (.pick ())).test fun s₁ =>
        decide (Dispatches s s₁ () 1 ∧ (s₁.proc 2).state = .runnable ∧
          (s₁.proc 2).priority = (s₁.proc 1).priority) &&
        (exec (checked (step .priority) fun s _ s' => FairStop s ∧ Yields s s' ∧
          (s'.proc 2).state = .runnable ∧ (s'.proc 2).priority = (s'.proc 1).priority) s₁
            [.resume (), .yield (), .back ()]).test fun t => decide (FairStop t) &&
              (step .priority t (.pick ())).test fun t' => decide (Dispatches t t' () 2)) =
      true := by
    decide +kernel
  obtain ⟨s, hreaches, hrun⟩ := reaches_of_test hrun
  obtain ⟨s₁, hfirst, hrun⟩ := Outcome.test_eq_true.mp hrun
  obtain ⟨hfirst', hrun⟩ := Bool.and_eq_true_iff.mp hrun
  obtain ⟨hdispatch, hwaiting, hequal⟩ := of_decide_eq_true hfirst'
  obtain ⟨t, run, hrun⟩ := run_of_test hrun
  obtain ⟨hok, hrun⟩ := Bool.and_eq_true_iff.mp hrun
  obtain ⟨t', hlast, hrun⟩ := Outcome.test_eq_true.mp hrun
  have hreach : Reachable .priority s := ⟨1, 2, by decide, hreaches⟩
  exact ⟨t, t', hlast, of_decide_eq_true hrun, roundRobin_of_fairStop hreach
    (by decide) hfirst hdispatch hwaiting hequal run (of_decide_eq_true hok) hlast⟩

/-- The first process makes processes of priorities 5, 10 and 5 and waits. -/
def threeChildren : List (Action Unit) :=
  atUser ++ forks (some 5) 3 4 ++ forks (some 10) 5 6 ++ forks (some 5) 7 8 ++
    [.wait (), .back ()]

/-- After its time slice slot 1 is dispatched again: the scan stops at slot 2, of
priority 10, and goes back, while slot 3 is due. -/
theorem not_roundRobin : ¬ RoundRobin := by
  intro h
  have hrun : (exec (step .priority) (boot Unit 1 2) threeChildren).test (fun s =>
      (step .priority s (.pick ())).test fun s₁ =>
        decide (Dispatches s s₁ () 1 ∧ (s₁.proc 3).state = .runnable ∧
          (s₁.proc 3).priority = (s₁.proc 1).priority) &&
        (exec (checked (step .priority) fun s _ s' => Yields s s' ∧
          (s'.proc 3).state = .runnable ∧ (s'.proc 3).priority = (s'.proc 1).priority) s₁
            [.resume (), .yield (), .back ()]).test fun t =>
              (step .priority t (.pick ())).test fun t' => decide (Dispatches t t' () 1)) =
      true := by
    decide +kernel
  obtain ⟨s, hreaches, hrun⟩ := reaches_of_test hrun
  obtain ⟨s₁, hfirst, hrun⟩ := Outcome.test_eq_true.mp hrun
  obtain ⟨hfirst', hrun⟩ := Bool.and_eq_true_iff.mp hrun
  obtain ⟨hdispatch, hwaiting, hequal⟩ := of_decide_eq_true hfirst'
  obtain ⟨t, run, hrun⟩ := run_of_test hrun
  obtain ⟨t', hlast, hrun⟩ := Outcome.test_eq_true.mp hrun
  have hreach : Reachable .priority s := ⟨1, 2, by decide, hreaches⟩
  exact h s s₁ t t' 1 3 hreach (by decide) hfirst hdispatch hwaiting hequal run hlast
    (of_decide_eq_true hrun)

end OneCpu

end Xv6
