import Xv6.Proc.Dispatch

/-!
# Children under construction

Between `allocproc` and the end of `fork` the parent works on the child's slot
without `ptable.lock`.  `ForkInv` says what protects that slot: it is `EMBRYO`,
and one thread only is building it.  Together with `DispatchInv` this is an
inductive invariant of the machine (`Inv.step`).
-/

namespace Xv6

open Transition

variable {C : Type} {kernel : Kernel} {s s' : State C} {a : Action C} {c : C} {p : Slot}

/-! ## The invariant -/

/-- The child that a thread at `pc` is building. -/
def Pc.child : Pc → Option Slot
  | .forkKalloc np _ => some np
  | .forkCopyuvm np _ => some np
  | .forkRunnable np => some np
  | _ => none

/-- The child at `pc` already has a kernel stack. -/
def Pc.stacked : Pc → Prop
  | .forkCopyuvm _ _ => True
  | .forkRunnable _ => True
  | _ => False

/-- No thread of a slot in this state is in the middle of anything. -/
def ProcState.dead (state : ProcState) : Prop :=
  state = .unused ∨ state = .embryo ∨ state = .zombie

structure ForkInv (s : State C) : Prop where
  embryo : ∀ q np, (s.thread q).pc.child = some np → (s.proc np).state = .embryo
  builder : ∀ q q' np, (s.thread q).pc.child = some np → (s.thread q').pc.child = some np → q = q'
  ready : ∀ q np, (s.thread q).pc.child = some np → (s.thread q).pc.stacked →
    s.thread np = {}
  dead : ∀ q, (s.proc q).state.dead → (s.thread q).pc = .user ∨ (s.thread q).pc = .exit
  waiting : ∀ q, (s.thread q).pc.waiting → (s.thread q).resume = .sleep

theorem Pc.child_eq_none_of_waiting {pc : Pc} (h : pc.waiting) : pc.child = none := by
  cases pc <;> simp [Pc.waiting, Pc.child] at *

/-! ## Steps and the two invariants -/

structure Inv (s : State C) : Prop extends DispatchInv s, ForkInv s

/-- What a step of the thread of `p` may do to another slot `q`: nothing, wake it
up, reap it, or finish or give up the child that `p` is building there. -/
inductive Aside (s s' : State C) (p q : Slot) : Prop
  | same (hstate : (s'.proc q).state = (s.proc q).state) (hthread : s'.thread q = s.thread q)
  | woken (hback : ∀ c q, (s.cpu c).ctrl ≠ .back q) (hbefore : (s.proc q).state = .sleeping)
      (hafter : (s'.proc q).state = .runnable) (hthread : s'.thread q = s.thread q)
  | reaped (hback : ∀ c q, (s.cpu c).ctrl ≠ .back q) (hbefore : (s.proc q).state = .zombie)
      (hafter : (s'.proc q).state = .unused) (hthread : s'.thread q = s.thread q)
  | built (hchild : (s.thread p).pc.child = some q)
      (hafter : (s'.proc q).state = .unused ∨
        (s'.proc q).state = .runnable ∧ (s.thread p).pc.stacked)
      (hthread : s'.thread q = s.thread q)

namespace Aside

variable {q : Slot}

theorem thread (h : Aside s s' p q) : s'.thread q = s.thread q := by
  cases h <;> assumption

theorem kept (h : Aside s s' p q) (hinv : Inv s) : Kept s s' q := by
  cases h with
  | same hstate hthread => exact .same hstate (by rw [hthread])
  | woken hback hbefore hafter hthread =>
      refine .changed (by simp [hbefore]) (by simp [hafter]) (fun c => hback c q) fun _ => ?_
      rw [hthread]
      exact hinv.suspended q (Or.inr hbefore)
  | reaped hback hbefore hafter hthread =>
      refine .changed (by simp [hbefore]) (by simp [hafter]) (fun c => hback c q)
        fun hsuspended => ?_
      simp [hafter, ProcState.suspended] at hsuspended
  | built hchild hafter hthread =>
      have hembryo := hinv.embryo p q hchild
      refine .changed (by simp [hembryo]) ?_ ?_ ?_
      · rcases hafter with hafter | ⟨hafter, -⟩ <;> simp [hafter]
      · intro c hc
        have hstate := (hinv.back c q hc).2.2
        simp [hembryo, ProcState.suspended] at hstate
      · intro hsuspended
        rcases hafter with hafter | ⟨-, hstacked⟩
        · simp [hafter, ProcState.suspended] at hsuspended
        · rw [hthread, hinv.ready p q hchild hstacked]
          simp [Resume.suspended]

/-- What `Aside` leaves of a child that another thread is building. -/
theorem embryo (h : Aside s s' p q) (hinv : Inv s) {builder : Slot} (hne : builder ≠ p)
    (hchild : (s.thread builder).pc.child = some q) : (s'.proc q).state = .embryo := by
  have hembryo := hinv.embryo builder q hchild
  cases h with
  | same hstate _ => rw [hstate, hembryo]
  | woken _ hbefore _ _ => simp [hembryo] at hbefore
  | reaped _ hbefore _ _ => simp [hembryo] at hbefore
  | built hchild' _ _ => exact absurd (hinv.builder builder p q hchild hchild') hne

theorem dead (h : Aside s s' p q) (hinv : Inv s) (hdead : (s'.proc q).state.dead) :
    (s.proc q).state.dead := by
  cases h with
  | same hstate _ => exact hstate ▸ hdead
  | woken _ _ hafter _ => simp [hafter, ProcState.dead] at hdead
  | reaped _ hbefore _ _ => exact Or.inr (Or.inr hbefore)
  | built hchild _ _ => exact Or.inr (Or.inl (hinv.embryo p q hchild))

end Aside

namespace Inv

/-- A step by which no thread gets further in its system call. -/
theorem fork_of_frame (h : Inv s)
    (hthread : ∀ q, s'.thread q = s.thread q ∨ (s.proc q).state = .running ∧
      (s'.thread q).pc = (s.thread q).pc ∧
      ((s.thread q).pc.waiting → (s'.thread q).resume = .sleep))
    (hembryo : ∀ q, (s.proc q).state = .embryo → (s'.proc q).state = .embryo)
    (hdead : ∀ q, (s'.proc q).state.dead → (s.proc q).state.dead) : ForkInv s' := by
  have hpc : ∀ q, (s'.thread q).pc = (s.thread q).pc := by
    intro q
    rcases hthread q with hq | ⟨-, hq, -⟩
    · rw [hq]
    · exact hq
  constructor
  case embryo =>
    intro q np hq
    rw [hpc] at hq
    exact hembryo np (h.embryo q np hq)
  case builder =>
    intro q q' np
    rw [hpc, hpc]
    exact h.builder q q' np
  case ready =>
    intro q np hq hstacked
    rw [hpc] at hq hstacked
    rcases hthread np with hnp | ⟨hrunning, -, -⟩
    · rw [hnp]
      exact h.ready q np hq hstacked
    · simp [h.embryo q np hq] at hrunning
  case dead =>
    intro q hq
    rw [hpc]
    exact h.dead q (hdead q hq)
  case waiting =>
    intro q hq
    rw [hpc] at hq
    rcases hthread q with hsame | ⟨-, -, hwaiting⟩
    · rw [hsame]
      exact h.waiting q hq
    · exact hwaiting hq

/-- A step of the thread of `p` that is not building a child when it is over. -/
theorem fork_of_thread (h : Inv s) (hrunning : (s.proc p).state = .running)
    (hchild : (s'.thread p).pc.child = none)
    (hwaiting : (s'.thread p).pc.waiting → (s'.thread p).resume = .sleep)
    (hdead : (s'.proc p).state.dead → (s'.thread p).pc = .user ∨ (s'.thread p).pc = .exit)
    (haside : ∀ q, q ≠ p → Aside s s' p q) : ForkInv s' := by
  have hne : ∀ q np, (s'.thread q).pc.child = some np →
      q ≠ p ∧ (s.thread q).pc.child = some np := by
    intro q np hq
    have hqp : q ≠ p := by
      rintro rfl
      simp [hchild] at hq
    exact ⟨hqp, by rwa [(haside q hqp).thread] at hq⟩
  have hnp : ∀ q np, (s.thread q).pc.child = some np → np ≠ p := by
    intro q np hq
    rintro rfl
    simp [h.embryo q np hq] at hrunning
  constructor
  case embryo =>
    intro q np hq
    obtain ⟨hqp, hq⟩ := hne q np hq
    exact (haside np (hnp q np hq)).embryo h hqp hq
  case builder =>
    intro q q' np hq hq'
    exact h.builder q q' np (hne q np hq).2 (hne q' np hq').2
  case ready =>
    intro q np hq hstacked
    obtain ⟨hqp, hq⟩ := hne q np hq
    rw [(haside q hqp).thread] at hstacked
    rw [(haside np (hnp q np hq)).thread]
    exact h.ready q np hq hstacked
  case dead =>
    intro q hq
    by_cases hqp : q = p
    · subst hqp
      exact hdead hq
    · rw [(haside q hqp).thread]
      exact h.dead q ((haside q hqp).dead h hq)
  case waiting =>
    intro q hq
    by_cases hqp : q = p
    · subst hqp
      exact hwaiting hq
    · rw [(haside q hqp).thread] at hq ⊢
      exact h.waiting q hq

/-- A step by which the thread of `p` begins or goes on with building `np`. -/
theorem fork_of_child (h : Inv s) (np : Slot) (hrunning : (s.proc p).state = .running)
    (hchild : (s'.thread p).pc.child = some np) (hembryo : (s'.proc np).state = .embryo)
    (hbuilder : ∀ q, (s.thread q).pc.child = some np → q = p)
    (hready : (s'.thread p).pc.stacked → s'.thread np = {})
    (hnp : s'.thread np = {} ∨ s'.thread np = s.thread np)
    (hbefore : (s.proc np).state.dead)
    (hstate : ∀ q, q ≠ np → (s'.proc q).state = (s.proc q).state)
    (hthread : ∀ q, q ≠ p → q ≠ np → s'.thread q = s.thread q) : ForkInv s' := by
  have hnpp : np ≠ p := by
    rintro rfl
    simp [hrunning, ProcState.dead] at hbefore
  have hidle : (s'.thread np).pc = .user ∨ (s'.thread np).pc = .exit := by
    rcases hnp with hnp | hnp <;> rw [hnp]
    · exact Or.inl rfl
    · exact h.dead np hbefore
  have hcases : ∀ q np', (s'.thread q).pc.child = some np' →
      q = p ∧ np' = np ∨ q ≠ p ∧ q ≠ np ∧ np' ≠ np ∧ np' ≠ p ∧
        (s.thread q).pc.child = some np' := by
    intro q np' hq
    by_cases hqp : q = p
    · subst hqp
      rw [hchild] at hq
      exact Or.inl ⟨rfl, (Option.some.inj hq).symm⟩
    · have hqnp : q ≠ np := by
        rintro rfl
        rcases hidle with hidle | hidle <;> simp [hidle, Pc.child] at hq
      rw [hthread q hqp hqnp] at hq
      refine Or.inr ⟨hqp, hqnp, ?_, ?_, hq⟩
      · rintro rfl
        exact hqp (hbuilder q hq)
      · rintro rfl
        simp [h.embryo q np' hq] at hrunning
  constructor
  case embryo =>
    intro q np' hq
    rcases hcases q np' hq with ⟨rfl, rfl⟩ | ⟨-, -, hne, -, hq⟩
    · exact hembryo
    · rw [hstate np' hne]
      exact h.embryo q np' hq
  case builder =>
    intro q q' np' hq hq'
    rcases hcases q np' hq with ⟨hqp, hnp'⟩ | ⟨-, -, hne, -, hq⟩ <;>
      rcases hcases q' np' hq' with ⟨hqp', hnp''⟩ | ⟨-, -, hne', -, hq'⟩
    · rw [hqp, hqp']
    · exact absurd hnp' hne'
    · exact absurd hnp'' hne
    · exact h.builder q q' np' hq hq'
  case ready =>
    intro q np' hq hstacked
    rcases hcases q np' hq with ⟨rfl, rfl⟩ | ⟨hqp, hqnp, hne, hne', hq⟩
    · exact hready hstacked
    · rw [hthread q hqp hqnp] at hstacked
      rw [hthread np' hne' hne]
      exact h.ready q np' hq hstacked
  case dead =>
    intro q hq
    by_cases hqnp : q = np
    · subst hqnp
      exact hidle
    · rw [hstate q hqnp] at hq
      have hqp : q ≠ p := by
        rintro rfl
        simp [hrunning, ProcState.dead] at hq
      rw [hthread q hqp hqnp]
      exact h.dead q hq
  case waiting =>
    intro q hq
    by_cases hqp : q = p
    · subst hqp
      rw [Pc.child_eq_none_of_waiting hq] at hchild
      simp at hchild
    · by_cases hqnp : q = np
      · subst hqnp
        rcases hidle with hidle | hidle <;> simp [hidle, Pc.waiting] at hq
      · rw [hthread q hqp hqnp] at hq ⊢
        exact h.waiting q hq

/-! ## The rules for one step -/

/-- A step that leaves all threads and CPUs as they are, and may wake processes. -/
theorem frame (h : Inv s) (hctrl : ∀ c, (s'.cpu c).ctrl = (s.cpu c).ctrl)
    (hproc : ∀ c, (s'.cpu c).proc = (s.cpu c).proc) (hlock : s'.lock = s.lock)
    (hthread : s'.thread = s.thread)
    (hstate : ∀ q, (s'.proc q).state = (s.proc q).state ∨
      s.lock = none ∧ (s.proc q).state = .sleeping ∧ (s'.proc q).state = .runnable) :
    Inv s' where
  toDispatchInv := by
    refine h.quiet hctrl hproc hlock fun q => ?_
    rcases hstate q with hq | ⟨hfree, hbefore, hafter⟩
    · exact .same hq (by rw [hthread])
    · refine .changed (by simp [hbefore]) (by simp [hafter]) (fun c => h.ne_back hfree c q) ?_
      intro _
      rw [hthread]
      exact h.suspended q (Or.inr hbefore)
  toForkInv := by
    refine h.fork_of_frame (fun q => Or.inl (by rw [hthread])) (fun q hq => ?_) fun q hq => ?_
    · rcases hstate q with hsame | ⟨-, hbefore, -⟩
      · rw [hsame, hq]
      · simp [hq] at hbefore
    · rcases hstate q with hsame | ⟨-, -, hafter⟩
      · exact hsame ▸ hq
      · simp [hafter, ProcState.dead] at hq

/-- A step of a thread on its CPU that takes no lock, or releases it again. -/
theorem thread (h : Inv s) (hctrl : (s.cpu c).ctrl = .run p)
    (hresume : (s.thread p).resume = .onCpu)
    (hcpu : ∀ c, (s'.cpu c).ctrl = (s.cpu c).ctrl ∧ (s'.cpu c).proc = (s.cpu c).proc)
    (hlock : s'.lock = s.lock) (hstate : (s'.proc p).state = .running)
    (hresume' : (s'.thread p).resume = .onCpu) (hchild : (s'.thread p).pc.child = none)
    (hwaiting : ¬ (s'.thread p).pc.waiting) (haside : ∀ q, q ≠ p → Aside s s' p q) :
    Inv s' where
  toDispatchInv := by
    refine h.quiet (fun c => (hcpu c).1) (fun c => (hcpu c).2) hlock fun q => ?_
    by_cases hq : q = p
    · subst hq
      exact .same (hstate.trans (h.run c q hctrl).2.symm) (hresume'.trans hresume.symm)
    · exact (haside q hq).kept h
  toForkInv := by
    refine h.fork_of_thread (h.run c p hctrl).2 hchild (fun hw => absurd hw hwaiting) ?_ haside
    intro hdead
    simp [hstate, ProcState.dead] at hdead

/-- A step after which the thread that was switched to has released the lock. -/
theorem released (h : Inv s) (hctrl : (s.cpu c).ctrl = .run p)
    (hfree : s.lock = none ∨ s.lock = some c) (hcpu : s'.cpu = s.cpu) (hlock : s'.lock = none)
    (hstate : (s'.proc p).state = .running) (hresume : (s'.thread p).resume = .onCpu)
    (hchild : (s'.thread p).pc.child = none) (hwaiting : ¬ (s'.thread p).pc.waiting)
    (haside : ∀ q, q ≠ p → Aside s s' p q) : Inv s' where
  toDispatchInv := h.toDispatchInv.released hctrl hfree hcpu hlock hstate hresume
    fun q hq => (haside q hq).kept h
  toForkInv := by
    refine h.fork_of_thread (h.run c p hctrl).2 hchild (fun hw => absurd hw hwaiting) ?_ haside
    intro hdead
    simp [hstate, ProcState.dead] at hdead

/-- A step that ends in `sched()`. -/
theorem scheduled [DecidableEq C] (h : Inv s) (hctrl : (s.cpu c).ctrl = .run p)
    (hfree : s.lock = none ∨ s.lock = some c)
    (hcpu : s'.cpu = Function.update s.cpu c { s.cpu c with ctrl := .back p })
    (hlock : s'.lock = some c)
    (hstate : (s'.proc p).state = .zombie ∧ (s'.thread p).pc = .exit ∨
      (s'.proc p).state.suspended ∧ (s'.thread p).resume.suspended)
    (hchild : (s'.thread p).pc.child = none)
    (hwaiting : (s'.thread p).pc.waiting → (s'.thread p).resume = .sleep)
    (haside : ∀ q, q ≠ p → Aside s s' p q) : Inv s' where
  toDispatchInv := by
    refine h.toDispatchInv.scheduled hctrl hfree hcpu hlock ?_ fun q hq => (haside q hq).kept h
    exact hstate.imp_left fun hzombie => hzombie.1
  toForkInv := by
    refine h.fork_of_thread (h.run c p hctrl).2 hchild hwaiting ?_ haside
    intro hdead
    rcases hstate with ⟨-, hpc⟩ | ⟨hsuspended, -⟩
    · exact Or.inr hpc
    · rcases hsuspended with hp | hp <;> simp [hp, ProcState.dead] at hdead

/-! ## Every step -/

section Steps

variable [DecidableEq C]

omit [DecidableEq C] in
/-- A thread that holds the lock, or finds it free: no CPU is on its way back
from a process. -/
theorem ne_back_of_free (h : Inv s) (hctrl : (s.cpu c).ctrl = .run p)
    (hfree : s.lock = none ∨ s.lock = some c) (c' : C) (q : Slot) :
    (s.cpu c').ctrl ≠ .back q := by
  rcases hfree with hfree | hfree
  · exact h.ne_back hfree c' q
  · exact h.ne_back_of_run hctrl hfree c' q

omit [DecidableEq C] in
theorem aside_of_wakes {q : Slot} (hback : ∀ c q, (s.cpu c).ctrl ≠ .back q)
    (hwakes : (s'.proc q).state = (s.proc q).state ∨
      (s.proc q).state = .sleeping ∧ (s'.proc q).state = .runnable)
    (hthread : s'.thread q = s.thread q) : Aside s s' p q := by
  rcases hwakes with hsame | ⟨hbefore, hafter⟩
  · exact .same hsame hthread
  · exact .woken hback hbefore hafter hthread

omit [DecidableEq C] in
theorem ne_child {np : Slot} (h : Inv s) (hrunning : (s.proc p).state = .running)
    (hchild : (s.thread p).pc.child = some np) : p ≠ np := by
  rintro rfl
  simp [h.embryo p p hchild] at hrunning

omit [DecidableEq C] in
theorem ne_back_of_embryo {np : Slot} (h : Inv s) (hembryo : (s.proc np).state = .embryo) :
    (s.cpu c).ctrl ≠ .back np := by
  intro hback
  have hstate := (h.back c np hback).2.2
  simp [hembryo, ProcState.suspended] at hstate

theorem round (h : Inv s) {request : Pc} {scanning : State C}
    (hentry : Entry s c p request a scanning) (hround : Round kernel scanning c p request s') :
    Inv s' := by
  have hctrl := hentry.ctrl
  have hrunning : (s.proc p).state = .running := (h.run c p hctrl).2
  have hscanning : (scanning.proc p).state = .running := (hentry.state_eq p).trans hrunning
  cases hround with
  | reaped z kstack pgdir hfinds hkstack hpgdir hlock =>
      have hfree := hentry.free hlock
      have hz : z ≠ p := finds_ne hfinds hscanning
      have hzombie : (s.proc z).state = .zombie := (hentry.state_eq z) ▸ (finds_spec hfinds).2
      refine h.released hctrl hfree hentry.cpu rfl (by simp [hz.symm, hscanning]) ?_ ?_ ?_ ?_
      · cases request <;> simp [answered, hentry.resume_eq]
      · cases request <;> simp [answered, Pc.child]
      · cases request <;> simp [answered, Pc.waiting]
      · intro q hq
        have hthread := hentry.thread_of_ne hq
        by_cases hqz : q = z
        · -- a zombie is on no CPU: the one it left has passed the lock on
          subst hqz
          exact .reaped (h.ne_back_of_free hctrl hfree) hzombie (by simp [Proc.reaped])
            (by simp [hq, hthread])
        · exact .same (by simp [hqz, hentry.state_eq]) (by simp [hq, hthread])
  | gaveUp hfinds hcannot hlock =>
      refine h.released hctrl (hentry.free hlock) hentry.cpu rfl (by simp [hscanning])
        (by simp [hentry.resume_eq]) (by simp [Pc.child]) (by simp [Pc.waiting]) fun q hq => ?_
      exact .same (by simp [hq, hentry.state_eq]) (by simp [hq, hentry.thread_of_ne hq])
  | slept hfinds hkids hkilled hlock =>
      have hcpu : Function.update scanning.cpu c { s.cpu c with ctrl := .back p } =
          Function.update s.cpu c { s.cpu c with ctrl := .back p } := by rw [hentry.cpu]
      refine h.scheduled hctrl (hentry.free hlock) (by rw [← hcpu, ← hentry.cpu]; rfl) hlock
        (Or.inr ⟨by simp [ProcState.suspended], by simp [Resume.suspended]⟩) ?_ (by simp) ?_
      · simpa [hentry.pc_eq] using Pc.child_eq_none_of_waiting hentry.waiting
      · intro q hq
        exact .same (by simp [hq, hentry.state_eq]) (by simp [hq, hentry.thread_of_ne hq])

/-- The two invariants are inductive. -/
theorem step (h : Inv s) (hstep : Step kernel s a s') : Inv s' := by
  cases hstep with
  | startPass c hctrl hlock =>
      refine ⟨h.scheduler c (by simp [hctrl]) rfl (h.idle c hctrl).1 (Or.inl hlock)
        (Or.inr ⟨⟨0, rfl⟩, rfl⟩) rfl rfl, ?_⟩
      exact h.fork_of_frame (fun q => Or.inl rfl) (fun q hq => hq) fun q hq => hq
  | endPass c first hctrl hchoose hlock =>
      refine ⟨h.scheduler c (by simp [hctrl]) rfl (h.scan c first hctrl).1 (Or.inr hlock)
        (Or.inl ⟨rfl, rfl⟩) rfl rfl, ?_⟩
      exact h.fork_of_frame (fun q => Or.inl rfl) (fun q hq => hq) fun q hq => hq
  | dispatch c first p pgdir hctrl hchoose hkstack hpgdir =>
      have hrunnable := choose_runnable hchoose
      refine ⟨h.dispatched hctrl hrunnable rfl rfl rfl rfl rfl rfl, ?_⟩
      refine h.fork_of_frame (fun q => Or.inl rfl) (fun q hq => ?_) fun q hq => ?_
      · have hqp : q ≠ p := by
          rintro rfl
          simp [hrunnable] at hq
        simpa [hqp] using hq
      · have hqp : q ≠ p := by
          rintro rfl
          simp [ProcState.dead] at hq
        simpa [hqp] using hq
  | backFcfs c p hkernel hctrl hlock =>
      refine ⟨h.scheduler c (by simp [hctrl]) rfl rfl (Or.inr hlock)
        (Or.inl ⟨rfl, rfl⟩) rfl rfl, ?_⟩
      exact h.fork_of_frame (fun q => Or.inl rfl) (fun q hq => hq) fun q hq => hq
  | backPriority c p hkernel hctrl =>
      have hlock := (h.back c p hctrl).2.1
      refine ⟨h.scheduler c (by simp [hctrl]) rfl rfl (Or.inr hlock)
        (Or.inr ⟨⟨_, rfl⟩, hlock⟩) rfl rfl, ?_⟩
      exact h.fork_of_frame (fun q => Or.inl rfl) (fun q hq => hq) fun q hq => hq
  | resume c p hctrl hresume hlock =>
      have hrunning := (h.run c p hctrl).2
      have hnot : ¬ (s.thread p).pc.waiting := by
        intro hwaiting
        rcases hresume with hresume | hresume <;> simp [h.waiting p hwaiting] at hresume
      constructor
      · refine h.toDispatchInv.released hctrl (Or.inr hlock) rfl rfl hrunning (by simp)
          fun q hq => ?_
        exact .same rfl (by simp [hq])
      · refine h.fork_of_frame (fun q => ?_) (fun q hq => hq) fun q hq => hq
        by_cases hq : q = p
        · subst hq
          exact Or.inr ⟨hrunning, by simp, fun hwaiting => absurd hwaiting hnot⟩
        · exact Or.inl (by simp [hq])
  | resumeSleep c p hctrl hresume hpc hlock =>
      have hrunning := (h.run c p hctrl).2
      constructor
      · refine h.toDispatchInv.released hctrl (Or.inr hlock) rfl rfl (by simp [hrunning]) (by simp)
          fun q hq => ?_
        exact .same (by simp [hq]) (by simp [hq])
      · have hstate : ∀ q, (s.proc.modify p (fun q => { q with chan := none }) q).state =
            (s.proc q).state := Ptable.modify_field _ _ _ Proc.state fun _ => rfl
        refine h.fork_of_frame (fun q => ?_) (fun q hq => ?_) fun q hq => ?_
        · by_cases hq : q = p
          · subst hq
            exact Or.inr ⟨hrunning, by simp, fun hwaiting => absurd hwaiting hpc⟩
          · exact Or.inl (by simp [hq])
        · exact (hstate q).trans hq
        · exact (hstate q) ▸ hq
  | round a c p request scanning s' hentry hround =>
      exact h.round hentry hround
  | yield c p hctrl hresume hlock =>
      have hrunning := (h.run c p hctrl).2
      have hnot : ¬ (s.thread p).pc.waiting := by
        intro hwaiting
        simp [h.waiting p hwaiting] at hresume
      constructor
      · refine h.toDispatchInv.scheduled hctrl (Or.inl hlock) rfl rfl
          (Or.inr ⟨by simp [ProcState.suspended], by simp [Resume.suspended]⟩) fun q hq => ?_
        exact .same (by simp [hq]) (by simp [hq])
      · refine h.fork_of_frame (fun q => ?_) (fun q hq => ?_) fun q hq => ?_
        · by_cases hq : q = p
          · subst hq
            exact Or.inr ⟨hrunning, by simp, fun hwaiting => absurd hwaiting hnot⟩
          · exact Or.inl (by simp [hq])
        · have hqp : q ≠ p := by
            rintro rfl
            simp [hrunning] at hq
          simpa [hqp] using hq
        · have hqp : q ≠ p := by
            rintro rfl
            simp [ProcState.dead] at hq
          simpa [hqp] using hq
  | sleep c p address hctrl hresume hpc hlock =>
      refine h.scheduled hctrl (Or.inl hlock) rfl rfl
        (Or.inr ⟨by simp [ProcState.suspended], by simp [Resume.suspended]⟩) ?_ (by simp)
          fun q hq => ?_
      · rcases hpc with hpc | hpc | ⟨page, hpc⟩ <;> simp [hpc, Pc.child]
      · exact .same (by simp [hq]) (by simp [hq])
  | zombie c p hctrl hresume hpc hlock =>
      obtain ⟨x, hx, hself⟩ := exitTable_self p s.ticks s.proc
      refine h.scheduled hctrl (Or.inl hlock) rfl rfl (Or.inl ⟨by simp [hself], by simp [hpc]⟩)
        (by simp [hpc, Pc.child]) (by simp [hpc, Pc.waiting]) fun q hq => ?_
      -- `exit` wakes up the parent and `initproc`, and hands its children on
      obtain ⟨y, hy, hother⟩ := exitTable_of_ne s.ticks s.proc hq
      refine aside_of_wakes (h.ne_back hlock) ?_ (by simp [hq])
      simpa [hother, Proc.orphaned] using hy.state_eq_or
  | wakeup c address henabled hlock =>
      refine h.frame (fun _ => rfl) (fun _ => rfl) hlock.symm rfl fun q => ?_
      have hwakes := (wakeup1_wakes (some (.other address)) s.proc q).state_eq_or
      exact hwakes.imp_right fun hw => ⟨hlock, hw⟩
  | tick => exact h.frame (fun _ => rfl) (fun _ => rfl) rfl rfl fun q => Or.inl rfl
  | kill c p pid hctrl hresume hpc hlock =>
      have hstate : ∀ q, ((kill pid s.proc).1 q).state = (s.proc q).state ∨
          (s.proc q).state = .sleeping ∧ ((kill pid s.proc).1 q).state = .runnable := by
        intro q
        rcases kill_apply pid s.proc q with hq | ⟨-, hq⟩
        · exact Or.inl (by rw [hq])
        · rw [hq]
          by_cases hsleeping : (s.proc q).state = .sleeping <;> simp [Proc.kill, hsleeping]
      have hrunning := (h.run c p hctrl).2
      refine h.thread hctrl hresume (fun _ => ⟨rfl, rfl⟩) hlock.symm ?_ (by simp [hresume])
        (by simp [Pc.child]) (by simp [Pc.waiting]) fun q hq => ?_
      · rcases hstate p with hp | ⟨hp, -⟩
        · simpa [hrunning] using hp
        · simp [hrunning] at hp
      · exact aside_of_wakes (h.ne_back hlock) (hstate q) (by simp [hq])
  | forkFull c p priority hkernel hctrl hresume hpc hlock hunused =>
      refine h.thread hctrl hresume (fun _ => ⟨rfl, rfl⟩) hlock.symm (h.run c p hctrl).2
        (by simp [hresume]) (by simp [Pc.child]) (by simp [Pc.waiting]) fun q hq => ?_
      exact .same rfl (by simp [hq])
  | fork c p np priority hkernel hctrl hresume hpc hlock hunused =>
      have hrunning := (h.run c p hctrl).2
      have hnp : (s.proc np).state = .unused := (find?_slots_eq_some_iff.mp hunused).1
      have hne : p ≠ np := by
        rintro rfl
        simp [hnp] at hrunning
      constructor
      · refine h.quiet (fun _ => rfl) (fun _ => rfl) hlock.symm fun q => ?_
        by_cases hq : q = np
        · subst hq
          refine .changed (by simp [hnp]) (by simp [allocated]) (fun c => h.ne_back hlock c q) ?_
          simp [allocated, ProcState.suspended]
        · exact .same (by simp [hq]) (update_field Thread.resume (by rfl) q)
      · refine h.fork_of_child np hrunning (by simp [Pc.child]) (by simp [allocated]) ?_
          (by simp [Pc.stacked]) (Or.inr (by simp [hne.symm])) (Or.inl hnp) (by simp +contextual)
          (by simp +contextual)
        -- no other thread builds in an unused slot
        intro q hq
        have hembryo := h.embryo q np hq
        simp [hnp] at hembryo
  | kallocFail c p np priority hctrl hresume hpc =>
      have hrunning := (h.run c p hctrl).2
      have hchild : (s.thread p).pc.child = some np := by simp [hpc, Pc.child]
      have hne : p ≠ np := h.ne_child hrunning hchild
      refine h.thread hctrl hresume (fun _ => ⟨rfl, rfl⟩) rfl (by simp [hne, hrunning])
        (by simp [hresume]) (by simp [Pc.child]) (by simp [Pc.waiting]) fun q hq => ?_
      by_cases hqnp : q = np
      · subst hqnp
        exact .built hchild (Or.inl (by simp)) (by simp [hq])
      · exact .same (by simp [hqnp]) (by simp [hq])
  | kalloc c p np priority kstack hctrl hresume hpc hfresh =>
      have hrunning := (h.run c p hctrl).2
      have hchild : (s.thread p).pc.child = some np := by simp [hpc, Pc.child]
      have hne : p ≠ np := h.ne_child hrunning hchild
      have hembryo := h.embryo p np hchild
      constructor
      · refine h.quiet (fun _ => rfl) (fun _ => rfl) rfl fun q => ?_
        by_cases hq : q = np
        · subst hq
          refine .changed (by simp [hembryo]) (by simp [hembryo])
            (fun c => h.ne_back_of_embryo hembryo) ?_
          simp [hembryo, ProcState.suspended]
        · -- only the child's slot gets a fresh thread
          refine .same (by simp [hq]) ?_
          by_cases hqp : q = p
          · subst hqp
            simp [hne]
          · simp [hq, hqp]
      · exact h.fork_of_child np hrunning (by simp [Pc.child]) (by simp [hembryo])
          (fun q hq => h.builder q p np hq hchild) (by simp [hne.symm])
          (Or.inl (by simp [hne.symm])) (Or.inr (Or.inl hembryo)) (by simp +contextual)
          (by simp +contextual)
  | copyuvmFail c p np priority kstack hctrl hresume hpc hkstack =>
      have hrunning := (h.run c p hctrl).2
      have hchild : (s.thread p).pc.child = some np := by simp [hpc, Pc.child]
      have hne : p ≠ np := h.ne_child hrunning hchild
      refine h.thread hctrl hresume (fun _ => ⟨rfl, rfl⟩) rfl (by simp [hne, hrunning])
        (by simp [hresume]) (by simp [Pc.child]) (by simp [Pc.waiting]) fun q hq => ?_
      by_cases hqnp : q = np
      · subst hqnp
        exact .built hchild (Or.inl (by simp)) (by simp [hq])
      · exact .same (by simp [hqnp]) (by simp [hq])
  | copyuvm c p np priority pgdir hctrl hresume hpc hfresh =>
      have hrunning := (h.run c p hctrl).2
      have hchild : (s.thread p).pc.child = some np := by simp [hpc, Pc.child]
      have hne : p ≠ np := h.ne_child hrunning hchild
      have hembryo := h.embryo p np hchild
      have hready := h.ready p np hchild (by simp [hpc, Pc.stacked])
      constructor
      · refine h.quiet (fun _ => rfl) (fun _ => rfl) rfl fun q => ?_
        refine .same ?_ (update_field Thread.resume (by rfl) q)
        exact Ptable.modify_field _ _ _ Proc.state (by intro; rfl) q
      · exact h.fork_of_child np hrunning (by simp [Pc.child]) (by simp [inherit, hembryo])
          (fun q hq => h.builder q p np hq hchild) (by simp [hne.symm, hready])
          (Or.inr (by simp [hne.symm])) (Or.inr (Or.inl hembryo)) (by simp +contextual)
          (by simp +contextual)
  | runnable c p np hctrl hresume hpc hlock =>
      have hrunning := (h.run c p hctrl).2
      have hchild : (s.thread p).pc.child = some np := by simp [hpc, Pc.child]
      have hne : p ≠ np := h.ne_child hrunning hchild
      refine h.thread hctrl hresume (fun _ => ⟨rfl, rfl⟩) hlock.symm (by simp [hne, hrunning])
        (by simp [hresume]) (by simp [Pc.child]) (by simp [Pc.waiting]) fun q hq => ?_
      by_cases hqnp : q = np
      · subst hqnp
        exact .built hchild (Or.inr ⟨by simp, by simp [hpc, Pc.stacked]⟩) (by simp [hq])
      · exact .same (by simp [hqnp]) (by simp [hq])
  | exit c p hctrl hresume hpc hinit =>
      refine h.thread hctrl hresume (fun _ => ⟨rfl, rfl⟩) rfl (h.run c p hctrl).2
        (by simp [hresume]) (by simp [Pc.child]) (by simp [Pc.waiting]) fun q hq => ?_
      exact .same rfl (by simp [hq])
  | ps c p hctrl hresume hpc hlock =>
      refine h.thread hctrl hresume (fun _ => ⟨rfl, rfl⟩) hlock.symm
        (by simp [(h.run c p hctrl).2]) (by simp [hresume]) (by simp [Pc.child])
        (by simp [Pc.waiting]) fun q hq => ?_
      exact .same (by simp) (by simp [hq])
  | exec c p page hctrl hresume hpc hfresh =>
      refine h.thread hctrl hresume (fun _ => ⟨rfl, rfl⟩) rfl (h.run c p hctrl).2
        (by simp [hresume]) (by simp [Pc.child]) (by simp [Pc.waiting]) fun q hq => ?_
      exact .same rfl (by simp [hq])
  | execBad c p page hctrl hresume hpc =>
      refine h.thread hctrl hresume (fun _ => ⟨rfl, rfl⟩) rfl (h.run c p hctrl).2
        (by simp [hresume]) (by simp [Pc.child]) (by simp [Pc.waiting]) fun q hq => ?_
      exact .same rfl (by simp [hq])
  | execCommit c p page hctrl hresume hpc =>
      refine h.thread hctrl hresume (fun _ => ⟨rfl, rfl⟩) rfl (by simp [(h.run c p hctrl).2])
        (by simp [hresume]) (by simp [Pc.child]) (by simp [Pc.waiting]) fun q hq => ?_
      exact .same (by simp [hq]) (by simp [hq])
  | execSwitch c p oldpgdir pgdir hctrl hresume hpc hpgdir =>
      refine h.thread hctrl hresume (State.reload_cpu c pgdir) rfl (h.run c p hctrl).2
        (by simp [hresume]) (by simp [Pc.child]) (by simp [Pc.waiting]) fun q hq => ?_
      exact .same rfl (by simp [hq])
  | execFree c p oldpgdir hctrl hresume hpc =>
      refine h.thread hctrl hresume (fun _ => ⟨rfl, rfl⟩) rfl (h.run c p hctrl).2
        (by simp [hresume]) (by simp [Pc.child]) (by simp [Pc.waiting]) fun q hq => ?_
      exact .same rfl (by simp [hq])
  | growproc c p pgdir hctrl hresume hpc hpgdir =>
      exact h.frame (fun c' => (State.reload_cpu c pgdir c').1)
        (fun c' => (State.reload_cpu c pgdir c').2) rfl rfl fun q => Or.inl rfl
  | fault c p hctrl hresume hpc =>
      refine h.frame (fun _ => rfl) (fun _ => rfl) rfl rfl fun q => Or.inl ?_
      exact Ptable.modify_field _ _ _ Proc.state (by intro; rfl) q

/-! ## From boot -/

omit [DecidableEq C] in
theorem boot (kstack pgdir : Addr) : Inv (boot C kstack pgdir) := by
  have hstate : ∀ p, ((Xv6.boot C kstack pgdir).proc p).state =
      if p = initproc then .runnable else .unused := by
    intro p
    by_cases hp : p = initproc
    · subst hp
      simp [Xv6.boot]
    · simp [Xv6.boot, hp]
  have hnot : ∀ p, ((Xv6.boot C kstack pgdir).proc p).state ≠ .running := by
    intro p
    rw [hstate]
    split <;> simp
  constructor
  · constructor
    case suspended => simp [Xv6.boot, Resume.suspended]
    case owner => exact fun p hp => absurd hp (hnot p)
    all_goals simp [Xv6.boot]
  · constructor <;> simp [Xv6.boot, Pc.child, Pc.waiting]

theorem of_run {t : State C} {guard : State C → Action C → State C → Prop} (h : Inv s)
    (run : Run (Xv6.step kernel) guard s t) : Inv t :=
  run.invariant h fun _ _ _ hstep _ hinv => hinv.step (step_cases hstep)

theorem of_reachable (h : Reachable kernel s) : Inv s := by
  obtain ⟨kstack, pgdir, -, hreaches⟩ := h
  exact (boot kstack pgdir).of_run hreaches

/-- What the steps from states that meet `Inv` preserve holds at the end of a run. -/
theorem run_invariant {t : State C} {guard : State C → Action C → State C → Prop}
    {I : State C → Prop} (h : Inv s) (run : Run (Xv6.step kernel) guard s t) (hstart : I s)
    (hstep : ∀ ⦃s a t⦄, Step kernel s a t → guard s a t → Inv s → I s → I t) : I t :=
  run.invariant_of_inductive h (fun _ _ _ hstep hinv => hinv.step (step_cases hstep)) hstart
    fun _ _ _ ha => hstep (step_cases ha)

end Steps

end Inv

end Xv6
