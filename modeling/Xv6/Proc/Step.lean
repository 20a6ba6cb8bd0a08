import Xv6.Proc.Machine

/-!
# What one step can do

`Step` lists the branches of `step` with their conditions and the states they
lead to, and `step_cases` says that there are no others.  The invariants of the
machine are proved from `Step` and never unfold `step`.

`wait` and `procstat` share their rounds.  A round is entered by the system call
itself or by the thread that `sched()` returns to after a wakeup (`Entry`), and
ends with a reaped child, with `-1`, or asleep (`Round`).
-/

namespace Xv6

open Transition

variable {C : Type} [DecidableEq C] {kernel : Kernel} {s s' : State C} {c : C} {p : Slot}

/-! ## Inversion of the parts -/

namespace State

theorem acquire_eq_next :
    s.acquire c = .next s' ↔ s.lock = none ∧ s' = { s with lock := some c } := by
  unfold acquire
  cases hlock : s.lock with
  | none => simp [eq_comm]
  | some holder => by_cases h : holder = c <;> simp [h]

theorem release_eq_next :
    s.release c = .next s' ↔ s.lock = some c ∧ s' = { s with lock := none } := by
  unfold release
  by_cases h : s.lock = some c <;> simp [h, eq_comm]

theorem sched_eq_next {resume : Resume} :
    s.sched c p resume = .next s' ↔
      s.lock = some c ∧ (s.proc p).state ≠ .running ∧
        s' = (s.setThread p fun t => { t with resume := resume }).setCpu c
          { s.cpu c with ctrl := .back p } := by
  unfold sched
  by_cases hlock : s.lock = some c <;> by_cases hstate : (s.proc p).state = .running <;>
    simp [hlock, hstate, eq_comm]

omit [DecidableEq C] in
theorem myproc_eq_next :
    s.myproc c = .next p ↔ (s.cpu c).ctrl = .run p ∧ (s.thread p).resume = .onCpu := by
  unfold myproc
  cases hctrl : (s.cpu c).ctrl with
  | run q =>
      by_cases h : (s.thread q).resume = .onCpu
      · simp only [if_pos h, Outcome.next.injEq, Ctrl.run.injEq]
        constructor
        · rintro rfl
          exact ⟨rfl, h⟩
        · exact fun h => h.1
      · simp only [if_neg h, Ctrl.run.injEq, reduceCtorEq, false_iff, not_and]
        rintro rfl
        exact h
  | _ => simp

omit [DecidableEq C] in
theorem procAt_eq_next {pc : Pc} :
    s.procAt c pc = .next p ↔
      (s.cpu c).ctrl = .run p ∧ (s.thread p).resume = .onCpu ∧ (s.thread p).pc = pc := by
  simp only [procAt, Outcome.bind_eq_next, myproc_eq_next]
  constructor
  · rintro ⟨q, ⟨hctrl, hresume⟩, h⟩
    by_cases hpc : (s.thread q).pc = pc
    · obtain rfl : q = p := by simpa [hpc] using h
      exact ⟨hctrl, hresume, hpc⟩
    · simp [hpc] at h
  · rintro ⟨hctrl, hresume, hpc⟩
    exact ⟨p, ⟨hctrl, hresume⟩, by simp [hpc]⟩

omit [DecidableEq C] in
theorem setProc_setProc (f g : Proc → Proc) :
    (s.setProc p f).setProc p g = s.setProc p fun q => g (f q) := by
  unfold setProc
  rw [Ptable.modify_modify]

omit [DecidableEq C] in
theorem setThread_setThread (f g : Thread → Thread) :
    (s.setThread p f).setThread p g = s.setThread p fun t => g (f t) := by
  unfold setThread
  simp

/-- Loading `cr3` changes nothing else in a CPU. -/
theorem reload_cpu (c : C) (pgdir : Addr) (c' : C) :
    ((s.setCpu c { s.cpu c with cr3 := some pgdir }).cpu c').ctrl = (s.cpu c').ctrl ∧
      ((s.setCpu c { s.cpu c with cr3 := some pgdir }).cpu c').proc = (s.cpu c').proc := by
  by_cases hc : c' = c
  · subst hc
    simp
  · simp [hc]

end State

theorem switchuvm_eq_next {q : Proc} {page : Addr} :
    switchuvm q = .next page ↔ q.kstack ≠ none ∧ q.pgdir = some page := by
  unfold switchuvm
  by_cases hkstack : q.kstack = none
  · simp [hkstack]
  · cases hpgdir : q.pgdir <;> simp [hkstack]

theorem choose_runnable {table : Ptable} {first : ℕ}
    (h : State.choose kernel table first = some p) : (table p).state = .runnable := by
  cases kernel with
  | fcfs => exact (minP_eq_some_iff.mp h).1
  | priority =>
      obtain ⟨p', hp', rfl⟩ := Option.map_eq_some_iff.mp h
      exact highP_runnable (nextRunnable_eq_some_iff.mp hp').1.2

/-! ## Rounds of `wait` and `procstat` -/

/-- The child that a round of the request finds. -/
def finds (request : Pc) (table : Ptable) (cur : Slot) : Option Slot :=
  match request with
  | .wait => waitFinds table cur
  | .procstat pid _ => procstatFinds table cur pid
  | _ => none

/-- The thread of the caller after a round of the request has reaped `child`. -/
def answered (kernel : Kernel) (request : Pc) (child : Proc) (t : Thread) : Thread :=
  match request with
  | .procstat pid pstat =>
      { t with
        pc := .user
        ret := pid
        pstat := if pstat then some (child.report kernel) else none }
  | _ => { t with pc := .user, ret := child.pid }

def Pc.waiting (pc : Pc) : Prop :=
  match pc with
  | .wait | .procstat _ _ => True
  | _ => False

/-- The system call that makes the request. -/
def Pc.call (c : C) (request : Pc) (a : Action C) : Prop :=
  match request with
  | .wait => a = .wait c
  | .procstat pid pstat => a = .procstat c pid pstat
  | _ => False

/-- How a round of the request begins, and the state in which it scans. -/
inductive Entry (s : State C) (c : C) (p : Slot) (request : Pc) : Action C → State C → Prop
  | call (a : Action C) (hcall : request.call c a) (hctrl : (s.cpu c).ctrl = .run p)
      (hresume : (s.thread p).resume = .onCpu) (hpc : (s.thread p).pc = .user)
      (hlock : s.lock = none) :
      Entry s c p request a ({ s with lock := some c }.setThread p
        fun t => { t with pc := request, pstat := none })
  | woken (hctrl : (s.cpu c).ctrl = .run p) (hresume : (s.thread p).resume = .sleep)
      (hpc : (s.thread p).pc = request) (hwaiting : request.waiting) :
      Entry s c p request (.resume c) ((s.setProc p fun q => { q with chan := none }).setThread p
        fun t => { t with resume := .onCpu })

/-- How a round of the request ends. -/
inductive Round (kernel : Kernel) (s : State C) (c : C) (p : Slot) (request : Pc) :
    State C → Prop
  | reaped (z : Slot) (kstack pgdir : Addr) (hfinds : finds request s.proc p = some z)
      (hkstack : (s.proc z).kstack = some kstack) (hpgdir : (s.proc z).pgdir = some pgdir)
      (hlock : s.lock = some c) :
      Round kernel s c p request ({ s.setProc z Proc.reaped with
        used := (s.used.erase kstack).erase pgdir
        lock := none }.setThread p (answered kernel request (s.proc z)))
  | gaveUp (hfinds : finds request s.proc p = none)
      (hcannot : havekids s.proc p = false ∨ (s.proc p).killed = true)
      (hlock : s.lock = some c) :
      Round kernel s c p request ({ s.setProc p fun q => { q with etime := s.ticks } with
        lock := none }.ret p (-1))
  | slept (hfinds : finds request s.proc p = none) (hkids : havekids s.proc p = true)
      (hkilled : (s.proc p).killed = false) (hlock : s.lock = some c) :
      Round kernel s c p request (((s.setProc p fun q =>
        { q with etime := s.ticks, chan := some (.proc p), state := .sleeping }).setThread p
          fun t => { t with resume := .sleep }).setCpu c { s.cpu c with ctrl := .back p })

/-- The child that a round finds. -/
theorem finds_spec {request : Pc} {table : Ptable} {cur z : Slot}
    (h : finds request table cur = some z) :
    (table z).parent = some cur ∧ (table z).state = .zombie := by
  cases request with
  | wait => exact (waitFinds_eq_some_iff.mp h).1
  | procstat pid pstat =>
      obtain ⟨hparent, -, hstate⟩ := (procstatFinds_eq_some_iff.mp h).1
      exact ⟨hparent, hstate⟩
  | _ => simp [finds] at h

theorem finds_ne {request : Pc} {table : Ptable} {cur z : Slot}
    (h : finds request table cur = some z) (hrunning : (table cur).state = .running) : z ≠ cur := by
  rintro rfl
  simp [(finds_spec h).2] at hrunning

namespace Entry

variable {request : Pc} {a : Action C} {scanning : State C}

omit [DecidableEq C] in
theorem waiting (h : Entry s c p request a scanning) : request.waiting := by
  cases h with
  | call _ hcall => cases request <;> simp_all [Pc.call, Pc.waiting]
  | woken _ _ _ hwaiting => exact hwaiting

omit [DecidableEq C] in
theorem ctrl (h : Entry s c p request a scanning) : (s.cpu c).ctrl = .run p := by
  cases h <;> assumption

omit [DecidableEq C] in
theorem cpu (h : Entry s c p request a scanning) : scanning.cpu = s.cpu := by
  cases h <;> rfl

omit [DecidableEq C] in
theorem used (h : Entry s c p request a scanning) : scanning.used = s.used := by
  cases h <;> rfl

omit [DecidableEq C] in
theorem nextpid (h : Entry s c p request a scanning) : scanning.nextpid = s.nextpid := by
  cases h <;> rfl

omit [DecidableEq C] in
theorem ticks (h : Entry s c p request a scanning) : scanning.ticks = s.ticks := by
  cases h <;> rfl

omit [DecidableEq C] in
theorem proc_of_ne (h : Entry s c p request a scanning) {q : Slot} (hq : q ≠ p) :
    scanning.proc q = s.proc q := by
  cases h with
  | call => rfl
  | woken => simp [hq]

omit [DecidableEq C] in
/-- The round starts from the caller's slot as it is, or without its channel. -/
theorem proc_self (h : Entry s c p request a scanning) :
    scanning.proc p = s.proc p ∨ scanning.proc p = { s.proc p with chan := none } := by
  cases h with
  | call => exact Or.inl rfl
  | woken => exact Or.inr (by simp)

omit [DecidableEq C] in
theorem state_eq (h : Entry s c p request a scanning) (q : Slot) :
    (scanning.proc q).state = (s.proc q).state := by
  by_cases hq : q = p
  · subst hq
    rcases h.proc_self with hself | hself <;> rw [hself]
  · rw [h.proc_of_ne hq]

omit [DecidableEq C] in
theorem thread_of_ne (h : Entry s c p request a scanning) {q : Slot} (hq : q ≠ p) :
    scanning.thread q = s.thread q := by
  cases h <;> exact Function.update_of_ne hq _ _

omit [DecidableEq C] in
theorem resume_eq (h : Entry s c p request a scanning) :
    (scanning.thread p).resume = .onCpu := by
  cases h with
  | call _ _ _ hresume => simpa using hresume
  | woken => simp

omit [DecidableEq C] in
theorem pc_eq (h : Entry s c p request a scanning) : (scanning.thread p).pc = request := by
  cases h with
  | call => simp
  | woken _ _ hpc _ => simpa using hpc

omit [DecidableEq C] in
theorem free (h : Entry s c p request a scanning) (hlock : scanning.lock = some c) :
    s.lock = none ∨ s.lock = some c := by
  cases h with
  | call _ _ _ _ _ hfree => exact Or.inl hfree
  | woken => exact Or.inr hlock

omit [DecidableEq C] in
theorem action (h : Entry s c p request a scanning) :
    request.call c a ∨ a = .resume c ∧ (s.thread p).pc = request := by
  cases h with
  | call _ hcall => exact Or.inl hcall
  | woken _ _ hpc => exact Or.inr ⟨rfl, hpc⟩

omit [DecidableEq C] in
theorem action_eq (h : Entry s c p request a scanning) :
    a = .wait c ∨ (∃ pid pstat, a = .procstat c pid pstat) ∨ a = .resume c := by
  cases h with
  | call _ hcall => cases request <;> simp_all [Pc.call]
  | woken => simp

end Entry

section Rounds

variable {request : Pc}

theorem round_of_reap {z : Slot} {s₁ s₂ : State C} (hfinds : finds request s.proc p = some z)
    (hreap : s.reap z = .next s₁) (hrelease : s₁.release c = .next s₂) :
    Round kernel s c p request (s₂.setThread p (answered kernel request (s.proc z))) := by
  unfold State.reap at hreap
  cases hkstack : (s.proc z).kstack with
  | none => simp [hkstack] at hreap
  | some kstack =>
      cases hpgdir : (s.proc z).pgdir with
      | none => simp [hkstack, hpgdir] at hreap
      | some pgdir =>
          rw [hkstack, hpgdir, Outcome.next.injEq] at hreap
          subst hreap
          obtain ⟨hlock, rfl⟩ := State.release_eq_next.mp hrelease
          exact .reaped z kstack pgdir hfinds hkstack hpgdir hlock

theorem round_of_giveUpOrSleep (hfinds : finds request s.proc p = none)
    (h : s.giveUpOrSleep c p = .next s') : Round kernel s c p request s' := by
  have hkids : havekids (s.setProc p fun q => { q with etime := s.ticks }).proc p =
      havekids s.proc p := by
    refine havekids_congr fun q => ?_
    simp only [State.setProc_proc, Ptable.modify_apply]
    split <;> rfl
  unfold State.giveUpOrSleep at h
  simp only [hkids, State.setProc_proc, Ptable.modify_self] at h
  split at h
  · rename_i hcannot
    obtain ⟨released, hrelease, hret⟩ := Outcome.bind_eq_next.mp h
    obtain ⟨hlock, rfl⟩ := State.release_eq_next.mp hrelease
    obtain rfl := Outcome.next.inj hret
    exact .gaveUp hfinds (by simpa using hcannot) hlock
  · rename_i hmay
    obtain ⟨hlock, -, rfl⟩ := State.sched_eq_next.mp h
    rw [State.setProc_setProc]
    have hmay : havekids s.proc p = true ∧ (s.proc p).killed = false := by simpa using hmay
    exact .slept hfinds hmay.1 hmay.2 hlock

theorem round_of_waitLoop (h : s.waitLoop c p = .next s') : Round kernel s c p .wait s' := by
  unfold State.waitLoop at h
  cases hfinds : waitFinds s.proc p with
  | none =>
      rw [hfinds] at h
      exact round_of_giveUpOrSleep hfinds h
  | some z =>
      rw [hfinds] at h
      obtain ⟨s₁, hreap, h⟩ := Outcome.bind_eq_next.mp h
      obtain ⟨s₂, hrelease, h⟩ := Outcome.bind_eq_next.mp h
      obtain rfl := Outcome.next.inj h
      exact round_of_reap hfinds hreap hrelease

theorem round_of_procstatLoop {pid : ℤ} {pstat : Bool}
    (h : s.procstatLoop kernel c p pid pstat = .next s') :
    Round kernel s c p (.procstat pid pstat) s' := by
  unfold State.procstatLoop at h
  cases hfinds : procstatFinds s.proc p pid with
  | none =>
      rw [hfinds] at h
      exact round_of_giveUpOrSleep hfinds h
  | some z =>
      rw [hfinds] at h
      obtain ⟨s₁, hreap, h⟩ := Outcome.bind_eq_next.mp h
      obtain ⟨s₂, hrelease, h⟩ := Outcome.bind_eq_next.mp h
      obtain rfl := Outcome.next.inj h
      rw [State.ret, State.setThread_setThread]
      have hrequest : finds (.procstat pid pstat) s.proc p = some z := hfinds
      exact round_of_reap hrequest hreap hrelease

end Rounds

/-! ## Steps -/

/-- The branches of `step`. -/
inductive Step (kernel : Kernel) (s : State C) : Action C → State C → Prop
  | startPass (c : C) (hctrl : (s.cpu c).ctrl = .idle) (hlock : s.lock = none) :
      Step kernel s (.acquire c)
        ({ s with lock := some c }.setCpu c { s.cpu c with ctrl := .scan 0 })
  | endPass (c : C) (first : ℕ) (hctrl : (s.cpu c).ctrl = .scan first)
      (hchoose : State.choose kernel s.proc first = none) (hlock : s.lock = some c) :
      Step kernel s (.pick c) ({ s with lock := none }.setCpu c { s.cpu c with ctrl := .idle })
  | dispatch (c : C) (first : ℕ) (p : Slot) (pgdir : Addr)
      (hctrl : (s.cpu c).ctrl = .scan first)
      (hchoose : State.choose kernel s.proc first = some p)
      (hkstack : (s.proc p).kstack ≠ none) (hpgdir : (s.proc p).pgdir = some pgdir) :
      Step kernel s (.pick c) ((s.setCpu c
        { ctrl := .run p, proc := some p, cr3 := some pgdir }).setProc p
          fun q => { q with state := .running })
  | backFcfs (c : C) (p : Slot) (hkernel : kernel = .fcfs) (hctrl : (s.cpu c).ctrl = .back p)
      (hlock : s.lock = some c) :
      Step kernel s (.back c) ({ s with lock := none }.setCpu c
        { ctrl := .idle, proc := none, cr3 := none })
  | backPriority (c : C) (p : Slot) (hkernel : kernel = .priority)
      (hctrl : (s.cpu c).ctrl = .back p) :
      Step kernel s (.back c) (s.setCpu c { ctrl := .scan (p + 1), proc := none, cr3 := none })
  | resume (c : C) (p : Slot) (hctrl : (s.cpu c).ctrl = .run p)
      (hresume : (s.thread p).resume = .forkret ∨ (s.thread p).resume = .yield)
      (hlock : s.lock = some c) :
      Step kernel s (.resume c) ({ s with lock := none }.setThread p
        fun t => { t with resume := .onCpu })
  | resumeSleep (c : C) (p : Slot) (hctrl : (s.cpu c).ctrl = .run p)
      (hresume : (s.thread p).resume = .sleep) (hpc : ¬ (s.thread p).pc.waiting)
      (hlock : s.lock = some c) :
      Step kernel s (.resume c) (({ s with lock := none }.setProc p
        fun q => { q with chan := none }).setThread p fun t => { t with resume := .onCpu })
  | round (a : Action C) (c : C) (p : Slot) (request : Pc) (scanning s' : State C)
      (hentry : Entry s c p request a scanning)
      (hround : Round kernel scanning c p request s') :
      Step kernel s a s'
  | yield (c : C) (p : Slot) (hctrl : (s.cpu c).ctrl = .run p)
      (hresume : (s.thread p).resume = .onCpu) (hlock : s.lock = none) :
      Step kernel s (.yield c) ((({ s with lock := some c }.setProc p
        fun q => { q with state := .runnable }).setThread p
          fun t => { t with resume := .yield }).setCpu c { s.cpu c with ctrl := .back p })
  | sleep (c : C) (p : Slot) (address : ℕ) (hctrl : (s.cpu c).ctrl = .run p)
      (hresume : (s.thread p).resume = .onCpu)
      (hpc : (s.thread p).pc = .user ∨ (s.thread p).pc = .exit ∨
        ∃ page, (s.thread p).pc = .execLoad page)
      (hlock : s.lock = none) :
      Step kernel s (.sleep c address) ((({ s with lock := some c }.setProc p fun q =>
        { q with chan := some (.other address), state := .sleeping }).setThread p
          fun t => { t with resume := .sleep }).setCpu c { s.cpu c with ctrl := .back p })
  | zombie (c : C) (p : Slot) (hctrl : (s.cpu c).ctrl = .run p)
      (hresume : (s.thread p).resume = .onCpu) (hpc : (s.thread p).pc = .exit)
      (hlock : s.lock = none) :
      Step kernel s (.zombie c) (({ s with
        lock := some c
        proc := exitTable p s.ticks s.proc }.setThread p
          fun t => { t with resume := .zombie }).setCpu c { s.cpu c with ctrl := .back p })
  | wakeup (c : C) (address : ℕ) (henabled : s.interruptible c = true) (hlock : s.lock = none) :
      Step kernel s (.wakeup c address) { s with
        lock := none
        proc := wakeup1 (some (.other address)) s.proc }
  | tick : Step kernel s .tick { s with ticks := s.ticks + 1 }
  | kill (c : C) (p : Slot) (pid : ℤ) (hctrl : (s.cpu c).ctrl = .run p)
      (hresume : (s.thread p).resume = .onCpu) (hpc : (s.thread p).pc = .user)
      (hlock : s.lock = none) :
      Step kernel s (.kill c pid) ({ s with
        lock := none
        proc := (kill pid s.proc).1 }.ret p (kill pid s.proc).2)
  | forkFull (c : C) (p : Slot) (priority : Option ℤ)
      (hkernel : kernel = .fcfs → priority = none) (hctrl : (s.cpu c).ctrl = .run p)
      (hresume : (s.thread p).resume = .onCpu) (hpc : (s.thread p).pc = .user)
      (hlock : s.lock = none) (hunused : firstUnused s.proc = none) :
      Step kernel s (.fork c priority) ({ s with lock := none }.ret p (-1))
  | fork (c : C) (p np : Slot) (priority : Option ℤ)
      (hkernel : kernel = .fcfs → priority = none) (hctrl : (s.cpu c).ctrl = .run p)
      (hresume : (s.thread p).resume = .onCpu) (hpc : (s.thread p).pc = .user)
      (hlock : s.lock = none) (hunused : firstUnused s.proc = some np) :
      Step kernel s (.fork c priority) (({ s with
        lock := none
        nextpid := s.nextpid + 1 }.setProc np (allocated (toInt s.nextpid) s.ticks)).goto p
          (.forkKalloc np priority))
  | kallocFail (c : C) (p np : Slot) (priority : Option ℤ) (hctrl : (s.cpu c).ctrl = .run p)
      (hresume : (s.thread p).resume = .onCpu)
      (hpc : (s.thread p).pc = .forkKalloc np priority) :
      Step kernel s (.kalloc c none) ((s.setProc np
        fun q => { q with kstack := none, state := .unused }).ret p (-1))
  | kalloc (c : C) (p np : Slot) (priority : Option ℤ) (kstack : Addr)
      (hctrl : (s.cpu c).ctrl = .run p) (hresume : (s.thread p).resume = .onCpu)
      (hpc : (s.thread p).pc = .forkKalloc np priority) (hfresh : kstack ∉ s.used) :
      Step kernel s (.kalloc c (some kstack)) ((({ s with used := kstack :: s.used }.setProc np
        fun q => { q with kstack := some kstack }).setThread np fun _ => ({} : Thread)).goto p
          (.forkCopyuvm np priority))
  | copyuvmFail (c : C) (p np : Slot) (priority : Option ℤ) (kstack : Addr)
      (hctrl : (s.cpu c).ctrl = .run p) (hresume : (s.thread p).resume = .onCpu)
      (hpc : (s.thread p).pc = .forkCopyuvm np priority)
      (hkstack : (s.proc np).kstack = some kstack) :
      Step kernel s (.copyuvm c none) (({ s with used := s.used.erase kstack }.setProc np
        fun q => { q with pgdir := none, kstack := none, state := .unused }).ret p (-1))
  | copyuvm (c : C) (p np : Slot) (priority : Option ℤ) (pgdir : Addr)
      (hctrl : (s.cpu c).ctrl = .run p) (hresume : (s.thread p).resume = .onCpu)
      (hpc : (s.thread p).pc = .forkCopyuvm np priority) (hfresh : pgdir ∉ s.used) :
      Step kernel s (.copyuvm c (some pgdir)) (({ s with used := pgdir :: s.used }.setProc np
        (inherit p pgdir priority)).goto p (.forkRunnable np))
  | runnable (c : C) (p np : Slot) (hctrl : (s.cpu c).ctrl = .run p)
      (hresume : (s.thread p).resume = .onCpu) (hpc : (s.thread p).pc = .forkRunnable np)
      (hlock : s.lock = none) :
      Step kernel s (.runnable c) (({ s with lock := none }.setProc np
        fun q => { q with state := .runnable }).ret p (s.proc np).pid)
  | exit (c : C) (p : Slot) (hctrl : (s.cpu c).ctrl = .run p)
      (hresume : (s.thread p).resume = .onCpu) (hpc : (s.thread p).pc = .user)
      (hinit : p ≠ initproc) :
      Step kernel s (.exit c) (s.goto p .exit)
  | ps (c : C) (p : Slot) (hctrl : (s.cpu c).ctrl = .run p)
      (hresume : (s.thread p).resume = .onCpu) (hpc : (s.thread p).pc = .user)
      (hlock : s.lock = none) :
      Step kernel s (.ps c) ({ s with lock := none, proc := psTable s.ticks s.proc }.ret p 0)
  | exec (c : C) (p : Slot) (page : Addr) (hctrl : (s.cpu c).ctrl = .run p)
      (hresume : (s.thread p).resume = .onCpu) (hpc : (s.thread p).pc = .user)
      (hfresh : page ∉ s.used) :
      Step kernel s (.exec c page) ({ s with used := page :: s.used }.goto p (.execLoad page))
  | execBad (c : C) (p : Slot) (page : Addr) (hctrl : (s.cpu c).ctrl = .run p)
      (hresume : (s.thread p).resume = .onCpu) (hpc : (s.thread p).pc = .execLoad page) :
      Step kernel s (.execBad c) ({ s with used := s.used.erase page }.ret p (-1))
  | execCommit (c : C) (p : Slot) (page : Addr) (hctrl : (s.cpu c).ctrl = .run p)
      (hresume : (s.thread p).resume = .onCpu) (hpc : (s.thread p).pc = .execLoad page) :
      Step kernel s (.execCommit c) ((s.setProc p fun q => { q with pgdir := some page }).goto p
        (.execSwitch (s.proc p).pgdir))
  | execSwitch (c : C) (p : Slot) (oldpgdir : Option Addr) (pgdir : Addr)
      (hctrl : (s.cpu c).ctrl = .run p) (hresume : (s.thread p).resume = .onCpu)
      (hpc : (s.thread p).pc = .execSwitch oldpgdir) (hpgdir : (s.proc p).pgdir = some pgdir) :
      Step kernel s (.execSwitch c) ((s.setCpu c { s.cpu c with cr3 := some pgdir }).goto p
        (.execFree oldpgdir))
  | execFree (c : C) (p : Slot) (oldpgdir : Addr) (hctrl : (s.cpu c).ctrl = .run p)
      (hresume : (s.thread p).resume = .onCpu)
      (hpc : (s.thread p).pc = .execFree (some oldpgdir)) :
      Step kernel s (.execFree c) ({ s with used := s.used.erase oldpgdir }.ret p 0)
  | growproc (c : C) (p : Slot) (pgdir : Addr) (hctrl : (s.cpu c).ctrl = .run p)
      (hresume : (s.thread p).resume = .onCpu) (hpc : (s.thread p).pc = .user)
      (hpgdir : (s.proc p).pgdir = some pgdir) :
      Step kernel s (.growproc c) (s.setCpu c { s.cpu c with cr3 := some pgdir })
  | fault (c : C) (p : Slot) (hctrl : (s.cpu c).ctrl = .run p)
      (hresume : (s.thread p).resume = .onCpu) (hpc : (s.thread p).pc = .user) :
      Step kernel s (.fault c) (s.setProc p fun q => { q with killed := true })

/-! ## All branches -/

theorem step_of_resume (h : s.resume kernel c = .next s') : Step kernel s (.resume c) s' := by
  unfold State.resume at h
  cases hctrl : (s.cpu c).ctrl with
  | run p =>
      rw [hctrl] at h
      dsimp only at h
      cases hresume : (s.thread p).resume with
      | onCpu => simp [hresume] at h
      | zombie => simp [hresume] at h
      | forkret =>
          rw [hresume] at h
          obtain ⟨released, hrelease, h⟩ := Outcome.bind_eq_next.mp h
          obtain ⟨hlock, rfl⟩ := State.release_eq_next.mp hrelease
          obtain rfl := Outcome.next.inj h
          exact .resume c p hctrl (Or.inl hresume) hlock
      | yield =>
          rw [hresume] at h
          obtain ⟨released, hrelease, h⟩ := Outcome.bind_eq_next.mp h
          obtain ⟨hlock, rfl⟩ := State.release_eq_next.mp hrelease
          obtain rfl := Outcome.next.inj h
          exact .resume c p hctrl (Or.inr hresume) hlock
      | sleep =>
          rw [hresume] at h
          have hentry (request : Pc) (hpc : (s.thread p).pc = request)
              (hwaiting : request.waiting) := Entry.woken hctrl hresume hpc hwaiting
          have hwoken : ∀ change : Proc → Proc, ((((s.setProc p change).setThread p
              fun t => { t with resume := .onCpu }).thread p).pc) = (s.thread p).pc := by
            simp
          simp only [hwoken] at h
          split at h
          · rename_i hpc
            exact .round _ c p .wait _ _ (hentry _ hpc trivial) (round_of_waitLoop h)
          · rename_i pid pstat hpc
            exact .round _ c p (.procstat pid pstat) _ _ (hentry _ hpc trivial)
              (round_of_procstatLoop h)
          · rename_i hwait hprocstat
            obtain ⟨hlock, rfl⟩ := State.release_eq_next.mp h
            refine .resumeSleep c p hctrl hresume ?_ hlock
            intro hwaiting
            cases hpc : (s.thread p).pc with
            | wait => exact hwait hpc
            | procstat pid pstat => exact hprocstat pid pstat hpc
            | _ => simp [hpc, Pc.waiting] at hwaiting
  | _ => simp [hctrl] at h

theorem step_of_scheduler_back (h : s.back kernel c = .next s') : Step kernel s (.back c) s' := by
  unfold State.back at h
  cases hctrl : (s.cpu c).ctrl with
  | back p =>
      rw [hctrl] at h
      dsimp only at h
      cases kernel with
      | fcfs =>
          obtain ⟨released, hrelease, h⟩ := Outcome.bind_eq_next.mp h
          obtain ⟨hlock, rfl⟩ := State.release_eq_next.mp hrelease
          obtain rfl := Outcome.next.inj h
          have hstep : Step .fcfs s (.back c) _ := .backFcfs c p rfl hctrl hlock
          simpa [State.setCpu] using hstep
      | priority =>
          obtain rfl := Outcome.next.inj h
          exact .backPriority c p rfl hctrl
  | _ => simp [hctrl] at h

theorem step_of_pick (h : s.pick kernel c = .next s') : Step kernel s (.pick c) s' := by
  unfold State.pick at h
  cases hctrl : (s.cpu c).ctrl with
  | scan first =>
      rw [hctrl] at h
      dsimp only at h
      cases hchoose : State.choose kernel s.proc first with
      | none =>
          rw [hchoose] at h
          obtain ⟨released, hrelease, h⟩ := Outcome.bind_eq_next.mp h
          obtain ⟨hlock, rfl⟩ := State.release_eq_next.mp hrelease
          obtain rfl := Outcome.next.inj h
          exact .endPass c first hctrl hchoose hlock
      | some p =>
          rw [hchoose] at h
          obtain ⟨pgdir, hswitchuvm, h⟩ := Outcome.bind_eq_next.mp h
          obtain ⟨hkstack, hpgdir⟩ := switchuvm_eq_next.mp hswitchuvm
          obtain rfl := Outcome.next.inj h
          exact .dispatch c first p pgdir hctrl hchoose hkstack hpgdir
  | _ => simp [hctrl] at h

theorem step_of_fork {priority : Option ℤ} (h : s.fork kernel c priority = .next s') :
    Step kernel s (.fork c priority) s' := by
  obtain ⟨p, hprocAt, h⟩ := Outcome.bind_eq_next.mp h
  obtain ⟨hctrl, hresume, hpc⟩ := State.procAt_eq_next.mp hprocAt
  split at h
  · simp at h
  · rename_i hpriority
    have hkernel : kernel = .fcfs → priority = none := by simpa using hpriority
    obtain ⟨acquired, hacquire, h⟩ := Outcome.bind_eq_next.mp h
    obtain ⟨hlock, rfl⟩ := State.acquire_eq_next.mp hacquire
    dsimp only at h
    cases hunused : firstUnused s.proc with
    | none =>
        rw [hunused] at h
        obtain ⟨released, hrelease, h⟩ := Outcome.bind_eq_next.mp h
        obtain ⟨-, rfl⟩ := State.release_eq_next.mp hrelease
        obtain rfl := Outcome.next.inj h
        exact .forkFull c p priority hkernel hctrl hresume hpc hlock hunused
    | some np =>
        rw [hunused] at h
        obtain ⟨released, hrelease, h⟩ := Outcome.bind_eq_next.mp h
        obtain ⟨-, rfl⟩ := State.release_eq_next.mp hrelease
        obtain rfl := Outcome.next.inj h
        exact .fork c p np priority hkernel hctrl hresume hpc hlock hunused

theorem step_of_kalloc {page : Option Addr} (h : s.kalloc c page = .next s') :
    Step kernel s (.kalloc c page) s' := by
  obtain ⟨p, hmyproc, h⟩ := Outcome.bind_eq_next.mp h
  obtain ⟨hctrl, hresume⟩ := State.myproc_eq_next.mp hmyproc
  split at h
  · rename_i np priority hpc
    cases page with
    | none =>
        obtain rfl := Outcome.next.inj h
        exact .kallocFail c p np priority hctrl hresume hpc
    | some kstack =>
        dsimp only at h
        split at h
        · simp at h
        · rename_i hfresh
          obtain rfl := Outcome.next.inj h
          exact .kalloc c p np priority kstack hctrl hresume hpc hfresh
  · simp at h

theorem step_of_copyuvm {page : Option Addr} (h : s.copyuvm c page = .next s') :
    Step kernel s (.copyuvm c page) s' := by
  obtain ⟨p, hmyproc, h⟩ := Outcome.bind_eq_next.mp h
  obtain ⟨hctrl, hresume⟩ := State.myproc_eq_next.mp hmyproc
  split at h
  · rename_i np priority hpc
    cases page with
    | none =>
        dsimp only at h
        cases hkstack : (s.proc np).kstack with
        | none => simp [hkstack] at h
        | some kstack =>
            rw [hkstack] at h
            obtain rfl := Outcome.next.inj h
            exact .copyuvmFail c p np priority kstack hctrl hresume hpc hkstack
    | some pgdir =>
        dsimp only at h
        split at h
        · simp at h
        · rename_i hfresh
          obtain rfl := Outcome.next.inj h
          exact .copyuvm c p np priority pgdir hctrl hresume hpc hfresh
  · simp at h

theorem step_of_runnable (h : s.runnable c = .next s') : Step kernel s (.runnable c) s' := by
  obtain ⟨p, hmyproc, h⟩ := Outcome.bind_eq_next.mp h
  obtain ⟨hctrl, hresume⟩ := State.myproc_eq_next.mp hmyproc
  split at h
  · rename_i np hpc
    obtain ⟨acquired, hacquire, h⟩ := Outcome.bind_eq_next.mp h
    obtain ⟨hlock, rfl⟩ := State.acquire_eq_next.mp hacquire
    obtain ⟨released, hrelease, h⟩ := Outcome.bind_eq_next.mp h
    obtain ⟨-, rfl⟩ := State.release_eq_next.mp hrelease
    obtain rfl := Outcome.next.inj h
    have hpid : ((s.setProc np fun q => { q with state := .runnable }).proc np).pid =
        (s.proc np).pid := by
      simp
    exact hpid ▸ Step.runnable c p np hctrl hresume hpc hlock
  · simp at h

theorem step_of_sleep {address : ℕ} (h : s.sleep c address = .next s') :
    Step kernel s (.sleep c address) s' := by
  obtain ⟨p, hmyproc, h⟩ := Outcome.bind_eq_next.mp h
  obtain ⟨hctrl, hresume⟩ := State.myproc_eq_next.mp hmyproc
  have hsleep (hpc : (s.thread p).pc = .user ∨ (s.thread p).pc = .exit ∨
      ∃ page, (s.thread p).pc = .execLoad page)
      (h : (s.acquire c >>= fun s => s.sleepOn c p (.other address)) = .next s') :
      Step kernel s (.sleep c address) s' := by
    obtain ⟨acquired, hacquire, h⟩ := Outcome.bind_eq_next.mp h
    obtain ⟨hlock, rfl⟩ := State.acquire_eq_next.mp hacquire
    obtain ⟨-, -, rfl⟩ := State.sched_eq_next.mp h
    exact .sleep c p address hctrl hresume hpc hlock
  cases hpc : (s.thread p).pc with
  | user =>
      rw [hpc] at h
      exact hsleep (Or.inl hpc) h
  | exit =>
      rw [hpc] at h
      exact hsleep (Or.inr (Or.inl hpc)) h
  | execLoad page =>
      rw [hpc] at h
      exact hsleep (Or.inr (Or.inr ⟨page, hpc⟩)) h
  | _ => simp [hpc] at h

theorem step_of_wakeup {address : ℕ} (h : s.wakeup c address = .next s') :
    Step kernel s (.wakeup c address) s' := by
  unfold State.wakeup at h
  split at h
  · rename_i henabled
    obtain ⟨acquired, hacquire, h⟩ := Outcome.bind_eq_next.mp h
    obtain ⟨hlock, rfl⟩ := State.acquire_eq_next.mp hacquire
    obtain ⟨-, rfl⟩ := State.release_eq_next.mp h
    exact .wakeup c address henabled hlock
  · simp at h

/-- Every branch of `step` is one of `Step`. -/
theorem step_cases {a : Action C} (h : step kernel s a = .next s') : Step kernel s a s' := by
  cases a with
  | acquire c =>
      change s.startPass c = .next s' at h
      unfold State.startPass at h
      split at h
      · rename_i hctrl
        obtain ⟨acquired, hacquire, h⟩ := Outcome.bind_eq_next.mp h
        obtain ⟨hlock, rfl⟩ := State.acquire_eq_next.mp hacquire
        obtain rfl := Outcome.next.inj h
        exact .startPass c hctrl hlock
      · simp at h
  | pick c => exact step_of_pick h
  | back c => exact step_of_scheduler_back h
  | resume c => exact step_of_resume h
  | yield c =>
      obtain ⟨p, hmyproc, h⟩ := Outcome.bind_eq_next.mp h
      obtain ⟨hctrl, hresume⟩ := State.myproc_eq_next.mp hmyproc
      obtain ⟨acquired, hacquire, h⟩ := Outcome.bind_eq_next.mp h
      obtain ⟨hlock, rfl⟩ := State.acquire_eq_next.mp hacquire
      obtain ⟨-, -, rfl⟩ := State.sched_eq_next.mp h
      exact .yield c p hctrl hresume hlock
  | sleep c address => exact step_of_sleep h
  | wakeup c address => exact step_of_wakeup h
  | tick =>
      obtain rfl := Outcome.next.inj h
      exact .tick
  | kill c pid =>
      obtain ⟨p, hprocAt, h⟩ := Outcome.bind_eq_next.mp h
      obtain ⟨hctrl, hresume, hpc⟩ := State.procAt_eq_next.mp hprocAt
      obtain ⟨acquired, hacquire, h⟩ := Outcome.bind_eq_next.mp h
      obtain ⟨hlock, rfl⟩ := State.acquire_eq_next.mp hacquire
      obtain ⟨released, hrelease, h⟩ := Outcome.bind_eq_next.mp h
      obtain ⟨-, rfl⟩ := State.release_eq_next.mp hrelease
      obtain rfl := Outcome.next.inj h
      exact .kill c p pid hctrl hresume hpc hlock
  | fork c priority => exact step_of_fork h
  | kalloc c page => exact step_of_kalloc h
  | copyuvm c page => exact step_of_copyuvm h
  | runnable c => exact step_of_runnable h
  | exit c =>
      obtain ⟨p, hprocAt, h⟩ := Outcome.bind_eq_next.mp h
      obtain ⟨hctrl, hresume, hpc⟩ := State.procAt_eq_next.mp hprocAt
      split at h
      · simp at h
      · rename_i hinit
        obtain rfl := Outcome.next.inj h
        exact .exit c p hctrl hresume hpc hinit
  | zombie c =>
      obtain ⟨p, hprocAt, h⟩ := Outcome.bind_eq_next.mp h
      obtain ⟨hctrl, hresume, hpc⟩ := State.procAt_eq_next.mp hprocAt
      obtain ⟨acquired, hacquire, h⟩ := Outcome.bind_eq_next.mp h
      obtain ⟨hlock, rfl⟩ := State.acquire_eq_next.mp hacquire
      obtain ⟨-, -, rfl⟩ := State.sched_eq_next.mp h
      exact .zombie c p hctrl hresume hpc hlock
  | wait c =>
      obtain ⟨p, hprocAt, h⟩ := Outcome.bind_eq_next.mp h
      obtain ⟨hctrl, hresume, hpc⟩ := State.procAt_eq_next.mp hprocAt
      obtain ⟨acquired, hacquire, h⟩ := Outcome.bind_eq_next.mp h
      obtain ⟨hlock, rfl⟩ := State.acquire_eq_next.mp hacquire
      exact .round _ c p .wait _ _ (.call _ rfl hctrl hresume hpc hlock) (round_of_waitLoop h)
  | procstat c pid pstat =>
      obtain ⟨p, hprocAt, h⟩ := Outcome.bind_eq_next.mp h
      obtain ⟨hctrl, hresume, hpc⟩ := State.procAt_eq_next.mp hprocAt
      obtain ⟨acquired, hacquire, h⟩ := Outcome.bind_eq_next.mp h
      obtain ⟨hlock, rfl⟩ := State.acquire_eq_next.mp hacquire
      exact .round _ c p (.procstat pid pstat) _ _ (.call _ rfl hctrl hresume hpc hlock)
        (round_of_procstatLoop h)
  | ps c =>
      obtain ⟨p, hprocAt, h⟩ := Outcome.bind_eq_next.mp h
      obtain ⟨hctrl, hresume, hpc⟩ := State.procAt_eq_next.mp hprocAt
      obtain ⟨acquired, hacquire, h⟩ := Outcome.bind_eq_next.mp h
      obtain ⟨hlock, rfl⟩ := State.acquire_eq_next.mp hacquire
      obtain ⟨released, hrelease, h⟩ := Outcome.bind_eq_next.mp h
      obtain ⟨-, rfl⟩ := State.release_eq_next.mp hrelease
      obtain rfl := Outcome.next.inj h
      exact .ps c p hctrl hresume hpc hlock
  | exec c page =>
      obtain ⟨p, hprocAt, h⟩ := Outcome.bind_eq_next.mp h
      obtain ⟨hctrl, hresume, hpc⟩ := State.procAt_eq_next.mp hprocAt
      split at h
      · simp at h
      · rename_i hfresh
        obtain rfl := Outcome.next.inj h
        exact .exec c p page hctrl hresume hpc hfresh
  | execBad c =>
      obtain ⟨p, hmyproc, h⟩ := Outcome.bind_eq_next.mp h
      obtain ⟨hctrl, hresume⟩ := State.myproc_eq_next.mp hmyproc
      split at h
      · rename_i page hpc
        obtain rfl := Outcome.next.inj h
        exact .execBad c p page hctrl hresume hpc
      · simp at h
  | execCommit c =>
      obtain ⟨p, hmyproc, h⟩ := Outcome.bind_eq_next.mp h
      obtain ⟨hctrl, hresume⟩ := State.myproc_eq_next.mp hmyproc
      split at h
      · rename_i page hpc
        obtain rfl := Outcome.next.inj h
        exact .execCommit c p page hctrl hresume hpc
      · simp at h
  | execSwitch c =>
      obtain ⟨p, hmyproc, h⟩ := Outcome.bind_eq_next.mp h
      obtain ⟨hctrl, hresume⟩ := State.myproc_eq_next.mp hmyproc
      split at h
      · rename_i oldpgdir hpc
        obtain ⟨reloaded, hreload, h⟩ := Outcome.bind_eq_next.mp h
        obtain ⟨pgdir, hswitchuvm, hcpu⟩ := Outcome.bind_eq_next.mp hreload
        obtain rfl := Outcome.next.inj hcpu
        obtain rfl := Outcome.next.inj h
        exact .execSwitch c p oldpgdir pgdir hctrl hresume hpc (switchuvm_eq_next.mp hswitchuvm).2
      · simp at h
  | execFree c =>
      obtain ⟨p, hmyproc, h⟩ := Outcome.bind_eq_next.mp h
      obtain ⟨hctrl, hresume⟩ := State.myproc_eq_next.mp hmyproc
      split at h
      · simp at h
      · rename_i oldpgdir hpc
        obtain rfl := Outcome.next.inj h
        exact .execFree c p oldpgdir hctrl hresume hpc
      · simp at h
  | growproc c =>
      obtain ⟨p, hprocAt, h⟩ := Outcome.bind_eq_next.mp h
      obtain ⟨hctrl, hresume, hpc⟩ := State.procAt_eq_next.mp hprocAt
      obtain ⟨pgdir, hswitchuvm, h⟩ := Outcome.bind_eq_next.mp h
      obtain rfl := Outcome.next.inj h
      exact .growproc c p pgdir hctrl hresume hpc (switchuvm_eq_next.mp hswitchuvm).2
  | fault c =>
      obtain ⟨p, hprocAt, h⟩ := Outcome.bind_eq_next.mp h
      obtain ⟨hctrl, hresume, hpc⟩ := State.procAt_eq_next.mp hprocAt
      obtain rfl := Outcome.next.inj h
      exact .fault c p hctrl hresume hpc

end Xv6
