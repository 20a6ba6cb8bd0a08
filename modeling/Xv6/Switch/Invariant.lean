import Xv6.Switch.Discipline

/-!
# Who holds what

The invariant that ties the contexts of the threads (`Ctx`) to the state of the
machine: the locks that a CPU holds are those of the thread it is on, `ncli` counts
them, and interrupts are off while it is not 0.  A thread that no CPU is on has
left it in `sched` or in the scheduler's `swtch`, and waits there with
`ptable.lock` alone.

`follow` brings the contexts up to date, and every step of disciplined code keeps
the invariant (`Inv.step`).
-/

namespace Xv6.Switch

open Transition Typestate

variable {P C : Type}

def Thread.isProc : Thread P C → Bool
  | proc _ => true
  | scheduler _ => false

/-- What `ncli` counts: the locks held, and the one that is being acquired. -/
def Ctx.depth (t : Ctx) : ℕ :=
  match t.phase with
  | .spinning _ => t.held.length + 1
  | _ => t.held.length

/-- A thread in the middle of a switch or a sleep holds a lock. -/
structure Ctx.Wf (t : Ctx) : Prop where
  leaving : t.phase = .leaving → .ptable ∈ t.held
  resuming : t.phase = .resuming → .ptable ∈ t.held
  tested : t.tested = true → t.held ≠ []

/-- A process in this state has a context to come back to. -/
def Resumable (state : ProcState) : Prop :=
  state = .sleeping ∨ state = .runnable ∨ state = .embryo

/-- What a process waits with until it is resumed: it has called `sched`, or it is new. -/
structure Ctx.Parked (t : Ctx) : Prop where
  held : t.held = [.ptable]
  tested : t.tested = false
  phase : t.phase = .code ∨ t.phase = .resuming

structure Inv (m : Machine P C) (ts : Thread P C → Ctx) : Prop where
  home : ∀ c c', (m.cpu c).current = .scheduler c' → c' = c
  alone : ∀ c c', (m.cpu c).current = (m.cpu c').current → c = c'
  process : ∀ thread, (ts thread).process = thread.isProc
  wf : ∀ thread, (ts thread).Wf
  fits : ∀ c, Conforms next (idle (m.cpu c).current.isProc) (m.top c) (ts (m.cpu c).current)
  parked : ∀ p, (∀ c, (m.cpu c).current ≠ .proc p) → Resumable (m.state p) →
    Conforms next (idle true) (m.stack (.proc p)) (ts (.proc p)) ∧ (ts (.proc p)).Parked
  away : ∀ c p, (m.cpu c).current = .proc p →
    Conforms next (idle false) (m.stack (.scheduler c)) (ts (.scheduler c)) ∧
      ts (.scheduler c) = ⟨false, [.ptable], .leaving, false⟩
  held : ∀ c l, m.holder l = some c ↔ l ∈ (ts (m.cpu c).current).held
  nodup : ∀ c, (ts (m.cpu c).current).held.Nodup
  ncli : ∀ c, (m.cpu c).ncli = (ts (m.cpu c).current).depth
  masked : ∀ c, (m.cpu c).interruptible = true → (m.cpu c).ncli = 0
  proc : ∀ c p, (m.cpu c).current = .proc p → (m.cpu c).proc = some p
  vacant : ∀ c, (m.cpu c).current = .scheduler c → (ts (.scheduler c)).phase ≠ .leaving →
    (m.cpu c).proc = none
  left : ∀ c p, (m.cpu c).current = .proc p → (ts (.proc p)).phase = .leaving →
    m.state p = .sleeping ∨ m.state p = .runnable ∨ m.state p = .zombie
  running : ∀ c p, (m.cpu c).current = .proc p → (ts (.proc p)).phase ≠ .leaving →
    m.state p = .running
  runs : ∀ p, m.state p = .running → ∃ c, (m.cpu c).current = .proc p

section Contexts

variable [DecidableEq P] [DecidableEq C]

/-- The context of a thread after an act. -/
def after (a : Act) (t : Ctx) : Ctx :=
  match a with
  | .acquire l => { t with phase := .spinning l }
  | .sched => { t with phase := .resuming }
  | a => (next a t).getD t

/-- The contexts after a step. -/
def follow (m : Machine P C) (ts : Thread P C → Ctx) : Event P C → Thread P C → Ctx
  | .run c _ _ q =>
      match m.top c with
      | .prog (.act a) :: _ =>
          let moved := Function.update ts (m.cpu c).current (after a (ts (m.cpu c).current))
          if a = .allocproc then Function.update moved (.proc q) ⟨true, [.ptable], .code, false⟩
          else moved
      | _ => ts
  | _ => ts

end Contexts

variable {m : Machine P C} {ts : Thread P C → Ctx} {c : C} {p q : P} {k rest : Stack} {t : Ctx}
variable {l : Spinlock}

/-- Steps of control do not change the contexts. -/
theorem follow_of_not_act [DecidableEq P] [DecidableEq C] {left : Bool} {i : ℕ}
    (hact : ¬∃ a rest, m.top c = .prog (.act a) :: rest) : follow m ts (.run c left i q) = ts := by
  simp only [follow]
  split
  · rename_i a rest htop
    exact absurd ⟨a, rest, htop⟩ hact
  · rfl

namespace Inv

/-- Two CPUs do not hold the same lock. -/
theorem eq_of_held (h : Inv m ts) {c c' : C} (hc : l ∈ (ts (m.cpu c).current).held)
    (hc' : l ∈ (ts (m.cpu c').current).held) : c = c' := by
  have hfirst := (h.held c l).mpr hc
  rw [(h.held c' l).mpr hc'] at hfirst
  exact (Option.some.inj hfirst).symm

/-- With interrupts on, the thread is in the middle of nothing. -/
theorem idle_of_interruptible (h : Inv m ts) (hon : (m.cpu c).interruptible = true) :
    ts (m.cpu c).current = idle (m.cpu c).current.isProc := by
  have hdepth : (ts (m.cpu c).current).depth = 0 := by rw [← h.ncli, h.masked c hon]
  have hwf := h.wf (m.cpu c).current
  have hprocess := h.process (m.cpu c).current
  generalize ts (m.cpu c).current = t at hdepth hwf hprocess ⊢
  obtain ⟨process, held, phase, tested⟩ := t
  obtain rfl : process = _ := hprocess
  cases phase with
  | spinning l => simp [Ctx.depth] at hdepth
  | leaving =>
      have hmem := hwf.leaving rfl
      simp [Ctx.depth] at hdepth
      simp [hdepth] at hmem
  | resuming =>
      have hmem := hwf.resuming rfl
      simp [Ctx.depth] at hdepth
      simp [hdepth] at hmem
  | code =>
      obtain rfl : held = [] := by simpa [Ctx.depth] using hdepth
      cases tested with
      | true => exact absurd rfl (hwf.tested rfl)
      | false => rfl

/-- A process that is not running is on no CPU, while another thread has
`ptable.lock` and is not switching. -/
theorem not_current (h : Inv m ts) (hq : m.state q ≠ .running)
    (hptable : .ptable ∈ (ts (m.cpu c).current).held)
    (hphase : (ts (m.cpu c).current).phase = .code) (c' : C) : (m.cpu c').current ≠ .proc q := by
  intro hcurrent
  have hleaving : (ts (.proc q)).phase = .leaving := by
    by_contra hnot
    exact hq (h.running c' q hcurrent hnot)
  have hheld := (h.wf (.proc q)).leaving hleaving
  rw [← hcurrent] at hheld hleaving
  obtain rfl := h.eq_of_held hptable hheld
  rw [hphase] at hleaving
  simp at hleaving

variable [DecidableEq P] [DecidableEq C]

/-- A step of the thread on CPU `c` that concerns this thread, its process, the flags
of this CPU and the locks. -/
theorem moved (h : Inv m ts) {m' : Machine P C}
    (hcurrent : (m'.cpu c).current = (m.cpu c).current)
    (hcpu : ∀ c', c' ≠ c → m'.cpu c' = m.cpu c')
    (hstack : ∀ thread, thread ≠ (m.cpu c).current → m'.stack thread = m.stack thread)
    (hstate : ∀ p, (m.cpu c).current ≠ .proc p → m'.state p = m.state p)
    (hfits : Conforms next (idle (m.cpu c).current.isProc) (m'.stack (m.cpu c).current) t)
    (hwf : t.Wf) (hprocess : t.process = (m.cpu c).current.isProc)
    (hself : ∀ l, m'.holder l = some c ↔ l ∈ t.held)
    (hheld : ∀ c' l, c' ≠ c → (m'.holder l = some c' ↔ m.holder l = some c'))
    (hnodup : t.held.Nodup) (hncli : (m'.cpu c).ncli = t.depth)
    (hmasked : (m'.cpu c).interruptible = true → (m'.cpu c).ncli = 0)
    (hproc : ∀ p, (m.cpu c).current = .proc p → (m'.cpu c).proc = some p)
    (hvacant : (m.cpu c).current = .scheduler c → t.phase ≠ .leaving → (m'.cpu c).proc = none)
    (hleft : ∀ p, (m.cpu c).current = .proc p → t.phase = .leaving →
      m'.state p = .sleeping ∨ m'.state p = .runnable ∨ m'.state p = .zombie)
    (hrunning : ∀ p, (m.cpu c).current = .proc p → t.phase ≠ .leaving → m'.state p = .running) :
    Inv m' (Function.update ts (m.cpu c).current t) := by
  have hcur : ∀ c', (m'.cpu c').current = (m.cpu c').current := by
    intro c'
    by_cases hc : c' = c
    · rw [hc, hcurrent]
    · rw [hcpu c' hc]
  -- no other CPU is on this thread
  have hne : ∀ c', c' ≠ c → (m.cpu c').current ≠ (m.cpu c).current := fun c' hc heq =>
    hc (h.alone c' c heq)
  have hkept : ∀ c', c' ≠ c →
      Function.update ts (m.cpu c).current t (m.cpu c').current = ts (m.cpu c').current :=
    fun c' hc => Function.update_of_ne (hne c' hc) _ _
  have hmine : Function.update ts (m.cpu c).current t (m.cpu c).current = t :=
    Function.update_self ..
  constructor
  case home => simpa only [hcur] using h.home
  case alone => simpa only [hcur] using h.alone
  case process =>
    exact (Function.forall_update_iff ts fun thread t => t.process = thread.isProc).mpr
      ⟨hprocess, fun thread _ => h.process thread⟩
  case wf =>
    exact (Function.forall_update_iff ts fun _ t => Ctx.Wf t).mpr ⟨hwf, fun thread _ => h.wf thread⟩
  case fits =>
    intro c'
    by_cases hc : c' = c
    · subst hc
      rw [Machine.top, hcur, hmine]
      exact hfits
    · rw [Machine.top, hcur, hkept c' hc, hstack _ (hne c' hc)]
      exact h.fits c'
  case parked =>
    intro p hp hresumable
    have hp' : (m.cpu c).current ≠ .proc p := by
      rw [← hcur]
      exact hp c
    rw [hstack _ hp'.symm, Function.update_of_ne hp'.symm]
    rw [hstate p hp'] at hresumable
    exact h.parked p (fun c' => by rw [← hcur]; exact hp c') hresumable
  case away =>
    intro c' p hp
    have hp' : (m.cpu c').current = .proc p := by rw [← hcur, hp]
    have hsched : Thread.scheduler c' ≠ (m.cpu c).current := by
      intro heq
      obtain rfl := h.home c c' heq.symm
      rw [hp'] at heq
      simp at heq
    rw [hstack _ hsched, Function.update_of_ne hsched]
    exact h.away c' p hp'
  case held =>
    intro c' l
    rw [hcur]
    by_cases hc : c' = c
    · subst hc
      rw [hmine]
      exact hself l
    · rw [hkept c' hc, hheld c' l hc]
      exact h.held c' l
  case nodup =>
    intro c'
    rw [hcur]
    by_cases hc : c' = c
    · subst hc
      rwa [hmine]
    · rw [hkept c' hc]
      exact h.nodup c'
  case ncli =>
    intro c'
    rw [hcur]
    by_cases hc : c' = c
    · subst hc
      rwa [hmine]
    · rw [hkept c' hc, hcpu c' hc]
      exact h.ncli c'
  case masked =>
    intro c'
    by_cases hc : c' = c
    · subst hc
      exact hmasked
    · rw [hcpu c' hc]
      exact h.masked c'
  case proc =>
    intro c' p hp
    rw [hcur] at hp
    by_cases hc : c' = c
    · subst hc
      exact hproc p hp
    · rw [hcpu c' hc]
      exact h.proc c' p hp
  case vacant =>
    intro c' hsched hphase
    rw [hcur] at hsched
    by_cases hc : c' = c
    · subst hc
      rw [← hsched, hmine] at hphase
      exact hvacant hsched hphase
    · rw [← hsched, hkept c' hc, hsched] at hphase
      rw [hcpu c' hc]
      exact h.vacant c' hsched hphase
  case left =>
    intro c' p hp hphase
    rw [hcur] at hp
    by_cases hc : c' = c
    · subst hc
      rw [← hp, hmine] at hphase
      exact hleft p hp hphase
    · rw [← hp, hkept c' hc, hp] at hphase
      rw [hstate p fun heq => hne c' hc (hp.trans heq.symm)]
      exact h.left c' p hp hphase
  case running =>
    intro c' p hp hphase
    rw [hcur] at hp
    by_cases hc : c' = c
    · subst hc
      rw [← hp, hmine] at hphase
      exact hrunning p hp hphase
    · rw [← hp, hkept c' hc, hp] at hphase
      rw [hstate p fun heq => hne c' hc (hp.trans heq.symm)]
      exact h.running c' p hp hphase
  case runs =>
    intro p hp
    by_cases hcp : (m.cpu c).current = .proc p
    · exact ⟨c, by rw [hcur, hcp]⟩
    · rw [hstate p hcp] at hp
      obtain ⟨c', hc'⟩ := h.runs p hp
      exact ⟨c', by rw [hcur, hc']⟩

/-- A step that leaves the states of the processes as they are. -/
theorem onCpu (h : Inv m ts) {m' : Machine P C}
    (hcurrent : (m'.cpu c).current = (m.cpu c).current)
    (hcpu : ∀ c', c' ≠ c → m'.cpu c' = m.cpu c')
    (hstack : ∀ thread, thread ≠ (m.cpu c).current → m'.stack thread = m.stack thread)
    (hstate : m'.state = m.state)
    (hfits : Conforms next (idle (m.cpu c).current.isProc) (m'.stack (m.cpu c).current) t)
    (hwf : t.Wf) (hprocess : t.process = (m.cpu c).current.isProc)
    (hphase : t.phase = .leaving ↔ (ts (m.cpu c).current).phase = .leaving)
    (hself : ∀ l, m'.holder l = some c ↔ l ∈ t.held)
    (hheld : ∀ c' l, c' ≠ c → (m'.holder l = some c' ↔ m.holder l = some c'))
    (hnodup : t.held.Nodup) (hncli : (m'.cpu c).ncli = t.depth)
    (hmasked : (m'.cpu c).interruptible = true → (m'.cpu c).ncli = 0)
    (hproc : (m'.cpu c).proc = (m.cpu c).proc) :
    Inv m' (Function.update ts (m.cpu c).current t) := by
  refine h.moved hcurrent hcpu hstack (fun p _ => by rw [hstate]) hfits hwf hprocess hself hheld
    hnodup hncli hmasked (fun p hp => ?_) (fun hsched hcode => ?_) (fun p hp hleaving => ?_)
    fun p hp hcode => ?_
  · rw [hproc]
    exact h.proc c p hp
  · rw [hproc]
    refine h.vacant c hsched fun hleaving => hcode (hphase.mpr ?_)
    rw [hsched, hleaving]
  · rw [hstate]
    exact h.left c p hp (by rw [← hp]; exact hphase.mp hleaving)
  · rw [hstate]
    exact h.running c p hp fun hleaving => hcode (hphase.mpr (by rw [hp, hleaving]))

omit [DecidableEq C] in
/-- A process that is on no CPU gets another state; if it has a context then, it
had one before. -/
theorem setProcState (h : Inv m ts) {state : ProcState}
    (hq : ∀ c, (m.cpu c).current ≠ .proc q) (hnew : state ≠ .running)
    (hresumable : Resumable state → Resumable (m.state q)) :
    Inv (m.setProcState q state) ts := by
  have hne : ∀ c p, (m.cpu c).current = .proc p → p ≠ q := by
    rintro c p hp rfl
    exact hq c hp
  have hother : ∀ p, p ≠ q → (m.setProcState q state).state p = m.state p := fun p hp =>
    Function.update_of_ne hp _ _
  have hmine : (m.setProcState q state).state q = state := Function.update_self ..
  constructor
  case home => exact h.home
  case alone => exact h.alone
  case process => exact h.process
  case wf => exact h.wf
  case fits => exact h.fits
  case parked =>
    intro p hp hres
    refine h.parked p hp ?_
    by_cases hpq : p = q
    · subst hpq
      rw [hmine] at hres
      exact hresumable hres
    · rwa [hother p hpq] at hres
  case away => exact h.away
  case held => exact h.held
  case nodup => exact h.nodup
  case ncli => exact h.ncli
  case masked => exact h.masked
  case proc => exact h.proc
  case vacant => exact h.vacant
  case left =>
    intro c p hp
    rw [hother p (hne c p hp)]
    exact h.left c p hp
  case running =>
    intro c p hp
    rw [hother p (hne c p hp)]
    exact h.running c p hp
  case runs =>
    intro p hp
    by_cases hpq : p = q
    · subst hpq
      rw [hmine] at hp
      exact absurd hp hnew
    · rw [hother p hpq] at hp
      exact h.runs p hp

omit [DecidableEq P] [DecidableEq C] in
/-- Who is killed does not matter. -/
theorem setKilled (h : Inv m ts) (killed : P → Bool) : Inv { m with killed := killed } ts where
  home := h.home
  alone := h.alone
  process := h.process
  wf := h.wf
  fits := h.fits
  parked := h.parked
  away := h.away
  held := h.held
  nodup := h.nodup
  ncli := h.ncli
  masked := h.masked
  proc := h.proc
  vacant := h.vacant
  left := h.left
  running := h.running
  runs := h.runs

/-- A process that is on no CPU is made, with a context in which it is resumed. -/
theorem create (h : Inv m ts) (hq : ∀ c, (m.cpu c).current ≠ .proc q)
    (hfits : Conforms next (idle true) k ⟨true, [.ptable], .code, false⟩) :
    Inv ((m.setStack (.proc q) k).setProcState q .embryo)
      (Function.update ts (.proc q) ⟨true, [.ptable], .code, false⟩) := by
  have hcur : ∀ c, Function.update ts (.proc q) ⟨true, [.ptable], .code, false⟩
      (m.cpu c).current = ts (m.cpu c).current := fun c => Function.update_of_ne (hq c) _ _
  have hsched : ∀ c : C, Function.update ts (.proc q) ⟨true, [.ptable], .code, false⟩
      (.scheduler c) = ts (.scheduler c) := fun c => Function.update_of_ne (by simp) _ _
  have hne : ∀ c p, (m.cpu c).current = .proc p → p ≠ q := by
    rintro c p hp rfl
    exact hq c hp
  have hproc : ∀ p, p ≠ q →
      Function.update ts (.proc q) ⟨true, [.ptable], .code, false⟩ (.proc p) = ts (.proc p) :=
    fun p hp => Function.update_of_ne (by simpa using hp) _ _
  have hother : ∀ p, p ≠ q → Function.update m.state q .embryo p = m.state p :=
    fun p hp => Function.update_of_ne hp _ _
  constructor
  case home => exact h.home
  case alone => exact h.alone
  case process =>
    exact (Function.forall_update_iff ts fun thread t => t.process = thread.isProc).mpr
      ⟨rfl, fun thread _ => h.process thread⟩
  case wf =>
    exact (Function.forall_update_iff ts fun _ t => Ctx.Wf t).mpr
      ⟨⟨by simp, by simp, by simp⟩, fun thread _ => h.wf thread⟩
  case fits =>
    intro c
    have htop : ((m.setStack (.proc q) k).setProcState q .embryo).top c = m.top c :=
      Function.update_of_ne (hq c) _ _
    rw [Machine.setProcState_cpu, Machine.setStack_cpu, hcur, htop]
    exact h.fits c
  case parked =>
    intro p hp hresumable
    by_cases hpq : p = q
    · subst hpq
      simp only [Machine.setProcState_stack, Machine.setStack_stack, Function.update_self]
      exact ⟨hfits, rfl, rfl, Or.inl rfl⟩
    · have hthread : Thread.proc p ≠ (.proc q : Thread P C) := by simpa using hpq
      simp only [Machine.setProcState_state, Machine.setStack_state, hother p hpq] at hresumable
      simp only [Machine.setProcState_stack, Machine.setStack_stack, Function.update_of_ne hthread]
      exact h.parked p hp hresumable
  case away =>
    intro c p hp
    have hthread : Thread.scheduler c ≠ (.proc q : Thread P C) := by simp
    rw [hsched, Machine.setProcState_stack, Machine.setStack_stack, Function.update_of_ne hthread]
    exact h.away c p hp
  case held =>
    intro c l
    rw [Machine.setProcState_cpu, Machine.setStack_cpu, hcur]
    exact h.held c l
  case nodup =>
    intro c
    rw [Machine.setProcState_cpu, Machine.setStack_cpu, hcur]
    exact h.nodup c
  case ncli =>
    intro c
    rw [Machine.setProcState_cpu, Machine.setStack_cpu, hcur]
    exact h.ncli c
  case masked => exact h.masked
  case proc => exact h.proc
  case vacant =>
    intro c hc
    rw [hsched]
    exact h.vacant c hc
  case left =>
    intro c p hp
    rw [hproc p (hne c p hp), Machine.setProcState_state, Machine.setStack_state,
      hother p (hne c p hp)]
    exact h.left c p hp
  case running =>
    intro c p hp
    rw [hproc p (hne c p hp), Machine.setProcState_state, Machine.setStack_state,
      hother p (hne c p hp)]
    exact h.running c p hp
  case runs =>
    intro p hp
    by_cases hpq : p = q
    · subst hpq
      simp at hp
    · simp only [Machine.setProcState_state, Machine.setStack_state, hother p hpq] at hp
      exact h.runs p hp

/-! ## Single acts -/

theorem goOn (h : Inv m ts)
    (hfits : Conforms next (idle (m.cpu c).current.isProc) k (ts (m.cpu c).current)) :
    Inv (m.goOn c k) ts := by
  have hsame := Function.update_eq_self (m.cpu c).current ts
  rw [← hsame]
  refine h.onCpu (c := c) rfl (fun _ _ => rfl) (fun thread hne => Function.update_of_ne hne _ _) rfl
    ?_ (h.wf _) (h.process _) Iff.rfl (h.held c) (fun _ _ _ => Iff.rfl) (h.nodup c) (h.ncli c)
    (h.masked c) rfl
  rw [Machine.goOn_stack, Function.update_self]
  exact hfits

theorem acquire (h : Inv m ts) {t' : Ctx}
    (hnext : next (.acquire l) (ts (m.cpu c).current) = some t')
    (hfits : Conforms next (idle (m.cpu c).current.isProc) rest t') :
    Inv ((m.goOn c (.prog (.act (.spin l)) :: rest)).setCpu c (m.cpu c).pushcli)
      (Function.update ts (m.cpu c).current
        { ts (m.cpu c).current with phase := .spinning l }) := by
  have hwf := h.wf (m.cpu c).current
  have hncli := h.ncli c
  simp only [next] at hnext
  split at hnext
  · rename_i hallowed
    obtain ⟨hphase, hl⟩ := hallowed
    obtain rfl := Option.some.inj hnext
    refine h.onCpu (c := c) ?_ ?_ ?_ rfl ?_ ?_ (h.process _) ?_ (h.held c) (fun _ _ _ => Iff.rfl)
      (h.nodup c) ?_ ?_ ?_
    · simp [Cpu.pushcli]
    · intro c' hc
      simp [hc]
    · intro thread hne
      simp [hne]
    · simp only [Machine.setCpu_stack, Machine.goOn_stack, Function.update_self]
      refine conforms_act.mpr ⟨_, ?_, hfits⟩
      simp [next, hl, hphase]
    · exact ⟨by simp, by simp, hwf.tested⟩
    · simp [hphase]
    · simp [Cpu.pushcli, Ctx.depth, hncli, hphase]
    · simp [Cpu.pushcli]
    · simp [Cpu.pushcli]
  · simp at hnext

theorem spin (h : Inv m ts) {t' : Ctx} (hfree : m.holder l = none)
    (hnext : next (.spin l) (ts (m.cpu c).current) = some t')
    (hfits : Conforms next (idle (m.cpu c).current.isProc) rest t') :
    Inv { m.goOn c rest with holder := Function.update m.holder l (some c) }
      (Function.update ts (m.cpu c).current t') := by
  have hncli := h.ncli c
  simp only [next] at hnext
  split at hnext
  · rename_i hallowed
    obtain ⟨hphase, hl⟩ := hallowed
    obtain rfl := Option.some.inj hnext
    refine h.onCpu (c := c) rfl (fun _ _ => rfl) ?_ rfl ?_ ?_ (h.process _) ?_ ?_ ?_
      (List.nodup_cons.mpr ⟨hl, h.nodup c⟩) ?_ (h.masked c) rfl
    · intro thread hne
      simp [hne]
    · simpa using hfits
    · exact ⟨by simp, by simp, by simp⟩
    · simp [hphase]
    · intro l'
      by_cases hll : l' = l
      · simp [hll]
      · simp [hll, h.held c l']
    · intro c' l' hc
      by_cases hll : l' = l
      · subst hll
        simp [hfree, Ne.symm hc]
      · simp [hll]
    · simp [Ctx.depth, hncli, hphase]
  · simp at hnext

omit [DecidableEq P] [DecidableEq C] in
theorem popcli_eq_next {cpu cpu' : Cpu P C} (hpop : cpu.popcli = .next cpu') :
    cpu' = { cpu with
      ncli := cpu.ncli - 1
      interruptible := decide (cpu.ncli - 1 = 0) && cpu.intena } := by
  unfold Cpu.popcli at hpop
  split at hpop
  · simp at hpop
  · split at hpop
    · simp at hpop
    · exact (Outcome.next.inj hpop).symm

theorem release (h : Inv m ts) {t' : Ctx} {cpu : Cpu P C} (hholder : m.holder l = some c)
    (hpop : (m.cpu c).popcli = .next cpu)
    (hnext : next (.release l) (ts (m.cpu c).current) = some t')
    (hfits : Conforms next (idle (m.cpu c).current.isProc) rest t') :
    Inv { (m.goOn c rest).setCpu c cpu with holder := Function.update m.holder l none }
      (Function.update ts (m.cpu c).current t') := by
  have hncli := h.ncli c
  have hnodup := h.nodup c
  obtain rfl := popcli_eq_next hpop
  simp only [next] at hnext
  split at hnext
  · rename_i hallowed
    obtain ⟨hphase, hl, htested⟩ := hallowed
    obtain rfl := Option.some.inj hnext
    have hlength := List.length_erase_of_mem hl
    refine h.onCpu (c := c) ?_ ?_ ?_ rfl ?_ ?_ (h.process _) Iff.rfl ?_ ?_ (hnodup.erase l) ?_ ?_ ?_
    · simp
    · intro c' hc
      simp [hc]
    · intro thread hne
      simp [hne]
    · simpa using hfits
    · exact ⟨by simp [hphase], by simp [hphase], htested⟩
    · intro l'
      rw [hnodup.mem_erase_iff]
      by_cases hll : l' = l
      · simp [hll]
      · simp [hll, h.held c l']
    · intro c' l' hc
      by_cases hll : l' = l
      · subst hll
        simp [hholder, Ne.symm hc]
      · simp [hll]
    · simp only [Ctx.depth, hphase] at hncli
      simp [Ctx.depth, hphase, hncli, hlength]
    · intro hon
      simp only [Machine.setCpu_cpu, Function.update_self, Bool.and_eq_true,
        decide_eq_true_eq] at hon ⊢
      exact hon.1
    · simp
  · simp at hnext

/-- An act that changes flags of the CPU, but not the locks. -/
theorem flags (h : Inv m ts) {t' : Ctx} {cpu : Cpu P C}
    (hcurrent : cpu.current = (m.cpu c).current) (hcli : cpu.ncli = (m.cpu c).ncli)
    (hmasked : cpu.interruptible = true → cpu.ncli = 0)
    (hheld : t'.held = (ts (m.cpu c).current).held)
    (hdepth : t'.depth = (ts (m.cpu c).current).depth)
    (hwf : t'.Wf) (hprocess : t'.process = (ts (m.cpu c).current).process)
    (hproc : ∀ p, (m.cpu c).current = .proc p → cpu.proc = some p ∧
      (t'.phase = .leaving ↔ (ts (.proc p)).phase = .leaving))
    (hvacant : (m.cpu c).current = .scheduler c → t'.phase ≠ .leaving → cpu.proc = none)
    (hfits : Conforms next (idle (m.cpu c).current.isProc) rest t') :
    Inv ((m.goOn c rest).setCpu c cpu) (Function.update ts (m.cpu c).current t') := by
  refine h.moved (c := c) ?_ ?_ ?_ (fun _ _ => rfl) ?_ hwf (hprocess.trans (h.process _)) ?_
    (fun _ _ _ => Iff.rfl) (hheld ▸ h.nodup c) ?_ ?_ ?_ ?_ ?_ ?_
  · simp [hcurrent]
  · intro c' hc
    simp [hc]
  · intro thread hne
    simp [hne]
  · simpa using hfits
  · intro l
    rw [hheld]
    exact h.held c l
  · simpa [hcli, hdepth] using h.ncli c
  · simpa using hmasked
  · intro p hp
    simpa using (hproc p hp).1
  · intro hsched hphase
    simpa using hvacant hsched hphase
  · intro p hp hphase
    exact h.left c p hp ((hproc p hp).2.mp hphase)
  · intro p hp hphase
    exact h.running c p hp fun hleaving => hphase ((hproc p hp).2.mpr hleaving)

omit [DecidableEq P] [DecidableEq C] in
/-- A thread of a process is that of the process that its CPU calls its own. -/
theorem current_eq (h : Inv m ts) (hprocess : (ts (m.cpu c).current).process = true)
    (hproc : (m.cpu c).proc = some p) : (m.cpu c).current = .proc p := by
  rw [h.process] at hprocess
  cases hcur : (m.cpu c).current with
  | scheduler c' => simp [hcur, Thread.isProc] at hprocess
  | proc p' =>
      have hp' := h.proc c p' hcur
      rw [hproc] at hp'
      rw [Option.some.inj hp']

omit [DecidableEq P] [DecidableEq C] in
theorem current_eq_scheduler (h : Inv m ts)
    (hprocess : (ts (m.cpu c).current).process = false) : (m.cpu c).current = .scheduler c := by
  rw [h.process] at hprocess
  cases hcur : (m.cpu c).current with
  | scheduler c' => rw [h.home c c' hcur]
  | proc p' => simp [hcur, Thread.isProc] at hprocess

theorem setState (h : Inv m ts) {t' : Ctx} {state : ProcState} {killable : Bool}
    (hproc : (m.cpu c).proc = some p)
    (hnext : next (.setState state killable) (ts (m.cpu c).current) = some t')
    (hfits : Conforms next (idle (m.cpu c).current.isProc) rest t') :
    Inv ((m.goOn c rest).setProcState p state) (Function.update ts (m.cpu c).current t') := by
  have hncli := h.ncli c
  simp only [next] at hnext
  split at hnext
  · rename_i hallowed
    obtain ⟨hprocess, hphase, hptable, -, hstate⟩ := hallowed
    obtain rfl := Option.some.inj hnext
    have hcurrent := h.current_eq hprocess hproc
    refine h.moved (c := c) rfl (fun _ _ => rfl) ?_ ?_ ?_ ?_ (h.process _) (h.held c)
      (fun _ _ _ => Iff.rfl) (h.nodup c) ?_ (h.masked c) (fun p' hp' => h.proc c p' hp') ?_ ?_ ?_
    · intro thread hne
      simp [hne]
    · intro p' hp'
      have hne : p' ≠ p := by
        rintro rfl
        exact hp' hcurrent
      simp [hne]
    · simpa using hfits
    · exact ⟨fun _ => hptable, by simp, by simp⟩
    · simp only [Ctx.depth, hphase] at hncli
      simpa [Ctx.depth] using hncli
    · intro hsched
      simp [hcurrent] at hsched
    · intro p' hp' _
      obtain rfl : p = p' := by simpa [hcurrent] using hp'
      simpa using hstate
    · simp
  · simp at hnext

/-- The process on CPU `c` goes to sleep or gives up the CPU, and the scheduler goes
on. -/
theorem switchOut (h : Inv m ts) (hcurrent : (m.cpu c).current = .proc p)
    (hphase : ts (.proc p) = ⟨true, [.ptable], .leaving, false⟩)
    (hfits : Conforms next (idle true) k ⟨true, [.ptable], .resuming, false⟩) :
    Inv ((m.setStack (.proc p) k).setCpu c { m.cpu c with current := .scheduler c })
      (Function.update ts (.proc p) ⟨true, [.ptable], .resuming, false⟩) := by
  obtain ⟨haway, hsched⟩ := h.away c p hcurrent
  have hncli := h.ncli c
  have hheld := h.held c
  have hleft := h.left c p hcurrent (by rw [hphase])
  rw [hcurrent, hphase] at hncli hheld
  -- the other CPUs are on other threads
  have hne : ∀ c' p', c' ≠ c → (m.cpu c').current = .proc p' → p' ≠ p := by
    rintro c' p' hc hp' rfl
    exact hc (h.alone c' c (by rw [hp', hcurrent]))
  have hts : ∀ c', c' ≠ c →
      Function.update ts (.proc p) ⟨true, [.ptable], .resuming, false⟩ (m.cpu c').current =
        ts (m.cpu c').current := fun c' hc =>
    Function.update_of_ne (fun heq => hne c' p hc heq rfl) _ _
  have htsSched : ∀ c' : C, Function.update ts (.proc p) ⟨true, [.ptable], .resuming, false⟩
      (.scheduler c') = ts (.scheduler c') := fun c' => Function.update_of_ne (by simp) _ _
  have hstackSched : ∀ c' : C, Function.update m.stack (.proc p) k (.scheduler c') =
      m.stack (.scheduler c') := fun c' => Function.update_of_ne (by simp) _ _
  constructor
  case home =>
    intro c' c'' hc''
    by_cases hc : c' = c
    · subst hc
      simpa using hc''.symm
    · simp only [Machine.setCpu_cpu, Machine.setStack_cpu, Function.update_of_ne hc] at hc''
      exact h.home c' c'' hc''
  case alone =>
    intro c' c'' heq
    by_cases hc : c' = c <;> by_cases hc' : c'' = c
    · rw [hc, hc']
    · subst hc
      simp [hc'] at heq
      exact (h.home c'' c' heq.symm)
    · subst hc'
      simp [hc] at heq
      exact (h.home c' c'' heq).symm
    · simp [hc, hc'] at heq
      exact h.alone c' c'' heq
  case process =>
    exact (Function.forall_update_iff ts fun thread t => t.process = thread.isProc).mpr
      ⟨rfl, fun thread _ => h.process thread⟩
  case wf =>
    exact (Function.forall_update_iff ts fun _ t => Ctx.Wf t).mpr
      ⟨⟨by simp, by simp, by simp⟩, fun thread _ => h.wf thread⟩
  case fits =>
    intro c'
    by_cases hc : c' = c
    · subst hc
      simp only [Machine.top, Machine.setCpu_cpu, Machine.setCpu_stack, Machine.setStack_stack,
        Function.update_self, htsSched, hstackSched]
      exact haway
    · have hnot : (m.cpu c').current ≠ .proc p := fun heq => hne c' p hc heq rfl
      simp only [Machine.top, Machine.setCpu_cpu, Machine.setStack_cpu, Machine.setCpu_stack,
        Machine.setStack_stack, Function.update_of_ne hc, hts c' hc, Function.update_of_ne hnot]
      exact h.fits c'
  case parked =>
    intro p' hp' hresumable
    by_cases hpp : p' = p
    · subst hpp
      simp only [Machine.setCpu_stack, Machine.setStack_stack, Function.update_self]
      exact ⟨hfits, rfl, rfl, Or.inr rfl⟩
    · have hthread : Thread.proc p' ≠ (.proc p : Thread P C) := by simpa using hpp
      simp only [Machine.setCpu_stack, Machine.setStack_stack, Function.update_of_ne hthread]
      refine h.parked p' (fun c' => ?_) hresumable
      by_cases hc : c' = c
      · rw [hc, hcurrent]
        exact hthread.symm
      · have hcpu := hp' c'
        simpa [hc] using hcpu
  case away =>
    intro c' p' hp'
    by_cases hc : c' = c
    · subst hc
      simp at hp'
    · simp only [Machine.setCpu_cpu, Machine.setStack_cpu, Function.update_of_ne hc] at hp'
      simp only [Machine.setCpu_stack, Machine.setStack_stack, htsSched, hstackSched]
      exact h.away c' p' hp'
  case held =>
    intro c' l
    by_cases hc : c' = c
    · subst hc
      simp only [Machine.setCpu_cpu, Function.update_self, htsSched, hsched]
      exact hheld l
    · simp only [Machine.setCpu_cpu, Machine.setStack_cpu, Function.update_of_ne hc, hts c' hc]
      exact h.held c' l
  case nodup =>
    intro c'
    by_cases hc : c' = c
    · subst hc
      simp [hsched]
    · simp only [Machine.setCpu_cpu, Machine.setStack_cpu, Function.update_of_ne hc, hts c' hc]
      exact h.nodup c'
  case ncli =>
    intro c'
    by_cases hc : c' = c
    · subst hc
      simp only [Machine.setCpu_cpu, Function.update_self, htsSched, hsched]
      exact hncli
    · simp only [Machine.setCpu_cpu, Machine.setStack_cpu, Function.update_of_ne hc, hts c' hc]
      exact h.ncli c'
  case masked =>
    intro c'
    by_cases hc : c' = c
    · subst hc
      simpa using h.masked c'
    · simpa [hc] using h.masked c'
  case proc =>
    intro c' p' hp'
    by_cases hc : c' = c
    · subst hc
      simp at hp'
    · simp only [Machine.setCpu_cpu, Machine.setStack_cpu, Function.update_of_ne hc] at hp' ⊢
      exact h.proc c' p' hp'
  case vacant =>
    intro c' hsched' hcode
    by_cases hc : c' = c
    · subst hc
      rw [htsSched, hsched] at hcode
      exact absurd rfl hcode
    · simp only [Machine.setCpu_cpu, Machine.setStack_cpu, Function.update_of_ne hc] at hsched' ⊢
      rw [htsSched] at hcode
      exact h.vacant c' hsched' hcode
  case left =>
    intro c' p' hp' hleaving
    by_cases hc : c' = c
    · subst hc
      simp at hp'
    · simp only [Machine.setCpu_cpu, Machine.setStack_cpu, Function.update_of_ne hc] at hp'
      rw [← hp', hts c' hc, hp'] at hleaving
      exact h.left c' p' hp' hleaving
  case running =>
    intro c' p' hp' hcode
    by_cases hc : c' = c
    · subst hc
      simp at hp'
    · simp only [Machine.setCpu_cpu, Machine.setStack_cpu, Function.update_of_ne hc] at hp'
      rw [← hp', hts c' hc, hp'] at hcode
      exact h.running c' p' hp' hcode
  case runs =>
    intro p' hp'
    obtain ⟨c', hc'⟩ := h.runs p' hp'
    have hc : c' ≠ c := by
      rintro rfl
      obtain rfl : p = p' := by simpa [hcurrent] using hc'
      have hrun : m.state p = .running := hp'
      simp [hrun] at hleft
    exact ⟨c', by simpa [hc] using hc'⟩

/-- The scheduler of CPU `c` switches to a process. -/
theorem switchIn (h : Inv m ts) (hcurrent : (m.cpu c).current = .scheduler c)
    (hphase : ts (.scheduler c) = ⟨false, [.ptable], .code, false⟩)
    (hfits : Conforms next (idle false) rest ⟨false, [.ptable], .leaving, false⟩)
    (hq : m.state q = .runnable) :
    Inv (((m.setStack (.scheduler c) rest).setProcState q .running).setCpu c
        { m.cpu c with proc := some q, current := .proc q })
      (Function.update ts (.scheduler c) ⟨false, [.ptable], .leaving, false⟩) := by
  have hncli := h.ncli c
  have hheld := h.held c
  rw [hcurrent, hphase] at hncli hheld
  have hfree : ∀ c', (m.cpu c').current ≠ .proc q := by
    refine h.not_current (c := c) (by simp [hq]) ?_ ?_ <;> simp [hcurrent, hphase]
  obtain ⟨hfitsq, hparked⟩ := h.parked q hfree (Or.inr (Or.inl hq))
  have hdepth : (ts (.proc q)).depth = 1 := by
    rcases hparked.phase with hcode | hcode <;> simp [Ctx.depth, hcode, hparked.held]
  have hne : ∀ c', c' ≠ c → (m.cpu c').current ≠ .scheduler c := fun c' hc heq =>
    hc (h.alone c' c (by rw [heq, hcurrent]))
  have hts : ∀ c', c' ≠ c →
      Function.update ts (.scheduler c) ⟨false, [.ptable], .leaving, false⟩ (m.cpu c').current =
        ts (m.cpu c').current := fun c' hc => Function.update_of_ne (hne c' hc) _ _
  have htsProc : ∀ p : P, Function.update ts (.scheduler c) ⟨false, [.ptable], .leaving, false⟩
      (.proc p) = ts (.proc p) := fun p => Function.update_of_ne (by simp) _ _
  have hstackProc : ∀ p : P, Function.update m.stack (.scheduler c) rest (.proc p) =
      m.stack (.proc p) := fun p => Function.update_of_ne (by simp) _ _
  have hstate : ∀ c' p, (m.cpu c').current = .proc p → p ≠ q := by
    rintro c' p hp rfl
    exact hfree c' hp
  constructor
  case home =>
    intro c' c'' hc''
    by_cases hc : c' = c
    · subst hc
      simp at hc''
    · simp only [Machine.setCpu_cpu, Function.update_of_ne hc] at hc''
      exact h.home c' c'' hc''
  case alone =>
    intro c' c'' heq
    by_cases hc : c' = c <;> by_cases hc' : c'' = c
    · rw [hc, hc']
    · subst hc
      simp [hc'] at heq
      exact absurd heq.symm (hfree c'')
    · subst hc'
      simp [hc] at heq
      exact absurd heq (hfree c')
    · simp [hc, hc'] at heq
      exact h.alone c' c'' heq
  case process =>
    exact (Function.forall_update_iff ts fun thread t => t.process = thread.isProc).mpr
      ⟨rfl, fun thread _ => h.process thread⟩
  case wf =>
    exact (Function.forall_update_iff ts fun _ t => Ctx.Wf t).mpr
      ⟨⟨by simp, by simp, by simp⟩, fun thread _ => h.wf thread⟩
  case fits =>
    intro c'
    by_cases hc : c' = c
    · subst hc
      simp only [Machine.top, Machine.setCpu_cpu, Machine.setCpu_stack, Machine.setStack_stack,
        Machine.setProcState_stack, Function.update_self, htsProc, hstackProc]
      exact hfitsq
    · simp only [Machine.top, Machine.setCpu_cpu, Machine.setCpu_stack, Machine.setStack_stack,
        Machine.setProcState_stack, Machine.setProcState_cpu, Machine.setStack_cpu,
        Function.update_of_ne hc, hts c' hc, Function.update_of_ne (hne c' hc)]
      exact h.fits c'
  case parked =>
    intro p hp hresumable
    have hpq : p ≠ q := by
      rintro rfl
      have hcpu := hp c
      simp at hcpu
    simp only [Machine.setCpu_stack, Machine.setStack_stack, Machine.setProcState_stack, htsProc,
      hstackProc]
    refine h.parked p (fun c' => ?_) (by simpa [hpq] using hresumable)
    by_cases hc : c' = c
    · rw [hc, hcurrent]
      simp
    · have hcpu := hp c'
      simpa [hc] using hcpu
  case away =>
    intro c' p hp
    by_cases hc : c' = c
    · subst hc
      simp only [Machine.setCpu_stack, Machine.setStack_stack, Machine.setProcState_stack,
        Function.update_self]
      exact ⟨hfits, trivial⟩
    · have hthread : Thread.scheduler c' ≠ (.scheduler c : Thread P C) := by simpa using hc
      simp only [Machine.setCpu_cpu, Function.update_of_ne hc, Machine.setProcState_cpu,
        Machine.setStack_cpu] at hp
      simp only [Machine.setCpu_stack, Machine.setStack_stack, Machine.setProcState_stack,
        Function.update_of_ne hthread]
      exact h.away c' p hp
  case held =>
    intro c' l
    by_cases hc : c' = c
    · subst hc
      simp only [Machine.setCpu_cpu, Function.update_self, htsProc, hparked.held]
      exact hheld l
    · simp only [Machine.setCpu_cpu, Machine.setProcState_cpu, Machine.setStack_cpu,
        Function.update_of_ne hc, hts c' hc]
      exact h.held c' l
  case nodup =>
    intro c'
    by_cases hc : c' = c
    · subst hc
      simp [hparked.held]
    · simp only [Machine.setCpu_cpu, Machine.setProcState_cpu, Machine.setStack_cpu,
        Function.update_of_ne hc, hts c' hc]
      exact h.nodup c'
  case ncli =>
    intro c'
    by_cases hc : c' = c
    · subst hc
      simp only [Machine.setCpu_cpu, Function.update_self, htsProc, hdepth]
      exact hncli
    · simp only [Machine.setCpu_cpu, Machine.setProcState_cpu, Machine.setStack_cpu,
        Function.update_of_ne hc, hts c' hc]
      exact h.ncli c'
  case masked =>
    intro c'
    by_cases hc : c' = c
    · subst hc
      simpa using h.masked c'
    · simpa [hc] using h.masked c'
  case proc =>
    intro c' p hp
    by_cases hc : c' = c
    · subst hc
      simpa using hp
    · simp only [Machine.setCpu_cpu, Machine.setProcState_cpu, Machine.setStack_cpu,
        Function.update_of_ne hc] at hp ⊢
      exact h.proc c' p hp
  case vacant =>
    intro c' hsched hcode
    by_cases hc : c' = c
    · subst hc
      simp at hsched
    · have hthread : Thread.scheduler c' ≠ (.scheduler c : Thread P C) := by simpa using hc
      rw [Function.update_of_ne hthread] at hcode
      simp only [Machine.setCpu_cpu, Machine.setProcState_cpu, Machine.setStack_cpu,
        Function.update_of_ne hc] at hsched ⊢
      exact h.vacant c' hsched hcode
  case left =>
    intro c' p hp hleaving
    rw [htsProc] at hleaving
    by_cases hc : c' = c
    · subst hc
      obtain rfl : q = p := by simpa using hp
      rcases hparked.phase with hcode | hcode <;> simp [hcode] at hleaving
    · simp only [Machine.setCpu_cpu, Machine.setProcState_cpu, Machine.setStack_cpu,
        Function.update_of_ne hc] at hp
      simpa [hstate c' p hp] using h.left c' p hp hleaving
  case running =>
    intro c' p hp hcode
    rw [htsProc] at hcode
    by_cases hc : c' = c
    · subst hc
      obtain rfl : q = p := by simpa using hp
      simp
    · simp only [Machine.setCpu_cpu, Machine.setProcState_cpu, Machine.setStack_cpu,
        Function.update_of_ne hc] at hp
      simpa [hstate c' p hp] using h.running c' p hp hcode
  case runs =>
    intro p hp
    by_cases hpq : p = q
    · exact ⟨c, by simp [hpq]⟩
    · obtain ⟨c', hc'⟩ := h.runs p (by simpa [hpq] using hp)
      have hc : c' ≠ c := by
        rintro rfl
        simp [hcurrent] at hc'
      exact ⟨c', by simpa [hc] using hc'⟩

/-- Another process changes its state, under `ptable.lock`. -/
theorem change (h : Inv m ts) {m' : Machine P C} {old new : ProcState} {t' : Ctx}
    (hchange : (m.goOn c rest).change q old new = .next m')
    (ht : t' = ts (m.cpu c).current)
    (hfits : Conforms next (idle (m.cpu c).current.isProc) rest t')
    (hfree : m.state q = old → ∀ c', (m.cpu c').current ≠ .proc q) (hnew : new ≠ .running)
    (hresumable : Resumable new → Resumable old) :
    Inv m' (Function.update ts (m.cpu c).current t') := by
  subst ht
  unfold Machine.change at hchange
  split at hchange
  · rename_i hold
    obtain rfl := Outcome.next.inj hchange
    rw [Function.update_eq_self]
    refine (h.goOn hfits).setProcState (hfree hold) hnew fun hres => ?_
    rw [Machine.goOn_state, show m.state q = old from hold]
    exact hresumable hres
  · simp at hchange

omit [DecidableEq P] [DecidableEq C] in
/-- Acts that are done in one step. -/
theorem after_eq {a : Act} {t' : Ctx} (hnext : next a t = some t') (hacquire : ∀ l, a ≠ .acquire l)
    (hsched : a ≠ .sched) : after a t = t' := by
  cases a with
  | acquire l => exact absurd rfl (hacquire l)
  | sched => exact absurd rfl hsched
  | _ => simp [after, hnext]

/-- Each act of disciplined code keeps the invariant. -/
theorem exec (h : Inv m ts) {code : KernelCode} (hcode : Disciplined code) {m' : Machine P C}
    {a : Act} (htop : m.top c = .prog (.act a) :: rest)
    (hexec : m.exec code c q rest a = .next m') (left : Bool) (i : ℕ) :
    Inv m' (follow m ts (.run c left i q)) := by
  obtain ⟨t', hnext, hfits⟩ := conforms_act.mp (htop ▸ h.fits c)
  have hfollow : follow m ts (.run c left i q) =
      if a = .allocproc then
        Function.update (Function.update ts (m.cpu c).current (after a (ts (m.cpu c).current)))
          (.proc q) ⟨true, [.ptable], .code, false⟩
      else Function.update ts (m.cpu c).current (after a (ts (m.cpu c).current)) := by
    simp [follow, htop]
  rw [hfollow]
  by_cases hacquire : ∃ l, a = .acquire l
  · obtain ⟨l, rfl⟩ := hacquire
    simp only [Machine.exec] at hexec
    split at hexec
    · simp at hexec
    · obtain rfl := Outcome.next.inj hexec
      exact h.acquire hnext hfits
  by_cases hsched : a = .sched
  · subst hsched
    simp only [Machine.exec] at hexec
    split at hexec
    · rename_i p hproc
      obtain ⟨hctx, rfl⟩ : ts (m.cpu c).current = ⟨true, [.ptable], .leaving, false⟩ ∧
          ⟨true, [.ptable], .code, false⟩ = t' := by simpa [next] using hnext
      have hcurrent := h.current_eq (c := c) (by rw [hctx]) hproc
      unfold Machine.sched at hexec
      iterate 4 (split at hexec; · simp at hexec)
      obtain rfl := Outcome.next.inj hexec
      rw [hcurrent] at hctx hfits ⊢
      simp only [after, hctx]
      refine h.switchOut hcurrent hctx (conforms_act.mpr ⟨_, ?_, hfits⟩)
      simp [next]
    · simp at hexec
  rw [after_eq hnext (fun l hl => hacquire ⟨l, hl⟩) hsched]
  by_cases hallocproc : a = .allocproc
  · subst hallocproc
    obtain ⟨⟨hphase, hptable⟩, rfl⟩ : ((ts (m.cpu c).current).phase = .code ∧
        .ptable ∈ (ts (m.cpu c).current).held) ∧ ts (m.cpu c).current = t' := by
      simpa [next] using hnext
    simp only [Machine.exec, Machine.change] at hexec
    split at hexec
    · rename_i hstate
      have hstate : m.state q = .unused := hstate
      obtain rfl := Outcome.next.inj hexec
      have hfree := h.not_current (q := q) (by simp [hstate]) hptable hphase
      have hsame := Function.update_eq_self (m.cpu c).current ts
      rw [if_pos rfl, hsame]
      exact (h.goOn hfits).create hfree hcode.forkret
    · simp at hexec
  rw [if_neg hallocproc]
  cases a with
  | acquire l => exact absurd ⟨l, rfl⟩ hacquire
  | sched => exact absurd rfl hsched
  | allocproc => exact absurd rfl hallocproc
  | spin l =>
      simp only [Machine.exec] at hexec
      split at hexec
      · rename_i hfree
        obtain rfl := Outcome.next.inj hexec
        exact h.spin hfree hnext hfits
      · simp at hexec
  | release l =>
      simp only [Machine.exec] at hexec
      split at hexec
      · simp at hexec
      · rename_i hholder
        split at hexec
        · rename_i cpu hpop
          obtain rfl := Outcome.next.inj hexec
          exact h.release (by simpa using hholder) hpop hnext hfits
        · simp at hexec
        · simp at hexec
  | sti | iret =>
      obtain rfl := Outcome.next.inj hexec
      obtain ⟨hidle, rfl⟩ : (ts (m.cpu c).current = idle true ∨ ts (m.cpu c).current = idle false) ∧
          ts (m.cpu c).current = t' := by simpa [next] using hnext
      have hzero : (ts (m.cpu c).current).depth = 0 := by
        rcases hidle with hidle | hidle <;> rw [hidle] <;> rfl
      have hcode : (ts (m.cpu c).current).phase ≠ .leaving := by
        rcases hidle with hidle | hidle <;> simp [hidle]
      refine h.flags rfl rfl (fun _ => (h.ncli c).trans hzero) rfl rfl (h.wf _) rfl
        (fun p hp => ⟨h.proc c p hp, by rw [hp]⟩) (fun hsched _ => ?_) hfits
      exact h.vacant c hsched (by rwa [← hsched])
  | setState state killable =>
      simp only [Machine.exec] at hexec
      split at hexec
      · rename_i p hproc
        obtain rfl := Outcome.next.inj hexec
        exact h.setState hproc hnext hfits
      · simp at hexec
  | restore intena =>
      obtain rfl := Outcome.next.inj hexec
      obtain ⟨hctx, rfl⟩ : ts (m.cpu c).current = ⟨true, [.ptable], .resuming, false⟩ ∧
          ⟨true, [.ptable], .code, false⟩ = t' := by simpa [next] using hnext
      refine h.flags rfl rfl (h.masked c) (by rw [hctx]) (by rw [hctx]; rfl)
        ⟨by simp, by simp, by simp⟩ (by rw [hctx])
        (fun p hp => ⟨h.proc c p hp, ?_⟩) (fun hsched _ => ?_) hfits
      · rw [← hp, hctx]
        simp
      · exact h.vacant c hsched (by rw [← hsched, hctx]; simp)
  | notKilled =>
      simp only [Machine.exec] at hexec
      split at hexec
      · split at hexec
        · simp at hexec
        · obtain rfl := Outcome.next.inj hexec
          obtain ⟨⟨hprocess, hphase, hheld, -⟩, rfl⟩ := by simpa [next] using hnext
          refine h.onCpu (c := c) rfl (fun _ _ => rfl) ?_ rfl ?_
            ⟨by simp [hphase], by simp [hphase], fun _ => hheld⟩ (h.process _) Iff.rfl (h.held c)
            (fun _ _ _ => Iff.rfl) (h.nodup c) (h.ncli c) (h.masked c) rfl
          · intro thread hne
            simp [hne]
          · simpa using hfits
      · simp at hexec
  | setKilled =>
      simp only [Machine.exec] at hexec
      split at hexec
      · obtain rfl := Outcome.next.inj hexec
        obtain ⟨-, rfl⟩ : ts (m.cpu c).current = idle true ∧ ts (m.cpu c).current = t' := by
          simpa [next] using hnext
        simpa [Function.update_eq_self] using (h.goOn hfits).setKilled _
      · simp at hexec
  | wakeup | setRunnable =>
      obtain ⟨⟨hphase, hptable⟩, rfl⟩ : ((ts (m.cpu c).current).phase = .code ∧
          .ptable ∈ (ts (m.cpu c).current).held) ∧ ts (m.cpu c).current = t' := by
        simpa [next] using hnext
      refine h.change hexec rfl hfits (fun hstate => ?_) (by simp) (by simp [Resumable])
      exact h.not_current (by simp [hstate]) hptable hphase
  | reap =>
      obtain ⟨⟨hphase, hptable⟩, rfl⟩ : ((ts (m.cpu c).current).phase = .code ∧
          .ptable ∈ (ts (m.cpu c).current).held) ∧ ts (m.cpu c).current = t' := by
        simpa [next] using hnext
      refine (h.setKilled (Function.update m.killed q false)).change hexec rfl hfits
        (fun hstate => ?_) (by simp) (by simp [Resumable])
      have hstate : m.state q = .zombie := hstate
      exact h.not_current (by simp [hstate]) hptable hphase
  | discard =>
      obtain ⟨hphase, rfl⟩ : (ts (m.cpu c).current).phase = .code ∧
          ts (m.cpu c).current = t' := by
        simpa [next] using hnext
      refine h.change hexec rfl hfits (fun hstate c' hc' => ?_) (by simp) (by simp [Resumable])
      -- a process on a CPU is running, or has just set its state
      by_cases hleaving : (ts (.proc q)).phase = .leaving
      · simpa [hstate] using h.left c' q hc' hleaving
      · simpa [hstate] using h.running c' q hc' hleaving
  | kill =>
      obtain ⟨⟨hphase, hptable⟩, rfl⟩ : ((ts (m.cpu c).current).phase = .code ∧
          .ptable ∈ (ts (m.cpu c).current).held) ∧ ts (m.cpu c).current = t' := by
        simpa [next] using hnext
      obtain rfl := Outcome.next.inj hexec
      have hsame := Function.update_eq_self (m.cpu c).current ts
      rw [hsame]
      have hgoOn := (h.goOn hfits).setKilled (Function.update m.killed q true)
      by_cases hstate : m.state q = .sleeping
      · rw [if_pos hstate]
        have hfree := h.not_current (q := q) (by simp [hstate]) hptable hphase
        exact hgoOn.setProcState hfree (by simp) fun _ => Or.inl hstate
      · rw [if_neg hstate, Function.update_eq_self]
        exact hgoOn
  | dispatch =>
      simp only [Machine.exec] at hexec
      split at hexec
      · rename_i hrunnable
        obtain rfl := Outcome.next.inj hexec
        obtain ⟨hctx, rfl⟩ : ts (m.cpu c).current = ⟨false, [.ptable], .code, false⟩ ∧
            ⟨false, [.ptable], .leaving, false⟩ = t' := by simpa [next] using hnext
        have hcurrent := h.current_eq_scheduler (c := c) (by rw [hctx])
        rw [hcurrent] at hctx hfits
        simp only [Machine.goOn, hcurrent]
        exact h.switchIn hcurrent hctx hfits hrunnable
      · simp at hexec
  | undispatch =>
      obtain rfl := Outcome.next.inj hexec
      obtain ⟨hctx, rfl⟩ : ts (m.cpu c).current = ⟨false, [.ptable], .leaving, false⟩ ∧
          ⟨false, [.ptable], .code, false⟩ = t' := by simpa [next] using hnext
      have hcurrent := h.current_eq_scheduler (c := c) (by rw [hctx])
      refine h.flags rfl rfl (h.masked c) (by rw [hctx]) (by rw [hctx]; rfl)
        ⟨by simp, by simp, by simp⟩ (by rw [hctx]) (fun p hp => ?_) (fun _ _ => rfl) hfits
      simp [hcurrent] at hp

omit [DecidableEq P] [DecidableEq C] in
/-- With interrupts on, a handler may be put on the stack. -/
theorem conforms_handled (h : Inv m ts) {handler : Prog Act}
    (hok : ∀ Q R, Q (idle (m.cpu c).current.isProc) →
      Ok next handler Q R (idle (m.cpu c).current.isProc))
    (hidle : ts (m.cpu c).current = idle (m.cpu c).current.isProc) :
    Conforms next (idle (m.cpu c).current.isProc) (handled handler (m.top c))
      (ts (m.cpu c).current) := by
  have hfits := h.fits c
  rw [hidle] at hfits ⊢
  refine conforms_prog.mpr (hok _ _ (conforms_act.mpr ⟨_, ?_, hfits⟩))
  cases (m.cpu c).current.isProc <;> simp [next]

theorem interrupt (h : Inv m ts) {code : KernelCode} (hcode : Disciplined code)
    (hon : (m.cpu c).interruptible = true) :
    Inv ((m.goOn c (handled (code.interrupt (m.cpu c).proc.isSome (m.top c).isEmpty)
      (m.top c))).setCpu c { m.cpu c with interruptible := false }) ts := by
  have hidle := h.idle_of_interruptible hon
  -- `myproc()` tells whether the CPU is on a process
  have hproc : (m.cpu c).proc.isSome = (m.cpu c).current.isProc := by
    cases hcur : (m.cpu c).current with
    | proc p => simp [h.proc c p hcur, Thread.isProc]
    | scheduler c' =>
        have hcur : (m.cpu c).current = .scheduler c := by rw [hcur, h.home c c' hcur]
        rw [h.vacant c hcur (by rw [← hcur, hidle]; simp)]
        rfl
  have hsame := Function.update_eq_self (m.cpu c).current ts
  rw [← hsame]
  refine h.flags rfl rfl (by simp) rfl rfl (h.wf _) rfl (fun p hp => ⟨h.proc c p hp, by rw [hp]⟩)
    (fun hsched hcode => h.vacant c hsched (by rwa [← hsched])) (h.conforms_handled ?_ hidle)
  rw [hproc]
  exact hcode.interrupt _ _

omit [DecidableEq P] [DecidableEq C] in
/-- `pushcli` and then `popcli` may change `intena` only. -/
theorem pushcli_popcli (h : Inv m ts) {cpu : Cpu P C}
    (hpeek : (m.cpu c).pushcli.popcli = .next cpu) :
    cpu.current = (m.cpu c).current ∧ cpu.ncli = (m.cpu c).ncli ∧ cpu.proc = (m.cpu c).proc ∧
      cpu.interruptible = (m.cpu c).interruptible := by
  obtain rfl := popcli_eq_next hpeek
  refine ⟨rfl, rfl, rfl, ?_⟩
  by_cases hzero : (m.cpu c).ncli = 0
  · simp [Cpu.pushcli, hzero]
  · have hoff : (m.cpu c).interruptible = false := by
      by_contra hon
      exact hzero (h.masked c (by simpa using hon))
    simp [Cpu.pushcli, hzero, hoff]

/-- Every step of disciplined code keeps the invariant. -/
theorem step (h : Inv m ts) {code : KernelCode} (hcode : Disciplined code) {m' : Machine P C}
    {e : Event P C} (hstep : step code m e = .next m') : Inv m' (follow m ts e) := by
  cases e with
  | run c left i q =>
      by_cases hact : ∃ a rest, m.top c = .prog (.act a) :: rest
      · obtain ⟨a, rest, htop⟩ := hact
        refine h.exec hcode htop ?_ left i
        simpa [Switch.step, htop] using hstep
      · rw [follow_of_not_act hact]
        simp only [Switch.step] at hstep
        split at hstep
        · rename_i a rest htop
          exact absurd ⟨a, rest, htop⟩ hact
        · split at hstep
          · rename_i k' hadvance
            obtain rfl := Outcome.next.inj hstep
            exact h.goOn ((h.fits c).advance hadvance)
          · simp at hstep
  | interrupt c =>
      simp only [Switch.step] at hstep
      split at hstep
      · rename_i hon
        obtain rfl := Outcome.next.inj hstep
        exact h.interrupt hcode hon
      · simp at hstep
  | syscall c =>
      simp only [Switch.step] at hstep
      split at hstep
      · rename_i p hcur htop
        obtain rfl := Outcome.next.inj hstep
        have hfits := h.fits c
        rw [htop, conforms_nil] at hfits
        have hok : ∀ Q R, Q (idle (m.cpu c).current.isProc) →
            Ok next code.syscall Q R (idle (m.cpu c).current.isProc) := by
          rw [hcur]
          exact hcode.syscall
        have hhandled := h.conforms_handled hok hfits
        rw [htop] at hhandled
        exact h.goOn hhandled
      · simp at hstep
  | peek c =>
      simp only [Switch.step] at hstep
      split at hstep
      · rename_i cpu hpeek
        obtain rfl := Outcome.next.inj hstep
        obtain ⟨hcurrent, hcli, hproc, hflag⟩ := h.pushcli_popcli hpeek
        have hsame := Function.update_eq_self (m.cpu c).current ts
        rw [← Machine.goOn_top m c, ← hsame]
        refine h.flags hcurrent hcli ?_ rfl rfl (h.wf _) rfl ?_ ?_ (h.fits c)
        · rw [hflag, hcli]
          exact h.masked c
        · intro p hp
          rw [hproc, hp]
          exact ⟨h.proc c p hp, Iff.rfl⟩
        · intro hsched hcode
          rw [hproc]
          exact h.vacant c hsched (by rwa [← hsched])
      · simp at hstep
      · simp at hstep

end Inv

end Xv6.Switch
