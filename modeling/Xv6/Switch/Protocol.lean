import Xv6.Switch.Invariant

/-!
# The context-switch protocol

Whatever the interleaving of system calls and interrupts on any number of CPUs, a
CPU that switches from a process to its scheduler or back holds `ptable.lock` and
no other spinlock, with interrupts off, so no step of either kernel ends in a panic
of `sched`, `acquire`, `release` or `popcli`.  A process that comes back from
`sched` finds `intena` as it was, whichever CPU it is on by then
(`context_switch`).
-/

namespace Xv6.Switch

open Transition Typestate

variable {P C : Type} {m m' : Machine P C} {ts : Thread P C → Ctx} {c : C} {p q : P} {rest : Stack}
variable {code : KernelCode} {a : Act} {left : Bool} {i : ℕ}

/-- What `sched` asks for, but for the state of the process. -/
structure AtSwitch (m : Machine P C) (c : C) : Prop where
  ptable : m.holder .ptable = some c
  others : ∀ l, m.holder l = some c → l = .ptable
  ncli : (m.cpu c).ncli = 1
  interruptible : (m.cpu c).interruptible = false

theorem Inv.atSwitch (h : Inv m ts) (hheld : (ts (m.cpu c).current).held = [.ptable])
    (hdepth : (ts (m.cpu c).current).depth = 1) : AtSwitch m c where
  ptable := (h.held c _).mpr (by simp [hheld])
  others l hl := by simpa [hheld] using (h.held c l).mp hl
  ncli := (h.ncli c).trans hdepth
  interruptible := by
    by_contra hon
    have hzero := h.masked c (by simpa using hon)
    rw [h.ncli, hdepth] at hzero
    simp at hzero

/-- Before `sched`, and before the scheduler switches to a process. -/
theorem Inv.atSwitch_of_act (h : Inv m ts) (htop : m.top c = .prog (.act a) :: rest)
    (ha : a = .sched ∨ a = .dispatch) : AtSwitch m c := by
  obtain ⟨t', hnext, -⟩ := conforms_act.mp (htop ▸ h.fits c)
  rcases ha with rfl | rfl
  · obtain ⟨hctx, -⟩ : ts (m.cpu c).current = ⟨true, [.ptable], .leaving, false⟩ ∧
        ⟨true, [.ptable], .code, false⟩ = t' := by simpa [next] using hnext
    exact h.atSwitch (by rw [hctx]) (by rw [hctx]; rfl)
  · obtain ⟨hctx, -⟩ : ts (m.cpu c).current = ⟨false, [.ptable], .code, false⟩ ∧
        ⟨false, [.ptable], .leaving, false⟩ = t' := by simpa [next] using hnext
    exact h.atSwitch (by rw [hctx]) (by rw [hctx]; rfl)

section Steps

variable [DecidableEq P] [DecidableEq C]

/-! ## No panics -/

omit [DecidableEq P] [DecidableEq C] in
theorem popcli_pushcli_safe (cpu : Cpu P C) : cpu.pushcli.popcli.Safe := by
  simp [Cpu.popcli, Cpu.pushcli]

omit [DecidableEq C] in
theorem Machine.change_safe (m : Machine P C) (q : P) (old new : ProcState) :
    (m.change q old new).Safe := by
  unfold change
  split <;> simp

theorem Inv.sched_safe (h : Inv m ts) (htop : m.top c = .prog (.act .sched) :: rest)
    (hproc : (m.cpu c).proc = some p) : (m.sched c rest p).Safe := by
  have hswitch := h.atSwitch_of_act htop (Or.inl rfl)
  obtain ⟨t', hnext, -⟩ := conforms_act.mp (htop ▸ h.fits c)
  obtain ⟨hctx, -⟩ : ts (m.cpu c).current = ⟨true, [.ptable], .leaving, false⟩ ∧
      ⟨true, [.ptable], .code, false⟩ = t' := by simpa [next] using hnext
  have hcurrent := h.current_eq (c := c) (by rw [hctx]) hproc
  rw [hcurrent] at hctx
  have hstate : m.state p ≠ .running := by
    rcases h.left c p hcurrent (by rw [hctx]) with hp | hp | hp <;> simp [hp]
  unfold Machine.sched
  rw [if_neg (by simp [hswitch.ptable]), if_neg (by simp [hswitch.ncli]), if_neg hstate,
    if_neg (by simp [hswitch.interruptible])]
  simp

theorem Inv.exec_safe (h : Inv m ts) (htop : m.top c = .prog (.act a) :: rest) (q : P) :
    (m.exec code c q rest a).Safe := by
  obtain ⟨t', hnext, -⟩ := conforms_act.mp (htop ▸ h.fits c)
  cases a with
  | acquire l =>
      obtain ⟨⟨-, hl⟩, -⟩ : ((ts (m.cpu c).current).phase = .code ∧
          l ∉ (ts (m.cpu c).current).held) ∧ _ := by simpa [next] using hnext
      have hfree : m.holder l ≠ some c := fun hheld => hl ((h.held c l).mp hheld)
      simp [Machine.exec, hfree]
  | release l =>
      obtain ⟨⟨hphase, hl, -⟩, -⟩ : ((ts (m.cpu c).current).phase = .code ∧
          l ∈ (ts (m.cpu c).current).held ∧ _) ∧ _ := by simpa [next] using hnext
      have hheld := (h.held c l).mpr hl
      have hncli := h.ncli c
      have hpos := List.length_pos_of_mem hl
      simp only [Ctx.depth, hphase] at hncli
      have hoff : (m.cpu c).interruptible = false := by
        by_contra hon
        have hzero := h.masked c (by simpa using hon)
        omega
      have hpop : (m.cpu c).ncli ≠ 0 := by omega
      simp [Machine.exec, hheld, Cpu.popcli, hoff, hpop]
  | sched =>
      simp only [Machine.exec]
      split
      · rename_i p hproc
        exact h.sched_safe htop hproc
      · simp
  | wakeup | allocproc | setRunnable | discard | reap =>
      exact Machine.change_safe _ q _ _
  | spin l | dispatch =>
      simp only [Machine.exec]
      split <;> simp
  | setState state killable | setKilled =>
      simp only [Machine.exec]
      split <;> simp
  | notKilled =>
      simp only [Machine.exec]
      split
      · split <;> simp
      · simp
  | _ => simp [Machine.exec]

theorem Inv.step_safe (h : Inv m ts) (e : Event P C) : (Switch.step code m e).Safe := by
  cases e with
  | run c left i q =>
      simp only [Switch.step]
      split
      · rename_i a rest htop
        exact h.exec_safe htop q
      · split <;> simp
  | interrupt c =>
      simp only [Switch.step]
      split <;> simp
  | syscall c =>
      simp only [Switch.step]
      split <;> simp
  | peek c =>
      have hsafe := popcli_pushcli_safe (m.cpu c)
      simp only [Switch.step]
      split
      · simp
      · simp
      · rename_i message hpanic
        exact absurd hpanic (hsafe message)

/-! ## Where a CPU changes its thread -/

omit [DecidableEq C] in
theorem Machine.change_current {m₁ : Machine P C} {old new : ProcState}
    (hchange : m₁.change q old new = .next m') (c : C) :
    (m'.cpu c).current = (m₁.cpu c).current := by
  unfold Machine.change at hchange
  split at hchange
  · obtain rfl := Outcome.next.inj hchange
    rfl
  · simp at hchange

omit [DecidableEq P] in
theorem update_current {cpus : C → Cpu P C} {cpu : Cpu P C}
    (hcpu : cpu.current = (cpus c).current) (c' : C) :
    (Function.update cpus c cpu c').current = (cpus c').current := by
  by_cases hc : c' = c
  · subst hc
    simpa using hcpu
  · simp [Function.update_of_ne hc]

/-- Only `sched` and the scheduler's switch change the thread that a CPU is on. -/
theorem Machine.exec_current (hexec : m.exec code c q rest a = .next m')
    (hsched : a ≠ .sched) (hdispatch : a ≠ .dispatch) (c' : C) :
    (m'.cpu c').current = (m.cpu c').current := by
  cases a with
  | sched => exact absurd rfl hsched
  | dispatch => exact absurd rfl hdispatch
  | wakeup | allocproc | setRunnable | discard | reap => exact change_current hexec c'
  | acquire l =>
      simp only [exec] at hexec
      split at hexec
      · simp at hexec
      · obtain rfl := Outcome.next.inj hexec
        exact update_current (by rfl) c'
  | release l =>
      simp only [exec] at hexec
      split at hexec
      · simp at hexec
      · split at hexec
        · rename_i cpu hpop
          obtain rfl := Inv.popcli_eq_next hpop
          obtain rfl := Outcome.next.inj hexec
          exact update_current (by rfl) c'
        · simp at hexec
        · simp at hexec
  | sti | iret | restore | undispatch =>
      obtain rfl := Outcome.next.inj hexec
      exact update_current (by rfl) c'
  | kill =>
      obtain rfl := Outcome.next.inj hexec
      rfl
  | spin l | setState state killable | setKilled =>
      simp only [exec] at hexec
      split at hexec
      · obtain rfl := Outcome.next.inj hexec
        rfl
      · simp at hexec
  | notKilled =>
      simp only [exec] at hexec
      split at hexec
      · split at hexec
        · simp at hexec
        · obtain rfl := Outcome.next.inj hexec
          rfl
      · simp at hexec

/-- A switch leaves the locks and the flags of the CPU as they are. -/
theorem Machine.exec_switch (hexec : m.exec code c q rest a = .next m')
    (ha : a = .sched ∨ a = .dispatch) :
    m'.holder = m.holder ∧ (∀ c', c' ≠ c → m'.cpu c' = m.cpu c') ∧
      (m'.cpu c).ncli = (m.cpu c).ncli ∧
      (m'.cpu c).interruptible = (m.cpu c).interruptible := by
  rcases ha with rfl | rfl
  · simp only [exec] at hexec
    split at hexec
    · unfold sched at hexec
      split_ifs at hexec
      obtain rfl := Outcome.next.inj hexec
      exact ⟨rfl, fun c' hc => by simp [hc], by simp, by simp⟩
    · simp at hexec
  · simp only [exec] at hexec
    split at hexec
    · obtain rfl := Outcome.next.inj hexec
      exact ⟨rfl, fun c' hc => by simp [hc], by simp, by simp⟩
    · simp at hexec

/-- Steps that are not acts do not change the thread that a CPU is on. -/
theorem step_current {e : Event P C} (hstep : step code m e = .next m')
    (hmoved : (m'.cpu c).current ≠ (m.cpu c).current) :
    ∃ a rest left i q, e = .run c left i q ∧ m.top c = .prog (.act a) :: rest ∧
      (a = .sched ∨ a = .dispatch) ∧ m.exec code c q rest a = .next m' := by
  cases e with
  | run c₁ left i q =>
      simp only [step] at hstep
      split at hstep
      · rename_i a rest htop
        have ha : a = .sched ∨ a = .dispatch := by
          by_contra hnot
          obtain ⟨hsched, hdispatch⟩ := not_or.mp hnot
          exact hmoved (Machine.exec_current hstep hsched hdispatch c)
        have hc : c = c₁ := by
          by_contra hne
          exact hmoved (by rw [(Machine.exec_switch hstep ha).2.1 c hne])
        subst hc
        exact ⟨a, rest, left, i, q, rfl, htop, ha, hstep⟩
      · split at hstep
        · obtain rfl := Outcome.next.inj hstep
          exact absurd rfl hmoved
        · simp at hstep
  | interrupt c₁ =>
      simp only [step] at hstep
      split at hstep
      · obtain rfl := Outcome.next.inj hstep
        exact absurd (update_current (by rfl) c) hmoved
      · simp at hstep
  | syscall c₁ =>
      simp only [step] at hstep
      split at hstep
      · obtain rfl := Outcome.next.inj hstep
        exact absurd rfl hmoved
      · simp at hstep
  | peek c₁ =>
      simp only [step] at hstep
      split at hstep
      · rename_i cpu hpeek
        obtain rfl := Inv.popcli_eq_next hpeek
        obtain rfl := Outcome.next.inj hstep
        exact absurd (update_current (by rfl) c) hmoved
      · simp at hstep
      · simp at hstep

theorem Inv.switches (h : Inv m ts) {e : Event P C} (hstep : Switch.step code m e = .next m')
    (hmoved : (m'.cpu c).current ≠ (m.cpu c).current) : AtSwitch m c ∧ AtSwitch m' c := by
  obtain ⟨a, rest, left, i, q, -, htop, ha, hexec⟩ := step_current hstep hmoved
  have hswitch := h.atSwitch_of_act htop ha
  obtain ⟨hholder, -, hncli, hflag⟩ := Machine.exec_switch hexec ha
  exact ⟨hswitch, ⟨by rw [hholder, hswitch.ptable], by rw [hholder]; exact hswitch.others,
    by rw [hncli, hswitch.ncli], by rw [hflag, hswitch.interruptible]⟩⟩

/-! ## `intena` across a switch -/

/-- The stacks that an act other than `sched` leaves alone. -/
theorem Machine.exec_stack (hexec : m.exec code c q rest a = .next m') (hsched : a ≠ .sched)
    {thread : Thread P C} (hother : thread ≠ (m.cpu c).current)
    (hnew : a = .allocproc → thread ≠ .proc q) : m'.stack thread = m.stack thread := by
  have hgoOn : ∀ k, (m.goOn c k).stack thread = m.stack thread := fun k => by simp [hother]
  cases a with
  | sched => exact absurd rfl hsched
  | allocproc =>
      simp only [exec, change] at hexec
      split at hexec
      · obtain rfl := Outcome.next.inj hexec
        simpa [hnew rfl] using hgoOn rest
      · simp at hexec
  | wakeup | setRunnable | discard | reap =>
      simp only [exec, change] at hexec
      split at hexec
      · obtain rfl := Outcome.next.inj hexec
        exact hgoOn rest
      · simp at hexec
  | release l =>
      simp only [exec] at hexec
      split at hexec
      · simp at hexec
      · split at hexec
        · obtain rfl := Outcome.next.inj hexec
          exact hgoOn rest
        · simp at hexec
        · simp at hexec
  | sti | iret | restore | undispatch | kill =>
      obtain rfl := Outcome.next.inj hexec
      exact hgoOn rest
  | acquire l =>
      simp only [exec] at hexec
      split at hexec
      · simp at hexec
      · obtain rfl := Outcome.next.inj hexec
        exact hgoOn _
  | spin l | setState state killable | setKilled | dispatch =>
      simp only [exec] at hexec
      split at hexec
      · obtain rfl := Outcome.next.inj hexec
        exact hgoOn rest
      · simp at hexec
  | notKilled =>
      simp only [exec] at hexec
      split at hexec
      · split at hexec
        · simp at hexec
        · obtain rfl := Outcome.next.inj hexec
          exact hgoOn rest
      · simp at hexec

omit [DecidableEq P] [DecidableEq C] in
/-- Only `sched` leaves a thread in the middle of `sched`. -/
theorem after_phase {t t' : Ctx} (hnext : next a t = some t') (hsched : a ≠ .sched) :
    (after a t).phase ≠ .resuming := by
  by_cases hacquire : ∃ l, a = .acquire l
  · obtain ⟨l, rfl⟩ := hacquire
    simp [after]
  · rw [Inv.after_eq hnext (fun l hl => hacquire ⟨l, hl⟩) hsched]
    cases a with
    | sched => exact absurd rfl hsched
    | sti | iret =>
        obtain ⟨hidle, rfl⟩ : (t = idle true ∨ t = idle false) ∧ t = t' := by
          simpa [next] using hnext
        rcases hidle with rfl | rfl <;> simp
    | setKilled =>
        obtain ⟨rfl, rfl⟩ : t = idle true ∧ t = t' := by simpa [next] using hnext
        simp
    | _ =>
        simp only [next, Option.ite_none_right_eq_some, Option.some.injEq] at hnext
        obtain ⟨hallowed, rfl⟩ := hnext
        simp [hallowed]

/-- `intena` of its CPU when a process last called `sched`. -/
abbrev History (P : Type) := P → Bool

def record (r : History P) (s : Machine P C) (e : Event P C) (t : Machine P C) : History P :=
  match e with
  | .run c _ _ _ =>
      match (s.cpu c).current, (t.cpu c).current with
      | .proc p, .scheduler _ => Function.update r p (s.cpu c).intena
      | _, _ => r
  | _ => r

/-- Between `swtch` and the end of `sched`, what a process does next is to put `intena`
back. -/
def Restores (m : Machine P C) (ts : Thread P C → Ctx) (r : History P) : Prop :=
  ∀ p, (ts (.proc p)).phase = .resuming →
    ∃ rest, m.stack (.proc p) = .prog (.act (.restore (r p))) :: rest

omit [DecidableEq C] in
theorem record_of_current_eq {r : History P} {e : Event P C}
    (hcurrent : ∀ c, (m'.cpu c).current = (m.cpu c).current) : record r m e m' = r := by
  cases e with
  | run c left i q =>
      simp only [record, hcurrent c]
      split
      · rename_i hproc hscheduler
        rw [hproc] at hscheduler
        simp at hscheduler
      · rfl
  | _ => rfl

theorem Inv.restores_sched (h : Inv m ts) {r : History P} (hr : Restores m ts r) {m' : Machine P C}
    (htop : m.top c = .prog (.act .sched) :: rest)
    (hstep : Switch.step code m (.run c left i q) = .next m') :
    Restores m' (follow m ts (.run c left i q)) (record r m (.run c left i q) m') := by
  obtain ⟨t', hnext, -⟩ := conforms_act.mp (htop ▸ h.fits c)
  obtain ⟨hctx, -⟩ : ts (m.cpu c).current = ⟨true, [.ptable], .leaving, false⟩ ∧
      ⟨true, [.ptable], .code, false⟩ = t' := by simpa [next] using hnext
  simp only [Switch.step, htop, Machine.exec] at hstep
  split at hstep
  · rename_i p hproc
    have hcurrent := h.current_eq (c := c) (by rw [hctx]) hproc
    unfold Machine.sched at hstep
    split_ifs at hstep
    obtain rfl := Outcome.next.inj hstep
    intro p' hp'
    by_cases hpp : p' = p
    · subst hpp
      exact ⟨rest, by simp [record, hcurrent]⟩
    · have hne : Thread.proc p' ≠ (m.cpu c).current := by simp [hcurrent, hpp]
      have hkept : follow m ts (.run c left i q) (.proc p') = ts (.proc p') := by
        simp [follow, htop, Function.update_of_ne hne]
      rw [hkept] at hp'
      obtain ⟨rest', hrest⟩ := hr p' hp'
      exact ⟨rest', by simpa [record, hcurrent, hpp] using hrest⟩
  · simp at hstep

theorem Inv.restores_act (h : Inv m ts) {r : History P} (hr : Restores m ts r) {m' : Machine P C}
    (htop : m.top c = .prog (.act a) :: rest) (hsched : a ≠ .sched)
    (hstep : Switch.step code m (.run c left i q) = .next m') :
    Restores m' (follow m ts (.run c left i q)) (record r m (.run c left i q) m') := by
  obtain ⟨t', hnext, -⟩ := conforms_act.mp (htop ▸ h.fits c)
  have hexec : m.exec code c q rest a = .next m' := by simpa [Switch.step, htop] using hstep
  have hrecord : record r m (.run c left i q) m' = r := by
    by_cases hdispatch : a = .dispatch
    · subst hdispatch
      obtain ⟨hctx, -⟩ : ts (m.cpu c).current = ⟨false, [.ptable], .code, false⟩ ∧
          ⟨false, [.ptable], .leaving, false⟩ = t' := by simpa [next] using hnext
      have hcurrent := h.current_eq_scheduler (c := c) (by rw [hctx])
      simp [record, hcurrent]
    · exact record_of_current_eq (Machine.exec_current hexec hsched hdispatch)
  rw [hrecord]
  intro p hp
  have hnew : a = .allocproc → (Thread.proc p : Thread P C) ≠ .proc q := by
    rintro rfl heq
    simp [follow, htop, heq] at hp
  have hmoved : (Function.update ts (m.cpu c).current (after a (ts (m.cpu c).current))
      (.proc p)).phase = .resuming := by
    simp only [follow, htop] at hp
    split at hp
    · rename_i halloc
      rwa [Function.update_of_ne (hnew halloc)] at hp
    · exact hp
  have hother : Thread.proc p ≠ (m.cpu c).current := by
    intro heq
    rw [heq, Function.update_self] at hmoved
    exact after_phase hnext hsched hmoved
  rw [Function.update_of_ne hother] at hmoved
  obtain ⟨rest', hrest⟩ := hr p hmoved
  exact ⟨rest', by rw [Machine.exec_stack hexec hsched hother hnew, hrest]⟩

omit [DecidableEq P] [DecidableEq C] in
/-- A step after which only the thread on CPU `c` may have another stack, and this
thread is not in the middle of `sched`. -/
theorem Restores.of_stack {r : History P} (hr : Restores m ts r)
    (hphase : ∀ p, (m.cpu c).current = .proc p → (ts (.proc p)).phase ≠ .resuming)
    (hstack : ∀ thread, thread ≠ (m.cpu c).current → m'.stack thread = m.stack thread) :
    Restores m' ts r := by
  intro p hp
  have hother : Thread.proc p ≠ (m.cpu c).current := fun heq => hphase p heq.symm hp
  rw [hstack _ hother]
  exact hr p hp

theorem Inv.restores_step (h : Inv m ts) {r : History P} (hr : Restores m ts r)
    {m' : Machine P C} {e : Event P C} (hstep : Switch.step code m e = .next m') :
    Restores m' (follow m ts e) (record r m e m') := by
  cases e with
  | run c left i q =>
      by_cases hact : ∃ a rest, m.top c = .prog (.act a) :: rest
      · obtain ⟨a, rest, htop⟩ := hact
        by_cases hsched : a = .sched
        · subst hsched
          exact h.restores_sched hr htop hstep
        · exact h.restores_act hr htop hsched hstep
      · -- a thread in the middle of `sched` has an act to do
        have hphase : ∀ p, (m.cpu c).current = .proc p → (ts (.proc p)).phase ≠ .resuming := by
          intro p hcur hresuming
          obtain ⟨rest, hrest⟩ := hr p hresuming
          exact hact ⟨_, rest, by rw [Machine.top, hcur, hrest]⟩
        rw [follow_of_not_act hact]
        simp only [Switch.step] at hstep
        split at hstep
        · rename_i a rest htop
          exact absurd ⟨a, rest, htop⟩ hact
        · split at hstep
          · rename_i k' hadvance
            obtain rfl := Outcome.next.inj hstep
            have hrecord : record r m (.run c left i q) (m.goOn c k') = r :=
              record_of_current_eq fun _ => rfl
            rw [hrecord]
            refine hr.of_stack hphase fun thread hne => ?_
            simp [hne]
          · simp at hstep
  | interrupt c =>
      simp only [Switch.step] at hstep
      split at hstep
      · rename_i hon
        obtain rfl := Outcome.next.inj hstep
        refine hr.of_stack (c := c) (fun p hp => ?_) fun thread hne => by simp [hne]
        rw [← hp, h.idle_of_interruptible hon]
        simp
      · simp at hstep
  | syscall c =>
      simp only [Switch.step] at hstep
      split at hstep
      · rename_i p hcur htop
        obtain rfl := Outcome.next.inj hstep
        have hfits := h.fits c
        rw [htop, conforms_nil] at hfits
        refine hr.of_stack (c := c) (fun p hp => ?_) fun thread hne => by simp [hne]
        rw [← hp, hfits]
        simp
      · simp at hstep
  | peek c =>
      simp only [Switch.step] at hstep
      split at hstep
      · obtain rfl := Outcome.next.inj hstep
        exact hr
      · simp at hstep
      · simp at hstep

/-! ## Runs from the boot -/

/-- No process has run, and the schedulers hold no lock. -/
def atBoot : Thread P C → Ctx
  | .proc _ => ⟨true, [.ptable], .code, false⟩
  | .scheduler _ => idle false

omit [DecidableEq C] in
theorem inv_boot (hcode : Disciplined code) (initproc : P) : Inv (boot C code initproc) atBoot where
  home c c' h := (Thread.scheduler.inj h).symm
  alone c c' h := Thread.scheduler.inj h
  process thread := by cases thread <;> rfl
  wf thread := by cases thread <;> constructor <;> simp [atBoot]
  fits c := hcode.scheduler
  parked p _ _ := ⟨hcode.forkret, ⟨rfl, rfl, Or.inl rfl⟩⟩
  away c p h := by simp [boot] at h
  held c l := by simp [boot, atBoot]
  nodup c := List.nodup_nil
  ncli c := rfl
  masked c h := rfl
  proc c p h := by simp [boot] at h
  vacant c _ _ := rfl
  left c p h := by simp [boot] at h
  running c p h := by simp [boot] at h
  runs p h := by
    simp only [boot] at h
    split at h <;> simp at h

theorem reaches_inv (hcode : Disciplined code) {initproc : P} {s : Machine P C × History P}
    (run : Reaches (traced (step code) record) (boot C code initproc, fun _ => false) s) :
    ∃ ts, Inv s.1 ts ∧ Restores s.1 ts s.2 := by
  refine run.invariant (I := fun s => ∃ ts, Inv s.1 ts ∧ Restores s.1 ts s.2) ?_ ?_
  · exact ⟨atBoot, inv_boot hcode initproc, fun p hp => by simp [atBoot] at hp⟩
  · rintro s e t hstep - ⟨ts, hinv, hrestores⟩
    obtain ⟨hmachine, hrecord⟩ := traced_eq_next.mp hstep
    refine ⟨follow s.1 ts e, hinv.step hcode hmachine, ?_⟩
    rw [hrecord]
    exact hinv.restores_step hrestores hmachine

/-- What holds of the switches that are possible in state `m`, where `history` tells
what `intena` was. -/
structure SwitchesWell (code : KernelCode) (m : Machine P C) (history : History P) : Prop where
  switches : ∀ e m' c, step code m e = .next m' → (m'.cpu c).current ≠ (m.cpu c).current →
    AtSwitch m c ∧ AtSwitch m' c
  safe : ∀ e, (step code m e).Safe
  resumed : ∀ c left i q p intena rest m', (m.cpu c).current = .proc p →
    m.top c = .prog (.act (.restore intena)) :: rest → step code m (.run c left i q) = .next m' →
    (m'.cpu c).intena = history p

/-- The context-switch protocol of both kernels. -/
theorem context_switch (kernel : Kernel) (initproc : P) (m : Machine P C) (history : History P)
    (run : Reaches (traced (step (kernelCode kernel)) record)
      (boot C (kernelCode kernel) initproc, fun _ => false) (m, history)) :
    SwitchesWell (kernelCode kernel) m history := by
  obtain ⟨ts, hinv, hrestores⟩ := reaches_inv (disciplined_kernelCode kernel) run
  constructor
  case switches => exact fun e m' c hstep hmoved => hinv.switches hstep hmoved
  case safe => exact hinv.step_safe
  case resumed =>
    intro c left i q p intena rest m' hcurrent htop hstep
    obtain ⟨t', hnext, -⟩ := conforms_act.mp (htop ▸ hinv.fits c)
    obtain ⟨hctx, -⟩ : ts (m.cpu c).current = ⟨true, [.ptable], .resuming, false⟩ ∧
        ⟨true, [.ptable], .code, false⟩ = t' := by simpa [next] using hnext
    obtain ⟨rest', hrest⟩ := hrestores p (by rw [← hcurrent, hctx])
    have hsame : intena = history p := by
      rw [Machine.top, hcurrent, hrest] at htop
      simpa using (congrArg List.head? htop).symm
    simp only [step, htop, Machine.exec] at hstep
    obtain rfl := Outcome.next.inj hstep
    simpa using hsame

end Steps

/-- The thread on CPU `c` takes steps, so many of each kind, about process `q`. -/
def along (c : C) (q : P) (turns : List (ℕ × Bool × ℕ)) : List (Event P C) :=
  turns.flatMap fun (n, left, i) => List.replicate n (.run c left i q)

/-- A process starts on one CPU, yields in a timer interrupt, where `intena` is 0, and
is resumed on the other CPU, whose scheduler had interrupts on. -/
theorem context_switch_migrates : ∃ (m : Machine Unit Bool) (history : History Unit),
    ((m.cpu true).current = .proc () ∧ (m.cpu true).intena = true ∧ history () = false) ∧
      SwitchesWell (kernelCode .fcfs) m history := by
  have hrun : (Transition.exec (traced (step (kernelCode .fcfs)) record)
      (boot Bool (kernelCode .fcfs) (), fun _ => false)
      (along false () [(13, true, 0), (1, false, 0), (3, true, 0)] ++ [.interrupt false] ++
        along false () [(3, true, 0), (1, false, 0), (2, true, 0), (1, false, 0), (13, true, 0)] ++
        along true () [(10, true, 0)])).test
      (fun s => decide ((s.1.cpu true).current = .proc () ∧ (s.1.cpu true).intena = true ∧
        s.2 () = false)) = true := by
    decide +kernel
  obtain ⟨⟨m, history⟩, hreach, hcheck⟩ := reaches_of_test hrun
  exact ⟨m, history, of_decide_eq_true hcheck, context_switch .fcfs () m history hreach⟩

end Xv6.Switch
