import Xv6.Lib.Ledger
import Xv6.Proc.Fork

/-!
# Kernel stacks and page directories

Who holds which page: a slot its kernel stack, a live process its page
directory, a thread in `fork` the page directory of the child that is not yet
runnable, and a thread in `exec` the new page directory or the one it replaces.
The pages in use are a ledger of exclusive holders (`OwnInv`), and `cr3` of a CPU
always holds a page directory of the process it executes, or `kpgdir`
(`Cr3Inv`).  So a page is freed only by its one holder, and never while a CPU
uses it.
-/

namespace Xv6

open Transition Ledger

variable {C : Type} {kernel : Kernel} {s s' : State C} {a : Action C} {c : C} {p : Slot}

/-! ## Holders -/

inductive Holder
  | kstack (p : Slot)
  | pgdir (p : Slot)
  | child (p : Slot)
  | exec (p : Slot)
  deriving DecidableEq

def ProcState.live : ProcState → Bool
  | .unused | .embryo => false
  | _ => true

/-- The child at `pc` to which `copyuvm` has given an address space. -/
def Pc.copied : Pc → Option Slot
  | .forkRunnable np => some np
  | _ => none

/-- The page directory that a thread at `pc` in `exec` has not installed yet, or
has replaced. -/
def Pc.exec : Pc → Option Addr
  | .execLoad page => some page
  | .execSwitch oldpgdir => oldpgdir
  | .execFree oldpgdir => oldpgdir
  | _ => none

/-- Where a thread holds no page besides those of its slot. -/
def Pc.pageless : Pc → Bool
  | .user | .forkKalloc _ _ | .wait | .procstat _ _ | .exit => true
  | _ => false

def State.holds (s : State C) : Holder → Option Addr
  | .kstack p => (s.proc p).kstack
  | .pgdir p => if (s.proc p).state.live then (s.proc p).pgdir else none
  | .child p => (s.thread p).pc.copied.bind fun np => (s.proc np).pgdir
  | .exec p => (s.thread p).pc.exec

/-- The process whose address space the CPU has in `cr3`. -/
def Ctrl.on : Ctrl → Option Slot
  | .run p => some p
  | .back p => some p
  | _ => none

/-- `x` is the page directory of `p`, or the one that `exec` has just replaced. -/
def State.Loaded (s : State C) (p : Slot) (x : Addr) : Prop :=
  (s.proc p).pgdir = some x ∨ (s.thread p).pc = .execSwitch (some x)

structure OwnInv (s : State C) : Prop where
  exclusive : Exclusive s.holds s.used
  live : ∀ q, (s.proc q).state.live → (s.proc q).kstack ≠ none ∧ (s.proc q).pgdir ≠ none
  stacked : ∀ q np, (s.thread q).pc.child = some np → (s.thread q).pc.stacked →
    (s.proc np).kstack ≠ none
  copied : ∀ q np, (s.thread q).pc.copied = some np → (s.proc np).pgdir ≠ none
  old : ∀ q, (s.thread q).pc ≠ .execSwitch none ∧ (s.thread q).pc ≠ .execFree none

structure Cr3Inv (s : State C) : Prop where
  off : ∀ c, (s.cpu c).ctrl.on = none → (s.cpu c).cr3 = none
  on : ∀ c p, (s.cpu c).ctrl.on = some p → ∃ x, (s.cpu c).cr3 = some x ∧ s.Loaded p x

structure PageInv (s : State C) : Prop extends OwnInv s, Cr3Inv s

/-! ## Steps that hand no page around -/

/-- The pages of a slot before and after. -/
structure SamePages (q q' : Proc) : Prop where
  kstack : q'.kstack = q.kstack
  pgdir : q'.pgdir = q.pgdir
  live : q'.state.live = q.state.live

/-- A step by which no page changes hands. -/
structure PagesKept (s s' : State C) : Prop where
  proc : ∀ q, SamePages (s.proc q) (s'.proc q)
  pc : ∀ q, (s'.thread q).pc = (s.thread q).pc ∨
    (s.thread q).pc.pageless = true ∧ (s'.thread q).pc.pageless = true
  used : s'.used = s.used

namespace SamePages

theorem refl (q : Proc) : SamePages q q := ⟨rfl, rfl, rfl⟩

theorem of_wakes {q q' : Proc} (h : q.Wakes q') : SamePages q q' := by
  rcases h with rfl | ⟨hsleeping, rfl⟩
  · exact refl _
  · exact ⟨rfl, rfl, by rw [hsleeping]; rfl⟩

theorem trans {q q' q'' : Proc} (h : SamePages q q') (h' : SamePages q' q'') : SamePages q q'' :=
  ⟨h'.kstack.trans h.kstack, h'.pgdir.trans h.pgdir, h'.live.trans h.live⟩

theorem of_slot {table table' : Ptable} (hself : SamePages (table p) (table' p))
    (hother : ∀ q, q ≠ p → table' q = table q) (q : Slot) : SamePages (table q) (table' q) := by
  by_cases hq : q = p
  · subst hq
    exact hself
  · rw [hother q hq]
    exact refl _

end SamePages

theorem Pc.copied_eq_none {pc : Pc} (h : pc.pageless = true) : pc.copied = none := by
  cases pc <;> simp_all [Pc.pageless, Pc.copied]

theorem Pc.exec_eq_none {pc : Pc} (h : pc.pageless = true) : pc.exec = none := by
  cases pc <;> simp_all [Pc.pageless, Pc.exec]

theorem Pc.not_stacked {pc : Pc} (h : pc.pageless = true) : ¬ pc.stacked := by
  cases pc <;> simp_all [Pc.pageless, Pc.stacked]

theorem Pc.child_of_copied {pc : Pc} {np : Slot} (h : pc.copied = some np) :
    pc.child = some np ∧ pc.stacked := by
  cases pc <;> simp_all [Pc.copied, Pc.child, Pc.stacked]

theorem Ctrl.on_eq_some_iff {ctrl : Ctrl} : ctrl.on = some p ↔ ctrl = .run p ∨ ctrl = .back p := by
  cases ctrl <;> simp [Ctrl.on]

namespace PagesKept

theorem holds (h : PagesKept s s') (e : Holder) (x : Addr) (hx : s'.holds e = some x) :
    s.holds e = some x := by
  cases e with
  | kstack q => exact (h.proc q).kstack.symm.trans hx
  | pgdir q =>
      unfold State.holds at hx ⊢
      dsimp only at hx ⊢
      rwa [(h.proc q).live, (h.proc q).pgdir] at hx
  | child q =>
      unfold State.holds at hx ⊢
      dsimp only at hx ⊢
      rcases h.pc q with hpc | ⟨-, hpageless⟩
      · rw [hpc] at hx
        obtain ⟨np, hnp, hpgdir⟩ := Option.bind_eq_some_iff.mp hx
        rw [hnp, Option.bind_some, ← (h.proc np).pgdir, hpgdir]
      · simp [Pc.copied_eq_none hpageless] at hx
  | exec q =>
      unfold State.holds at hx ⊢
      dsimp only at hx ⊢
      rcases h.pc q with hpc | ⟨-, hpageless⟩
      · rwa [hpc] at hx
      · simp [Pc.exec_eq_none hpageless] at hx

theorem own (h : PagesKept s s') (hinv : OwnInv s) : OwnInv s' where
  exclusive := by
    rw [h.used]
    exact hinv.exclusive.mono h.holds
  live q hq := by
    rw [(h.proc q).kstack, (h.proc q).pgdir]
    exact hinv.live q ((h.proc q).live ▸ hq)
  stacked q np hq hstacked := by
    rw [(h.proc np).kstack]
    rcases h.pc q with hpc | ⟨-, hpageless⟩
    · exact hinv.stacked q np (hpc ▸ hq) (hpc ▸ hstacked)
    · exact absurd hstacked (Pc.not_stacked hpageless)
  copied q np hq := by
    rw [(h.proc np).pgdir]
    rcases h.pc q with hpc | ⟨-, hpageless⟩
    · exact hinv.copied q np (hpc ▸ hq)
    · simp [Pc.copied_eq_none hpageless] at hq
  old q := by
    rcases h.pc q with hpc | ⟨-, hpageless⟩
    · rw [hpc]
      exact hinv.old q
    · constructor <;> intro heq <;> simp [heq, Pc.pageless] at hpageless

theorem loaded (h : PagesKept s s') {x : Addr} (hx : s.Loaded p x) : s'.Loaded p x := by
  rcases hx with hx | hx
  · exact Or.inl ((h.proc p).pgdir.trans hx)
  · rcases h.pc p with hpc | ⟨hpageless, -⟩
    · exact Or.inr (hpc.trans hx)
    · simp [hx, Pc.pageless] at hpageless

end PagesKept

/-- A step after which every CPU has the address space in `cr3` that it had. -/
theorem Cr3Inv.frame (h : Cr3Inv s) (hon : ∀ c, (s'.cpu c).ctrl.on = (s.cpu c).ctrl.on)
    (hcr3 : ∀ c, (s'.cpu c).cr3 = (s.cpu c).cr3)
    (hloaded : ∀ c p x, (s.cpu c).ctrl.on = some p → s.Loaded p x → s'.Loaded p x) : Cr3Inv s' where
  off c hc := (hcr3 c).trans (h.off c ((hon c) ▸ hc))
  on c p hc := by
    have hbefore := (hon c) ▸ hc
    obtain ⟨x, hx, hp⟩ := h.on c p hbefore
    exact ⟨x, (hcr3 c).trans hx, hloaded c p x hbefore hp⟩

/-- A step that loads one `cr3`. -/
theorem Cr3Inv.load [DecidableEq C] (h : Cr3Inv s) {cpu : Cpu}
    (hcpu : s'.cpu = Function.update s.cpu c cpu)
    (hoff : cpu.ctrl.on = none → cpu.cr3 = none)
    (hon : ∀ p, cpu.ctrl.on = some p → ∃ x, cpu.cr3 = some x ∧ (s'.proc p).pgdir = some x)
    (hloaded : ∀ c' p x, c' ≠ c → (s.cpu c').ctrl.on = some p → s.Loaded p x → s'.Loaded p x) :
    Cr3Inv s' where
  off c' hc' := by
    rw [hcpu, Function.update_apply] at hc' ⊢
    by_cases hc : c' = c
    · rw [if_pos hc] at hc' ⊢
      exact hoff hc'
    · rw [if_neg hc] at hc' ⊢
      exact h.off c' hc'
  on c' p hc' := by
    rw [hcpu, Function.update_apply] at hc' ⊢
    by_cases hc : c' = c
    · rw [if_pos hc] at hc' ⊢
      obtain ⟨x, hx, hp⟩ := hon p hc'
      exact ⟨x, hx, Or.inl hp⟩
    · rw [if_neg hc] at hc' ⊢
      obtain ⟨x, hx, hp⟩ := h.on c' p hc'
      exact ⟨x, hx, hloaded c' p x hc hc' hp⟩

theorem PageInv.kept (h : PageInv s) (hkept : PagesKept s s')
    (hon : ∀ c, (s'.cpu c).ctrl.on = (s.cpu c).ctrl.on)
    (hcr3 : ∀ c, (s'.cpu c).cr3 = (s.cpu c).cr3) : PageInv s' :=
  ⟨hkept.own h.toOwnInv, h.toCr3Inv.frame hon hcr3 fun _ _ _ _ hx => hkept.loaded hx⟩

/-- As `kept`, for a step after which CPU `c` executes something else for the
same process, or still executes none. -/
theorem PageInv.kept_cpu [DecidableEq C] (h : PageInv s) (hkept : PagesKept s s') {cpu : Cpu}
    (hcpu : s'.cpu = Function.update s.cpu c cpu) (hon : cpu.ctrl.on = (s.cpu c).ctrl.on)
    (hcr3 : cpu.cr3 = (s.cpu c).cr3) : PageInv s' := by
  refine h.kept hkept (fun c' => ?_) fun c' => ?_
  · rw [hcpu]
    exact update_field (fun cpu : Cpu => cpu.ctrl.on) hon c'
  · rw [hcpu]
    exact update_field Cpu.cr3 hcr3 c'

theorem PagesKept.of_thread (hproc : ∀ q, SamePages (s.proc q) (s'.proc q))
    (hthread : ∀ q, q ≠ p → s'.thread q = s.thread q)
    (hpc : (s'.thread p).pc = (s.thread p).pc ∨
      (s.thread p).pc.pageless = true ∧ (s'.thread p).pc.pageless = true)
    (hused : s'.used = s.used) : PagesKept s s' where
  proc := hproc
  pc q := by
    by_cases hq : q = p
    · subst hq
      exact hpc
    · exact Or.inl (by rw [hthread q hq])
  used := hused

/-! ## Steps that do -/

section Steps

variable [DecidableEq C]

theorem exitTable_samePages {table : Ptable} {ticks : BitVec 32}
    (hrunning : (table p).state = .running) (q : Slot) :
    SamePages (table q) (exitTable p ticks table q) := by
  by_cases hq : q = p
  · subst hq
    obtain ⟨x, hx, hself⟩ := exitTable_self q ticks table
    have hsame := SamePages.of_wakes hx
    rw [hself]
    exact ⟨hsame.kstack, hsame.pgdir, by rw [hrunning]; rfl⟩
  · obtain ⟨x, hx, hother⟩ := exitTable_of_ne ticks table hq
    have hsame := SamePages.of_wakes hx
    rw [hother]
    exact ⟨hsame.kstack, hsame.pgdir, hsame.live⟩

theorem kill_samePages (pid : ℤ) (table : Ptable) (q : Slot) :
    SamePages (table q) ((kill pid table).1 q) := by
  rcases kill_apply pid table q with hq | ⟨-, hq⟩
  · rw [hq]
    exact .refl _
  · rw [hq]
    refine ⟨rfl, rfl, ?_⟩
    by_cases hsleeping : (table q).state = .sleeping <;> simp [Proc.kill, hsleeping, ProcState.live]

theorem psTable_samePages (ticks : BitVec 32) (table : Ptable) (q : Slot) :
    SamePages (table q) (psTable ticks table q) := by
  unfold psTable
  split
  · exact .refl _
  · exact ⟨rfl, rfl, rfl⟩

omit [DecidableEq C] in
theorem Entry.pagesKept {request : Pc} {scanning : State C}
    (h : Entry s c p request a scanning) : PagesKept s scanning := by
  refine .of_thread (p := p) (fun q => ?_) (fun q hq => h.thread_of_ne hq) ?_ h.used
  · by_cases hq : q = p
    · subst hq
      rcases h.proc_self with hself | hself <;> rw [hself]
      · exact .refl _
      · exact ⟨rfl, rfl, rfl⟩
    · rw [h.proc_of_ne hq]
      exact .refl _
  · rw [h.pc_eq]
    have hpageless : request.pageless = true := by
      have hwaiting := h.waiting
      cases request <;> simp_all [Pc.waiting, Pc.pageless]
    cases h with
    | call _ _ _ _ hpc _ => exact Or.inr ⟨by simp [hpc, Pc.pageless], hpageless⟩
    | woken _ _ hpc _ => exact Or.inl hpc.symm

omit [DecidableEq C] in
theorem State.Loaded.of_eq {x : Addr} (hx : s.Loaded p x)
    (hpgdir : (s'.proc p).pgdir = (s.proc p).pgdir)
    (hpc : (s'.thread p).pc = (s.thread p).pc ∨
      ∀ oldpgdir, (s.thread p).pc ≠ .execSwitch oldpgdir) :
    s'.Loaded p x := by
  rcases hx with hx | hx
  · exact Or.inl (hpgdir.trans hx)
  · rcases hpc with hpc | hpc
    · exact Or.inr (hpc.trans hx)
    · exact absurd hx (hpc _)

omit [DecidableEq C] in
/-- A process on a CPU is not a child under construction. -/
theorem Inv.ne_child_of_on (h : Inv s) {q np : Slot} (hon : (s.cpu c).ctrl.on = some q)
    (hchild : (s.thread p).pc.child = some np) : q ≠ np := by
  have hembryo := h.embryo p np hchild
  rintro rfl
  rcases Ctrl.on_eq_some_iff.mp hon with hctrl | hctrl
  · simpa [hembryo] using (h.run c q hctrl).2
  · exact h.ne_back_of_embryo hembryo hctrl

omit [DecidableEq C] in
theorem Inv.off_of_child (h : Inv s) {np : Slot} (hchild : (s.thread p).pc.child = some np)
    (c : C) : (s.cpu c).ctrl.on ≠ some np :=
  fun hon => h.ne_child_of_on hon hchild rfl

omit [DecidableEq C] in
theorem Inv.ne_child_of_builder (h : Inv s) {np : Slot} (hchild : (s.thread p).pc.child = some np)
    (q : Slot) (hq : q ≠ p) : (s.thread q).pc.child ≠ some np :=
  fun hq' => hq (h.builder q p np hq' hchild)

omit [DecidableEq C] in
theorem Inv.ne_child_of_running (h : Inv s) (hrunning : (s.proc p).state = .running) (q : Slot)
    (_ : q ≠ p) : (s.thread q).pc.child ≠ some p := by
  intro hchild
  simp [h.embryo q p hchild] at hrunning

omit [DecidableEq C] in
/-- No other CPU is on its way back from a running process. -/
theorem Inv.unique_of_on (h : Inv s) {c c' : C} (hon : (s.cpu c').ctrl.on = some p)
    (hctrl : (s.cpu c).ctrl = .run p) : c' = c := by
  rcases Ctrl.on_eq_some_iff.mp hon with hctrl' | hctrl'
  · exact h.unique c' c p hctrl' hctrl
  · have hrunning := (h.run c p hctrl).2
    have hstate := (h.back c' p hctrl').2.2
    simp [hrunning, ProcState.suspended] at hstate

/-- A step of the thread of `p` that touches the pages of slot `n` only. -/
structure OneSlot (s s' : State C) (p n : Slot) : Prop where
  proc : ∀ q, q ≠ n → s'.proc q = s.proc q
  thread : ∀ q, q ≠ p → s'.thread q = s.thread q ∨ q = n ∧ (s'.thread q).pc.pageless = true
  child : ∀ q, q ≠ p → (s.thread q).pc.child ≠ some n

namespace OneSlot

variable {n : Slot}

omit [DecidableEq C] in
/-- Only four holders can get a page by such a step. -/
theorem holds (h : OneSlot s s' p n) {e : Holder} {x : Addr} (hx : s'.holds e = some x) :
    s.holds e = some x ∨ e = .kstack n ∨ e = .pgdir n ∨ e = .child p ∨ e = .exec p := by
  cases e with
  | kstack q =>
      by_cases hq : q = n
      · simp [hq]
      · exact Or.inl (by simpa [State.holds, h.proc q hq] using hx)
  | pgdir q =>
      by_cases hq : q = n
      · simp [hq]
      · exact Or.inl (by simpa [State.holds, h.proc q hq] using hx)
  | child q =>
      by_cases hq : q = p
      · simp [hq]
      · refine Or.inl ?_
        rcases h.thread q hq with hthread | ⟨-, hpageless⟩
        · obtain ⟨np, hnp, hpgdir⟩ := Option.bind_eq_some_iff.mp hx
          rw [hthread] at hnp
          have hne : np ≠ n := by
            rintro rfl
            exact h.child q hq (Pc.child_of_copied hnp).1
          exact Option.bind_eq_some_iff.mpr ⟨np, hnp, h.proc np hne ▸ hpgdir⟩
        · simp [State.holds, Pc.copied_eq_none hpageless] at hx
  | exec q =>
      by_cases hq : q = p
      · simp [hq]
      · refine Or.inl ?_
        rcases h.thread q hq with hthread | ⟨-, hpageless⟩
        · simpa [State.holds, hthread] using hx
        · simp [State.holds, Pc.exec_eq_none hpageless] at hx

omit [DecidableEq C] in
theorem own (h : OneSlot s s' p n) (hinv : OwnInv s) (hexclusive : Exclusive s'.holds s'.used)
    (hlive : (s'.proc n).state.live → (s'.proc n).kstack ≠ none ∧ (s'.proc n).pgdir ≠ none)
    (hchild : (s'.thread p).pc.child = none ∨
      (s'.thread p).pc.child = some n ∧ (s'.proc n).kstack ≠ none ∧
        ((s'.thread p).pc.copied = some n → (s'.proc n).pgdir ≠ none))
    (hold : (s'.thread p).pc ≠ .execSwitch none ∧ (s'.thread p).pc ≠ .execFree none) :
    OwnInv s' := by
  constructor
  case exclusive => exact hexclusive
  case live =>
    intro q hq
    by_cases hqn : q = n
    · subst hqn
      exact hlive hq
    · rw [h.proc q hqn] at hq ⊢
      exact hinv.live q hq
  case stacked =>
    intro q np hq hstacked
    by_cases hqp : q = p
    · subst hqp
      rcases hchild with hchild | ⟨hchild, hkstack, -⟩
      · simp [hchild] at hq
      · obtain rfl : n = np := by simpa [hchild] using hq
        exact hkstack
    · rcases h.thread q hqp with hthread | ⟨-, hpageless⟩
      · rw [hthread] at hq hstacked
        have hne : np ≠ n := by
          rintro rfl
          exact h.child q hqp hq
        rw [h.proc np hne]
        exact hinv.stacked q np hq hstacked
      · exact absurd hstacked (Pc.not_stacked hpageless)
  case copied =>
    intro q np hq
    by_cases hqp : q = p
    · subst hqp
      have hq' := (Pc.child_of_copied hq).1
      rcases hchild with hchild | ⟨hchild, -, hcopied⟩
      · simp [hchild] at hq'
      · obtain rfl : n = np := by simpa [hchild] using hq'
        exact hcopied hq
    · rcases h.thread q hqp with hthread | ⟨-, hpageless⟩
      · rw [hthread] at hq
        have hne : np ≠ n := by
          rintro rfl
          exact h.child q hqp (Pc.child_of_copied hq).1
        rw [h.proc np hne]
        exact hinv.copied q np hq
      · simp [Pc.copied_eq_none hpageless] at hq
  case old =>
    intro q
    by_cases hqp : q = p
    · subst hqp
      exact hold
    · rcases h.thread q hqp with hthread | ⟨-, hpageless⟩
      · rw [hthread]
        exact hinv.old q
      · constructor <;> intro heq <;> simp [heq, Pc.pageless] at hpageless

omit [DecidableEq C] in
theorem cr3 (h : OneSlot s s' p n) (hinv : Cr3Inv s) (hcpu : s'.cpu = s.cpu)
    (hpc : ∀ oldpgdir, (s.thread p).pc ≠ .execSwitch oldpgdir)
    (hn : (∀ c, (s.cpu c).ctrl.on ≠ some n) ∨
      (s'.proc n).pgdir = (s.proc n).pgdir ∧ (n = p ∨ s'.thread n = s.thread n)) :
    Cr3Inv s' := by
  refine hinv.frame (fun c => by rw [hcpu]) (fun c => by rw [hcpu]) fun c q x hon hx => ?_
  by_cases hq : q = n
  · subst hq
    rcases hn with hn | ⟨hpgdir, hthread⟩
    · exact absurd hon (hn c)
    · refine hx.of_eq hpgdir ?_
      rcases hthread with rfl | hthread
      · exact Or.inr hpc
      · exact Or.inl (by rw [hthread])
  · refine hx.of_eq (by rw [h.proc q hq]) ?_
    by_cases hqp : q = p
    · subst hqp
      exact Or.inr hpc
    · rcases h.thread q hqp with hthread | ⟨hqn, -⟩
      · exact Or.inl (by rw [hthread])
      · exact absurd hqn hq

end OneSlot

theorem PageInv.round (h : PageInv s) (hinv : Inv s) {request : Pc} {scanning : State C}
    (hentry : Entry s c p request a scanning)
    (hround : Round kernel scanning c p request s') : PageInv s' := by
  have hpageless : request.pageless = true := by
    have hwaiting := hentry.waiting
    cases request <;> simp_all [Pc.waiting, Pc.pageless]
  have hctrl := hentry.ctrl
  have hscanning : (scanning.proc p).state = .running :=
    (hentry.state_eq p).trans (hinv.run c p hctrl).2
  have hpages : PageInv scanning :=
    h.kept (hentry.pagesKept) (fun _ => by rw [hentry.cpu]) fun _ => by rw [hentry.cpu]
  cases hround with
  | reaped z kstack pgdir hfinds hkstack hpgdir hlock =>
      have hz : z ≠ p := finds_ne hfinds hscanning
      have hzombie := (finds_spec hfinds).2
      have hzombie' : (s.proc z).state = .zombie := (hentry.state_eq z) ▸ hzombie
      have hanswered : ((answered kernel request (scanning.proc z) (scanning.thread p)).pc) =
          .user := by
        cases request <;> rfl
      have hslot : OneSlot scanning ({ scanning.setProc z Proc.reaped with
          used := (scanning.used.erase kstack).erase pgdir
          lock := none }.setThread p (answered kernel request (scanning.proc z))) p z := by
        refine ⟨by simp +contextual, by simp +contextual, fun q hq hchild => ?_⟩
        rw [hentry.thread_of_ne hq] at hchild
        simp [hinv.embryo q z hchild] at hzombie'
      have hheld : scanning.holds (.kstack z) = some kstack := hkstack
      have hheld' : scanning.holds (.pgdir z) = some pgdir := by
        simp [State.holds, hzombie, hpgdir, ProcState.live]
      refine ⟨hslot.own hpages.toOwnInv ?_ (by simp [Proc.reaped, ProcState.live]) ?_ ?_,
        hslot.cr3 hpages.toCr3Inv rfl ?_ (Or.inl ?_)⟩
      · -- the stack is freed first, then the page directory
        have hfreed : Exclusive (Function.update scanning.holds (.kstack z) none)
            (scanning.used.erase kstack) :=
          hpages.exclusive.drop hheld (by simp) fun e x he hx => by simpa [he] using hx
        refine hfreed.drop (e := .pgdir z) (by simpa using hheld')
          (by simp [State.holds, Proc.reaped, ProcState.live]) fun e x he hx => ?_
        have hkstack' : e ≠ .kstack z := by
          rintro rfl
          simp [State.holds, Proc.reaped] at hx
        rw [Function.update_of_ne hkstack']
        rcases hslot.holds hx with hx' | rfl | rfl | rfl | rfl
        · exact hx'
        · exact absurd rfl hkstack'
        · exact absurd rfl he
        · simp [State.holds, hanswered, Pc.copied] at hx
        · simp [State.holds, hanswered, Pc.exec] at hx
      · simp [hanswered, Pc.child]
      · simp [hanswered]
      · intro oldpgdir
        rw [hentry.pc_eq]
        rintro rfl
        simp [Pc.pageless] at hpageless
      · intro c' hon
        rw [hentry.cpu] at hon
        rcases Ctrl.on_eq_some_iff.mp hon with hctrl' | hctrl'
        · simp [(hinv.run c' z hctrl').2] at hzombie'
        · exact hinv.ne_back_of_free hctrl (hentry.free hlock) c' z hctrl'
  | gaveUp hfinds hcannot hlock =>
      refine hpages.kept (.of_thread (p := p) (SamePages.of_slot (p := p) ?_ (by simp +contextual))
        (by simp +contextual) (Or.inr ⟨by rw [hentry.pc_eq, hpageless], by simp [Pc.pageless]⟩) rfl)
        (fun _ => rfl) fun _ => rfl
      constructor <;> simp
  | slept hfinds hkids hkilled hlock =>
      refine hpages.kept_cpu (.of_thread (p := p)
        (SamePages.of_slot (p := p) ?_ (by simp +contextual)) (by simp +contextual)
          (Or.inl (by simp)) rfl) rfl (by rw [hentry.cpu, hctrl]; rfl) rfl
      constructor <;> simp [hscanning, ProcState.live]

theorem PageInv.step (h : PageInv s) (hinv : Inv s) (hstep : Step kernel s a s') : PageInv s' := by
  cases hstep with
  | startPass c hctrl hlock =>
      exact h.kept_cpu ⟨fun q => .refl _, fun q => Or.inl rfl, rfl⟩ rfl (by rw [hctrl]; rfl) rfl
  | endPass c first hctrl hchoose hlock =>
      exact h.kept_cpu ⟨fun q => .refl _, fun q => Or.inl rfl, rfl⟩ rfl (by rw [hctrl]; rfl) rfl
  | dispatch c first p pgdir hctrl hchoose hkstack hpgdir =>
      have hkept : PagesKept s ((s.setCpu c
          { ctrl := .run p, proc := some p, cr3 := some pgdir }).setProc p
            fun q => { q with state := .running }) := by
        refine ⟨SamePages.of_slot (p := p) ?_ (by simp +contextual), fun q => Or.inl rfl, rfl⟩
        constructor <;> simp [choose_runnable hchoose, ProcState.live]
      refine ⟨hkept.own h.toOwnInv, h.toCr3Inv.load rfl (by simp [Ctrl.on]) ?_
        fun _ _ _ _ _ hx => hkept.loaded hx⟩
      -- `switchuvm` has loaded the page directory of the process it switches to
      intro p' hp'
      obtain rfl : p = p' := by simpa [Ctrl.on] using hp'
      exact ⟨pgdir, rfl, by simp [hpgdir]⟩
  | backFcfs c p hkernel hctrl hlock =>
      have hkept : PagesKept s ({ s with lock := none }.setCpu c
          { ctrl := .idle, proc := none, cr3 := none }) :=
        ⟨fun q => .refl _, fun q => Or.inl rfl, rfl⟩
      exact ⟨hkept.own h.toOwnInv, h.toCr3Inv.load rfl (fun _ => rfl) (by simp [Ctrl.on])
        fun _ _ _ _ _ hx => hkept.loaded hx⟩
  | backPriority c p hkernel hctrl =>
      have hkept : PagesKept s (s.setCpu c
          { ctrl := .scan (p + 1), proc := none, cr3 := none }) :=
        ⟨fun q => .refl _, fun q => Or.inl rfl, rfl⟩
      exact ⟨hkept.own h.toOwnInv, h.toCr3Inv.load rfl (fun _ => rfl) (by simp [Ctrl.on])
        fun _ _ _ _ _ hx => hkept.loaded hx⟩
  | resume c p hctrl hresume hlock =>
      refine h.kept (.of_thread (p := p) (fun q => .refl _) ?_ (Or.inl (by simp)) rfl)
        (fun _ => rfl) fun _ => rfl
      intro q hq
      simp [hq]
  | resumeSleep c p hctrl hresume hpc hlock =>
      refine h.kept (.of_thread (p := p) (SamePages.of_slot (p := p) ?_ (by simp +contextual))
        (by simp +contextual) (Or.inl (by simp)) rfl)
        (fun _ => rfl) fun _ => rfl
      constructor <;> simp
  | round a c p request scanning s' hentry hround =>
      exact h.round hinv hentry hround
  | yield c p hctrl hresume hlock =>
      have hrunning := (hinv.run c p hctrl).2
      refine h.kept_cpu (.of_thread (p := p) (SamePages.of_slot (p := p) ?_ (by simp +contextual))
        (by simp +contextual) (Or.inl (by simp)) rfl)
        rfl (by rw [hctrl]; rfl) rfl
      constructor <;> simp [hrunning, ProcState.live]
  | sleep c p address hctrl hresume hpc hlock =>
      have hrunning := (hinv.run c p hctrl).2
      refine h.kept_cpu (.of_thread (p := p) (SamePages.of_slot (p := p) ?_ (by simp +contextual))
        (by simp +contextual) (Or.inl (by simp)) rfl)
        rfl (by rw [hctrl]; rfl) rfl
      constructor <;> simp [hrunning, ProcState.live]
  | zombie c p hctrl hresume hpc hlock =>
      have hrunning := (hinv.run c p hctrl).2
      refine h.kept_cpu
        (.of_thread (p := p) (exitTable_samePages hrunning) ?_ (Or.inl (by simp)) rfl)
        rfl (by rw [hctrl]; rfl) rfl
      intro q hq
      simp [hq]
  | wakeup c address henabled hlock =>
      exact h.kept ⟨fun q => .of_wakes (wakeup1_wakes _ _ q), fun q => Or.inl rfl, rfl⟩
        (fun _ => rfl) fun _ => rfl
  | tick => exact h.kept ⟨fun q => .refl _, fun q => Or.inl rfl, rfl⟩ (fun _ => rfl) fun _ => rfl
  | kill c p pid hctrl hresume hpc hlock =>
      refine h.kept
        (.of_thread (p := p) (kill_samePages pid s.proc) ?_ (Or.inl (by simp [hpc])) rfl)
        (fun _ => rfl) fun _ => rfl
      intro q hq
      simp [hq]
  | forkFull c p priority hkernel hctrl hresume hpc hlock hunused =>
      refine h.kept (.of_thread (p := p) (fun q => .refl _) ?_ (Or.inl (by simp [hpc])) rfl)
        (fun _ => rfl) fun _ => rfl
      intro q hq
      simp [hq]
  | fork c p np priority hkernel hctrl hresume hpc hlock hunused =>
      have hnp : (s.proc np).state = .unused := (find?_slots_eq_some_iff.mp hunused).1
      refine h.kept (.of_thread (p := p) (SamePages.of_slot (p := np) ?_ (by simp +contextual))
        (by simp +contextual) (Or.inr (by simp [hpc, Pc.pageless])) rfl) (fun _ => rfl) fun _ => rfl
      constructor <;> simp [allocated, hnp, ProcState.live]
  | kallocFail c p np priority hctrl hresume hpc =>
      have hchild : (s.thread p).pc.child = some np := by simp [hpc, Pc.child]
      have hslot : OneSlot s ((s.setProc np
          fun q => { q with kstack := none, state := .unused }).ret p (-1)) p np :=
        ⟨by simp +contextual, by simp +contextual, hinv.ne_child_of_builder hchild⟩
      refine ⟨hslot.own h.toOwnInv (h.exclusive.mono fun e x hx => ?_)
        (by simp [ProcState.live]) (Or.inl (by simp [Pc.child])) (by simp),
        hslot.cr3 h.toCr3Inv rfl (by simp [hpc]) (Or.inl (hinv.off_of_child hchild))⟩
      -- the slot had no page yet, and has none now
      rcases hslot.holds hx with hx' | rfl | rfl | rfl | rfl
      · exact hx'
      · simp [State.holds] at hx
      · simp [State.holds, ProcState.live] at hx
      · simp [State.holds, Pc.copied] at hx
      · simp [State.holds, Pc.exec] at hx
  | kalloc c p np priority kstack hctrl hresume hpc hfresh =>
      have hchild : (s.thread p).pc.child = some np := by simp [hpc, Pc.child]
      have hne : p ≠ np := hinv.ne_child (hinv.run c p hctrl).2 hchild
      have hembryo := hinv.embryo p np hchild
      have hslot : OneSlot s ((({ s with used := kstack :: s.used }.setProc np
          fun q => { q with kstack := some kstack }).setThread np fun _ => ({} : Thread)).goto p
            (.forkCopyuvm np priority)) p np := by
        refine ⟨by simp +contextual, fun q hq => ?_, hinv.ne_child_of_builder hchild⟩
        by_cases hqnp : q = np
        · exact Or.inr ⟨hqnp, by simp [hqnp, hne.symm, Pc.pageless]⟩
        · exact Or.inl (by simp [hq, hqnp])
      refine ⟨hslot.own h.toOwnInv (h.exclusive.gain hfresh (.kstack np) ?_ fun e x he hx => ?_)
        (by simp [hembryo, ProcState.live]) (Or.inr ?_) (by simp),
        hslot.cr3 h.toCr3Inv rfl (by simp [hpc]) (Or.inl (hinv.off_of_child hchild))⟩
      · simp [State.holds, eq_comm]
      · rcases hslot.holds hx with hx' | rfl | rfl | rfl | rfl
        · exact hx'
        · exact absurd rfl he
        · simp [State.holds, hembryo, ProcState.live] at hx
        · simp [State.holds, Pc.copied] at hx
        · simp [State.holds, Pc.exec] at hx
      · simp [Pc.child, Pc.copied]
  | copyuvmFail c p np priority kstack hctrl hresume hpc hkstack =>
      have hchild : (s.thread p).pc.child = some np := by simp [hpc, Pc.child]
      have hslot : OneSlot s (({ s with used := s.used.erase kstack }.setProc np
          fun q => { q with pgdir := none, kstack := none, state := .unused }).ret p (-1)) p np :=
        ⟨by simp +contextual, by simp +contextual, hinv.ne_child_of_builder hchild⟩
      have hheld : s.holds (.kstack np) = some kstack := hkstack
      refine ⟨hslot.own h.toOwnInv (h.exclusive.drop hheld ?_ fun e x he hx => ?_)
        (by simp [ProcState.live]) (Or.inl (by simp [Pc.child])) (by simp),
        hslot.cr3 h.toCr3Inv rfl (by simp [hpc]) (Or.inl (hinv.off_of_child hchild))⟩
      · simp [State.holds]
      · rcases hslot.holds hx with hx' | rfl | rfl | rfl | rfl
        · exact hx'
        · exact absurd rfl he
        · simp [State.holds, ProcState.live] at hx
        · simp [State.holds, Pc.copied] at hx
        · simp [State.holds, Pc.exec] at hx
  | copyuvm c p np priority pgdir hctrl hresume hpc hfresh =>
      have hchild : (s.thread p).pc.child = some np := by simp [hpc, Pc.child]
      have hembryo := hinv.embryo p np hchild
      have hstacked := h.stacked p np hchild (by simp [hpc, Pc.stacked])
      have hslot : OneSlot s (({ s with used := pgdir :: s.used }.setProc np
          (inherit p pgdir priority)).goto p (.forkRunnable np)) p np :=
        ⟨by simp +contextual, by simp +contextual, hinv.ne_child_of_builder hchild⟩
      refine ⟨hslot.own h.toOwnInv (h.exclusive.gain hfresh (.child p) ?_ fun e x he hx => ?_)
        (by simp [inherit, hembryo, ProcState.live]) (Or.inr ?_) (by simp),
        hslot.cr3 h.toCr3Inv rfl (by simp [hpc]) (Or.inl (hinv.off_of_child hchild))⟩
      · simp [State.holds, Pc.copied, inherit, eq_comm]
      · rcases hslot.holds hx with hx' | rfl | rfl | rfl | rfl
        · exact hx'
        · simpa [State.holds, inherit] using hx
        · simp [State.holds, inherit, hembryo, ProcState.live] at hx
        · exact absurd rfl he
        · simp [State.holds, Pc.exec] at hx
      · simp [Pc.child, inherit, hstacked]
  | runnable c p np hctrl hresume hpc hlock =>
      have hchild : (s.thread p).pc.child = some np := by simp [hpc, Pc.child]
      have hstacked := h.stacked p np hchild (by simp [hpc, Pc.stacked])
      have hcopied := h.copied p np (by simp [hpc, Pc.copied])
      have hslot : OneSlot s (({ s with lock := none }.setProc np
          fun q => { q with state := .runnable }).ret p (s.proc np).pid) p np :=
        ⟨by simp +contextual, by simp +contextual, hinv.ne_child_of_builder hchild⟩
      refine ⟨hslot.own h.toOwnInv ?_ (by simp [hstacked, hcopied]) (Or.inl (by simp [Pc.child]))
        (by simp), hslot.cr3 h.toCr3Inv rfl (by simp [hpc]) (Or.inl (hinv.off_of_child hchild))⟩
      -- the page directory passes from the parent to the child
      refine h.exclusive.map (Equiv.swap (.child p) (.pgdir np)) (Equiv.injective _)
        fun e x hx => ?_
      have hembryo := hinv.embryo p np hchild
      have he : e ≠ .child p := by
        rintro rfl
        simp [State.holds, Pc.copied] at hx
      by_cases hpgdir : e = .pgdir np
      · subst hpgdir
        rw [Equiv.swap_apply_right]
        simpa [State.holds, hpc, Pc.copied, ProcState.live] using hx
      · rw [Equiv.swap_apply_of_ne_of_ne he hpgdir]
        rcases hslot.holds hx with hx' | rfl | rfl | rfl | rfl
        · exact hx'
        · simpa [State.holds] using hx
        · exact absurd rfl hpgdir
        · exact absurd rfl he
        · simp [State.holds, Pc.exec] at hx
  | exit c p hctrl hresume hpc hinit =>
      refine h.kept (.of_thread (p := p) (fun q => .refl _) ?_
        (Or.inr (by simp [hpc, Pc.pageless])) rfl) (fun _ => rfl) fun _ => rfl
      intro q hq
      simp [hq]
  | ps c p hctrl hresume hpc hlock =>
      refine h.kept (.of_thread (p := p) (psTable_samePages s.ticks s.proc) ?_
        (Or.inl (by simp [hpc])) rfl) (fun _ => rfl) fun _ => rfl
      intro q hq
      simp [hq]
  | exec c p page hctrl hresume hpc hfresh =>
      have hrunning := (hinv.run c p hctrl).2
      have hslot : OneSlot s ({ s with used := page :: s.used }.goto p (.execLoad page)) p p :=
        ⟨fun _ _ => rfl, by simp +contextual, hinv.ne_child_of_running hrunning⟩
      refine ⟨hslot.own h.toOwnInv (h.exclusive.gain hfresh (.exec p) ?_ fun e x he hx => ?_)
        (h.live p) (Or.inl (by simp [Pc.child])) (by simp),
        hslot.cr3 h.toCr3Inv rfl (by simp [hpc]) (Or.inr ⟨rfl, Or.inl rfl⟩)⟩
      · simp [State.holds, Pc.exec, eq_comm]
      · rcases hslot.holds hx with hx' | rfl | rfl | rfl | rfl
        · exact hx'
        · exact hx
        · exact hx
        · simp [State.holds, Pc.copied] at hx
        · exact absurd rfl he
  | execBad c p page hctrl hresume hpc =>
      have hrunning := (hinv.run c p hctrl).2
      have hslot : OneSlot s ({ s with used := s.used.erase page }.ret p (-1)) p p :=
        ⟨fun _ _ => rfl, by simp +contextual, hinv.ne_child_of_running hrunning⟩
      have hheld : s.holds (.exec p) = some page := by simp [State.holds, hpc, Pc.exec]
      refine ⟨hslot.own h.toOwnInv (h.exclusive.drop hheld ?_ fun e x he hx => ?_)
        (h.live p) (Or.inl (by simp [Pc.child])) (by simp),
        hslot.cr3 h.toCr3Inv rfl (by simp [hpc]) (Or.inr ⟨rfl, Or.inl rfl⟩)⟩
      · simp [State.holds, Pc.exec]
      · rcases hslot.holds hx with hx' | rfl | rfl | rfl | rfl
        · exact hx'
        · exact hx
        · exact hx
        · simp [State.holds, Pc.copied] at hx
        · exact absurd rfl he
  | execCommit c p page hctrl hresume hpc =>
      have hrunning := (hinv.run c p hctrl).2
      have hlive := h.live p (by rw [hrunning]; rfl)
      have hslot : OneSlot s ((s.setProc p fun q => { q with pgdir := some page }).goto p
          (.execSwitch (s.proc p).pgdir)) p p :=
        ⟨by simp +contextual, by simp +contextual, hinv.ne_child_of_running hrunning⟩
      refine ⟨hslot.own h.toOwnInv ?_ (by simp [hlive]) (Or.inl (by simp [Pc.child]))
        (by simp [hlive]), h.toCr3Inv.frame (fun _ => rfl) (fun _ => rfl) fun c q x hon hx => ?_⟩
      · -- the old and the new page directory change places
        refine h.exclusive.map (Equiv.swap (.exec p) (.pgdir p)) (Equiv.injective _)
          fun e x hx => ?_
        by_cases he : e = .exec p
        · subst he
          rw [Equiv.swap_apply_left]
          simpa [State.holds, hrunning, Pc.exec, ProcState.live] using hx
        · by_cases hpgdir : e = .pgdir p
          · subst hpgdir
            rw [Equiv.swap_apply_right]
            simpa [State.holds, hrunning, hpc, Pc.exec, ProcState.live] using hx
          · rw [Equiv.swap_apply_of_ne_of_ne he hpgdir]
            rcases hslot.holds hx with hx' | rfl | rfl | rfl | rfl
            · exact hx'
            · simpa [State.holds] using hx
            · exact absurd rfl hpgdir
            · simp [State.holds, Pc.copied] at hx
            · exact absurd rfl he
      · by_cases hq : q = p
        · subst hq
          rcases hx with hx | hx
          · exact Or.inr (by simp [hx])
          · simp [hpc] at hx
        · exact hx.of_eq (by simp [hq]) (Or.inl (by simp [hq]))
  | execSwitch c p oldpgdir pgdir hctrl hresume hpc hpgdir =>
      have hrunning := (hinv.run c p hctrl).2
      have hold := (h.old p).1
      have hslot : OneSlot s ((s.setCpu c { s.cpu c with cr3 := some pgdir }).goto p
          (.execFree oldpgdir)) p p :=
        ⟨fun _ _ => rfl, by simp +contextual, hinv.ne_child_of_running hrunning⟩
      refine ⟨hslot.own h.toOwnInv (h.exclusive.mono fun e x hx => ?_) (h.live p)
        (Or.inl (by simp [Pc.child])) (by simpa [hpc] using hold), h.toCr3Inv.load rfl ?_ ?_ ?_⟩
      · rcases hslot.holds hx with hx' | rfl | rfl | rfl | rfl
        · exact hx'
        · exact hx
        · exact hx
        · simp [State.holds, Pc.copied] at hx
        · simpa [State.holds, hpc, Pc.exec] using hx
      · simp [hctrl, Ctrl.on]
      · intro p' hp'
        obtain rfl : p = p' := by simpa [hctrl, Ctrl.on] using hp'
        exact ⟨pgdir, rfl, hpgdir⟩
      · -- the other CPUs execute other processes, whose page directories stay
        intro c' q x hc hon hx
        have hq : q ≠ p := by
          rintro rfl
          exact hc (hinv.unique_of_on hon hctrl)
        exact hx.of_eq rfl (Or.inl (by simp [hq]))
  | execFree c p oldpgdir hctrl hresume hpc =>
      have hrunning := (hinv.run c p hctrl).2
      have hslot : OneSlot s ({ s with used := s.used.erase oldpgdir }.ret p 0) p p :=
        ⟨fun _ _ => rfl, by simp +contextual, hinv.ne_child_of_running hrunning⟩
      have hheld : s.holds (.exec p) = some oldpgdir := by simp [State.holds, hpc, Pc.exec]
      refine ⟨hslot.own h.toOwnInv (h.exclusive.drop hheld ?_ fun e x he hx => ?_)
        (h.live p) (Or.inl (by simp [Pc.child])) (by simp),
        hslot.cr3 h.toCr3Inv rfl (by simp [hpc]) (Or.inr ⟨rfl, Or.inl rfl⟩)⟩
      · simp [State.holds, Pc.exec]
      · rcases hslot.holds hx with hx' | rfl | rfl | rfl | rfl
        · exact hx'
        · exact hx
        · exact hx
        · simp [State.holds, Pc.copied] at hx
        · exact absurd rfl he
  | growproc c p pgdir hctrl hresume hpc hpgdir =>
      have hkept : PagesKept s (s.setCpu c { s.cpu c with cr3 := some pgdir }) :=
        ⟨fun q => .refl _, fun q => Or.inl rfl, rfl⟩
      refine ⟨hkept.own h.toOwnInv, h.toCr3Inv.load rfl (by simp [hctrl, Ctrl.on]) ?_
        fun _ _ _ _ _ hx => hkept.loaded hx⟩
      intro p' hp'
      obtain rfl : p = p' := by simpa [hctrl, Ctrl.on] using hp'
      exact ⟨pgdir, rfl, hpgdir⟩
  | fault c p hctrl hresume hpc =>
      refine h.kept ⟨SamePages.of_slot (p := p) ?_ (by simp +contextual), fun q => Or.inl rfl, rfl⟩
        (fun _ => rfl) fun _ => rfl
      constructor <;> simp

/-! ## From boot -/

omit [DecidableEq C] in
theorem PageInv.boot {kstack pgdir : Addr} (hne : kstack ≠ pgdir) :
    PageInv (boot C kstack pgdir) := by
  have hheld : ∀ e x, (Xv6.boot C kstack pgdir).holds e = some x →
      e = .kstack initproc ∧ x = kstack ∨ e = .pgdir initproc ∧ x = pgdir := by
    intro e x hx
    cases e with
    | kstack q =>
        by_cases hq : q = initproc
        · subst hq
          exact Or.inl ⟨rfl, by simpa [State.holds, Xv6.boot, eq_comm] using hx⟩
        · simp [State.holds, Xv6.boot, hq] at hx
    | pgdir q =>
        by_cases hq : q = initproc
        · subst hq
          exact Or.inr ⟨rfl, by simpa [State.holds, Xv6.boot, ProcState.live, eq_comm] using hx⟩
        · simp [State.holds, Xv6.boot, hq] at hx
    | child q => simp [State.holds, Xv6.boot, Pc.copied] at hx
    | exec q => simp [State.holds, Xv6.boot, Pc.exec] at hx
  constructor
  · constructor
    case exclusive =>
      constructor
      case unique =>
        intro e e' x he he'
        rcases hheld e x he with ⟨rfl, rfl⟩ | ⟨rfl, rfl⟩ <;>
          rcases hheld e' _ he' with ⟨rfl, hx⟩ | ⟨rfl, hx⟩
        · rfl
        · exact absurd hx hne
        · exact absurd hx.symm hne
        · rfl
      case listed =>
        intro e x he
        rcases hheld e x he with ⟨-, rfl⟩ | ⟨-, rfl⟩ <;> simp [Xv6.boot]
      case nodup => simp [Xv6.boot, hne]
    case live =>
      intro q hq
      by_cases hqi : q = initproc
      · simp [Xv6.boot, hqi]
      · simp [Xv6.boot, hqi, ProcState.live] at hq
    all_goals simp [Xv6.boot, Pc.child, Pc.copied]
  · constructor <;> simp [Xv6.boot, Ctrl.on]

theorem PageInv.of_reachable (h : Reachable kernel s) : PageInv s := by
  obtain ⟨kstack, pgdir, hne, hreaches⟩ := h
  exact (Inv.boot kstack pgdir).run_invariant hreaches (PageInv.boot hne)
    fun _ _ _ hstep _ hinv hpages => hpages.step hinv hstep

/-! ## Pages that a CPU uses -/

/-- CPU `c` has `x` in `cr3`, or executes on the kernel stack `x`. -/
def State.Uses (s : State C) (c : C) (x : Addr) : Prop :=
  (s.cpu c).cr3 = some x ∨ ∃ p, (s.cpu c).ctrl = .run p ∧ (s.proc p).kstack = some x

omit [DecidableEq C] in
/-- Who holds a page that a CPU uses. -/
theorem Inv.holder_of_uses (hinv : Inv s) (h : PageInv s) {x : Addr} (huses : s.Uses c x) :
    ∃ q, (s.cpu c).ctrl.on = some q ∧ (s.holds (.kstack q) = some x ∨
      s.holds (.pgdir q) = some x ∨
        s.holds (.exec q) = some x ∧ (s.thread q).pc = .execSwitch (some x)) := by
  rcases huses with hcr3 | ⟨q, hctrl, hkstack⟩
  · cases hon : (s.cpu c).ctrl.on with
    | none => simp [h.off c hon] at hcr3
    | some q =>
        refine ⟨q, rfl, Or.inr ?_⟩
        obtain ⟨y, hy, hloaded⟩ := h.on c q hon
        obtain rfl : x = y := by simpa [hcr3] using hy
        have hlive : (s.proc q).state.live = true := by
          rcases Ctrl.on_eq_some_iff.mp hon with hctrl | hctrl
          · rw [(hinv.run c q hctrl).2]
            rfl
          · rcases (hinv.back c q hctrl).2.2 with (hq | hq) | hq <;> rw [hq] <;> rfl
        rcases hloaded with hpgdir | hpc
        · exact Or.inl (by simp [State.holds, hlive, hpgdir])
        · exact Or.inr ⟨by simp [State.holds, hpc, Pc.exec], hpc⟩
  · exact ⟨q, by rw [hctrl]; rfl, Or.inl hkstack⟩

/-- A page that a step frees is held by a slot that no CPU executes, or by a
thread in `exec` that has already switched away from it or never used it. -/
theorem Step.freed (hstep : Step kernel s a s') (hinv : Inv s) {x : Addr}
    (hx : x ∈ s.used) (hx' : x ∉ s'.used) :
    ∃ e, s.holds e = some x ∧
      (∀ c q, (s.cpu c).ctrl.on = some q → e ≠ .kstack q ∧ e ≠ .pgdir q) ∧
        ∀ q, e = .exec q → (s.thread q).pc ≠ .execSwitch (some x) := by
  have herased : ∀ {l : List Addr} {y : Addr}, x ∈ l → x ∉ l.erase y → x = y := by
    intro l y hmem hnot
    by_contra hne
    exact hnot ((List.mem_erase_of_ne hne).mpr hmem)
  cases hstep with
  | round a c p request scanning s' hentry hround =>
      have hctrl := hentry.ctrl
      cases hround with
      | reaped z kstack pgdir hfinds hkstack hpgdir hlock =>
          have hz : z ≠ p := finds_ne hfinds ((hentry.state_eq p).trans (hinv.run c p hctrl).2)
          have hzombie : (s.proc z).state = .zombie := (hentry.state_eq z) ▸ (finds_spec hfinds).2
          rw [hentry.proc_of_ne hz] at hkstack hpgdir
          have hoff : ∀ c', (s.cpu c').ctrl.on ≠ some z := by
            intro c' hon
            rcases Ctrl.on_eq_some_iff.mp hon with hctrl' | hctrl'
            · simp [(hinv.run c' z hctrl').2] at hzombie
            · exact hinv.ne_back_of_free hctrl (hentry.free hlock) c' z hctrl'
          have hother : ∀ c' q, (s.cpu c').ctrl.on = some q → z ≠ q := by
            rintro c' q hon rfl
            exact hoff c' hon
          by_cases hxk : x = kstack
          · refine ⟨.kstack z, by simp [State.holds, hkstack, hxk], fun c' q hon => ?_, by simp⟩
            simp [hother c' q hon]
          · have hmem : x ∈ s.used.erase kstack := (List.mem_erase_of_ne hxk).mpr hx
            rw [← hentry.used] at hmem
            have hxp : x = pgdir := herased hmem hx'
            refine ⟨.pgdir z, by simp [State.holds, hzombie, hpgdir, hxp, ProcState.live],
              fun c' q hon => ?_, by simp⟩
            simp [hother c' q hon]
      | gaveUp hfinds hcannot hlock => exact absurd (hentry.used.symm ▸ hx) hx'
      | slept hfinds hkids hkilled hlock => exact absurd (hentry.used.symm ▸ hx) hx'
  | copyuvmFail c p np priority kstack hctrl hresume hpc hkstack =>
      have hchild : (s.thread p).pc.child = some np := by simp [hpc, Pc.child]
      obtain rfl := herased hx hx'
      refine ⟨.kstack np, hkstack, fun c' q hon => ?_, by simp⟩
      simp [(hinv.ne_child_of_on hon hchild).symm]
  | execBad c p page hctrl hresume hpc =>
      obtain rfl := herased hx hx'
      refine ⟨.exec p, by simp [State.holds, hpc, Pc.exec], by simp, fun q hq => ?_⟩
      obtain rfl : p = q := by simpa using hq
      simp [hpc]
  | execFree c p oldpgdir hctrl hresume hpc =>
      obtain rfl := herased hx hx'
      refine ⟨.exec p, by simp [State.holds, hpc, Pc.exec], by simp, fun q hq => ?_⟩
      obtain rfl : p = q := by simpa using hq
      simp [hpc]
  | kalloc c p np priority kstack hctrl hresume hpc hfresh =>
      exact absurd (List.mem_cons_of_mem _ hx) hx'
  | copyuvm c p np priority pgdir hctrl hresume hpc hfresh =>
      exact absurd (List.mem_cons_of_mem _ hx) hx'
  | exec c p page hctrl hresume hpc hfresh => exact absurd (List.mem_cons_of_mem _ hx) hx'
  | _ => exact absurd hx hx'

omit [DecidableEq C] in
theorem Inv.mem_used_of_uses (hinv : Inv s) (h : PageInv s) {x : Addr} (huses : s.Uses c x) :
    x ∈ s.used := by
  obtain ⟨q, -, hheld⟩ := hinv.holder_of_uses h huses
  rcases hheld with hheld | hheld | ⟨hheld, -⟩ <;> exact h.exclusive.listed _ _ hheld

/-- No step frees a page that a CPU uses. -/
theorem Step.not_uses_of_freed (hstep : Step kernel s a s') (hinv : Inv s) (h : PageInv s)
    {x : Addr} (hx : x ∈ s.used) (hx' : x ∉ s'.used) : ¬ s.Uses c x := by
  intro huses
  obtain ⟨e, he, hslot, hexec⟩ := hstep.freed hinv hx hx'
  obtain ⟨q, hon, hheld⟩ := hinv.holder_of_uses h huses
  rcases hheld with hheld | hheld | ⟨hheld, hpc⟩
  · exact (hslot c q hon).1 (h.exclusive.unique _ _ x he hheld)
  · exact (hslot c q hon).2 (h.exclusive.unique _ _ x he hheld)
  · exact hexec q (h.exclusive.unique _ _ x he hheld) hpc

end Steps

end Xv6
