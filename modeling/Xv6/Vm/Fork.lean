import Xv6.Proc.Table
import Xv6.Syscall.Handlers
import Xv6.Vm.Grow
import Xv6.Vm.Sample

/-!
# `fork` and `custmpro`

Both allocate a kernel stack and then copy the address space of the caller, page by
page.  Wherever an allocation fails, everything that was allocated is given back: by
`copyuvm` what it has built, and by `fork` the kernel stack and the slot.

Trap frames and the first context of a process are words of its kernel stack.  One
call runs at a time.
-/

namespace Xv6.Vm

open Allocation Logic

/-! ## The state -/

/-- What `Xv6.Proc` leaves out of `struct proc`.  Open files and the current directory are
given by number. -/
structure Image where
  sz : ℕ
  ofile : Fin NOFILE → Option ℕ
  cwd : ℕ
  name : List ℕ

/-- The process table, the counters, and the reference counts of `ftable` and `icache`. -/
structure Tables where
  table : Ptable
  image : Slot → Image
  nextpid : ℕ
  ticks : BitVec 32
  fileRef : ℕ → ℤ
  inodeRef : ℕ → ℤ

namespace Tables

def setProc (s : Tables) (p : Slot) (change : Proc → Proc) : Tables :=
  { s with table := s.table.modify p change }

def setImage (s : Tables) (p : Slot) (change : Image → Image) : Tables :=
  { s with image := Function.update s.image p (change (s.image p)) }

end Tables

/-- The addresses that a new context returns to. -/
structure Returns where
  forkret : ℕ
  trapret : ℕ

variable {R : Type}

def gettables : Call Tables R Tables := .act id .ret

def setTables (f : Tables → Tables) : Call Tables R Unit := .act f fun _ => .ret ()

/-! ## The code -/

/-- The words of a kernel stack from which the trap frame and the context start, and the
places in them of `%eax` and of the program counter. -/
def trapframe : ℕ := 1005
def context : ℕ := 999
def eax : ℕ := trapframe + 7
def eip : ℕ := context + 4

/-- `allocproc` after its `release` -/
def allocStack (ret : Returns) (p : Slot) : Call Tables R (Option Slot) := do
  match ← kalloc with
  | none =>
      setTables fun s => s.setProc p fun q => { q with kstack := none, state := .unused }
      pure none
  | some kstack =>
      setTables fun s => s.setProc p fun q => { q with kstack := some kstack }
      store kstack (trapframe - 1) ret.trapret
      .modify kstack (fun page i => if context ≤ i ∧ i < context + 5 then 0 else page i) (.ret ())
      store kstack eip ret.forkret
      pure (some p)

def allocproc (ret : Returns) : Call Tables R (Option Slot) := do
  let s ← gettables
  match firstUnused s.table with
  | none => pure none
  | some p =>
      setTables fun s =>
        { s.setProc p (allocated (toInt s.nextpid) s.ticks) with nextpid := s.nextpid + 1 }
      allocStack ret p

def filedup (f : ℕ) : Call Tables R ℕ := do
  let s ← gettables
  if s.fileRef f < 1 then .panic "filedup"
  else
    setTables fun s => { s with fileRef := Function.update s.fileRef f (s.fileRef f + 1) }
    pure f

def idup (ip : ℕ) : Call Tables R ℕ := do
  setTables fun s => { s with inodeRef := Function.update s.inodeRef ip (s.inodeRef ip + 1) }
  pure ip

/-- The loop over the open files. -/
def dupFiles (cur np : Slot) : List (Fin NOFILE) → Call Tables R Unit
  | [] => pure ()
  | i :: rest => do
      let s ← gettables
      match (s.image cur).ofile i with
      | none => dupFiles cur np rest
      | some f =>
          let f ← filedup f
          setTables fun s => s.setImage np fun q =>
            { q with ofile := Function.update q.ofile i (some f) }
          dupFiles cur np rest

/-- What follows in `fork` and in `custmpro` once the child has an address space. -/
def copyProc (cur np : Slot) (priority : Option ℤ) (pgdir : Frame) : Call Tables R ℤ := do
  setTables fun s => s.setProc np (inherit cur pgdir priority)
  setTables fun s => s.setImage np fun q => { q with sz := (s.image cur).sz }
  let s ← gettables
  let kstack := (s.table np).kstack.getD 0
  .load ((s.table cur).kstack.getD 0) fun frame => .modify kstack
    (fun page i => if trapframe ≤ i ∧ i < 1024 then frame i else page i) (.ret ())
  store kstack eax 0
  dupFiles cur np (List.finRange NOFILE)
  let s ← gettables
  let cwd ← idup (s.image cur).cwd
  setTables fun s => s.setImage np fun q =>
    { q with cwd := cwd, name := (s.image cur).name.take 15 }
  let s ← gettables
  setTables fun s => s.setProc np fun q => { q with state := .runnable }
  pure (s.table np).pid

/-- `fork` and `custmpro`, called by the process in slot `cur`.  Only `custmpro` passes a
priority. -/
def newProc (lay : Layout) (ret : Returns) (cur : Slot) (priority : Option ℤ) :
    Call Tables R ℤ := do
  match ← allocproc ret with
  | none => pure (-1)
  | some np =>
      let s ← gettables
      match ← copyuvm lay ((s.table cur).pgdir.getD 0) (s.image cur).sz with
      | none =>
          setTables fun s => s.setProc np fun q => { q with pgdir := none }
          let s ← gettables
          kfree lay ((s.table np).kstack.getD 0)
          setTables fun s => s.setProc np fun q => { q with kstack := none, state := .unused }
          pure (-1)
      | some pgdir => copyProc cur np priority pgdir

def fork (lay : Layout) (ret : Returns) (cur : Slot) : Call Tables R ℤ :=
  newProc lay ret cur none

def custmpro (lay : Layout) (ret : Returns) (cur : Slot) (priority : ℤ) : Call Tables R ℤ :=
  newProc lay ret cur (some priority)

/-! ## A failed call -/

variable {lay : Layout} {ret : Returns} {cur : Slot} {priority : Option ℤ}
variable {v v' : View Frame Page Tables} {panics : View Frame Page Tables → Prop}

/-- The caller runs, and has an address space, a kernel stack and a size within the user
half. -/
structure Parent (lay : Layout) (w : World Frame Page Tables R) (cur : Slot) (k d : Frame) :
    Prop where
  state : (w.state.table cur).state = .running
  kstack : (w.state.table cur).kstack = some k
  pgdir : (w.state.table cur).pgdir = some d
  sz : (w.state.image cur).sz ≤ KERNBASE
  owns : w.Owns lay.Arena (k ::ₘ space w.mem d)

/-- The tables are as before, but for the slot that was tried, if there is one. -/
structure SlotBack (s s' : Tables) : Prop where
  table : ∀ q, (s.table q).state ≠ .unused → s'.table q = s.table q
  slot : ∀ np, firstUnused s.table = some np →
    (s'.table np).state = .unused ∧ (s'.table np).kstack = none
  image : s'.image = s.image
  fileRef : s'.fileRef = s.fileRef
  inodeRef : s'.inodeRef = s.inodeRef

/-- The free pages, the contents of all others and the tables are as before. -/
structure Clean (w w' : World Frame Page Tables R) : Prop where
  free : (w'.free : Multiset Frame) = w.free
  mem : ∀ p, p ∉ w.free → w'.mem p = w.mem p
  tables : SlotBack w.state w'.state

/-- If an allocation fails in the call, then the call fails and leaves nothing behind. -/
def FailsClean (call : Call Tables R ℤ) (w : World Frame Page Tables R) : Prop :=
  match call.run w with
  | (.returned r, w') => w'.failed = true → r = -1 ∧ Clean w w'
  | (.panicked _, w') => w'.failed = false

@[simp] theorem safe_gettables {Q : Tables → View Frame Page Tables → Prop} :
    (sequential lay.Arena (fun _ => True) 0 panics).Safe (gettables : Call Tables R Tables) Q v ↔
      Q v.ghost v := Iff.rfl

@[simp] theorem safe_setTables {Q : Unit → View Frame Page Tables → Prop} {f : Tables → Tables} :
    (sequential lay.Arena (fun _ => True) 0 panics).Safe (setTables f : Call Tables R Unit) Q v ↔
      Q () { v with ghost := f v.ghost } := Iff.rfl

/-- Panics are tolerated as long as no allocation has failed. -/
abbrev forkLogic (lay : Layout) : Logic Frame Page Tables R Tables :=
  sequential lay.Arena (fun _ => True) 0 fun v => v.failed = false

theorem safe_dupFiles {Q : Unit → View Frame Page Tables → Prop} {np : Slot}
    {l : List (Fin NOFILE)} (hfailed : v.failed = false)
    (hQ : ∀ v', v'.failed = false → Q () v') :
    (forkLogic lay).Safe (dupFiles cur np l : Call Tables R Unit) Q v := by
  induction l generalizing v with
  | nil => exact hQ v hfailed
  | cons i rest ih =>
      rw [dupFiles, Comp.bind_eq, safe_bind, safe_gettables]
      cases (v.ghost.image cur).ofile i with
      | none => exact ih hfailed
      | some f =>
          dsimp only
          rw [Comp.bind_eq, safe_bind, filedup, Comp.bind_eq, safe_bind, safe_gettables]
          by_cases href : v.ghost.fileRef f < 1
          · rw [if_pos href]
            exact hfailed
          · rw [if_neg href]
            exact ih hfailed

/-- Where no allocation has failed, none fails any more. -/
theorem safe_copyProc {Q : ℤ → View Frame Page Tables → Prop} {np : Slot} {pgdir : Frame}
    (hcur : ∃ k ∈ v.owned, (v.ghost.table cur).kstack = some k)
    (hnp : ∃ k ∈ v.owned, (v.ghost.table np).kstack = some k) (hne : np ≠ cur)
    (hfailed : v.failed = false) (hQ : ∀ r v', v'.failed = false → Q r v') :
    (forkLogic lay).Safe (copyProc cur np priority pgdir : Call Tables R ℤ) Q v := by
  obtain ⟨k, hk, hkstack⟩ := hcur
  obtain ⟨k', hk', hkstack'⟩ := hnp
  simp only [copyProc, Comp.bind_eq, safe_bind, safe_setTables, safe_gettables]
  have hcurStack : ∀ f, (((v.ghost.setProc np (inherit cur pgdir priority)).setImage np f).table
      cur).kstack = some k := fun f => by
    simp [Tables.setProc, Tables.setImage, Ptable.modify_of_ne _ _ _ hne.symm, hkstack]
  have hnpStack : ∀ f, (((v.ghost.setProc np (inherit cur pgdir priority)).setImage np f).table
      np).kstack = some k' := fun f => by
    simp [Tables.setProc, Tables.setImage, inherit, hkstack']
  rw [hcurStack, hnpStack]
  refine ⟨hk, hk', ?_⟩
  rw [safe_ret, Option.getD_some, safe_store]
  refine ⟨hk', safe_dupFiles hfailed fun v₁ hv₁ => ?_⟩
  exact hQ _ _ hv₁

theorem firstUnused_state {table : Ptable} {np : Slot} (h : firstUnused table = some np) :
    (table np).state = .unused := by
  unfold firstUnused at h
  exact (find?_slots_eq_some_iff.mp h).1

/-- In the tables only the slot `np` differs. -/
structure Only (s s' : Tables) (np : Slot) : Prop where
  table : ∀ q, q ≠ np → s'.table q = s.table q
  image : s'.image = s.image
  fileRef : s'.fileRef = s.fileRef
  inodeRef : s'.inodeRef = s.inodeRef

namespace Only

variable {s s' : Tables} {np : Slot}

theorem refl : Only s s np := ⟨fun _ _ => rfl, rfl, rfl, rfl⟩

theorem setProc (h : Only s s' np) (change : Proc → Proc) : Only s (s'.setProc np change) np where
  table q hq := by
    have hsame : (s'.setProc np change).table q = s'.table q := Ptable.modify_of_ne _ _ _ hq
    rw [hsame, h.table q hq]
  image := h.image
  fileRef := h.fileRef
  inodeRef := h.inodeRef

theorem nextpid (h : Only s s' np) (n : ℕ) : Only s { s' with nextpid := n } np :=
  ⟨h.table, h.image, h.fileRef, h.inodeRef⟩

/-- The slot that was tried is given back. -/
theorem slotBack (h : Only s s' np) (hnp : firstUnused s.table = some np)
    (hstate : (s'.table np).state = .unused) (hkstack : (s'.table np).kstack = none) :
    SlotBack s s' where
  table q hq := h.table q fun heq => hq (heq ▸ firstUnused_state hnp)
  slot np' hnp' := by
    have heq : np' = np := Option.some.inj (hnp'.symm.trans hnp)
    rw [heq]
    exact ⟨hstate, hkstack⟩
  image := h.image
  fileRef := h.fileRef
  inodeRef := h.inodeRef

end Only

/-- `fork` and `custmpro`, in a view that owns the caller's pages. -/
theorem safe_newProc {k d : Frame} (hkstack : (v.ghost.table cur).kstack = some k)
    (hpgdir : (v.ghost.table cur).pgdir = some d) (hstate : (v.ghost.table cur).state = .running)
    (hsz : (v.ghost.image cur).sz ≤ KERNBASE) (howned : v.owned = k ::ₘ space v.mem d)
    (hnodup : v.owned.Nodup) (harena : ∀ p ∈ v.owned, lay.Arena p) (hfailed : v.failed = false) :
    (forkLogic lay).Safe (newProc lay ret cur priority : Call Tables R ℤ)
      (fun r v' => v'.failed = true → r = -1 ∧ v'.owned = v.owned ∧
        (∀ p ∈ v.owned, v'.mem p = v.mem p) ∧ SlotBack v.ghost v'.ghost) v := by
  rw [newProc, Comp.bind_eq, safe_bind, allocproc, Comp.bind_eq, safe_bind, safe_gettables]
  cases hnp : firstUnused v.ghost.table with
  | none =>
      simp only [Comp.pure_eq, safe_ret]
      intro hfailed'
      rw [hfailed] at hfailed'
      simp at hfailed'
  | some np =>
      have hne : np ≠ cur := fun heq => by
        have hunused := firstUnused_state hnp
        rw [heq, hstate] at hunused
        simp at hunused
      dsimp only
      rw [Comp.bind_eq, safe_bind, safe_setTables, allocStack, Comp.bind_eq, safe_bind,
        safe_kalloc]
      refine ⟨fun _ => ?_, fun kstack x hpage hnew => ?_⟩
      · -- no kernel stack
        simp only [Comp.bind_eq, safe_bind, safe_setTables, Comp.pure_eq, safe_ret]
        refine fun _ => ⟨trivial, trivial, fun _ _ => trivial, ?_⟩
        refine ((Only.refl.setProc _).nextpid _ |>.setProc _).slotBack hnp ?_ ?_ <;>
          simp [Tables.setProc]
      have hsame : Only v.ghost v.ghost np := Only.refl
      have htried := (hsame.setProc
        (allocated (toInt v.ghost.nextpid) v.ghost.ticks)).nextpid (v.ghost.nextpid + 1)
          |>.setProc fun q => { q with kstack := some kstack }
      simp only [Comp.bind_eq, safe_bind, safe_setTables, safe_store, Comp.pure_eq, safe_ret]
      refine ⟨Multiset.mem_cons_self _ _, Multiset.mem_cons_self _ _, Multiset.mem_cons_self _ _,
        ?_⟩
      rw [safe_gettables]
      generalize hv₁ : View.mk _ _ _ _ = v₁
      have hghost₁ : Only v.ghost v₁.ghost np ∧ (v₁.ghost.table np).kstack = some kstack := by
        rw [← hv₁]
        refine ⟨htried, ?_⟩
        simp [Tables.setProc]
      have howned₁ : v₁.owned = kstack ::ₘ v.owned := by rw [← hv₁]
      have hfailed₁ : v₁.failed = false := by rw [← hv₁, hfailed]
      have hmem₁ : ∀ p ∈ v.owned, v₁.mem p = v.mem p := fun p hp => by
        have hpk : p ≠ kstack := fun heq => hnew (heq ▸ hp)
        simp [← hv₁, hpk]
      have hspace : space v₁.mem d = space v.mem d := by
        have hin : ∀ p ∈ space v.mem d, v₁.mem p = v.mem p := fun p hp =>
          hmem₁ p (by rw [howned]; exact Multiset.mem_cons_of_mem hp)
        exact space_congr (hin d dir_mem_space) fun p hp =>
          hin p (mem_space.mpr (Or.inr (Or.inl hp)))
      have hnodup₁ : v₁.owned.Nodup := by
        rw [howned₁, Multiset.nodup_cons]
        exact ⟨hnew, hnodup⟩
      have harena₁ : ∀ p ∈ v₁.owned, lay.Arena p := fun p hp => by
        rw [howned₁, Multiset.mem_cons] at hp
        exact hp.elim (fun heq => heq ▸ hpage) (harena p)
      rw [hghost₁.1.table cur hne.symm, hghost₁.1.image, hpgdir, Option.getD_some]
      refine safe_copyuvm rfl hnodup₁ harena₁ hsz ?_ (fun _ _ _ v' hv' => ?_) (fun v' hv' => ?_)
        fun pgdir v' hv' hmem' hghost' hfailed' => ?_
      · rw [howned₁, hspace, howned]
        exact (Multiset.le_cons_self _ _).trans (Multiset.le_cons_self _ _)
      · exact hv'.trans hfailed₁
      · -- no address space
        have honly := hghost₁.1.setProc fun q => { q with pgdir := none }
        have hstack : ((v₁.ghost.setProc np fun q => { q with pgdir := none }).table np).kstack =
            some kstack := by
          simp [Tables.setProc, hghost₁.2]
        have hmem : kstack ∈ v'.owned := by simp [hv'.owned, howned₁]
        have hghost : v'.ghost = v₁.ghost := hv'.ghost
        simp only [safe_bind, safe_setTables, safe_gettables, hghost, hstack, Option.getD_some]
        refine safe_kfree hmem hpage fun _ => ⟨rfl, ?_, fun p hp => ?_, ?_⟩
        · rw [hv'.owned, howned₁, Multiset.erase_cons_head]
        · have hpk : p ≠ kstack := fun heq => hnew (heq ▸ hp)
          refine (Function.update_of_ne hpk _ _).trans ?_
          rw [hv'.data p (by simp [howned₁, hp]), hmem₁ p hp]
        · refine (honly.setProc _).slotBack hnp ?_ ?_ <;> simp [Tables.setProc]
      · -- the rest does not fail
        have hghost : v'.ghost = v₁.ghost := hghost'
        have hin : ∀ p ∈ v₁.owned, p ∈ v'.owned := fun p hp => by
          rw [hv'.owned]
          exact Multiset.mem_add.mpr (Or.inl hp)
        refine safe_copyProc ⟨k, hin k ?_, ?_⟩ ⟨kstack, hin kstack ?_, ?_⟩ hne
          (hfailed'.trans hfailed₁) fun r v₂ hv₂ hfailed₂ => ?_
        · simp [howned₁, howned]
        · rw [hghost, hghost₁.1.table cur hne.symm, hkstack]
        · simp [howned₁]
        · rw [hghost, hghost₁.2]
        · rw [hv₂] at hfailed₂
          simp at hfailed₂

/-- If an allocation fails in a call of `fork` or `custmpro`, the call fails and leaves
nothing behind. -/
theorem newProc_clean {w : World Frame Page Tables R} {k d : Frame} (h : Parent lay w cur k d)
    (hfailed : w.failed = false) : FailsClean (newProc lay ret cur priority) w := by
  have hnodup := (Multiset.nodup_add.mp h.owns.nodup).2.1
  have harena : ∀ p ∈ k ::ₘ space w.mem d, lay.Arena p := fun p hp =>
    h.owns.arena p (Multiset.mem_add.mpr (Or.inr hp))
  have hsafe : (forkLogic lay).Safe (newProc lay ret cur priority : Call Tables R ℤ) _
      (w.view (k ::ₘ space w.mem d)) :=
    safe_newProc h.kstack h.pgdir h.state h.sz rfl hnodup harena hfailed
  have hends := hsafe.run h.owns (Or.inl rfl) fun _ => trivial
  rw [FailsClean]
  generalize (newProc lay ret cur priority).run w = result at hends
  obtain ⟨result, w'⟩ := result
  cases result with
  | panicked message =>
      obtain ⟨owned', hpanics⟩ := hends
      exact hpanics
  | returned r =>
      obtain ⟨owned', hclean, hkept⟩ := hends
      intro hfailed'
      obtain ⟨hr, howned, hmem, hback⟩ := hclean hfailed'
      have howned : owned' = k ::ₘ space w.mem d := howned
      have hpages := hkept.pages
      rw [howned] at hpages
      refine ⟨hr, ⟨add_right_cancel hpages, fun p hp => ?_, hback⟩⟩
      by_cases hin : p ∈ k ::ₘ space w.mem d
      · exact hmem p hin
      · refine hkept.others p fun hsum => ?_
        rcases Multiset.mem_add.mp hsum with hfree | hown
        · exact hp (Multiset.mem_coe.mp hfree)
        · exact hin hown

/-- Whichever allocation fails in a call of `fork` or `custmpro`, the call fails and the
free pages, the memory of the others, the reference counts and the process table are as
before. -/
theorem failed_fork_clean {w : World Frame Page Tables R} {k d : Frame} (h : Parent lay w cur k d)
    (hfailed : w.failed = false) : FailsClean (fork lay ret cur) w ∧
      ∀ prio, FailsClean (custmpro lay ret cur prio) w :=
  ⟨newProc_clean h hfailed, fun _ => newProc_clean h hfailed⟩

/-- The process of one page of `sampleMem`, in slot 0, with one page left: the kernel stack
can be allocated, but no page directory. -/
def forkWorld : World Frame Page Tables ℕ where
  free := [1100]
  mem := sampleMem sampleLayout 1 fun _ _ => 0
  state :=
    { table := fun p =>
        if p = 0 then { pgdir := some 2000, kstack := some 1999, state := .running, pid := 1 }
        else {}
      image := fun _ => { sz := PGSIZE, ofile := fun _ => none, cwd := 1, name := [] }
      nextpid := 2
      ticks := 0
      fileRef := fun _ => 0
      inodeRef := fun _ => 1 }
  answer := fun _ => 0
  refuse := fun _ => false
  failed := false

theorem forkWorld_parent : Parent sampleLayout forkWorld 0 1999 2000 where
  state := rfl
  kstack := rfl
  pgdir := rfl
  sz := by
    show PGSIZE ≤ KERNBASE
    decide
  owns := by
    have hlow : ∀ p ∈ space (sampleMem sampleLayout 1 fun _ _ => 0) 2000,
        sampleLayout.Arena p ∧ 2000 ≤ p := fun p hp => sample_arena (by decide) hp
    have hpages : (forkWorld.free : Multiset Frame) + 1999 ::ₘ space forkWorld.mem 2000 =
        1100 ::ₘ 1999 ::ₘ space (sampleMem sampleLayout 1 fun _ _ => 0) 2000 :=
      Multiset.singleton_add _ _
    refine ⟨?_, fun p hp => ?_⟩
    · rw [hpages, Multiset.nodup_cons, Multiset.nodup_cons, Multiset.mem_cons, not_or]
      refine ⟨⟨by decide, fun hp => ?_⟩, fun hp => ?_, sample_nodup⟩ <;>
      · have hle := (hlow _ hp).2
        revert hle
        decide
    · rw [hpages, Multiset.mem_cons, Multiset.mem_cons] at hp
      rcases hp with rfl | rfl | hp
      · decide
      · decide
      · exact (hlow p hp).1

/-- A fork without memory for a page directory leaves nothing behind. -/
theorem failed_fork_clean_sample :
    FailsClean (fork sampleLayout ⟨0x80102000, 0x80105000⟩ 0) forkWorld ∧
      ∀ prio, FailsClean (custmpro sampleLayout ⟨0x80102000, 0x80105000⟩ 0 prio) forkWorld :=
  failed_fork_clean forkWorld_parent rfl

end Xv6.Vm
