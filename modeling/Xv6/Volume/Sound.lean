import Xv6.Volume.Processes

/-!
# What holds whatever the order of the steps

Processes make any calls, and take turns at every step in any order.  From a disk in order, the disk
is in order in every state, except for the inodes that are locked (`consistent`); a step changes
only what its process has locked (`isolated`); locks are given back (`released`), and when no call
is going on, the counts of references and the bitmap are exact (`exact_counts`, `exact_bitmap`).
Only a few errors can occur (`expected`).
-/

namespace Xv6

open Files Interleaving References Marking Transition
open Inodes (Ptr)
open Ftable (FileId Fd)

namespace Volume

variable {P : Type} [Fintype P] [DecidableEq P] {p initproc : P} {sb : Superblock} {devsw : Devsw}
variable {l : Local} {s t : Volume P × Ghost P} {m m' : Machine P (Volume P)} {disk : Files.Disk}
variable {device : ℕ → Option (List Byte)}

/-! ## All calls -/

omit [Fintype P] [DecidableEq P] in
theorem Back.idle (h : Back p s) : Idle p s := by
  obtain ⟨l, hl, h⟩ := h
  refine ⟨h.hand, fun j hlock => hl.notMem j ((h.core.lock j).mp hlock), fun _ => ?_⟩
  obtain ⟨cwd, hcwd, hvars⟩ := hl.rooted
  refine ⟨⟨cwd, h.core.cwd.trans hcwd, h.core.vars.trans hvars⟩, ?_, fun f hf => ?_⟩
  · rw [h.core.fvars, h.core.ofile, hl.fvars]
  · rw [h.core.fvars] at hf
    rw [h.core.ip f hf]
    exact hl.ips f hf

omit [Fintype P] [DecidableEq P] in
theorem Idle.back (h : Idle p s) (hused : s.1.used p = true) : Back p s := by
  obtain ⟨hcwd, hfvars, hips⟩ := h.ready hused
  refine ⟨⟨s.2.vars p, s.2.fvars p, fun f => (s.1.file f).ip, ∅, s.1.cwd p, s.1.ofile p⟩,
    ⟨hcwd, hfvars, rfl, hips⟩, ⟨hused, rfl, rfl, rfl, rfl, fun _ _ => rfl, fun j => ?_⟩, h.hand,
    fun j hj => absurd hj (Set.notMem_empty j)⟩
  exact iff_of_false (h.lock j) (Set.notMem_empty j)

omit [DecidableEq P] in
theorem spec_discard {α : Type} {c : Routine P α} {A B : Volume P × Ghost P → Prop}
    (hc : Spec P sb p A c fun _ => B) : Spec P sb p A (do discard c) fun _ => B :=
  hc.bind fun _ => Logic.meets_pure (Q := fun _ => B)

theorem spec_handler (hl : l.Ready) (c : Call P) :
    Spec P sb p (Has p l) (handler p sb devsw initproc c) fun _ => Idle p := by
  have hidle : ∀ {α : Type} {c : Routine P α}, (Spec P sb p (Has p l) c fun _ => Back p) →
      Spec P sb p (Has p l) (do discard c) fun _ => Idle p :=
    fun hc => (spec_discard hc).mono fun _ _ _ => Back.idle
  cases c with
  | «open» path omode => exact hidle (spec_sysOpen hl)
  | mkdir path => exact hidle (spec_sysCreate hl)
  | mknod path major minor => exact hidle (spec_sysCreate hl)
  | link old new => exact hidle (spec_back (spec_sysLink hl.cwd_mem) hl)
  | unlink path => exact hidle (spec_back (spec_sysUnlink hl.cwd_mem) hl)
  | chdir path => exact hidle (spec_sysChdir hl)
  | read fd n => exact hidle (spec_sysRead hl)
  | write fd src n => exact hidle (spec_sysWrite hl)
  | fstat fd => exact hidle (spec_sysFstat hl)
  | dup fd => exact hidle (spec_sysDup hl)
  | close fd => exact hidle (spec_sysClose hl)
  | fork child => exact (spec_fork hl).mono fun _ _ _ => Back.idle
  | exit => exact spec_exit hl

omit [DecidableEq P] in
theorem stable_idle : Steadfast P sb p (Idle p) := fun _ _ _ _ hrely h => h.rely hrely

theorem spec_syscall (c : Call P) :
    Spec P sb p (Idle p) (syscall sb devsw initproc p c) fun _ => Idle p := by
  refine (spec_read stable_idle).bind fun used => ?_
  cases used with
  | false => exact Logic.Meets.of_imp Logic.meets_pure fun s _ h => h.1
  | true =>
      refine Logic.Meets.of_imp (A := fun s => ∃ l : Local, l.Ready ∧ Has p l s) ?_
        fun s _ h => h.1.back h.2.symm
      exact Logic.meets_exists fun l => Logic.meets_and fun hl => spec_handler hl c

theorem verified : Verified (logic P sb) Idle (syscall sb devsw initproc) :=
  ⟨fun _ => stable_idle, fun _ c => spec_syscall c⟩

/-! ## The boot -/

/-- The first process has the root. -/
def bootGhost (disk : Files.Disk) (initproc : P) : Ghost P where
  place := disk.place
  hand _ := 0
  vars p := if p = initproc then {0} else 0
  fvars _ := 0

omit [Fintype P] in
theorem boot_settled (hwhole : ∀ i, disk.Whole i) (i : ℕ) :
    Settled (boot disk device initproc, bootGhost disk initproc) i := ⟨fun _ => rfl, hwhole i⟩

theorem boot_counted : Counted (fun j => ((boot disk device initproc).entry j).ref)
    (holds (boot disk device initproc, bootGhost disk initproc)) := by
  have hnone : Counted (fun _ : Ptr => 0) fun _ : P ⊕ FileId => (0 : Multiset Ptr) := fun j => by
    simp [total]
  refine hnone.gain (e := .inl initproc) (x := 0) (fun e he => ?_) ?_ fun j => rfl
  · cases e with
    | inl q => exact if_neg fun heq => he (by rw [heq])
    | inr f => rfl
  · show (if initproc = initproc then ({0} : Multiset Ptr) else 0) = {0}
    exact if_pos rfl

theorem boot_inv (hdisk : disk.Ok sb) (hwhole : ∀ i, disk.Whole i) :
    Inv sb (boot disk device initproc, bootGhost disk initproc) where
  marked := hdisk.marked.sum_zero sb.dataStart_pos
  reserved := hdisk.reserved
  counted := boot_counted
  files f := by simp [total, bootGhost, boot]
  unique j k hj hk _ := by
    have hzero : ∀ i : Ptr, 0 < ((boot disk device initproc).entry i).ref → i = 0 := fun i hi => by
      by_contra hne
      simp [boot, hne] at hi
    rw [hzero j hj, hzero k hk]
  dev _ _ := rfl
  locked j q hlock := by cases hlock
  steady j _ _ := ⟨boot_settled hwhole _, fun hvalid => by cases hvalid⟩
  settled i _ := boot_settled hwhole i
  closed _ _ := rfl
  fresh f q q' _ hq := absurd hq (Multiset.notMem_zero f)
  unused q hunused := by
    have hne : q ≠ initproc := by simpa [boot] using hunused
    exact ⟨if_neg hne, rfl⟩

omit [Fintype P] in
theorem boot_idle (p : P) : Idle p (boot disk device initproc, bootGhost disk initproc) where
  hand := rfl
  lock _ hlock := by cases hlock
  ready hused := by
    have heq : p = initproc := by simpa [boot] using hused
    refine ⟨⟨0, if_pos heq, if_pos heq⟩, ?_, fun f hf => absurd hf (Multiset.notMem_zero f)⟩
    exact (Finset.sum_eq_zero fun _ _ => rfl).symm

theorem start_good (hdisk : disk.Ok sb) (hwhole : ∀ i, disk.Whole i) :
    Good (logic P sb) Idle (start disk device initproc) :=
  ⟨bootGhost disk initproc, boot_inv hdisk hwhole, fun p =>
    ⟨boot_inv hdisk hwhole, boot_idle p⟩⟩

theorem reaches_good (hdisk : disk.Ok sb) (hwhole : ∀ i, disk.Whole i)
    (run : Reaches (step sb devsw initproc) (start disk device initproc) m) :
    Good (logic P sb) Idle m := verified.good run (start_good hdisk hwhole)

/-! ### A small disk -/

def sampleBlocks : Superblock := ⟨20, 12, 5, by decide, by decide⟩

/-- `.` and `..` -/
def sampleRoot : Files.Block := fun k =>
  if k = 0 ∨ k = 16 then 1 else if k = 2 ∨ k = 18 ∨ k = 19 then 46 else 0

/-- There is nothing but the root directory. -/
def sampleDisk : Files.Disk where
  bitmap b := b < 9
  dinode i :=
    if i = ROOTINO then ⟨Files.T_DIR, 0, 0, 1, 32, fun k => if k = 0 then 8 else 0⟩
    else ⟨0, 0, 0, 0, 0, fun _ => 0⟩
  block b := if b = 8 then sampleRoot else fun _ => 0

theorem sample_place (a : ℕ × Files.Slot) :
    sampleDisk.place a = if a = (ROOTINO, .data ⟨0, by decide⟩) then 8 else 0 := by
  obtain ⟨i, slot⟩ := a
  by_cases hi : i = ROOTINO
  · subst hi
    cases slot with
    | table => rfl
    | data bn =>
        by_cases hbn : bn.1 = 0
        · obtain rfl : bn = ⟨0, by decide⟩ := Fin.ext hbn
          rfl
        · rw [if_neg fun heq => hbn (congrArg Fin.val (Files.Slot.data.inj (Prod.mk.inj heq).2))]
          show (if bn.1 < NDIRECT then (if bn.1 = 0 then 8 else 0) else 0) = 0
          rw [if_neg hbn, ite_self]
  · rw [if_neg fun heq => hi (Prod.mk.inj heq).1]
    exact place_of_free (by simp [sampleDisk, hi])

theorem sample_place_ne {a : ℕ × Files.Slot} (ha : sampleDisk.place a ≠ 0) :
    a = (ROOTINO, .data ⟨0, by decide⟩) := by
  by_contra hne
  exact ha ((sample_place a).trans (if_neg hne))

theorem sample_ok : sampleDisk.Ok sampleBlocks where
  marked := by
    refine ⟨fun a ha => ?_, fun a b ha heq => ?_, fun b hle hlt => ?_⟩
    · rw [sample_place_ne ha]
      decide
    · have hb : sampleDisk.place b ≠ 0 := heq ▸ ha
      exact (sample_place_ne ha).trans (sample_place_ne hb).symm
    · constructor
      · intro hb
        have hb : b < 9 := of_decide_eq_true hb
        have hle : 8 ≤ b := hle
        exact ⟨(ROOTINO, .data ⟨0, by decide⟩), (sample_place _).trans (by rw [if_pos rfl]; omega)⟩
      · rintro ⟨a, rfl⟩
        have hle : 8 ≤ sampleDisk.place a := hle
        rw [sample_place_ne (a := a) (by omega)]
        decide
  reserved b hb := decide_eq_true (lt_trans (show b < 8 from hb) (by decide))

theorem sample_whole (i : ℕ) : sampleDisk.Whole i := fun k hk => by
  by_cases hi : i = ROOTINO
  · subst hi
    have hk : k < 32 := hk
    rw [show k / BSIZE = 0 from Nat.div_eq_of_lt (lt_trans hk (by decide))]
    decide
  · exact absurd hk (by simp [sampleDisk, hi])

abbrev sampleStep := step sampleBlocks ⟨fun _ => false, fun _ => false⟩ false

abbrev sampleStart := start sampleDisk (fun _ => none) false

/-- `p` goes on. -/
def steps (p : Bool) (n : ℕ) : List (Interleaving.Action Bool (Call Bool)) :=
  List.replicate n (.proceed p)

/-! ## Every state -/

/-- The disk and the cache are in order, where nothing is locked. -/
structure Consistent (sb : Superblock) (v : Volume P) : Prop where
  /-- No block is in two places. -/
  inj : ∀ a b, Unlocked a.1 v → Unlocked b.1 v → v.disk.place a ≠ 0 →
    v.disk.place a = v.disk.place b → a = b
  /-- No block of an inode is free, or a block of the metadata. -/
  marked : ∀ a, Unlocked a.1 v → v.disk.place a ≠ 0 → sb.dataStart ≤ v.disk.place a ∧
    v.disk.place a < sb.size ∧ v.disk.bitmap (v.disk.place a) = true
  whole : ∀ i, Unlocked i v → v.disk.Whole i
  copy : ∀ j, (v.entry j).lock = none → 0 < (v.entry j).ref → (v.entry j).valid = true →
    (v.entry j).toDinode = v.disk.dinode (v.entry j).inum ∧ (v.entry j).type ≠ 0
  /-- An inode has one entry at most. -/
  unique : ∀ j k, 0 < (v.entry j).ref → 0 < (v.entry k).ref →
    (v.entry j).inum = (v.entry k).inum → j = k
  locked : ∀ j, (v.entry j).lock ≠ none → 0 < (v.entry j).ref

omit [DecidableEq P] in
theorem Inv.consistent (h : Inv sb s) : Consistent sb s.1 where
  inj a b ha hb hpos heq := by
    obtain ⟨i, slot⟩ := a
    obtain ⟨i', slot'⟩ := b
    rw [(h.settled i ha).place_eq] at hpos heq
    rw [(h.settled i' hb).place_eq] at heq
    exact h.place_inj hpos heq
  marked a ha hpos := by
    obtain ⟨i, slot⟩ := a
    rw [(h.settled i ha).place_eq] at hpos ⊢
    obtain ⟨hle, hlt⟩ := h.place_range hpos
    have hholder : s.2.holder (.inl (i, slot)) ≠ 0 := hpos
    exact ⟨hle, hlt, h.marked.marked hholder⟩
  whole i hi := (h.settled i hi).whole
  copy j hlock hpos hvalid := (h.steady j hlock hpos).copy hvalid
  unique := h.unique
  locked j hlock := by
    obtain ⟨q, hq⟩ := Option.ne_none_iff_exists'.mp hlock
    exact h.locked_pos hq

/-- The file system is consistent in every state, whatever the processes do in whatever order. -/
theorem consistent (hdisk : disk.Ok sb) (hwhole : ∀ i, disk.Whole i)
    (run : Reaches (step sb devsw initproc) (start disk device initproc) m) :
    Consistent sb m.state := by
  obtain ⟨g, hinv, -⟩ := reaches_good hdisk hwhole run
  exact hinv.consistent

/-- The child creates `a` and has the root locked, for which its parent waits. -/
def sampleMiddle : List (Interleaving.Action Bool (Call Bool)) :=
  .call false (.fork true) :: steps false 21 ++ .call true (.open [97] O_CREATE) :: steps true 53 ++
    .call false (.mkdir [98]) :: steps false 4

set_option maxRecDepth 10000 in
theorem consistent_middle : ∃ m : Machine Bool (Volume Bool), Consistent sampleBlocks m.state ∧
    (m.state.entry 0).lock = some true ∧ (m.state.disk.dinode ROOTINO).size = 48 := by
  have hrun : (exec sampleStep sampleStart sampleMiddle).test (fun m =>
      decide ((m.state.entry 0).lock = some true ∧
        (m.state.disk.dinode ROOTINO).size = 48)) = true := by
    decide +kernel
  obtain ⟨m, run, hcheck⟩ := reaches_of_test hrun
  exact ⟨m, consistent sample_ok sample_whole run, of_decide_eq_true hcheck⟩

/-- Only errors occur that are expected. -/
theorem expected (hdisk : disk.Ok sb) (hwhole : ∀ i, disk.Whole i)
    (run : Reaches (step sb devsw initproc) (start disk device initproc) m)
    {a : Interleaving.Action P (Call P)} {message : String}
    (h : step sb devsw initproc m a = .panic message) : Expected message :=
  (reaches_good hdisk hwhole run).allowed h

/-- A file gets longer than the disk. -/
def sampleWrite : List (Interleaving.Action Bool (Call Bool)) :=
  .call false (.open [97] (O_CREATE ||| O_RDWR)) :: steps false 64 ++
    .call false (.write ⟨0, by decide⟩ (fun _ => 0) 6000) :: steps false 98

set_option maxRecDepth 10000 in
theorem expected_write : ∃ m : Machine Bool (Volume Bool),
    sampleStep m (.proceed false) = .panic "balloc: out of blocks" ∧
      Expected "balloc: out of blocks" := by
  have hrun : (exec sampleStep sampleStart sampleWrite).test (fun m =>
      (sampleStep m (.proceed false)).fails "balloc: out of blocks") = true := by
    decide +kernel
  obtain ⟨m, run, hcheck⟩ := reaches_of_test hrun
  have hpanic := Outcome.eq_panic hcheck
  exact ⟨m, hpanic, expected sample_ok sample_whole run hpanic⟩

/-! ## One step -/

/-- What a step of `p` leaves alone. -/
structure Isolated (p : P) (v w : Volume P) : Prop where
  dinode : ∀ i, (∀ j, (v.entry j).lock = some p → (v.entry j).inum ≠ i) →
    w.disk.dinode i = v.disk.dinode i ∨ (v.disk.dinode i).type = 0 ∧ Fresh (w.disk.dinode i)
  place : ∀ i, Unlocked i v → ∀ slot, w.disk.place (i, slot) = v.disk.place (i, slot)
  block : ∀ i, Unlocked i v → ∀ slot, v.disk.place (i, slot) ≠ 0 →
    w.disk.block (v.disk.place (i, slot)) = v.disk.block (v.disk.place (i, slot))
  contents : ∀ j, (v.entry j).lock ≠ some p → 0 < (v.entry j).ref →
    (w.entry j).toDinode = (v.entry j).toDinode ∧ (w.entry j).valid = (v.entry j).valid
  key : ∀ j, 0 < (v.entry j).ref →
    (w.entry j).dev = (v.entry j).dev ∧ (w.entry j).inum = (v.entry j).inum
  lock : ∀ q, q ≠ p → ∀ j, (w.entry j).lock = some q ↔ (v.entry j).lock = some q
  own : ∀ q, q ≠ p → v.used q = true → w.cwd q = v.cwd q ∧ w.ofile q = v.ofile q

omit [DecidableEq P] [Fintype P] in
theorem Isolated.refl (p : P) (v : Volume P) : Isolated p v v :=
  ⟨fun _ _ => Or.inl rfl, fun _ _ _ => rfl, fun _ _ _ _ => rfl, fun _ _ _ => ⟨rfl, rfl⟩,
    fun _ _ => ⟨rfl, rfl⟩, fun _ _ _ => Iff.rfl, fun _ _ _ => ⟨rfl, rfl⟩⟩

omit [DecidableEq P] in
theorem Frame.isolated (h : Frame p s t) (hs : Inv sb s) : Isolated p s.1 t.1 where
  dinode i hi := (h.quiet i fun ⟨j, hlock, hinum⟩ => hi j hlock hinum).dinode
  place i hi slot := by
    have hquiet := h.quiet i (Inv.not_lockedBy_of_unlocked hi)
    have hsettled := hs.settled i hi
    rw [(hsettled.quiet hquiet).place_eq, hsettled.place_eq, hquiet.place]
  block i hi slot hpos := by
    have hquiet := h.quiet i (Inv.not_lockedBy_of_unlocked hi)
    rw [(hs.settled i hi).place_eq] at hpos ⊢
    exact hquiet.block slot hpos
  contents := h.contents
  key := h.key
  lock := h.lock
  own q hne hused := ⟨(h.same q hne hused).cwd, (h.same q hne hused).ofile⟩

/-- A process changes nothing that it has not locked, except that it takes an inode that is free. -/
theorem isolated (hdisk : disk.Ok sb) (hwhole : ∀ i, disk.Whole i)
    (run : Reaches (step sb devsw initproc) (start disk device initproc) m)
    {a : Interleaving.Action P (Call P)} (h : step sb devsw initproc m a = .next m') :
    Isolated a.process m.state m'.state := by
  obtain ⟨g, g', hinv, -, hchange, -⟩ := verified.good_step h (reaches_good hdisk hwhole run)
  rcases hchange with hsame | hframe
  · rw [hsame]
    exact Isolated.refl ..
  · exact Frame.isolated hframe hinv

/-- The next step of the child allocates an inode. -/
def sampleCreate : List (Interleaving.Action Bool (Call Bool)) :=
  .call false (.fork true) :: steps false 21 ++ .call true (.open [97] O_CREATE) :: steps true 23

set_option maxRecDepth 10000 in
theorem isolated_create : ∃ m m' : Machine Bool (Volume Bool), Isolated true m.state m'.state ∧
    (m.state.disk.dinode 2).type = 0 ∧ (m'.state.disk.dinode 2).type = Files.T_FILE := by
  have hrun : (exec sampleStep sampleStart sampleCreate).test (fun m =>
      decide ((m.state.disk.dinode 2).type = 0) && (sampleStep m (.proceed true)).test fun m' =>
        decide ((m'.state.disk.dinode 2).type = Files.T_FILE)) = true := by
    decide +kernel
  obtain ⟨m, run, hcheck⟩ := reaches_of_test hrun
  obtain ⟨hbefore, hafter⟩ := Bool.and_eq_true_iff.mp hcheck
  obtain ⟨m', hstep, hafter⟩ := Outcome.test_eq_true.mp hafter
  exact ⟨m, m', isolated sample_ok sample_whole run hstep, of_decide_eq_true hbefore,
    of_decide_eq_true hafter⟩

/-! ## Between two calls -/

/-- A process that is in no call has no inode locked, and what it has is in use. -/
theorem released (hdisk : disk.Ok sb) (hwhole : ∀ i, disk.Whole i)
    (run : Reaches (step sb devsw initproc) (start disk device initproc) m)
    (hcode : m.code p = .pure ⟨⟩) : (∀ j, (m.state.entry j).lock ≠ some p) ∧
      (m.state.used p = true →
        (∃ cwd, m.state.cwd p = some cwd ∧ 0 < (m.state.entry cwd).ref) ∧
        ∀ fd f, m.state.ofile p fd = some f → 0 < (m.state.file f).ref ∧
          ∃ ip, (m.state.file f).ip = some ip ∧ 0 < (m.state.entry ip).ref) := by
  obtain ⟨g, hinv, hsafe⟩ := reaches_good hdisk hwhole run
  have hidle := hsafe p
  rw [hcode] at hidle
  obtain ⟨-, hidle⟩ := hidle
  refine ⟨hidle.lock, fun hused => ?_⟩
  obtain ⟨⟨cwd, hcwd, hvars⟩, hfvars, hips⟩ := hidle.ready hused
  refine ⟨⟨cwd, hcwd, ?_⟩, fun fd f hfd => ?_⟩
  · refine hinv.ref_pos (p := p) (Or.inl ?_)
    show cwd ∈ g.vars p
    rw [show g.vars p = {cwd} from hvars]
    exact Multiset.mem_singleton_self cwd
  · have hf : f ∈ g.fvars p := by
      rw [show g.fvars p = References.slots (m.state.ofile p) from hfvars]
      exact References.mem_slots.mpr ⟨fd, hfd⟩
    obtain ⟨ip, hip⟩ := Option.ne_none_iff_exists'.mp (hips f hf)
    exact ⟨hinv.file_pos hf, ip, hip, hinv.ref_pos (p := p) (Or.inr ⟨f, hf, hip⟩)⟩

set_option maxRecDepth 10000 in
/-- The child has opened its file, and its parent is making a directory. -/
theorem released_middle : ∃ m : Machine Bool (Volume Bool),
    (∀ j, (m.state.entry j).lock ≠ some true) ∧ m.state.ofile true ⟨0, by decide⟩ ≠ none ∧
      (m.state.entry 0).lock = some false := by
  have hrun : (exec sampleStep sampleStart (sampleMiddle ++ steps true 11 ++ steps false 30)).test
      (fun m => (m.code true).ended && decide (m.state.ofile true ⟨0, by decide⟩ ≠ none ∧
        (m.state.entry 0).lock = some false)) = true := by
    decide +kernel
  obtain ⟨m, run, hcheck⟩ := reaches_of_test hrun
  obtain ⟨hended, hcheck⟩ := Bool.and_eq_true_iff.mp hcheck
  obtain ⟨hofile, hlock⟩ := of_decide_eq_true hcheck
  exact ⟨m, (released sample_ok sample_whole run (Code.eq_pure hended)).1, hofile, hlock⟩

/-! ## When no call is going on -/

omit [DecidableEq P] in
/-- The processes that have a current directory, and the open files. -/
theorem total_holds (g : Ghost P) {v : Volume P} {j : Ptr}
    (hvars : ∀ p, g.vars p = if v.used p then References.place (v.cwd p) else 0) :
    (total (holds (v, g))).count j =
      (Finset.univ.filter fun p => v.used p = true ∧ v.cwd p = some j).card +
        (Finset.univ.filter fun f => (v.file f).ip = some j).card := by
  have hcount : ∀ o : Option Ptr, (References.place o).count j = if o = some j then 1 else 0 :=
    fun o => by
      cases o with
      | none => rfl
      | some k => simp [Multiset.count_singleton, eq_comm]
  have hproc : ∀ p, (holds (v, g) (.inl p)).count j =
      if v.used p = true ∧ v.cwd p = some j then 1 else 0 := fun p => by
    show (g.vars p).count j = _
    rw [hvars p]
    by_cases hused : v.used p = true
    · rw [if_pos hused, hcount]
      simp [hused]
    · rw [if_neg hused]
      simp [hused]
  rw [total, Multiset.count_sum', Fintype.sum_sum_type, Finset.card_filter, Finset.card_filter]
  exact congrArg₂ (· + ·) (Finset.sum_congr rfl fun p _ => hproc p)
    (Finset.sum_congr rfl fun f _ => hcount _)

omit [DecidableEq P] in
theorem total_fvars {fvars : P → Multiset FileId} {v : Volume P} {f : FileId}
    (hfvars : ∀ p, fvars p = if v.used p then References.slots (v.ofile p) else 0) :
    (total fvars).count f =
      (Finset.univ.filter fun a : P × Fd => v.used a.1 = true ∧ v.ofile a.1 a.2 = some f).card := by
  have hsame : fvars = fun p =>
      References.slots fun fd => if v.used p then v.ofile p fd else none := by
    funext p
    rw [hfvars p]
    by_cases hused : v.used p = true
    · simp [hused]
    · simp only [hused, Bool.false_eq_true, if_false]
      exact (slots_none fun _ => rfl).symm
  rw [hsame, References.count_total_slots]
  refine congrArg Finset.card (Finset.filter_congr fun a _ => ?_)
  by_cases hused : v.used a.1 = true
  · simp [hused]
  · simp [hused]

variable (P) in
/-- References are counted exactly. -/
structure ExactCounts (v : Volume P) : Prop where
  inodes : ∀ j, (v.entry j).ref =
    (Finset.univ.filter fun p => v.used p = true ∧ v.cwd p = some j).card +
      (Finset.univ.filter fun f => (v.file f).ip = some j).card
  files : ∀ f, (v.file f).ref =
    (Finset.univ.filter fun a : P × Fd => v.used a.1 = true ∧ v.ofile a.1 a.2 = some f).card

omit [DecidableEq P] in
theorem quiet_idle (hgood : Good (logic P sb) Idle m) (hquiet : m.Quiet) :
    ∃ g, Inv sb (m.state, g) ∧ ∀ p, Idle p (m.state, g) := by
  obtain ⟨g, hinv, hsafe⟩ := hgood
  refine ⟨g, hinv, fun p => ?_⟩
  have hidle := hsafe p
  rw [hquiet p] at hidle
  exact hidle.2

/-- No reference is lost, and none is counted twice. -/
theorem exact_counts (hdisk : disk.Ok sb) (hwhole : ∀ i, disk.Whole i)
    (run : Reaches (step sb devsw initproc) (start disk device initproc) m) (hquiet : m.Quiet) :
    ExactCounts P m.state := by
  obtain ⟨g, hinv, hidle⟩ := quiet_idle (reaches_good hdisk hwhole run) hquiet
  refine ⟨fun j => (hinv.counted j).trans (total_holds g fun p => ?_),
    fun f => (hinv.files f).trans (total_fvars fun p => ?_)⟩
  · by_cases hused : m.state.used p = true
    · obtain ⟨⟨cwd, hcwd, hvars⟩, -⟩ := (hidle p).ready hused
      have hcwd : m.state.cwd p = some cwd := hcwd
      rw [if_pos hused, hcwd]
      exact hvars
    · rw [if_neg hused]
      exact (hinv.unused p (by simpa using hused)).1
  · by_cases hused : m.state.used p = true
    · rw [if_pos hused]
      exact ((hidle p).ready hused).2.1
    · rw [if_neg hused]
      exact (hinv.unused p (by simpa using hused)).2

/-- The child unlinks the file, which it still has open. -/
def sampleUnlink : List (Interleaving.Action Bool (Call Bool)) :=
  sampleMiddle ++ steps true 11 ++ steps false 98 ++ .call true (.unlink [97]) :: steps true 49

set_option maxRecDepth 10000 in
theorem exact_counts_unlink : ∃ m : Machine Bool (Volume Bool), ExactCounts Bool m.state ∧
    (m.state.entry 1).ref = 1 ∧ (m.state.entry 1).nlink = 0 := by
  have hrun : (exec sampleStep sampleStart sampleUnlink).test (fun m =>
      decide ((∀ p, (m.code p).ended = true) ∧ (m.state.entry 1).ref = 1 ∧
        (m.state.entry 1).nlink = 0)) = true := by
    decide +kernel
  obtain ⟨m, run, hcheck⟩ := reaches_of_test hrun
  obtain ⟨hended, hcheck⟩ := of_decide_eq_true hcheck
  exact ⟨m, exact_counts sample_ok sample_whole run (Machine.quiet_of_ended hended), hcheck⟩

/-- No block is lost: the disk is as it has to be for the next boot. -/
theorem exact_bitmap (hdisk : disk.Ok sb) (hwhole : ∀ i, disk.Whole i)
    (run : Reaches (step sb devsw initproc) (start disk device initproc) m) (hquiet : m.Quiet) :
    m.state.disk.Ok sb ∧ ∀ i, m.state.disk.Whole i := by
  obtain ⟨g, hinv, hidle⟩ := quiet_idle (reaches_good hdisk hwhole run) hquiet
  have hunlocked : ∀ i, Unlocked i m.state := fun i j hlock => by
    obtain ⟨q, hq⟩ := Option.ne_none_iff_exists'.mp hlock
    exact absurd hq ((hidle q).lock j)
  have hplace : m.state.disk.place = g.place :=
    funext fun ⟨i, slot⟩ => (hinv.settled i (hunlocked i)).place_eq slot
  refine ⟨⟨?_, hinv.reserved⟩, fun i => (hinv.settled i (hunlocked i)).whole⟩
  rw [hplace]
  exact hinv.marked.of_sum sb.dataStart_pos fun p => (hidle p).hand

set_option maxRecDepth 10000 in
/-- When the child has exited, the file is gone. -/
theorem exact_bitmap_exit : ∃ m : Machine Bool (Volume Bool), m.state.disk.Ok sampleBlocks ∧
    (m.state.disk.dinode 2).type = 0 ∧ (m.state.disk.dinode 3).type = Files.T_DIR := by
  have hrun : (exec sampleStep sampleStart (sampleUnlink ++ .call true .exit :: steps true 48)).test
      (fun m => decide ((∀ p, (m.code p).ended = true) ∧ (m.state.disk.dinode 2).type = 0 ∧
        (m.state.disk.dinode 3).type = Files.T_DIR)) = true := by
    decide +kernel
  obtain ⟨m, run, hcheck⟩ := reaches_of_test hrun
  obtain ⟨hended, hcheck⟩ := of_decide_eq_true hcheck
  have hquiet := Machine.quiet_of_ended hended
  exact ⟨m, (exact_bitmap sample_ok sample_whole run hquiet).1, hcheck⟩

end Volume

end Xv6
