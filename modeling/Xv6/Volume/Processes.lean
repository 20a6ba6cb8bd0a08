import Mathlib.Algebra.BigOperators.Fin
import Xv6.Volume.Syscalls

/-!
# `fork` and `exit`, interleaved

The parent takes references for the child, one after another, and hands all of them on when the
child can run.  A process that exits gives up what it has, and its slot is free afterwards.
-/

namespace Xv6

open Files Interleaving References
open Inodes (Ptr)
open Ftable (FileId Fd)

namespace Volume

variable {P : Type} [Fintype P] [DecidableEq P] {s t : Volume P × Ghost P} {p q child initproc : P}
variable {j cwd : Ptr} {f : FileId} {fd : Fd} {sb : Superblock} {devsw : Devsw} {l : Local}
variable {V : Multiset Ptr} {F : Multiset FileId}

/-! ## `exit` -/

theorem spec_exitFd (hl : l.Ready) :
    Spec P sb p (Has p l) (exitFd p fd) fun _ s => ∃ l' : Local, (l'.Ready ∧ l'.ofile fd = none ∧
      ∀ fd', l.ofile fd' = none → l'.ofile fd' = none) ∧ Has p l' s := by
  refine spec_argfd.bind fun r => Logic.meets_and fun hr => ?_
  cases hfd : l.ofile fd with
  | none =>
      rw [hr, hfd]
      exact Logic.Meets.of_imp Logic.meets_pure fun s _ h => ⟨l, ⟨hl, hfd, fun _ h => h⟩, h⟩
  | some f =>
      rw [hr, hfd]
      -- the descriptor still has the number of the file while the file is closed
      have hhold : l = Local.hold { l with fvars := (l.close fd).fvars } f := by
        rw [Local.hold, ← hl.fvars_close hfd]
      have hclose : Spec P sb p (Has p l) (fileclose p f) fun _ =>
          Has p { l with fvars := (l.close fd).fvars } := by
        nth_rewrite 1 [hhold]
        exact spec_fileclose hl.locks_vars
      refine hclose.bind fun _ => spec_setOfile.mono fun _ s _ h => ⟨l.close fd,
        ⟨hl.close hfd, Function.update_self .., fun fd' hfd' => ?_⟩, h⟩
      show Function.update l.ofile fd none fd' = none
      by_cases heq : fd' = fd
      · rw [heq, Function.update_self]
      · rw [Function.update_of_ne heq, hfd']

theorem spec_exitFds (hl : l.Ready) :
    Spec P sb p (Has p l) ((List.finRange NOFILE).forM (exitFd p)) fun _ s =>
      ∃ l' : Local, (l'.Ready ∧ ∀ fd, l'.ofile fd = none) ∧ Has p l' s := by
  refine Logic.Meets.of_imp (Logic.Meets.mono (Logic.meets_forM (I := fun rest s =>
      ∃ l : Local, (l.Ready ∧ ∀ fd, fd ∉ rest → l.ofile fd = none) ∧ Has p l s)
    fun fd rest _ => ?_) fun _ s _ h => ?_) fun s _ h => ?_
  · refine Logic.meets_exists fun l => Logic.meets_and fun ⟨hl, hdone⟩ =>
      (spec_exitFd hl).mono fun _ s _ h => ?_
    obtain ⟨l', ⟨hl', hfd, hkeep⟩, h⟩ := h
    refine ⟨l', ⟨hl', fun fd' hmem => ?_⟩, h⟩
    by_cases heq : fd' = fd
    · rw [heq, hfd]
    · exact hkeep fd' (hdone fd' (by simp [heq, hmem]))
  · obtain ⟨l, ⟨hl, hdone⟩, h⟩ := h
    exact ⟨l, ⟨hl, fun fd => hdone fd (List.not_mem_nil)⟩, h⟩
  · exact ⟨l, ⟨hl, fun fd hfd => absurd (List.mem_finRange fd) hfd⟩, h⟩

theorem slots_none {a : Fd → Option FileId} (h : ∀ fd, a fd = none) : References.slots a = 0 :=
  Finset.sum_eq_zero fun fd _ => by rw [h fd, References.place_none]

theorem spec_exit (hl : l.Ready) : Spec P sb p (Has p l) (exit p initproc) fun _ => Idle p := by
  rw [exit]
  split
  · exact Logic.meets_fail (by simp [logic, Expected])
  refine (spec_exitFds hl).bind fun _ => Logic.meets_exists fun l => Logic.meets_and fun hl => ?_
  obtain ⟨hl, hnone⟩ := hl
  obtain ⟨cwd, hcwd, hvars⟩ := hl.rooted
  have hkeep : l = Local.keep { l with vars := 0 } cwd := by
    rw [Local.keep, Multiset.cons_zero, ← hvars]
  refine (spec_cwd hcwd).bind fun r => Logic.meets_and fun hr => ?_
  have hput : Spec P sb p (Has p l) (iput p cwd) fun _ => Has p { l with vars := 0 } := by
    nth_rewrite 1 [hkeep]
    exact spec_iput
  rw [hr]
  refine hput.bind fun _ => Logic.meets_atomic stable_has fun s hs h => ?_
  have hfvars : s.2.fvars p = 0 := by
    rw [h.core.fvars]
    exact hl.fvars.trans (slots_none hnone)
  have htable := Table.rehome none (u := false) (p := p) hs fun _ => ⟨h.core.vars, hfvars⟩
  refine Logic.does_next (a := ⟨⟩) rfl (htable.inv hs) htable.frame
    ⟨h.hand, fun j hlock => hl.notMem j ((h.core.lock j).mp hlock), fun hused => ?_⟩
  have hself : (Function.update s.1.used p false) p = false := Function.update_self ..
  exact absurd (hused.symm.trans hself) (by simp)

/-! ## `fork` -/

/-- What the descriptors `fds` refer to. -/
def filesOf (l : Local) (fds : List Fd) : Multiset FileId :=
  (fds.map fun fd => References.place (l.ofile fd)).sum

theorem filesOf_all (l : Local) : filesOf l (List.finRange NOFILE) = References.slots l.ofile :=
  (Fin.sum_univ_def _).symm

theorem spec_forkFd (hl : l.Ready) (M : Multiset FileId) :
    Spec P sb p (Has p { l with fvars := M + l.fvars }) (forkFd p fd) fun _ =>
      Has p { l with fvars := (M + References.place (l.ofile fd)) + l.fvars } := by
  refine spec_argfd.bind fun r => Logic.meets_and fun hr => ?_
  have hr : r = l.ofile fd := hr
  cases hfd : l.ofile fd with
  | none =>
      rw [hr, hfd, References.place_none, add_zero]
      exact Logic.Meets.of_imp Logic.meets_pure fun s _ h => h
  | some f =>
      rw [hr, hfd, References.place_some]
      have hhold : Local.hold { l with fvars := M + l.fvars } f =
          { l with fvars := M + {f} + l.fvars } := by
        refine congrArg (fun fvars => { l with fvars := fvars }) ?_
        rw [add_assoc, Multiset.singleton_add, Multiset.add_cons]
      rw [← hhold]
      exact spec_filedup (Multiset.mem_add.mpr (Or.inr (hl.mem hfd)))

theorem spec_forkFds (hl : l.Ready) :
    Spec P sb p (Has p l) ((List.finRange NOFILE).forM (forkFd p)) fun _ =>
      Has p { l with fvars := l.fvars + l.fvars } := by
  refine Logic.Meets.of_imp (Logic.Meets.mono (Logic.meets_forM (I := fun rest s =>
      ∃ M, M + filesOf l rest = l.fvars ∧ Has p { l with fvars := M + l.fvars } s)
    fun fd rest _ => ?_) fun _ s _ h => ?_) fun s _ h => ?_
  · refine Logic.meets_exists fun M => Logic.meets_and fun hM =>
      (spec_forkFd hl M).mono fun _ s _ h => ⟨_, ?_, h⟩
    rw [← hM, filesOf, filesOf, List.map_cons, List.sum_cons, add_assoc]
  · obtain ⟨M, hM, h⟩ := h
    rw [filesOf, List.map_nil, List.sum_nil, add_zero] at hM
    rwa [hM] at h
  · refine ⟨0, ?_, ?_⟩
    · rw [zero_add, filesOf_all, hl.fvars]
    · rwa [zero_add]

/-- The child has half of what the parent has. -/
def birth (s : Volume P × Ghost P) (p child : P) (cwd : Ptr) (F : Multiset FileId) :
    Volume P × Ghost P :=
  (s.1.inherit p child cwd, { s.2 with
    vars := Function.update (Function.update s.2.vars p {cwd}) child {cwd}
    fvars := Function.update (Function.update s.2.fvars p F) child F })

/-- The parent when the child can run. -/
structure Bearing (s : Volume P × Ghost P) (p child : P) (cwd : Ptr) (F : Multiset FileId) :
    Prop where
  used : s.1.used p = true
  free : s.1.used child = false
  vars : s.2.vars p = {cwd} + {cwd}
  fvars : s.2.fvars p = F + F
  files : F = References.slots (s.1.ofile p)
  ips : ∀ f ∈ F, (s.1.file f).ip ≠ none
  lock : ∀ j, (s.1.entry j).lock ≠ some p

namespace Bearing

omit [Fintype P] [DecidableEq P] in
theorem ne (h : Bearing s p child cwd F) : p ≠ child := by
  rintro rfl
  exact absurd (h.used.symm.trans h.free) (by simp)

omit [Fintype P] in
theorem vars_of_ne (hp : q ≠ p) (hchild : q ≠ child) :
    (birth s p child cwd F).2.vars q = s.2.vars q :=
  (Function.update_of_ne hchild ..).trans (Function.update_of_ne hp ..)

omit [Fintype P] in
theorem fvars_of_ne (hp : q ≠ p) (hchild : q ≠ child) :
    (birth s p child cwd F).2.fvars q = s.2.fvars q :=
  (Function.update_of_ne hchild ..).trans (Function.update_of_ne hp ..)

omit [Fintype P] in
theorem vars_child : (birth s p child cwd F).2.vars child = {cwd} := Function.update_self ..

omit [Fintype P] in
theorem fvars_child : (birth s p child cwd F).2.fvars child = F := Function.update_self ..

omit [Fintype P] in
theorem vars_parent (h : Bearing s p child cwd F) : (birth s p child cwd F).2.vars p = {cwd} :=
  (Function.update_of_ne h.ne ..).trans (Function.update_self ..)

omit [Fintype P] in
theorem fvars_parent (h : Bearing s p child cwd F) : (birth s p child cwd F).2.fvars p = F :=
  (Function.update_of_ne h.ne ..).trans (Function.update_self ..)

theorem table (h : Bearing s p child cwd F) (hs : Inv sb s) :
    Table p s (birth s p child cwd F) where
  disk := rfl
  place := rfl
  hand := rfl
  entry j := ⟨_, rfl⟩
  pos _ hj := hj
  same q hp hused := by
    have hchild : q ≠ child := fun heq => by
      rw [heq, h.free] at hused
      cases hused
    exact ⟨Function.update_of_ne hchild .., Function.update_of_ne hchild ..,
      Function.update_of_ne hchild .., vars_of_ne hp hchild, fvars_of_ne hp hchild⟩
  born q hp hunused hidle := by
    refine ⟨hidle.hand, hidle.lock, fun hused => ?_⟩
    by_cases hchild : q = child
    · subst hchild
      rw [vars_child, fvars_child]
      have hofile : (birth s p q cwd F).1.ofile q = s.1.ofile p := Function.update_self ..
      rw [hofile]
      exact ⟨⟨cwd, Function.update_self .., rfl⟩, h.files, h.ips⟩
    · have hsame : (birth s p child cwd F).1.used q = s.1.used q := Function.update_of_ne hchild ..
      exact absurd (hused.symm.trans (hsame.trans hunused)) (by simp)
  uses q hp j huses := by
    have hchild : q ≠ child := fun heq => by
      subst heq
      obtain ⟨hvars, hfvars⟩ := hs.unused q h.free
      rcases huses with hvar | ⟨f, hf, -⟩
      · rw [hvars] at hvar
        exact absurd hvar (Multiset.notMem_zero j)
      · rw [hfvars] at hf
        exact absurd hf (Multiset.notMem_zero f)
    rw [Uses, vars_of_ne hp hchild, fvars_of_ne hp hchild]
    exact huses
  file _ _ f _ := SameFile.refl f s
  mine j hlock := absurd hlock (h.lock j)
  counted := by
    have hne : (Sum.inl p : P ⊕ FileId) ≠ .inl child := fun heq => h.ne (Sum.inl.inj heq)
    refine hs.counted.share (m := {cwd}) hne (fun e hp hchild => ?_) ?_ ?_
    · cases e with
      | inl q => exact vars_of_ne (fun heq => hp (by rw [heq])) fun heq => hchild (by rw [heq])
      | inr f => rfl
    · show s.2.vars p = {cwd} + (birth s p child cwd F).2.vars p
      rw [h.vars_parent, h.vars]
    · show (birth s p child cwd F).2.vars child = {cwd} + s.2.vars child
      rw [vars_child, (hs.unused child h.free).1, add_zero]
  files := by
    refine hs.files.share (m := F) h.ne (fun q hp hchild => fvars_of_ne hp hchild) ?_ ?_
    · rw [h.fvars_parent, h.fvars]
    · rw [fvars_child, (hs.unused child h.free).2, add_zero]
  closed := hs.closed
  fresh f q q' hip hq hq' := by
    have hold : ∀ r, f ∈ (birth s p child cwd F).2.fvars r → f ∈ s.2.fvars r := fun r hr => by
      by_cases hp : r = p
      · rw [hp, h.fvars_parent] at hr
        exact absurd hip (h.ips f hr)
      by_cases hchild : r = child
      · rw [hchild, fvars_child] at hr
        exact absurd hip (h.ips f hr)
      · rwa [fvars_of_ne hp hchild] at hr
    exact hs.fresh f q q' hip (hold q hq) (hold q' hq')
  unused q hunused := by
    have hchild : q ≠ child := fun heq => by
      have hself : (Function.update s.1.used child true) child = true := Function.update_self ..
      rw [heq] at hunused
      exact absurd (hself.symm.trans hunused) (by simp)
    have hsame : (birth s p child cwd F).1.used q = s.1.used q := Function.update_of_ne hchild ..
    have hp : q ≠ p := fun heq => by
      rw [heq] at hsame hunused
      exact absurd (h.used.symm.trans (hsame.symm.trans hunused)) (by simp)
    rw [vars_of_ne hp hchild, fvars_of_ne hp hchild]
    exact hs.unused q (hsame.symm.trans hunused)

end Bearing

theorem spec_fork (hl : l.Ready) : Spec P sb p (Has p l) (fork p child) fun _ => Back p := by
  refine (spec_look stable_has).bind fun used => ?_
  split
  · exact spec_return hl
  obtain ⟨cwd, hcwd, hvars⟩ := hl.rooted
  refine (spec_forkFds hl).bind fun _ =>
    (spec_cwd (l := { l with fvars := l.fvars + l.fvars }) hcwd).bind fun r =>
      Logic.meets_and fun hr => ?_
  rw [hr]
  have hmem : cwd ∈ l.vars := by
    rw [hvars]
    exact Multiset.mem_singleton_self cwd
  refine (spec_idup (l := { l with fvars := l.fvars + l.fvars }) (Or.inl hmem)).bind fun _ => ?_
  refine Logic.meets_atomic stable_has fun s hs h => ?_
  by_cases hchild : s.1.used child = true
  · exact Logic.does_blocked (if_pos hchild)
  have hbearing : Bearing s p child cwd l.fvars := by
    refine ⟨h.core.used, by simpa using hchild, ?_, h.core.fvars, ?_, fun f hf => ?_,
      fun j hlock => ?_⟩
    · rw [h.core.vars, Local.keep, hvars]
      rfl
    · rw [h.core.ofile]
      exact hl.fvars
    · rw [h.core.ip f (Multiset.mem_add.mpr (Or.inl hf))]
      exact hl.ips f hf
    · exact hl.notMem j ((h.core.lock j).mp hlock)
  have htable := hbearing.table hs
  refine Logic.does_next (if_neg hchild) (htable.inv hs) htable.frame ⟨l, hl, ⟨?_, ?_, ?_,
    hbearing.vars_parent.trans hvars.symm, hbearing.fvars_parent, ?_, h.core.lock⟩, h.hand,
    fun j hj => absurd hj (hl.notMem j)⟩
  · exact (Function.update_of_ne hbearing.ne ..).trans h.core.used
  · exact (Function.update_of_ne hbearing.ne ..).trans h.core.cwd
  · exact (Function.update_of_ne hbearing.ne ..).trans h.core.ofile
  · exact fun f hf => h.core.ip f (Multiset.mem_add.mpr (Or.inl hf))

end Volume

end Xv6
