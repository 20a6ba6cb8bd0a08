import Xv6.Volume.Links

/-!
# A system call from end to end

`Ready` is what a process has between two calls: one reference for its current directory, one for
each descriptor, and no lock.  Every call starts there and comes back there, with other directories
and descriptors.
-/

namespace Xv6

open Files Interleaving References
open Inodes (Ptr)
open Ftable (FileId Fd)

namespace Volume

structure Local.Ready (l : Local) : Prop where
  rooted : ∃ cwd, l.cwd = some cwd ∧ l.vars = {cwd}
  fvars : l.fvars = References.slots l.ofile
  locks : l.locks = ∅
  ips : ∀ f ∈ l.fvars, l.ips f ≠ none

variable {P : Type} {s t : Volume P × Ghost P} {p q : P} {j ip : Ptr} {f : FileId} {fd : Fd}
variable {sb : Superblock} {devsw : Devsw} {l : Local} {path old new : List Byte} {src : ℕ → Byte}
variable {type major minor : Int16} {omode : UInt32} {n : Int32}

namespace Local.Ready

theorem notMem (h : l.Ready) (j : Ptr) : j ∉ l.locks := by
  rw [h.locks]
  exact Set.notMem_empty j

theorem locks_vars (h : l.Ready) : ∀ k ∈ l.locks, k ∈ l.vars := fun k hk => absurd hk (h.notMem k)

theorem cwd_mem (h : l.Ready) : l.Rooted := by
  obtain ⟨cwd, hcwd, hvars⟩ := h.rooted
  exact ⟨cwd, hcwd, by rw [hvars]; exact Multiset.mem_singleton_self cwd⟩

theorem mem (h : l.Ready) (hfd : l.ofile fd = some f) : f ∈ l.fvars := by
  rw [h.fvars]
  exact References.mem_slots.mpr ⟨fd, hfd⟩

theorem reads (h : l.Ready) (hfd : l.ofile fd = some f) : l.Reads f :=
  ⟨h.mem hfd, h.ips f (h.mem hfd)⟩

end Local.Ready

/-- The process is back from a call. -/
def Back (p : P) (s : Volume P × Ghost P) : Prop := ∃ l, Local.Ready l ∧ Has p l s

variable [Fintype P]

theorem spec_back {α : Type} {c : Routine P α} {A : Volume P × Ghost P → Prop}
    (hc : Spec P sb p A c fun _ => Has p l) (hl : l.Ready) : Spec P sb p A c fun _ => Back p :=
  hc.mono fun _ _ _ h => ⟨l, hl, h⟩

theorem spec_return {α : Type} {a : α} (hl : l.Ready) :
    Spec P sb p (Has p l) (pure a) fun _ => Back p :=
  Logic.Meets.of_imp Logic.meets_pure fun _ _ h => ⟨l, hl, h⟩

variable [DecidableEq P]

omit [DecidableEq P] in
theorem spec_argfd :
    Spec P sb p (Has p l) (argfd p fd) fun r s => r = l.ofile fd ∧ Has p l s :=
  (spec_read stable_has).mono fun r s _ ⟨h, hr⟩ => ⟨by rw [hr, h.core.ofile], h⟩

/-! ## Descriptors -/

theorem spec_sysRead (hl : l.Ready) :
    Spec P sb p (Has p l) (sysRead p sb devsw fd n) fun _ => Back p := by
  refine spec_argfd.bind fun r => Logic.meets_and fun hr => ?_
  cases hfd : l.ofile fd with
  | none =>
      rw [hr, hfd]
      exact spec_return hl
  | some f =>
      rw [hr, hfd]
      dsimp only
      split
      · exact spec_return hl
      · exact (spec_fileread (hl.reads hfd)).bind fun _ => spec_return hl

theorem spec_sysWrite (hl : l.Ready) :
    Spec P sb p (Has p l) (sysWrite p sb devsw fd src n) fun _ => Back p := by
  refine spec_argfd.bind fun r => Logic.meets_and fun hr => ?_
  cases hfd : l.ofile fd with
  | none =>
      rw [hr, hfd]
      exact spec_return hl
  | some f =>
      rw [hr, hfd]
      dsimp only
      split
      · exact spec_return hl
      · exact spec_back (spec_filewrite (hl.reads hfd)) hl

theorem spec_sysFstat (hl : l.Ready) : Spec P sb p (Has p l) (sysFstat p fd) fun _ => Back p := by
  refine spec_argfd.bind fun r => Logic.meets_and fun hr => ?_
  cases hfd : l.ofile fd with
  | none =>
      rw [hr, hfd]
      exact spec_return hl
  | some f =>
      rw [hr, hfd]
      refine (spec_filestat (hl.mem hfd)).bind fun st => ?_
      cases st <;> exact spec_return hl

/-- A descriptor gets a file of which there is a reference more. -/
theorem Local.Ready.fill (hl : l.Ready) (hfd : l.ofile fd = none) (ips : FileId → Option Ptr)
    (hf : ips f ≠ none) (hips : ∀ g ∈ l.fvars, ips g ≠ none) :
    Local.Ready { (l.hold f).setOfile fd (some f) with ips := ips } where
  rooted := hl.rooted
  fvars := by
    show f ::ₘ l.fvars = References.slots (Function.update l.ofile fd (some f))
    rw [hl.fvars, slots_fill hfd]
  locks := hl.locks
  ips g hg := (Multiset.mem_cons.mp hg).elim (fun heq => heq ▸ hf) (hips g)

theorem spec_sysDup (hl : l.Ready) : Spec P sb p (Has p l) (sysDup p fd) fun _ => Back p := by
  refine spec_argfd.bind fun r => Logic.meets_and fun hr => ?_
  cases hfd : l.ofile fd with
  | none =>
      rw [hr, hfd]
      exact spec_return hl
  | some f =>
      rw [hr, hfd]
      refine spec_fdalloc.bind fun r => ?_
      cases r with
      | none => exact spec_return hl
      | some fd' =>
          refine Logic.meets_and fun hfree =>
            (spec_filedup (l := l.setOfile fd' (some f)) (hl.mem hfd)).bind fun _ => ?_
          exact spec_return (hl.fill hfree l.ips (hl.ips f (hl.mem hfd)) hl.ips)

/-- A descriptor is taken away from its file. -/
def Local.close (l : Local) (fd : Fd) : Local :=
  { l with
    fvars := References.slots (Function.update l.ofile fd none)
    ofile := Function.update l.ofile fd none }

omit [Fintype P] [DecidableEq P] in
theorem Local.Ready.fvars_close (hl : l.Ready) (hfd : l.ofile fd = some f) :
    l.fvars = f ::ₘ (l.close fd).fvars := hl.fvars.trans (slots_clear hfd)

omit [Fintype P] [DecidableEq P] in
theorem Local.Ready.close (hl : l.Ready) (hfd : l.ofile fd = some f) : (l.close fd).Ready where
  rooted := hl.rooted
  fvars := rfl
  locks := hl.locks
  ips g hg := hl.ips g (by
    rw [hl.fvars_close hfd]
    exact Multiset.mem_cons_of_mem hg)

theorem spec_sysClose (hl : l.Ready) : Spec P sb p (Has p l) (sysClose p fd) fun _ => Back p := by
  refine spec_argfd.bind fun r => Logic.meets_and fun hr => ?_
  cases hfd : l.ofile fd with
  | none =>
      rw [hr, hfd]
      exact spec_return hl
  | some f =>
      rw [hr, hfd]
      have hhold : l.setOfile fd none = (l.close fd).hold f := by
        rw [Local.hold, ← hl.fvars_close hfd]
        rfl
      refine spec_setOfile.bind fun _ => ?_
      rw [hhold]
      exact (spec_fileclose (l := l.close fd) hl.locks_vars).bind fun _ =>
        spec_return (hl.close hfd)

/-! ## Paths -/

theorem spec_openInode (hl : l.Ready) :
    Spec P sb p (Has p l) (openInode p sb devsw path omode) fun r => Has p (l.grabbed r) := by
  rw [openInode]
  split
  · exact (spec_create hl.cwd_mem).mono fun r s _ h => h.2
  refine (spec_namei hl.cwd_mem).bind fun r => ?_
  cases r with
  | none => exact Logic.Meets.of_imp Logic.meets_pure fun s _ h => h
  | some ip =>
      refine spec_grab.bind fun _ => Logic.meets_and fun hip =>
        (spec_look stable_has).bind fun e => ?_
      split
      · exact (spec_ungrab hip).bind fun _ => Logic.Meets.of_imp Logic.meets_pure fun s _ h => h
      · exact Logic.Meets.of_imp Logic.meets_pure fun s _ h => h

/-- A file that has been closed again, without an inode. -/
theorem Local.Ready.forget (hl : l.Ready) (hf : f ∉ l.fvars) (r : Option Ptr) :
    Local.Ready { l with ips := Function.update l.ips f r } where
  rooted := hl.rooted
  fvars := hl.fvars
  locks := hl.locks
  ips g hg := by
    have hgf : g ≠ f := fun heq => hf (by rwa [← heq])
    show Function.update l.ips f r g ≠ none
    rw [Function.update_of_ne hgf]
    exact hl.ips g hg

theorem spec_sysOpen (hl : l.Ready) :
    Spec P sb p (Has p l) (sysOpen p sb devsw path omode) fun _ => Back p := by
  refine (spec_openInode hl).bind fun r => ?_
  cases r with
  | none => exact spec_return hl
  | some ip =>
      refine spec_filealloc.bind fun r => ?_
      cases r with
      | none => exact (spec_ungrab (hl.notMem ip)).bind fun _ => spec_return hl
      | some f =>
          refine Logic.meets_and fun hf => spec_fdalloc.bind fun r => ?_
          have hforget := hl.forget hf none
          cases r with
          | none =>
              refine (spec_fileclose (l := { l.grab ip with ips := Function.update l.ips f none })
                fun k hk => ?_).bind fun _ => ?_
              · exact (Set.mem_insert_iff.mp hk).elim (fun heq => heq ▸ Multiset.mem_cons_self ..)
                  fun hk => absurd hk (hl.notMem k)
              · exact (spec_ungrab (hforget.notMem ip)).bind fun _ => spec_return hforget
          | some fd =>
              refine Logic.meets_and fun hfd => ?_
              refine (spec_loosen (l := (l.create f).setOfile fd (some f)) (hl.notMem ip)).bind
                fun _ => ?_
              refine (spec_openFile (l := (l.create f).setOfile fd (some f))
                (Multiset.mem_cons_self ..) (Function.update_self ..)
                fun k hk => absurd hk (hl.notMem k)).bind fun _ => ?_
              refine spec_return (hl.fill hfd _ ?_ fun g hg => ?_)
              · rw [Function.update_self]
                exact Option.some_ne_none ip
              · have hgf : g ≠ f := fun heq => hf (by rwa [← heq])
                rw [Function.update_of_ne hgf]
                exact hforget.ips g hg

theorem spec_sysCreate (hl : l.Ready) :
    Spec P sb p (Has p l) (sysCreate p sb devsw path type major minor) fun _ => Back p := by
  refine (spec_create hl.cwd_mem).bind fun r => Logic.meets_and fun hr => ?_
  cases r with
  | none => exact spec_return hl
  | some ip => exact (spec_ungrab (hl.notMem ip)).bind fun _ => spec_return hl

/-! ## The current directory -/

/-- The current directory of the process becomes `cwd`, and `used` of it `u`. -/
def rehome (s : Volume P × Ghost P) (p : P) (cwd : Option Ptr) (u : Bool) : Volume P × Ghost P :=
  ({ s.1 with cwd := Function.update s.1.cwd p cwd, used := Function.update s.1.used p u }, s.2)

theorem Table.rehome (cwd : Option Ptr) {u : Bool} (hs : Inv sb s)
    (hu : u = false → s.2.vars p = 0 ∧ s.2.fvars p = 0) : Table p s (rehome s p cwd u) where
  disk := rfl
  place := rfl
  hand := rfl
  entry j := ⟨_, rfl⟩
  pos _ hj := hj
  same q hne _ := ⟨Function.update_of_ne hne .., Function.update_of_ne hne .., rfl, rfl, rfl⟩
  born q hne hunused hidle :=
    ⟨hidle.hand, hidle.lock, fun hused => by
      have hsame : (Function.update s.1.used p u) q = s.1.used q := Function.update_of_ne hne ..
      exact absurd (hused.symm.trans (hsame.trans hunused)) (by simp)⟩
  uses _ _ _ h := h
  file _ _ f _ := SameFile.refl f s
  mine j hlock := hs.locked j p hlock
  counted := hs.counted
  files := hs.files
  closed := hs.closed
  fresh := hs.fresh
  unused q hunused := by
    by_cases hq : q = p
    · subst hq
      have hself : (Function.update s.1.used q u) q = u := Function.update_self ..
      exact hu (hself.symm.trans hunused)
    · have hsame : (Function.update s.1.used p u) q = s.1.used q := Function.update_of_ne hq ..
      exact hs.unused q (hsame.symm.trans hunused)

theorem spec_setcwd :
    Spec P sb p (Has p l)
      (Code.modify fun v => { v with cwd := Function.update v.cwd p (some j) })
      fun _ => Has p { l with cwd := some j } := by
  refine Logic.meets_atomic stable_has fun s hs h => ?_
  have hsame : Function.update s.1.used p true = s.1.used := by
    rw [Function.update_eq_self_iff, h.core.used]
  have hstep : rehome s p (some j) true =
      ({ s.1 with cwd := Function.update s.1.cwd p (some j) }, s.2) := by
    rw [rehome, hsame]
  have htable := Table.rehome (some j) (u := true) (p := p) hs fun hu => by cases hu
  rw [hstep] at htable
  refine Logic.does_next (a := ⟨⟩) rfl (htable.inv hs) htable.frame
    ⟨⟨h.core.used, Function.update_self .., h.core.ofile, h.core.vars, h.core.fvars, h.core.ip,
      h.core.lock⟩, h.hand, fun k hk => htable.sound (h.sound k hk)⟩

omit [DecidableEq P] in
theorem spec_cwd {cwd : Ptr} (hcwd : l.cwd = some cwd) :
    Spec P sb p (Has p l) (Code.read fun v => v.cwd p) fun r s => r = some cwd ∧ Has p l s :=
  (spec_read stable_has).mono fun r s _ h => by
    rw [h.2, h.1.core.cwd]
    exact ⟨hcwd, h.1⟩

theorem spec_sysChdir (hl : l.Ready) :
    Spec P sb p (Has p l) (sysChdir p sb devsw path) fun _ => Back p := by
  refine (spec_namei hl.cwd_mem).bind fun r => ?_
  cases r with
  | none => exact spec_return hl
  | some ip =>
      refine spec_grab.bind fun _ => Logic.meets_and fun hip =>
        (spec_look stable_has).bind fun e => ?_
      split
      · exact (spec_ungrab hip).bind fun _ => spec_return hl
      obtain ⟨cwd, hcwd, hvars⟩ := hl.rooted
      have hswap : l.keep ip = Local.keep { l with vars := {ip} } cwd := by
        rw [Local.keep, hvars]
        exact congrArg (fun vars => { l with vars := vars }) (Multiset.pair_comm ip cwd)
      refine (spec_loosen hip).bind fun _ => (spec_cwd (l := l.keep ip) hcwd).bind fun r =>
        Logic.meets_and fun hr => ?_
      rw [hr, hswap]
      exact spec_iput.bind fun _ => spec_setcwd.bind fun _ =>
        spec_return ⟨⟨ip, rfl, rfl⟩, hl.fvars, hl.locks, hl.ips⟩

end Volume

end Xv6
