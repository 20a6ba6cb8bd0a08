import Xv6.Volume.FileIo

/-!
# System calls on paths, interleaved

`link`, `unlink`, and `create` with what is built on it.  Two inodes may be locked at once, a
directory and one that has been found in it; they are different, or the process would wait for
itself.
-/

namespace Xv6

open Files Interleaving References
open Inodes (Ptr)
open Ftable (FileId Fd)

namespace Volume

variable {P : Type} [Fintype P] [DecidableEq P] {p : P} {j k dp ip : Ptr} {f : FileId} {fd : Fd}
variable {sb : Superblock} {devsw : Devsw} {l : Local} {name : ℕ → Byte} {path old new : List Byte}
variable {off size : ℕ} {type major minor : Int16} {omode : UInt32}

/-- One inode is locked, with a reference to it. -/
def Local.grab (l : Local) (j : Ptr) : Local := (l.keep j).lock j

theorem Local.mem_grab : j ∈ (l.grab j).locks := Set.mem_insert ..

theorem Local.mem_grab_of_mem (hj : j ∈ l.locks) : j ∈ (l.grab k).locks :=
  Set.mem_insert_of_mem _ hj

theorem Local.grab_comm : (l.grab j).grab k = (l.grab k).grab j :=
  (congrArg (fun l => (l.lock j).lock k) keep_comm).trans lock_comm

theorem Local.grab_keep : (l.grab j).keep k = (l.keep k).grab j :=
  congrArg (Local.lock · j) keep_comm

/-- Two locks may be taken in the other order. -/
theorem Local.grab_swap (hj : j ∉ l.locks) (hk : k ∉ (l.grab j).locks) :
    k ∉ l.locks ∧ j ∉ (l.grab k).locks := by
  obtain ⟨hkj, hkl⟩ := not_or.mp fun h => hk (Set.mem_insert_iff.mpr h)
  exact ⟨hkl, fun h => (Set.mem_insert_iff.mp h).elim (Ne.symm hkj) hj⟩

omit [DecidableEq P] in
theorem spec_grab : Spec P sb p (Has p (l.keep j)) (ilock p j) fun _ s =>
    j ∉ l.locks ∧ Has p (l.grab j) s := spec_ilock (Or.inl (Multiset.mem_cons_self ..))

theorem spec_ungrab (hj : j ∉ l.locks) :
    Spec P sb p (Has p (l.grab j)) (iunlockput p j) fun _ => Has p l := spec_iunlockput hj

theorem spec_loosen (hj : j ∉ l.locks) :
    Spec P sb p (Has p (l.grab j)) (iunlock p j) fun _ => Has p (l.keep j) :=
  spec_unlock (l := l.keep j) hj

/-! ## Fields -/

omit [DecidableEq P] in
/-- Fields of a locked inode are set, and it is written back. -/
theorem spec_update {α : Type} {g : Dinode → Dinode} {c : Routine P α}
    {Q : α → Volume P × Ghost P → Prop} (hj : j ∈ l.locks)
    (hg : ∀ d, (g d).addrs = d.addrs ∧ (g d).type = d.type ∧ (g d).size = d.size)
    (hc : Spec P sb p (Has p l) c Q) :
    Spec P sb p (Has p l) (do
      setinode j g
      iupdate j
      c) Q := by
  refine spec_of_open hj fun i d f hf => (spec_setinode (hg d).1 (hg d).2.1).bind fun _ =>
    spec_iupdate.bind fun _ => hc.of_imp fun s _ h => h.has_of_open ?_
  rwa [(hg d).2.2]

omit [DecidableEq P] in
theorem spec_addLinks (d : Int16) (hj : j ∈ l.locks) :
    Spec P sb p (Has p l) (addLinks j d) fun _ => Has p l := by
  refine spec_of_open hj fun i d' f hf => ?_
  refine (spec_setinode (g := fun inode => { inode with nlink := inode.nlink + d }) rfl rfl).bind
    fun _ => spec_iupdate.mono fun _ s _ h => h.has_of_open hf

/-! ## `link` -/

theorem spec_linkBad : Spec P sb p (Has p (l.keep j)) (linkBad p j) fun _ => Has p l :=
  spec_grab.bind fun _ => Logic.meets_and fun hj => (spec_addLinks _ Local.mem_grab).bind fun _ =>
    (spec_ungrab hj).bind fun _ => Logic.meets_pure (Q := fun _ => Has p l)

theorem spec_sysLink (hcwd : l.Rooted) :
    Spec P sb p (Has p l) (sysLink p sb devsw old new) fun _ => Has p l := by
  refine (spec_namei hcwd).bind fun r => ?_
  cases r with
  | none => exact Logic.meets_pure (Q := fun _ => Has p l)
  | some ip =>
      refine spec_grab.bind fun _ => Logic.meets_and fun hip =>
        (spec_look stable_has).bind fun e => ?_
      split
      · exact (spec_ungrab hip).bind fun _ => Logic.meets_pure (Q := fun _ => Has p l)
      refine (spec_addLinks _ Local.mem_grab).bind fun _ => (spec_loosen hip).bind fun _ =>
        (spec_nameiparent hcwd.keep).bind fun ⟨r, name⟩ => ?_
      cases r with
      | none => exact spec_linkBad
      | some dp =>
          refine spec_grab.bind fun _ => Logic.meets_and fun hdp => (spec_look stable_has).bind
            fun e => (spec_look stable_has).bind fun e' => ?_
          have hlast : ∀ linked : ℤ, Spec P sb p (Has p ((l.keep ip).grab dp)) (do
              iunlockput p dp
              if linked < 0 then linkBad p ip
              else
                iput p ip
                pure 0) fun _ => Has p l := fun linked => (spec_ungrab hdp).bind fun _ => by
            split
            · exact spec_linkBad
            · exact spec_iput.bind fun _ => Logic.meets_pure (Q := fun _ => Has p l)
          dsimp only
          split
          · exact (spec_look stable_has).bind fun e => (spec_dirlink Local.mem_grab).bind hlast
          · exact hlast _

/-! ## `unlink` -/

theorem spec_isdiremptyFrom (hj : j ∈ l.locks) :
    Spec P sb p (Has p l) (isdiremptyFrom p sb devsw j size off) fun _ => Has p l := by
  induction hrest : size - off using Nat.strong_induction_on generalizing off with
  | _ rest ih =>
  subst hrest
  rw [isdiremptyFrom]
  by_cases hlt : off < size
  · rw [if_pos hlt]
    refine (spec_readDirent hj (by simp [Expected])).bind fun de => ?_
    split
    · exact Logic.meets_pure (Q := fun _ => Has p l)
    · refine ih _ ?_ rfl
      unfold direntSize
      omega
  · rw [if_neg hlt]
    exact Logic.meets_pure (Q := fun _ => Has p l)

theorem spec_unlinkFound (hdp : dp ∉ l.locks) (hip : ip ∉ (l.grab dp).locks) :
    Spec P sb p (Has p ((l.grab dp).grab ip)) (unlinkFound p sb devsw dp ip off)
      fun _ => Has p l := by
  have hmem : ip ∈ ((l.grab dp).grab ip).locks := Local.mem_grab
  have hmem' : dp ∈ ((l.grab dp).grab ip).locks := Local.mem_grab_of_mem Local.mem_grab
  refine (spec_look stable_has).bind fun e => ?_
  split
  · exact Logic.meets_fail (by simp [logic, Expected])
  obtain ⟨hip', hdp'⟩ := Local.grab_swap hdp hip
  have hfirst : Spec P sb p (Has p ((l.grab dp).grab ip)) (iunlockput p dp)
      fun _ => Has p (l.grab ip) := by
    rw [Local.grab_comm]
    exact spec_ungrab hdp'
  have hend : Spec P sb p (Has p ((l.grab dp).grab ip)) (do
      iunlockput p dp
      addLinks ip (-1)
      iunlockput p ip
      pure (0 : ℤ)) fun _ => Has p l :=
    hfirst.bind fun _ => (spec_addLinks _ Local.mem_grab).bind fun _ =>
      (spec_ungrab hip').bind fun _ => Logic.meets_pure (Q := fun _ => Has p l)
  have hlast : ∀ busy : Bool, Spec P sb p (Has p ((l.grab dp).grab ip)) (
      if busy then do
        iunlockput p ip
        iunlockput p dp
        pure (-1)
      else do
        if (← writei p sb devsw dp (fun _ => 0) off direntSize) ≠ direntSize then
          Code.fail "unlink: writei"
        else
          if (← getinode ip).type = Files.T_DIR then addLinks dp (-1)
          iunlockput p dp
          addLinks ip (-1)
          iunlockput p ip
          pure 0) fun _ => Has p l := fun busy => by
    split
    · exact (spec_ungrab hip).bind fun _ => (spec_ungrab hdp).bind fun _ =>
        Logic.meets_pure (Q := fun _ => Has p l)
    refine (spec_writei hmem' direntSize_lt).bind fun r => Logic.meets_and fun _ => ?_
    split
    · exact Logic.meets_fail (by simp [logic, Expected])
    refine (spec_look stable_has).bind fun e => ?_
    dsimp only
    split
    · exact (spec_addLinks _ hmem').bind fun _ => hend
    · exact hend
  refine (spec_look stable_has).bind fun e' => ?_
  dsimp only
  split
  · exact (spec_look stable_has).bind fun e'' => (spec_isdiremptyFrom hmem).bind fun free =>
      hlast (!free)
  · exact hlast false

theorem spec_sysUnlink (hcwd : l.Rooted) :
    Spec P sb p (Has p l) (sysUnlink p sb devsw path) fun _ => Has p l := by
  refine (spec_nameiparent hcwd).bind fun ⟨r, name⟩ => ?_
  cases r with
  | none => exact Logic.meets_pure (Q := fun _ => Has p l)
  | some dp =>
      refine spec_grab.bind fun _ => Logic.meets_and fun hdp => ?_
      split
      · exact (spec_ungrab hdp).bind fun _ => Logic.meets_pure (Q := fun _ => Has p l)
      refine (spec_dirlookup Local.mem_grab).bind fun r => ?_
      cases r with
      | none => exact (spec_ungrab hdp).bind fun _ => Logic.meets_pure (Q := fun _ => Has p l)
      | some found =>
          exact spec_grab.bind fun _ => Logic.meets_and fun hip => spec_unlinkFound hdp hip

/-! ## `create` -/

/-- The locked inode that is returned, if there is one. -/
def Local.grabbed (l : Local) (r : Option Ptr) : Local := r.elim l l.grab

omit [DecidableEq P] in
/-- Nothing comes after an error. -/
theorem spec_fail {α β : Type} {message : String} {c : α → Routine P β}
    {A : Volume P × Ghost P → Prop} {Q : β → Volume P × Ghost P → Prop}
    (hmessage : Expected message) : Spec P sb p A (Code.fail message >>= c) Q :=
  (Logic.meets_fail (Q := fun _ _ => False) hmessage).bind fun _ => Logic.meets_false

theorem spec_createNew (hdp : dp ∉ l.locks) :
    Spec P sb p (Has p (l.grab dp)) (createNew p sb devsw dp name type major minor)
      fun ip s => ip ∉ l.locks ∧ Has p (l.grab ip) s := by
  refine spec_of_uses Local.mem_grab fun huses => (spec_dev huses).bind fun e =>
    Logic.meets_and fun hdev => ?_
  rw [hdev]
  refine spec_ialloc.bind fun ip => spec_grab.bind fun _ => Logic.meets_and fun hip => ?_
  obtain ⟨hip', hdp'⟩ := Local.grab_swap hdp hip
  have hmem : ip ∈ ((l.grab dp).grab ip).locks := Local.mem_grab
  have hmem' : dp ∈ ((l.grab dp).grab ip).locks := Local.mem_grab_of_mem Local.mem_grab
  refine spec_update hmem (fun d => ⟨rfl, rfl, rfl⟩) ?_
  have hend : Spec P sb p (Has p ((l.grab dp).grab ip)) (do
      let linked ← dirlink p sb devsw dp name (← getinode ip).inum
      if linked < 0 then Code.fail "create: dirlink"
      iunlockput p dp
      pure ip) fun ip s => ip ∉ l.locks ∧ Has p (l.grab ip) s := by
    refine (spec_look stable_has).bind fun e => (spec_dirlink hmem').bind fun linked => ?_
    dsimp only
    split
    · exact spec_fail (by simp [Expected])
    rw [Local.grab_comm]
    exact (spec_ungrab hdp').bind fun _ =>
      Logic.Meets.of_imp Logic.meets_pure fun s _ h => ⟨hip', h⟩
  split
  · refine (spec_addLinks _ hmem').bind fun _ => (spec_look stable_has).bind fun e =>
      (spec_dirlink hmem).bind fun dot => ?_
    split
    · exact spec_fail (by simp [Expected])
    refine (spec_look stable_has).bind fun e' => (spec_dirlink hmem).bind fun dotdot => ?_
    split
    · exact spec_fail (by simp [Expected])
    exact hend
  · exact hend

/-- The inode is returned locked. -/
theorem spec_create (hcwd : l.Rooted) :
    Spec P sb p (Has p l) (create p sb devsw path type major minor) fun r s =>
      (∀ ip, r = some ip → ip ∉ l.locks) ∧ Has p (l.grabbed r) s := by
  refine (spec_nameiparent hcwd).bind fun ⟨r, name⟩ => ?_
  cases r with
  | none => exact Logic.Meets.of_imp Logic.meets_pure fun s _ h => ⟨fun _ hr => (by cases hr), h⟩
  | some dp =>
      refine spec_grab.bind fun _ => Logic.meets_and fun hdp =>
        (spec_dirlookup Local.mem_grab).bind fun r => ?_
      cases r with
      | none =>
          refine (spec_createNew hdp).bind fun ip => Logic.meets_and fun hip => ?_
          exact Logic.Meets.of_imp Logic.meets_pure fun s _ h =>
            ⟨fun _ hr => Option.some.inj hr ▸ hip, h⟩
      | some found =>
          obtain ⟨ip, off⟩ := found
          have hput : Spec P sb p (Has p ((l.grab dp).keep ip)) (iunlockput p dp)
              fun _ => Has p (l.keep ip) := by
            rw [Local.grab_keep]
            exact spec_ungrab (l := l.keep ip) hdp
          refine hput.bind fun _ => spec_grab.bind fun _ => Logic.meets_and fun hip => ?_
          refine (spec_look stable_has).bind fun e => ?_
          split
          · exact Logic.Meets.of_imp Logic.meets_pure fun s _ h =>
              ⟨fun _ hr => Option.some.inj hr ▸ hip, h⟩
          · exact (spec_ungrab hip).bind fun _ => Logic.Meets.of_imp Logic.meets_pure fun s _ h =>
              ⟨fun _ hr => (by cases hr), h⟩

end Volume

end Xv6
