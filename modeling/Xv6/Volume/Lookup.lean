import Xv6.Volume.Cache

/-!
# Directories and path names, interleaved

`namex` has one reference at any time, and locks one directory after another.  What it returns, it
returns with a reference: `l.given r`.
-/

namespace Xv6

open Files Interleaving
open Inodes (Ptr)
open Ftable (FileId Fd)

namespace Volume

namespace Local

variable {l : Local} {j k : Ptr}

/-- There is a reference to what has been returned. -/
def given (l : Local) (r : Option Ptr) : Local := r.elim l l.keep

theorem keep_comm : (l.keep j).keep k = (l.keep k).keep j := by
  rw [keep, keep]
  exact congrArg (fun vars => { l with vars := vars }) (Multiset.cons_swap ..)

theorem lock_comm : (l.lock j).lock k = (l.lock k).lock j := by
  rw [lock, lock]
  exact congrArg (fun locks => { l with locks := locks }) (Set.insert_comm ..)

/-- The current directory is there. -/
def Rooted (l : Local) : Prop := ∃ cwd, l.cwd = some cwd ∧ cwd ∈ l.vars

theorem Rooted.keep (h : l.Rooted) : (l.keep j).Rooted := by
  obtain ⟨cwd, hcwd, hmem⟩ := h
  exact ⟨cwd, hcwd, Multiset.mem_cons_of_mem hmem⟩

end Local

variable {P : Type} [Fintype P] [DecidableEq P] {p : P} {j k : Ptr} {sb : Superblock}
variable {devsw : Devsw} {l : Local} {off size inum : ℕ} {name : ℕ → Byte} {path : List Byte}

theorem direntSize_lt : direntSize < 2 ^ 32 := by decide

omit [DecidableEq P] in
/-- All inodes are on one device. -/
theorem spec_dev (huses : l.Uses j) :
    Spec P sb p (Has p l) (getinode j) fun e s => e.dev = ROOTDEV ∧ Has p l s :=
  (spec_getinode stable_has).mono fun e s hs ⟨h, he⟩ =>
    ⟨by rw [he]; exact hs.dev j (hs.ref_pos (h.core.uses.mpr huses)), h⟩

/-! ## Directories -/

theorem spec_readDirent {message : String} (hj : j ∈ l.locks) (hmessage : Expected message) :
    Spec P sb p (Has p l) (readDirent p sb devsw j off message) fun _ => Has p l := by
  refine (spec_readi hj direntSize_lt).bind fun ⟨r, bytes⟩ => ?_
  dsimp only
  split
  · exact Logic.meets_fail hmessage
  · exact Logic.meets_pure (Q := fun _ => Has p l)

theorem spec_lookupFrom (hj : j ∈ l.locks) :
    Spec P sb p (Has p l) (lookupFrom p sb devsw j name size off)
      fun r => Has p (l.given (r.map Prod.fst)) := by
  induction hrest : size - off using Nat.strong_induction_on generalizing off with
  | _ rest ih =>
  subst hrest
  rw [lookupFrom]
  by_cases hlt : off < size
  · have hnext : size - (off + direntSize) < size - off := by
      unfold direntSize
      omega
    rw [if_pos hlt]
    refine (spec_readDirent hj (by simp [Expected])).bind fun de => ?_
    split
    · exact ih _ hnext rfl
    split
    · refine spec_of_uses hj fun huses => (spec_dev huses).bind fun e =>
        Logic.meets_and fun hdev => ?_
      rw [hdev]
      exact spec_iget.bind fun ip => Logic.Meets.of_imp Logic.meets_pure fun s _ h => h
    · exact ih _ hnext rfl
  · rw [if_neg hlt]
    exact Logic.Meets.of_imp Logic.meets_pure fun s _ h => h

theorem spec_dirlookup (hj : j ∈ l.locks) :
    Spec P sb p (Has p l) (dirlookup p sb devsw j name)
      fun r => Has p (l.given (r.map Prod.fst)) := by
  refine (spec_look stable_has).bind fun e => ?_
  split
  · exact Logic.meets_fail (by simp [logic, Expected])
  · exact spec_lookupFrom hj

theorem spec_emptyFrom (hj : j ∈ l.locks) :
    Spec P sb p (Has p l) (emptyFrom p sb devsw j size off) fun _ => Has p l := by
  induction hrest : size - off using Nat.strong_induction_on generalizing off with
  | _ rest ih =>
  subst hrest
  rw [emptyFrom]
  by_cases hlt : off < size
  · rw [if_pos hlt]
    refine (spec_readDirent hj (by simp [Expected])).bind fun de => ?_
    split
    · exact Logic.meets_pure (Q := fun _ => Has p l)
    · refine ih _ ?_ rfl
      unfold direntSize
      omega
  · rw [if_neg hlt]
    exact Logic.meets_pure (Q := fun _ => Has p l)

theorem spec_dirlink (hj : j ∈ l.locks) :
    Spec P sb p (Has p l) (dirlink p sb devsw j name inum) fun _ => Has p l := by
  refine (spec_dirlookup hj).bind fun r => ?_
  cases r with
  | some found =>
      refine spec_iput.bind fun _ => ?_
      exact Logic.meets_pure (Q := fun _ => Has p l)
  | none =>
      refine (spec_look stable_has).bind fun e => (spec_emptyFrom hj).bind fun off => ?_
      dsimp only
      refine (spec_writei hj direntSize_lt).bind fun r => Logic.meets_and fun _ => ?_
      split
      · exact Logic.meets_fail (by simp [logic, Expected])
      · exact Logic.meets_pure (Q := fun _ => Has p l)

/-! ## Path names -/

theorem spec_namexFrom {parent : Bool} :
    Spec P sb p (Has p (l.keep j)) (namexFrom p sb devsw parent j path name)
      fun r => Has p (l.given r.1) := by
  induction hlen : path.length using Nat.strong_induction_on generalizing path name j with
  | _ len ih =>
  subst hlen
  rw [namexFrom]
  split
  · rename_i path' name' hskip
    have hmem : j ∈ (l.lock j).locks := Set.mem_insert ..
    refine (spec_ilock (Or.inl (Multiset.mem_cons_self ..))).bind fun _ =>
      Logic.meets_and fun hj => ?_
    have hj : j ∉ l.locks := hj
    refine (spec_look stable_has).bind fun e => ?_
    split
    · exact (spec_iunlockput hj).bind fun _ => Logic.Meets.of_imp Logic.meets_pure fun s _ h => h
    split
    · refine (spec_iunlock (l := (l.keep j).lock j) hmem).bind fun _ => ?_
      rw [Local.unlock_lock (l := l.keep j) hj]
      exact Logic.Meets.of_imp Logic.meets_pure fun s _ h => h
    refine (spec_dirlookup (l := (l.keep j).lock j) hmem).bind fun r => ?_
    cases r with
    | none =>
        exact (spec_iunlockput hj).bind fun _ => Logic.Meets.of_imp Logic.meets_pure fun s _ h => h
    | some found =>
        have hcomm : ((l.keep found.1).keep j).lock j = ((l.keep j).lock j).keep found.1 :=
          congrArg (Local.lock · j) Local.keep_comm
        have hput : Spec P sb p (Has p (((l.keep found.1).keep j).lock j)) (iunlockput p j)
            fun _ => Has p (l.keep found.1) := spec_iunlockput hj
        rw [hcomm] at hput
        exact hput.bind fun _ => ih _ (length_skipelem hskip) rfl
  · split
    · exact spec_iput.bind fun _ => Logic.Meets.of_imp Logic.meets_pure fun s _ h => h
    · exact Logic.Meets.of_imp Logic.meets_pure fun s _ h => h

theorem spec_startOf (hcwd : l.Rooted) :
    Spec P sb p (Has p l) (startOf p path) fun j => Has p (l.keep j) := by
  obtain ⟨cwd, hcwd, hmem⟩ := hcwd
  rw [startOf]
  split
  · exact spec_iget
  · refine Logic.Meets.bind (Q := fun r s => r = some cwd ∧ Has p l s)
      ((spec_read stable_has).mono fun r s _ ⟨h, hr⟩ => ⟨by rw [hr, h.core.cwd, hcwd], h⟩)
      fun r => Logic.meets_and fun hr => ?_
    subst hr
    exact (spec_idup (Or.inl hmem)).bind fun _ => Logic.Meets.of_imp Logic.meets_pure fun s _ h => h

theorem spec_namex {parent : Bool} (hcwd : l.Rooted) :
    Spec P sb p (Has p l) (namex p sb devsw path parent) fun r => Has p (l.given r.1) :=
  (spec_startOf hcwd).bind fun _ => spec_namexFrom

theorem spec_namei (hcwd : l.Rooted) :
    Spec P sb p (Has p l) (namei p sb devsw path) fun r => Has p (l.given r) :=
  (spec_namex hcwd).bind fun _ => Logic.Meets.of_imp Logic.meets_pure fun _ _ h => h

theorem spec_nameiparent (hcwd : l.Rooted) :
    Spec P sb p (Has p l) (nameiparent p sb devsw path) fun r => Has p (l.given r.1) :=
  spec_namex hcwd

end Volume

end Xv6
