import Xv6.Volume.Descriptors

/-!
# `fileread` and `filewrite`, interleaved

Whoever reads or writes has a reference to the file, so the file and its inode stay in place.  A
write goes in pieces, and the lock is given up between them.
-/

namespace Xv6

open Files Interleaving References
open Inodes (Ptr)
open Ftable (FileId Fd)

namespace Volume

variable {P : Type} [Fintype P] [DecidableEq P] {p : P} {i m : ℕ} {j : Ptr} {f : FileId}
variable {sb : Superblock} {devsw : Devsw} {l : Local} {src : ℕ → Byte} {n : Int32}

/-- The process has the file, and the file has an inode. -/
def Local.Reads (l : Local) (f : FileId) : Prop := f ∈ l.fvars ∧ l.ips f ≠ none

theorem Local.Reads.uses (h : l.Reads f) (hip : l.ips f = some j) : l.Uses j := Or.inr ⟨f, h.1, hip⟩

omit [DecidableEq P] in
theorem spec_getfile (hf : f ∈ l.fvars) :
    Spec P sb p (Has p l) (getfile f) fun file s => file.ip = l.ips f ∧ Has p l s :=
  (spec_read stable_has).mono fun file s _ ⟨h, hfile⟩ => ⟨by rw [hfile, h.core.ip f hf], h⟩

theorem spec_unlock (hj : j ∉ l.locks) :
    Spec P sb p (Has p (l.lock j)) (iunlock p j) fun _ => Has p l := by
  have hspec : Spec P sb p (Has p (l.lock j)) (iunlock p j) fun _ => Has p ((l.lock j).unlock j) :=
    spec_iunlock (Set.mem_insert ..)
  rwa [Local.unlock_lock hj] at hspec

theorem spec_filestat (hf : f ∈ l.fvars) :
    Spec P sb p (Has p l) (filestat p f) fun _ => Has p l := by
  refine (spec_getfile hf).bind fun file => Logic.meets_and fun hfile => ?_
  cases hip : file.ip with
  | none => exact Logic.meets_pure (Q := fun _ => Has p l)
  | some ip =>
      refine (spec_ilock (Or.inr ⟨f, hf, hfile.symm.trans hip⟩)).bind fun _ =>
        Logic.meets_and fun hj => (spec_look stable_has).bind fun st =>
          (spec_unlock hj).bind fun _ => Logic.meets_pure (Q := fun _ => Has p l)

theorem spec_fileread (hf : l.Reads f) :
    Spec P sb p (Has p l) (fileread p sb devsw f n) fun _ => Has p l := by
  refine (spec_getfile hf.1).bind fun file => Logic.meets_and fun hfile => ?_
  split
  · exact Logic.meets_pure (Q := fun _ => Has p l)
  cases hip : file.ip with
  | none => exact absurd (hfile.symm.trans hip) hf.2
  | some ip =>
      refine (spec_ilock (hf.uses (hfile.symm.trans hip))).bind fun _ => Logic.meets_and fun hj =>
        (spec_look stable_has).bind fun file' => ?_
      refine (spec_readi (Set.mem_insert ..) (UInt32.toNat_lt _)).bind fun ⟨r, data⟩ => ?_
      exact (spec_advance r).bind fun _ => (spec_unlock hj).bind fun _ =>
        Logic.meets_pure (Q := fun _ => Has p l)

theorem spec_writePiece (hf : l.Reads f) (hip : l.ips f = some j) (hm : m < 2 ^ 32) :
    Spec P sb p (Has p l) (writePiece p sb devsw f j src m i) fun r s =>
      (r = -1 ∨ r = m) ∧ Has p l s := by
  refine (spec_ilock (hf.uses hip)).bind fun _ => Logic.meets_and fun hj =>
    (spec_look stable_has).bind fun file' => ?_
  refine (spec_writei (Set.mem_insert ..) hm).bind fun r => Logic.meets_and fun hr => ?_
  exact (spec_advance r).bind fun _ => (spec_unlock hj).bind fun _ =>
    Logic.Meets.of_imp Logic.meets_pure fun s _ h => ⟨hr, h⟩

theorem chunk_lt (n : Int32) (i : ℕ) : chunk n i < 2 ^ 32 :=
  (min_le_right _ _).trans_lt (by decide)

/-- A piece is written as a whole or not at all. -/
theorem spec_writePieces (hf : l.Reads f) (hip : l.ips f = some j) :
    Spec P sb p (Has p l) (writePieces p sb devsw f j src n i) fun _ => Has p l := by
  induction hrest : n.toInt.toNat - i using Nat.strong_induction_on generalizing i with
  | _ rest ih =>
  subst hrest
  rw [writePieces]
  split
  · rename_i hlt
    refine (spec_writePiece hf hip (chunk_lt n i)).bind fun r => Logic.meets_and fun hr => ?_
    split
    · exact Logic.meets_pure (Q := fun _ => Has p l)
    rename_i hneg
    have hwhole : r = chunk n i := hr.resolve_left (by omega)
    rw [dif_neg (not_not.mpr hwhole)]
    refine ih _ ?_ rfl
    have : 0 < writeMax := by decide
    unfold chunk at hwhole
    omega
  · exact Logic.meets_pure (Q := fun _ => Has p l)

theorem spec_filewrite (hf : l.Reads f) :
    Spec P sb p (Has p l) (filewrite p sb devsw f src n) fun _ => Has p l := by
  refine (spec_getfile hf.1).bind fun file => Logic.meets_and fun hfile => ?_
  split
  · exact Logic.meets_pure (Q := fun _ => Has p l)
  cases hip : file.ip with
  | none => exact absurd (hfile.symm.trans hip) hf.2
  | some ip => exact spec_writePieces hf (hfile.symm.trans hip)

end Volume

end Xv6
