import Mathlib.Algebra.Group.Pi.Basic
import Xv6.Files.Content

/-!
# The inode cache

References to the entries of the cache, and their locks, for one system call at a time: a lock
that is held is never given back by somebody else.

`Moved` compares a state with an earlier one: nothing has changed except which inodes are in the
cache, and there are some more references.
-/

namespace Xv6.Files

open Faulting

variable {E : Fault → Kernel → Prop} {s t : Kernel} {ip j dev inum : ℕ}

/-! ## The code -/

def acquiresleep (ip : ℕ) : Fs PUnit := do
  if (← getinode ip).locked then throw .deadlock
  else setinode ip fun inode => { inode with locked := true }

def releasesleep (ip : ℕ) : Fs PUnit := setinode ip fun inode => { inode with locked := false }

/-- The loop looks for the inode, and for an empty entry on the way. -/
def iget (dev inum : ℕ) : Fs ℕ := do
  let s ← get
  let cached := fun ip => decide
    (0 < (s.icache ip).ref ∧ (s.icache ip).dev = dev ∧ (s.icache ip).inum = inum)
  match (List.range NINODE).find? cached with
  | some ip =>
      setinode ip fun inode => { inode with ref := inode.ref + 1 }
      pure ip
  | none =>
      match (List.range NINODE).find? fun ip => decide ((s.icache ip).ref = 0) with
      | some ip =>
          setinode ip fun inode =>
            { inode with dev := dev, inum := inum, ref := 1, valid := false }
          pure ip
      | none => fail "iget: no inodes"

def idup (ip : ℕ) : Fs ℕ := do
  setinode ip fun inode => { inode with ref := inode.ref + 1 }
  pure ip

def ilock (ip : ℕ) : Fs PUnit := do
  if (← getinode ip).ref < 1 then fail "ilock"
  else
    acquiresleep ip
    if !(← getinode ip).valid then
      let dip := (← get).disk.dinode (← getinode ip).inum
      setinode ip fun inode => { inode with toDinode := dip, valid := true }
      if dip.type = 0 then fail "ilock: no type"

def iunlock (ip : ℕ) : Fs PUnit := do
  let inode ← getinode ip
  if !inode.locked ∨ inode.ref < 1 then fail "iunlock"
  else releasesleep ip

/-- An inode without links is freed with the last reference. -/
def iput (ip : ℕ) : Fs PUnit := do
  acquiresleep ip
  let inode ← getinode ip
  if inode.valid ∧ inode.nlink = 0 ∧ inode.ref = 1 then
    itrunc ip
    setinode ip fun inode => { inode with type := 0 }
    iupdate ip
    setinode ip fun inode => { inode with valid := false }
  releasesleep ip
  setinode ip fun inode => { inode with ref := inode.ref - 1 }

def iunlockput (ip : ℕ) : Fs PUnit := do
  iunlock ip
  iput ip

/-! ## The cache -/

/-- An entry has been changed. -/
def Kernel.setInode (s : Kernel) (ip : ℕ) (inode : Inode) : Kernel :=
  { s with icache := Function.update s.icache ip inode }

@[simp] theorem setInode_self (s : Kernel) (ip : ℕ) (inode : Inode) :
    (s.setInode ip inode).icache ip = inode := Function.update_self ..

theorem setInode_of_ne {inode : Inode} (h : j ≠ ip) :
    (s.setInode ip inode).icache j = s.icache j := Function.update_of_ne h ..

@[simp] theorem setInode_disk (s : Kernel) (ip : ℕ) (inode : Inode) :
    (s.setInode ip inode).disk = s.disk := rfl

theorem setInode_setInode (s : Kernel) (ip : ℕ) (inode inode' : Inode) :
    (s.setInode ip inode).setInode ip inode' = s.setInode ip inode' := by
  simp [Kernel.setInode]

@[simp] theorem meets_getinode {Q : Inode → Kernel → Prop} :
    Meets E (getinode ip) Q s ↔ Q (s.icache ip) s := Iff.rfl

@[simp] theorem meets_setinode {f : Inode → Inode} {Q : PUnit → Kernel → Prop} :
    Meets E (setinode ip f) Q s ↔ Q ⟨⟩ (s.setInode ip (f (s.icache ip))) := Iff.rfl

/-- The cache is consistent.  `held` is the entry that is locked. -/
structure CacheOk (held : Option ℕ) (s : Kernel) : Prop where
  ref : ∀ j < NINODE, 0 ≤ (s.icache j).ref
  dev : ∀ j < NINODE, 0 < (s.icache j).ref → (s.icache j).dev = ROOTDEV
  inj : ∀ i < NINODE, ∀ j < NINODE, 0 < (s.icache i).ref → 0 < (s.icache j).ref →
    (s.icache i).inum = (s.icache j).inum → i = j
  copy : ∀ j < NINODE, 0 < (s.icache j).ref → (s.icache j).valid = true →
    (s.icache j).toDinode = s.disk.dinode (s.icache j).inum
  lock : ∀ j < NINODE, (s.icache j).locked = true ↔ held = some j

/-- Only the disk and the cache matter. -/
theorem CacheOk.congr {held : Option ℕ} (h : CacheOk held s) (hicache : t.icache = s.icache)
    (hdisk : t.disk = s.disk) : CacheOk held t := by
  refine ⟨?_, ?_, ?_, ?_, ?_⟩ <;> rw [hicache]
  · exact h.ref
  · exact h.dev
  · exact h.inj
  · rw [hdisk]
    exact h.copy
  · exact h.lock

/-- There are `extra` more references in `t` than in `s`, and otherwise only entries without
references have changed, or have been read from the disk. -/
structure Moved (extra : ℕ → ℤ) (held : Option ℕ) (s t : Kernel) : Prop where
  cache : CacheOk held t
  rest : { t with icache := s.icache } = s
  ref : ∀ j, (t.icache j).ref = (s.icache j).ref + extra j
  inum : ∀ j, 0 < (s.icache j).ref → (t.icache j).inum = (s.icache j).inum
  valid : ∀ j, 0 < (s.icache j).ref → (s.icache j).valid = true → (t.icache j).valid = true

variable {held held' : Option ℕ} {extra extra' : ℕ → ℤ} {inode : Inode} {d : ℤ}

theorem CacheOk.moved (h : CacheOk held s) : Moved 0 held s s where
  cache := h
  rest := rfl
  ref _ := (add_zero _).symm
  inum _ _ := rfl
  valid _ _ hvalid := hvalid

namespace Moved

theorem disk (h : Moved extra held s t) : t.disk = s.disk :=
  show ({ t with icache := s.icache } : Kernel).disk = s.disk from h.rest ▸ rfl

theorem ftable (h : Moved extra held s t) : t.ftable = s.ftable :=
  show ({ t with icache := s.icache } : Kernel).ftable = s.ftable from h.rest ▸ rfl

/-- No reference of the first state has been given up on the way. -/
theorem trans {u : Kernel} (h : Moved extra held s t) (h' : Moved extra' held' t u)
    (hextra : ∀ j, 0 ≤ extra j) : Moved (extra + extra') held' s u := by
  have hpos : ∀ j, 0 < (s.icache j).ref → 0 < (t.icache j).ref := fun j hj => by
    have := hextra j
    rw [h.ref]
    omega
  refine ⟨h'.cache, ?_, fun j => ?_, fun j hj => ?_, fun j hj hvalid => ?_⟩
  · have hrest : { u with icache := s.icache } =
        { ({ u with icache := t.icache } : Kernel) with icache := s.icache } := rfl
    rw [hrest, h'.rest, h.rest]
  · rw [h'.ref, h.ref, Pi.add_apply, add_assoc]
  · rw [h'.inum j (hpos j hj), h.inum j hj]
  · exact h'.valid j (hpos j hj) (h.valid j hj hvalid)

end Moved

/-- One reference more. -/
theorem single_nonneg (ip j : ℕ) : (0 : ℤ) ≤ (Pi.single ip 1 : ℕ → ℤ) j := by
  by_cases hj : j = ip
  · rw [hj, Pi.single_eq_same]
    exact Int.one_nonneg
  · rw [Pi.single_eq_of_ne hj]

/-! ## One entry -/

theorem CacheOk.setInode (h : CacheOk held s)
    (hheld : ∀ j ≠ ip, held' = some j ↔ held = some j) (href : 0 ≤ inode.ref)
    (hdev : 0 < inode.ref → inode.dev = ROOTDEV)
    (hinj : ∀ j < NINODE, j ≠ ip → 0 < inode.ref → 0 < (s.icache j).ref →
      inode.inum ≠ (s.icache j).inum)
    (hcopy : 0 < inode.ref → inode.valid = true → inode.toDinode = s.disk.dinode inode.inum)
    (hlock : inode.locked = true ↔ held' = some ip) : CacheOk held' (s.setInode ip inode) := by
  have hself := setInode_self s ip inode
  have hother : ∀ j, j ≠ ip → (s.setInode ip inode).icache j = s.icache j := fun j hj =>
    setInode_of_ne hj
  refine ⟨fun j hj => ?_, fun j hj hpos => ?_, fun i hi j hj hipos hjpos heq => ?_,
    fun j hj hpos hvalid => ?_, fun j hj => ?_⟩
  · by_cases hne : j = ip
    · rw [hne, hself]
      exact href
    · rw [hother j hne]
      exact h.ref j hj
  · by_cases hne : j = ip
    · rw [hne, hself] at hpos ⊢
      exact hdev hpos
    · rw [hother j hne] at hpos ⊢
      exact h.dev j hj hpos
  · by_cases hi' : i = ip <;> by_cases hj' : j = ip
    · rw [hi', hj']
    · rw [hi', hself] at hipos heq
      rw [hother j hj'] at hjpos heq
      exact absurd heq (hinj j hj hj' hipos hjpos)
    · rw [hother i hi'] at hipos heq
      rw [hj', hself] at hjpos heq
      exact absurd heq.symm (hinj i hi hi' hjpos hipos)
    · rw [hother i hi'] at hipos heq
      rw [hother j hj'] at hjpos heq
      exact h.inj i hi j hj hipos hjpos heq
  · rw [setInode_disk]
    by_cases hne : j = ip
    · rw [hne, hself] at hpos hvalid ⊢
      exact hcopy hpos hvalid
    · rw [hother j hne] at hpos hvalid ⊢
      exact h.copy j hj hpos hvalid
  · by_cases hne : j = ip
    · rw [hne, hself]
      exact hlock
    · rw [hother j hne, hheld j hne]
      exact h.lock j hj

theorem CacheOk.moved_setInode (h : CacheOk held' (s.setInode ip inode))
    (href : inode.ref = (s.icache ip).ref + d)
    (hinum : 0 < (s.icache ip).ref → inode.inum = (s.icache ip).inum)
    (hvalid : 0 < (s.icache ip).ref → (s.icache ip).valid = true → inode.valid = true) :
    Moved (Pi.single ip d) held' s (s.setInode ip inode) := by
  refine ⟨h, rfl, fun j => ?_, fun j hpos => ?_, fun j hpos hjvalid => ?_⟩
  · by_cases hne : j = ip
    · rw [hne, setInode_self, Pi.single_eq_same]
      exact href
    · rw [setInode_of_ne hne, Pi.single_eq_of_ne hne, add_zero]
  · by_cases hne : j = ip
    · rw [hne] at hpos ⊢
      rw [setInode_self]
      exact hinum hpos
    · rw [setInode_of_ne hne]
  · by_cases hne : j = ip
    · rw [hne] at hpos hjvalid ⊢
      rw [setInode_self]
      exact hvalid hpos hjvalid
    · rw [setInode_of_ne hne]
      exact hjvalid

/-- An inode has been written back. -/
theorem CacheOk.updated {D : Disk} (h : CacheOk held s) (hip : ip < NINODE)
    (hpos : 0 < (s.icache ip).ref) (hup : Updated ip D s t)
    (hD : ∀ i, i ≠ (s.icache ip).inum → D.dinode i = s.disk.dinode i) : CacheOk held t := by
  have hother : ∀ j, j ≠ ip → t.icache j = s.icache j := fun j hj => by
    rw [hup.icache, Function.update_of_ne hj]
  have hself : t.icache ip = { s.icache ip with toDinode := D.dinode (s.icache ip).inum } := by
    rw [hup.icache, Function.update_self]
  have hsame : ∀ j, (t.icache j).ref = (s.icache j).ref ∧ (t.icache j).dev = (s.icache j).dev ∧
      (t.icache j).inum = (s.icache j).inum ∧ (t.icache j).locked = (s.icache j).locked ∧
      (t.icache j).valid = (s.icache j).valid := by
    intro j
    by_cases hj : j = ip
    · rw [hj, hself]
      exact ⟨rfl, rfl, rfl, rfl, rfl⟩
    · rw [hother j hj]
      exact ⟨rfl, rfl, rfl, rfl, rfl⟩
  refine ⟨fun j hj => ?_, fun j hj hjpos => ?_, fun i hi j hj hipos hjpos heq => ?_,
    fun j hj hjpos hvalid => ?_, fun j hj => ?_⟩
  · rw [(hsame j).1]
    exact h.ref j hj
  · rw [(hsame j).1] at hjpos
    rw [(hsame j).2.1]
    exact h.dev j hj hjpos
  · rw [(hsame i).1] at hipos
    rw [(hsame j).1] at hjpos
    rw [(hsame i).2.2.1, (hsame j).2.2.1] at heq
    exact h.inj i hi j hj hipos hjpos heq
  · rw [(hsame j).1] at hjpos
    rw [(hsame j).2.2.2.2] at hvalid
    rw [(hsame j).2.2.1, hup.disk]
    by_cases hne : j = ip
    · rw [hne, hself]
    · rw [hother j hne, hD _ fun heq => hne (h.inj j hj ip hip hjpos hpos heq)]
      exact h.copy j hj hjpos hvalid
  · rw [(hsame j).2.2.2.1]
    exact h.lock j hj

/-! ## What the code does with references -/

/-- An entry that has the inode is found, and otherwise an empty one is filled. -/
theorem CacheOk.meets_iget (h : CacheOk held s) {Q : ℕ → Kernel → Prop}
    (hfull : (∀ j < NINODE, (s.icache j).ref ≠ 0 ∧ (s.icache j).inum ≠ inum) →
      E (.panic "iget: no inodes") s)
    (hQ : ∀ ip < NINODE, ∀ t, Moved (Pi.single ip 1) held s t → 0 < (t.icache ip).ref →
      ((t.icache ip).valid = true → (t.icache ip).ref ≠ 1) → (t.icache ip).inum = inum →
      Q ip t) :
    Meets E (iget ROOTDEV inum) Q s := by
  rw [iget, meets_bind, meets_get]
  dsimp only
  cases hfind : (List.range NINODE).find? _ with
  | some ip =>
      have hcached := List.find?_some hfind
      obtain ⟨hpos, hdev, hinum⟩ := of_decide_eq_true hcached
      have hip : ip < NINODE := List.mem_range.mp (List.mem_of_find?_eq_some hfind)
      rw [meets_bind, meets_setinode, meets_pure]
      refine hQ ip hip _ (moved_setInode (h.setInode (fun _ _ => Iff.rfl) ?_ (fun _ => hdev) ?_ ?_
        (h.lock ip hip)) rfl (fun _ => rfl) fun _ hvalid => hvalid) ?_ ?_ ?_
      · show 0 ≤ (s.icache ip).ref + 1
        omega
      · exact fun j hj hne _ hjpos heq => hne (h.inj ip hip j hj hpos hjpos heq).symm
      · exact fun _ hvalid => h.copy ip hip hpos hvalid
      · rw [setInode_self]
        show 0 < (s.icache ip).ref + 1
        omega
      · rw [setInode_self]
        show _ → (s.icache ip).ref + 1 ≠ 1
        omega
      · rw [setInode_self]
        exact hinum
  | none =>
      have hnone := List.find?_eq_none.mp hfind
      cases hempty : (List.range NINODE).find? _ with
      | none =>
          rw [meets_fail]
          refine hfull fun j hj => ?_
          have hused : (s.icache j).ref ≠ 0 := fun href =>
            List.find?_eq_none.mp hempty j (List.mem_range.mpr hj) (decide_eq_true href)
          have hpos : 0 < (s.icache j).ref := by
            have := h.ref j hj
            omega
          exact ⟨hused, fun heq =>
            hnone j (List.mem_range.mpr hj) (decide_eq_true ⟨hpos, h.dev j hj hpos, heq⟩)⟩
      | some ip =>
          have hfree := List.find?_some hempty
          have href := of_decide_eq_true hfree
          have hip : ip < NINODE := List.mem_range.mp (List.mem_of_find?_eq_some hempty)
          rw [meets_bind, meets_setinode, meets_pure]
          refine hQ ip hip _ (moved_setInode (h.setInode (fun _ _ => Iff.rfl)
            (show (0 : ℤ) ≤ 1 by decide) (fun _ => rfl) ?_ ?_ (h.lock ip hip)) ?_ (fun hpos => ?_)
            fun hpos => ?_) ?_ ?_ ?_
          · intro j hj _ _ hjpos heq
            have hcached := hnone j (List.mem_range.mpr hj)
            exact hcached (decide_eq_true ⟨hjpos, h.dev j hj hjpos, heq.symm⟩)
          · exact fun _ hvalid => absurd hvalid Bool.false_ne_true
          · rw [href]
            rfl
          · exact absurd href hpos.ne'
          · exact absurd href hpos.ne'
          · rw [setInode_self]
            exact Int.one_pos
          · rw [setInode_self]
            exact fun hvalid => absurd hvalid Bool.false_ne_true
          · rw [setInode_self]

theorem CacheOk.meets_iunlock (h : CacheOk (some ip) s) {Q : PUnit → Kernel → Prop}
    (hip : ip < NINODE) (hpos : 0 < (s.icache ip).ref)
    (hQ : ∀ t, Moved 0 none s t → Q ⟨⟩ t) : Meets E (iunlock ip) Q s := by
  have hlocked : (s.icache ip).locked = true := (h.lock ip hip).mpr rfl
  rw [iunlock, meets_bind, meets_getinode, if_neg (by simp [hlocked]; omega), releasesleep,
    meets_setinode]
  have hok : CacheOk none (s.setInode ip { s.icache ip with locked := false }) := by
    refine h.setInode (fun j hj => ?_) hpos.le (fun _ => h.dev ip hip hpos) (fun j hj hne _ hjpos
      heq => hne (h.inj ip hip j hj hpos hjpos heq).symm) (fun _ hv => h.copy ip hip hpos hv)
      (by simp)
    exact iff_of_false (by simp) fun heq => hj (Option.some.inj heq).symm
  have hmoved := hok.moved_setInode (d := 0) (add_zero _).symm (fun _ => rfl) fun _ hv => hv
  rw [Pi.single_zero] at hmoved
  exact hQ _ hmoved

/-- A reference is given up that is not the last one of an inode without links.  If the entry
is locked, nobody will unlock it. -/
theorem CacheOk.meets_iput (h : CacheOk held s) {Q : PUnit → Kernel → Prop} (hip : ip < NINODE)
    (hpos : 0 < (s.icache ip).ref)
    (hlast : (s.icache ip).valid = true → (s.icache ip).nlink = 0 → (s.icache ip).ref ≠ 1)
    (hheld : held = some ip → E .deadlock s)
    (hQ : held ≠ some ip → ∀ t, Moved (Pi.single ip (-1)) held s t → Q ⟨⟩ t) :
    Meets E (iput ip) Q s := by
  rw [iput, meets_bind, acquiresleep, meets_bind, meets_getinode]
  cases hlocked : (s.icache ip).locked with
  | true =>
      rw [if_pos rfl, meets_throw]
      exact hheld ((h.lock ip hip).mp hlocked)
  | false =>
      have hne : held ≠ some ip := fun heq => by
        rw [(h.lock ip hip).mpr heq] at hlocked
        exact absurd hlocked.symm Bool.false_ne_true
      have hkeep : ¬((s.icache ip).valid = true ∧ (s.icache ip).nlink = 0 ∧
          (s.icache ip).ref = 1) := fun hfree => hlast hfree.1 hfree.2.1 hfree.2.2
      rw [if_neg Bool.false_ne_true]
      simp only [meets_bind, meets_getinode, meets_setinode, setInode_self, if_neg hkeep,
        releasesleep, setInode_setInode]
      refine hQ hne _ (moved_setInode (h.setInode (fun _ _ => Iff.rfl) ?_
        (fun _ => h.dev ip hip hpos) (fun j hj hjne _ hjpos heq =>
          hjne (h.inj ip hip j hj hpos hjpos heq).symm) (fun _ hv => h.copy ip hip hpos hv)
        (iff_of_false Bool.false_ne_true hne)) rfl (fun _ => rfl) fun _ hvalid => hvalid)
      show 0 ≤ (s.icache ip).ref - 1
      omega

end Xv6.Files
