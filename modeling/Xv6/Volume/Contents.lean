import Xv6.Volume.Bmap
import Xv6.Volume.Locks

/-!
# `readi` and `writei`, interleaved

Reading changes nothing, since all blocks are there.  Writing takes blocks where the file gets
longer, and the inode is written back before the lock is given up.  A device is read without the
lock.
-/

namespace Xv6

open Files Interleaving
open Inodes (Ptr)

namespace Volume

variable {P : Type} [Fintype P] {s t : Volume P × Ghost P} {p : P} {i b bn n tot off : ℕ} {j : Ptr}
variable {sb : Superblock} {devsw : Devsw} {l : Local} {d d₀ : Dinode} {f : Files.Slot → ℕ}
variable {src : ℕ → Byte}

omit [Fintype P] in
theorem Filled.le (h : Filled f n) : n ≤ MAXFILE * BSIZE := by
  by_contra hlt
  obtain ⟨hmax, -⟩ := h (MAXFILE * BSIZE) (by omega)
  rw [Nat.mul_div_cancel _ BSIZE_pos] at hmax
  exact absurd hmax (lt_irrefl _)

/-! ## Fields of a locked inode -/

/-- Fields are set that say nothing of the blocks. -/
theorem spec_setinode {g : Dinode → Dinode} (haddrs : (g d).addrs = d.addrs)
    (htype : (g d).type = d.type) :
    Spec P sb p (On p l j (Open p j i d₀ d b f)) (setinode j g)
      fun _ => On p l j (Open p j i d₀ (g d) b f) := by
  refine spec_own keptBy_open (fun s h => h.holding.inum) fun s hs hlock h => ?_
  have hpos : (g d).type ≠ 0 := by rw [htype]; exact h.type
  obtain ⟨hinum, hcopy, hvalid, hd₀, hdisk, hhand, hplace⟩ := h.holding
  refine ⟨_, Own.of_contents hlock hinum (fun _ _ _ => rfl) (fun _ _ => rfl) hs.marked hs.reserved,
    ⟨?_, ?_, ?_, hd₀, hdisk, hhand, hplace⟩, hpos, fun slot => ?_⟩
  · dsimp only
    rw [setEntry_self, hinum]
  · dsimp only
    rw [setEntry_self, hcopy]
  · dsimp only
    rw [setEntry_self, hvalid]
  · rw [addrOf_of_type hpos]
    refine (h.tied slot).trans ?_
    rw [addrOf_of_type h.type]
    cases slot with
    | table => exact congrFun haddrs.symm NDIRECT
    | data bn =>
        simp only [Dinode.slot, Dinode.addr, haddrs]
        rfl

theorem spec_iupdate :
    Spec P sb p (On p l j (Open p j i d₀ d b f)) (iupdate j)
      fun _ => On p l j (Open p j i d d b f) := by
  refine spec_own keptBy_open (fun s h => h.holding.inum) fun s hs hlock h => ?_
  obtain ⟨hinum, hcopy, hvalid, hd₀, hdisk, hhand, hplace⟩ := h.holding
  refine ⟨_, Own.of_disk s.2.place s.2.hand ?_ (fun i' hi' => ?_)
    (fun q hq => ?_) hs.marked hs.reserved,
    ⟨hinum, hcopy, hvalid, h.type, ?_, hhand, hplace⟩, h.type, h.tied⟩
  · rintro _ rfl
    exact ⟨j, hlock, hinum⟩
  · refine ⟨Or.inl (Function.update_of_ne ?_ ..), fun _ => rfl, fun _ _ => rfl⟩
    rwa [hinum]
  · exact ⟨rfl, fun _ => rfl⟩
  · subst hinum
    rw [← hcopy]
    exact Function.update_self ..

/-- A data block is written. -/
theorem spec_write {g : Files.Block → Files.Block} (hlt : bn < MAXFILE)
    (hb : f (.data ⟨bn, hlt⟩) = b) (hpos : b ≠ 0) :
    Spec P sb p (On p l j (Open p j i d₀ d 0 f)) (bwrite b g)
      fun _ => On p l j (Open p j i d₀ d 0 f) := by
  refine spec_own keptBy_open (fun s h => h.holding.inum) fun s hs hlock h => ?_
  have hplace : s.2.place (i, .data ⟨bn, hlt⟩) = b := by rw [h.holding.place, hb]
  have hother : ∀ a, a ≠ (i, .data ⟨bn, hlt⟩) → s.2.place a ≠ 0 → s.2.place a ≠ b :=
    fun a ha hpos' heq => ha (hs.place_inj hpos' (heq.trans hplace.symm))
  refine ⟨_, Own.of_disk s.2.place s.2.hand ?_ (fun i' hi' => ?_)
    (fun q hq => ?_) hs.marked hs.reserved,
    ⟨h.holding.inum, h.holding.copy, h.holding.valid, h.holding.type, h.holding.disk,
      h.holding.hand, h.holding.place⟩, h.type, fun slot => ?_⟩
  · rintro _ rfl
    exact ⟨j, hlock, h.holding.inum⟩
  · refine Quiet.of_write rfl (fun _ => rfl) rfl fun slot => hother _ fun heq => ?_
    exact hi' (Prod.mk.inj heq).1
  · refine HandKept.of_write rfl rfl fun _ heq => ?_
    rw [← hplace] at heq hpos
    exact hs.place_ne_hand hpos heq.symm
  · refine (h.tied slot).trans (addrOf_congr fun htable => ?_).symm
    refine Function.update_of_ne ?_ ..
    rw [← h.tied] at htable ⊢
    exact hother _ (by simp) htable

/-- Something returns what the device has next. -/
theorem Own.of_device {device : ℕ → Option (List Byte)} (hs : Inv sb s) :
    Own sb p (fun _ => False) s ({ s.1 with device := device }, s.2) where
  file := rfl
  cwd := rfl
  ofile := rfl
  used := rfl
  vars := rfl
  fvars := rfl
  entry _ := ⟨_, _, rfl⟩
  contents _ _ := rfl
  quiet _ _ := ⟨Or.inl rfl, fun _ => rfl, fun _ _ => rfl⟩
  hand _ _ := ⟨rfl, fun _ => rfl⟩
  mine _ hK := hK.elim
  marked := hs.marked
  reserved := hs.reserved

variable [DecidableEq P]

/-! ## Reading -/

theorem spec_readFrom (tot : ℕ) {dst : List Byte} {size : ℕ} (hf : Filled f size)
    (hend : off + (n - tot) ≤ size) :
    Spec P sb p (On p l j (Open p j i d₀ d 0 f)) (readFrom sb j n tot off dst)
      fun _ => On p l j (Open p j i d₀ d 0 f) := by
  induction hrest : n - tot using Nat.strong_induction_on generalizing tot off dst with
  | _ rest ih =>
  subst hrest
  rw [readFrom]
  by_cases hlt : tot < n
  · obtain ⟨hpos, -, hle⟩ := chunk_bounds n tot off hlt
    obtain ⟨hbn, hblock⟩ := hf off (by omega)
    rw [if_pos hlt]
    refine (spec_bmap hbn).bind fun b => Logic.meets_and fun _ => Logic.meets_exists fun d' =>
      Logic.meets_exists fun f' => Logic.meets_and fun hgrows => Logic.meets_and fun _ => ?_
    obtain ⟨rfl, rfl⟩ := hgrows.same hblock
    exact (spec_look (stable_on keptBy_open)).bind fun data => ih _ (by omega) _ (by omega) rfl
  · rw [if_neg hlt]
    exact Logic.meets_pure (Q := fun _ => On p l j (Open p j i d₀ d 0 f))

theorem spec_deviceRead (hj : j ∈ l.locks) :
    Spec P sb p (Has p l) (deviceRead p j n) fun _ => Has p l := by
  refine spec_of_uses hj fun huses => (spec_iunlock hj).bind fun _ => ?_
  refine (spec_has fun s hs _ => ⟨_, _, rfl, Own.of_device hs⟩).bind fun data => ?_
  refine (spec_ilock (l := l.unlock j) huses).bind fun _ => Logic.meets_and fun _ => ?_
  rw [Local.lock_unlock hj]
  cases data <;> exact Logic.meets_pure (Q := fun _ => Has p l)

theorem spec_readi (hj : j ∈ l.locks) (hn : n < 2 ^ 32) :
    Spec P sb p (Has p l) (readi p sb devsw j off n) fun _ => Has p l := by
  refine spec_of_open hj fun i d f hf => spec_getinode_open.bind fun e =>
    Logic.meets_and fun he => ?_
  subst he
  have hclosed : ∀ s, On p l j (Open p j i e.toDinode e.toDinode 0 f) s → Has p l s :=
    fun s h => h.has_of_open hf
  have hdone : ∀ r : ℤ × List Byte, Spec P sb p (On p l j (Open p j i e.toDinode e.toDinode 0 f))
      (pure r) fun _ => Has p l := fun r => Logic.Meets.of_imp Logic.meets_pure fun s _ => hclosed s
  dsimp only
  by_cases hdev : e.type = Files.T_DEV
  · rw [if_pos hdev]
    split
    · exact (spec_deviceRead hj).of_imp fun s _ => hclosed s
    · exact hdone _
  rw [if_neg hdev]
  split
  · exact hdone _
  rename_i hbounds
  have hsize := hf.le
  have hoff : off < 2 ^ 32 := by
    have : MAXFILE * BSIZE < 2 ^ 32 := by decide
    omega
  have hlen : uint (off + n) = off + n := uint_of_le hoff hn (by omega)
  rw [hlen]
  refine (spec_readFrom 0 hf ?_).bind fun dst => hdone _
  split <;> omega

/-! ## Writing -/

theorem spec_deviceWrite (hj : j ∈ l.locks) :
    Spec P sb p (Has p l) (deviceWrite p j n) fun r s => r = n ∧ Has p l s := by
  refine spec_of_uses hj fun huses => (spec_iunlock hj).bind fun _ => ?_
  refine (spec_ilock (l := l.unlock j) huses).bind fun _ => Logic.meets_and fun _ => ?_
  rw [Local.lock_unlock hj]
  exact Logic.Meets.of_imp Logic.meets_pure fun s _ h => ⟨rfl, h⟩

/-- The loop of `writei` at `off`: the inode has been `d`. -/
structure Writing (d : Dinode) (off : ℕ) (d' : Dinode) (f' : Files.Slot → ℕ) : Prop where
  dinode : ∃ addrs, d' = { d with addrs := addrs }
  same : d' = d ∨ d.size < off
  filled : Filled f' (max d.size off)

theorem Writing.start (hf : Filled f d.size) (hoff : off ≤ d.size) : Writing d off d f :=
  ⟨⟨d.addrs, rfl⟩, Or.inl rfl, by rwa [max_eq_left hoff]⟩

/-- One block, and `m` bytes in it. -/
theorem Writing.next {d₁ d₂ : Dinode} {f₁ f₂ : Files.Slot → ℕ} {m : ℕ} (h : Writing d off d₁ f₁)
    (hlt : off / BSIZE < MAXFILE) (hgrows : Grows d₁ f₁ (.data ⟨off / BSIZE, hlt⟩) d₂ f₂)
    (hnew : f₂ (.data ⟨off / BSIZE, hlt⟩) ≠ 0) (hpos : 0 < m) (hm : m ≤ BSIZE - off % BSIZE) :
    Writing d (off + m) d₂ f₂ where
  dinode := by
    obtain ⟨addrs, rfl⟩ := h.dinode
    obtain ⟨addrs', rfl⟩ := hgrows.dinode
    exact ⟨addrs', rfl⟩
  same := by
    by_cases hoff : off < d.size
    · obtain ⟨hmax, hblock⟩ := h.filled off (by omega)
      obtain ⟨rfl, -⟩ := hgrows.same hblock
      exact h.same.imp_right fun hlt => by omega
    · exact Or.inr (by omega)
  filled k hk := by
    by_cases hold : k < max d.size off
    · obtain ⟨hmax, hblock⟩ := h.filled k hold
      exact ⟨hmax, by rwa [hgrows.keep _ hblock]⟩
    · have hdiv : k / BSIZE = off / BSIZE := by
        unfold BSIZE at hm ⊢
        omega
      simp only [hdiv]
      exact ⟨hlt, hnew⟩

theorem spec_writeFrom (tot : ℕ) {d' : Dinode} {f' : Files.Slot → ℕ} (h : Writing d off d' f')
    (htot : tot ≤ n) (hmax : off + (n - tot) ≤ MAXFILE * BSIZE) :
    Spec P sb p (On p l j (Open p j i d₀ d' 0 f')) (writeFrom sb j src n tot off) fun r s =>
      r = off + (n - tot) ∧ ∃ d' f', Writing d r d' f' ∧ On p l j (Open p j i d₀ d' 0 f') s := by
  induction hrest : n - tot using Nat.strong_induction_on generalizing tot off d' f' with
  | _ rest ih =>
  subst hrest
  rw [writeFrom]
  by_cases hlt : tot < n
  · obtain ⟨hpos, hblock, hle⟩ := chunk_bounds n tot off hlt
    have hbn : off / BSIZE < MAXFILE := div_lt_MAXFILE (by omega)
    rw [if_pos hlt]
    refine (spec_bmap hbn).bind fun b => Logic.meets_and fun hb => Logic.meets_exists fun d₂ =>
      Logic.meets_exists fun f₂ => Logic.meets_and fun hgrows => Logic.meets_and fun hplace => ?_
    have hnext := h.next hbn hgrows (by rwa [hplace]) hpos hblock
    generalize min (n - tot) (BSIZE - off % BSIZE) = m at hpos hblock hle hnext ⊢
    refine (spec_write hbn hplace hb).bind fun _ => ?_
    have hend : off + m + (n - (tot + m)) = off + (n - tot) := by omega
    refine (ih (n - (tot + m)) (by omega) _ hnext (by omega) (by omega) rfl).mono fun r s _ hr => ?_
    rwa [hend] at hr
  · rw [if_neg hlt]
    refine Logic.Meets.of_imp Logic.meets_pure fun s _ hs => ⟨by omega, _, _, h, hs⟩

theorem spec_writei (hj : j ∈ l.locks) (hn : n < 2 ^ 32) :
    Spec P sb p (Has p l) (writei p sb devsw j src off n) fun r s =>
      (r = -1 ∨ r = n) ∧ Has p l s := by
  refine spec_of_open hj fun i d f hf => spec_getinode_open.bind fun e =>
    Logic.meets_and fun he => ?_
  subst he
  have hclosed : ∀ s, On p l j (Open p j i e.toDinode e.toDinode 0 f) s → Has p l s :=
    fun s h => h.has_of_open hf
  have hfailed : Spec P sb p (On p l j (Open p j i e.toDinode e.toDinode 0 f)) (pure (-1 : ℤ))
      fun r s => (r = -1 ∨ r = n) ∧ Has p l s :=
    Logic.Meets.of_imp Logic.meets_pure fun s _ h => ⟨Or.inl rfl, hclosed s h⟩
  dsimp only
  by_cases hdev : e.type = Files.T_DEV
  · rw [if_pos hdev]
    split
    · refine Logic.Meets.mono (Logic.Meets.of_imp (spec_deviceWrite hj) fun s _ => hclosed s)
        fun r s _ h => ⟨Or.inr h.1, h.2⟩
    · exact hfailed
  rw [if_neg hdev]
  split
  · exact hfailed
  rename_i hbounds
  split
  · exact hfailed
  rename_i hmax
  have hsize := hf.le
  have hoff : off < 2 ^ 32 := by
    have : MAXFILE * BSIZE < 2 ^ 32 := by decide
    omega
  have hlen : uint (off + n) = off + n := uint_of_le hoff hn (by omega)
  rw [hlen] at hmax
  refine (spec_writeFrom 0 (Writing.start hf (by omega)) (Nat.zero_le n) (by omega)).bind
    fun r => Logic.meets_and fun hr => Logic.meets_exists fun d' => Logic.meets_exists fun f' =>
      Logic.meets_and fun hwriting => ?_
  refine spec_getinode_open.bind fun e' => Logic.meets_and fun he' => ?_
  subst he'
  obtain ⟨addrs, haddrs⟩ := hwriting.dinode
  have hsame : e'.size = e.size := by rw [haddrs]
  have hfilled := hwriting.filled
  have hdone : ∀ A : Volume P × Ghost P → Prop, (∀ s, A s → Has p l s) →
      Spec P sb p A (pure (n : ℤ)) fun r s => (r = -1 ∨ r = n) ∧ Has p l s :=
    fun A hA => Logic.Meets.of_imp Logic.meets_pure fun s _ h => ⟨Or.inr rfl, hA s h⟩
  split
  · rename_i hlonger
    refine (spec_setinode (g := fun d => { d with size := r }) rfl rfl).bind fun _ =>
      spec_iupdate.bind fun _ => hdone _ fun s h => h.has_of_open (hfilled.mono ?_)
    exact le_max_right ..
  · have heq := hwriting.same.resolve_right (by omega)
    refine hdone _ fun s h => On.has_of_open (d := e.toDinode) (heq ▸ h) (hfilled.mono ?_)
    exact le_max_left ..

end Volume

end Xv6
