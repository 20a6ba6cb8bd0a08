import Mathlib.Order.Monotone.Defs
import Xv6.Files.Content
import Xv6.Mkfs.Layout

/-!
# `iappend`

While `iappend` runs, its copy of the inode is ahead of the image.  What holds then holds
of the disk with this copy on it, `s.disk.setDinode i din`, as in the kernel.  A block is
taken in the same way as there (`Grew`), and what the loop does to the bytes is the same as
what the loop of `writei` does (`Wrote`).

Other than there, an inode has no block beyond its size (`Tight`).  So it is known how many
blocks are taken (`need`), and the image is too small exactly if they are too many.
-/

namespace Xv6.Mkfs

open Files Faulting

variable {s t : State} {E : Fault → State → Prop} {din din' : Dinode} {D D' : Disk}
variable {i k bn off m : ℕ} {p : List Byte}

/-! ## Blocks that are needed -/

/-- The blocks that an inode of this size takes, its indirect block included. -/
def need (size : ℕ) : ℕ :=
  (size + (BSIZE - 1)) / BSIZE + if NDIRECT * BSIZE < size then 1 else 0

/-- There is a block for every byte of inode `i`, and no other one. -/
structure Tight (D : Disk) (i size : ℕ) : Prop where
  data : ∀ bn, D.number i bn ≠ 0 ↔ bn * BSIZE < size
  table : (D.dinode i).addrs NDIRECT ≠ 0 ↔ NDIRECT * BSIZE < size

/-- How many blocks are to be taken to write to block `bn`. -/
def missing (D : Disk) (i bn : ℕ) : ℕ :=
  (if D.number i bn = 0 then 1 else 0) +
    if NDIRECT ≤ bn ∧ (D.dinode i).addrs NDIRECT = 0 then 1 else 0

theorem Tight.size_le (h : Tight D i off) : off ≤ MAXFILE * BSIZE := by
  by_contra hlt
  exact lt_irrefl _ (lt_of_number ((h.data MAXFILE).mpr (by omega)))

theorem need_mono : Monotone need := by
  intro a b hab
  unfold need BSIZE NDIRECT
  split <;> split <;> omega

theorem Tight.need_add (h : Tight D i off) (hpos : 0 < m) (hm : m ≤ BSIZE - off % BSIZE) :
    need (off + m) = need off + missing D i (off / BSIZE) := by
  have hdata : D.number i (off / BSIZE) = 0 ↔ off % BSIZE = 0 := by
    rw [← not_iff_not, ← ne_eq, h.data]
    unfold BSIZE
    omega
  have htable : (NDIRECT ≤ off / BSIZE ∧ (D.dinode i).addrs NDIRECT = 0) ↔
      off = NDIRECT * BSIZE := by
    have htable := h.table
    unfold NDIRECT BSIZE at *
    omega
  rw [missing, if_congr hdata rfl rfl, if_congr htable rfl rfl]
  unfold need BSIZE NDIRECT at *
  split <;> split <;> split <;> split <;> omega

/-! ## Taking a block -/

def State.take (s : State) : State := { s with freeblock := s.freeblock + 1 }

theorem Ready.take (h : Ready s) (hlt : s.freeblock < FSSIZE) : Ready s.take where
  sectors := h.sectors
  slots := h.slots
  nmeta_le := Nat.le_succ_of_le h.nmeta_le
  le_FSSIZE := hlt
  zero b hb := h.zero b (Nat.le_of_succ_le hb)
  separate := h.separate

theorem disk_take (h : Ready s) : s.take.disk = s.disk.fresh s.freeblock := by
  have hbitmap : s.take.disk.bitmap = Function.update s.disk.bitmap s.freeblock true := by
    funext b
    by_cases hb : b = s.freeblock
    · rw [hb, Function.update_self]
      exact decide_eq_true (Nat.lt_succ_self _)
    · rw [Function.update_of_ne hb]
      refine decide_eq_decide.mpr ?_
      show b < s.freeblock + 1 ↔ b < s.freeblock
      omega
  have hblock : s.take.disk.block = Function.update s.disk.block s.freeblock zeroes := by
    funext b
    by_cases hb : b = s.freeblock
    · rw [hb, Function.update_self]
      exact (if_pos h.nmeta_le).trans (h.zero _ le_rfl)
    · rw [Function.update_of_ne hb]
      rfl
  exact congrArg₂ (fun bitmap block => Disk.mk bitmap s.disk.dinode block) hbitmap hblock

/-- Blocks have been taken for block `bn` of inode `i`. -/
structure Took (i bn : ℕ) (s : State) (din : Dinode) (t : State) (din' : Dinode) : Prop where
  ready : Ready t
  freeinode : t.freeinode = s.freeinode
  dinode : t.disk.dinode = s.disk.dinode
  rest : ∀ k, NDIRECT < k → din'.addrs k = din.addrs k
  grew : Grew sb i bn (s.disk.setDinode i din) (t.disk.setDinode i din')

theorem Took.refl (h : Ready s) (hok : (s.disk.setDinode i din).Ok sb) : Took i bn s din s din :=
  ⟨h, rfl, rfl, fun _ _ => rfl, Grew.refl hok⟩

theorem meets_nextBlock {Q : ℕ → State → Prop} (hQ : Q s.freeblock s.take) :
    Meets E nextBlock Q s := hQ

theorem meets_takeAddr {Q : Dinode → State → Prop} (hkept : din.addrs k ≠ 0 → Q din s)
    (htaken : din.addrs k = 0 → Q (din.setAddr k s.freeblock) s.take) :
    Meets E (takeAddr din k) Q s := by
  rw [takeAddr]
  split
  · rename_i hzero
    exact htaken hzero
  · rename_i hpos
    exact hkept hpos

section Inode

variable (h : Ready s) (hok : (s.disk.setDinode i din).Ok sb) (htype : din.type ≠ 0)
include h hok htype

theorem took_addr (hk : k ≤ NDIRECT) (hbn : k < NDIRECT ∧ bn = k ∨ k = NDIRECT ∧ NDIRECT ≤ bn)
    (hlt : s.freeblock < FSSIZE) (hzero : din.addrs k = 0) :
    Took i bn s din s.take (din.setAddr k s.freeblock) := by
  have hdin : (s.disk.setDinode i din).dinode i = din := setDinode_self _
  have hfree : (s.disk.setDinode i din).bitmap s.freeblock = false :=
    decide_eq_false (lt_irrefl _)
  have hgrew := grew_setAddr hok (by rwa [hdin]) hk hbn hlt hfree (by rwa [hdin])
  refine ⟨h.take hlt, rfl, ?_, fun j hj => setAddr_of_ne _ _ (by omega), ?_⟩
  · rw [disk_take h]
    rfl
  · rw [disk_take h]
    rw [hdin] at hgrew
    have hsame : ((s.disk.setDinode i din).fresh s.freeblock).setDinode i
        (din.setAddr k s.freeblock) =
        (s.disk.fresh s.freeblock).setDinode i (din.setAddr k s.freeblock) :=
      setDinode_setDinode (D := s.disk.fresh s.freeblock) ..
    rwa [hsame] at hgrew

omit h in
/-- What is in a place of the inode is a data block in use. -/
theorem held_bounds (slot : Slot) (hpos : din.slot s.disk.block slot ≠ 0) :
    nmeta ≤ din.slot s.disk.block slot ∧ din.slot s.disk.block slot < s.freeblock := by
  have hplace : (s.disk.setDinode i din).place (i, slot) = din.slot s.disk.block slot := by
    have hdin : (s.disk.setDinode i din).dinode i = din := setDinode_self _
    rw [place_of_type (by rwa [hdin]), hdin]
    rfl
  rw [← hplace] at hpos ⊢
  have hrange := hok.marked.range _ hpos
  have hmarked : decide (_ < s.freeblock) = true := hok.marked.marked hpos
  exact ⟨hrange.1, of_decide_eq_true hmarked⟩

omit h hok in
theorem number_setDinode (hbn : bn < MAXFILE) :
    (s.disk.setDinode i din).number i bn = din.addr s.disk.block bn := by
  have hdin : (s.disk.setDinode i din).dinode i = din := setDinode_self _
  rw [number_of_lt hbn, place_data (by rwa [hdin]), hdin]
  rfl

/-- The three cases: there is an entry, one is taken, or the image has no block left. -/
theorem meets_entryFor {Q : ℕ → State → Prop} (hbn : NDIRECT ≤ bn) (hmax : bn < MAXFILE)
    (htable : din.addrs NDIRECT ≠ 0)
    (hkept : (s.disk.setDinode i din).number i bn ≠ 0 →
      Q ((s.disk.setDinode i din).number i bn) s)
    (htaken : (s.disk.setDinode i din).number i bn = 0 → s.freeblock < FSSIZE → ∀ t,
      Took i bn s din t din → t.freeblock = s.freeblock + 1 →
      (t.disk.setDinode i din).number i bn = s.freeblock → Q s.freeblock t)
    (hfull : (s.disk.setDinode i din).number i bn = 0 → s.freeblock = FSSIZE → ∀ t,
      t.sectors = FSSIZE → Q FSSIZE t) :
    Meets E (entryFor (din.addrs NDIRECT) (bn - NDIRECT)) Q s := by
  have hdin : (s.disk.setDinode i din).dinode i = din := setDinode_self _
  have hbounds := held_bounds hok htype .table htable
  simp only [Dinode.slot] at hbounds
  have hle := h.le_FSSIZE
  have hblock : s.disk.block (din.addrs NDIRECT) = s.image (din.addrs NDIRECT) :=
    if_pos hbounds.1
  have hnumber : (s.disk.setDinode i din).number i bn =
      word (s.image (din.addrs NDIRECT)) (bn - NDIRECT) := by
    rw [number_setDinode htype hmax, addr_indirect hbn htable, hblock]
  rw [entryFor, meets_bind]
  refine meets_rsect h.sectors (by omega) ?_
  rw [← hnumber]
  split
  · rename_i hzero
    rw [meets_bind]
    refine meets_nextBlock ?_
    rw [meets_bind]
    refine meets_wsect h.sectors (by omega) ?_
    rw [meets_pure]
    by_cases hlt : s.freeblock < FSSIZE
    · have hfree : (s.disk.setDinode i din).bitmap s.freeblock = false :=
        decide_eq_false (lt_irrefl _)
      have hgrew := grew_setEntry hok (by rwa [hdin]) (by rwa [hdin]) hbn hmax hlt hfree
        (by rwa [← number_of_lt hmax])
      rw [hdin] at hgrew
      have hdisk : (s.take.write .contents (din.addrs NDIRECT)
          (setWord (s.image (din.addrs NDIRECT)) (bn - NDIRECT) s.freeblock)).disk.setDinode i din =
          ((s.disk.setDinode i din).fresh s.freeblock).setBlock (din.addrs NDIRECT)
          (setWord ((s.disk.setDinode i din).block (din.addrs NDIRECT)) (bn - NDIRECT)
            s.freeblock) := by
        rw [disk_write (s := s.take) h.slots hbounds.1, disk_take h, ← hblock]
        rfl
      rw [← hdisk] at hgrew
      refine htaken hzero hlt _ ⟨?_, rfl, ?_, fun _ _ => rfl, hgrew.1⟩ rfl ?_
      · exact (h.take hlt).write (Nat.lt_succ_of_lt hbounds.2) ⟨hbounds.1, by omega⟩ (by decide)
      · rw [disk_write (s := s.take) h.slots hbounds.1, disk_take h]
        rfl
      · rw [number_of_lt hmax]
        exact hgrew.2
    · have hend : s.freeblock = FSSIZE := by omega
      have hsectors : s.take.sectors = FSSIZE := h.sectors
      rw [hend]
      exact hfull hzero hend _ hsectors
  · rename_i hpos
    exact hkept hpos

theorem meets_sectorFor {Q : Dinode × ℕ → State → Prop} (hmax : bn < MAXFILE)
    (hout : FSSIZE < s.freeblock + missing (s.disk.setDinode i din) i bn → ∀ e t, E e t)
    (hfull : FSSIZE < s.freeblock + missing (s.disk.setDinode i din) i bn → ∀ din' t,
      t.sectors = FSSIZE → Q (din', FSSIZE) t)
    (hQ : ∀ t din', Took i bn s din t din' →
      t.freeblock = s.freeblock + missing (s.disk.setDinode i din) i bn →
      (din'.addrs NDIRECT ≠ 0 ↔ din.addrs NDIRECT ≠ 0 ∨ NDIRECT ≤ bn) →
      (t.disk.setDinode i din').number i bn ≠ 0 →
      Q (din', (t.disk.setDinode i din').number i bn) t) :
    Meets E (sectorFor din bn) Q s := by
  have hdin : (s.disk.setDinode i din).dinode i = din := setDinode_self _
  have hle := h.le_FSSIZE
  have hge := h.nmeta_le
  have hnmeta : nmeta = 59 := rfl
  have hnumber := number_setDinode (s := s) (i := i) htype hmax
  rw [sectorFor]
  split
  · -- a direct address
    rename_i hlt
    rw [addr_direct hlt] at hnumber
    have hmissing : missing (s.disk.setDinode i din) i bn = if din.addrs bn = 0 then 1 else 0 := by
      rw [missing, hnumber, if_neg (show ¬(NDIRECT ≤ bn ∧ _) by omega), Nat.add_zero]
    rw [hmissing] at hout hfull hQ
    rw [meets_bind]
    refine meets_takeAddr (fun hpos => ?_) fun hzero => ?_
    · rw [meets_pure]
      rw [if_neg hpos] at hQ
      have hend := hQ s din (Took.refl h hok) rfl ⟨Or.inl, fun hor => hor.resolve_right (by omega)⟩
      rw [hnumber] at hend
      exact hend hpos
    · rw [meets_pure, setAddr_self]
      rw [if_pos hzero] at hQ hfull
      by_cases hroom : s.freeblock < FSSIZE
      · have htook := took_addr h hok htype hlt.le (Or.inl ⟨hlt, rfl⟩) hroom hzero
        have htype' : (din.setAddr bn s.freeblock).type ≠ 0 := htype
        have hnew := number_setDinode (s := s.take) (i := i) htype' hmax
        rw [addr_direct hlt, setAddr_self] at hnew
        have hend := hQ s.take _ htook rfl ?_
        · rw [hnew] at hend
          exact hend (by omega)
        · rw [setAddr_of_ne _ _ (by omega)]
          exact ⟨Or.inl, fun hor => hor.resolve_right (by omega)⟩
      · have hend : s.freeblock = FSSIZE := by omega
        rw [hend]
        exact hfull (by omega) _ _ h.sectors
  · rename_i hge'
    have hbn : NDIRECT ≤ bn := by omega
    rw [meets_bind]
    refine meets_takeAddr (fun htable => ?_) fun hzero => ?_
    · -- there is an indirect block
      have hmissing : missing (s.disk.setDinode i din) i bn =
          if (s.disk.setDinode i din).number i bn = 0 then 1 else 0 := by
        have hnot : ¬(NDIRECT ≤ bn ∧ din.addrs NDIRECT = 0) := fun hand => htable hand.2
        rw [missing, hdin, if_neg hnot, Nat.add_zero]
      rw [hmissing] at hout hfull hQ
      rw [meets_bind]
      refine meets_entryFor h hok htype hbn hmax htable (fun hpos => ?_)
        (fun hzero hroom t htook hblocks hnew => ?_) fun hzero hend t ht => ?_
      · rw [if_neg hpos] at hQ
        exact hQ s din (Took.refl h hok) rfl ⟨Or.inl, fun _ => htable⟩ hpos
      · rw [if_pos hzero] at hQ
        have hend := hQ t din htook hblocks ⟨Or.inl, fun _ => htable⟩
        rw [hnew] at hend
        exact hend (by omega)
      · rw [if_pos hzero] at hfull
        exact hfull (by omega) _ _ ht
    · -- the indirect block is taken first
      have hnone : (s.disk.setDinode i din).number i bn = 0 := by
        rw [hnumber, addr_no_table hbn hzero]
      have hmissing : missing (s.disk.setDinode i din) i bn = 2 := by
        rw [missing, hdin, if_pos hnone, if_pos ⟨hbn, hzero⟩]
      rw [hmissing] at hout hfull hQ
      rw [meets_bind]
      by_cases hroom : s.freeblock < FSSIZE
      · have htook := took_addr h hok htype le_rfl (Or.inr ⟨rfl, hbn⟩) hroom hzero
        have htable : (din.setAddr NDIRECT s.freeblock).addrs NDIRECT ≠ 0 := by
          rw [setAddr_self]
          omega
        have hstill : (s.take.disk.setDinode i (din.setAddr NDIRECT s.freeblock)).number i bn =
            0 := by
          have htype' : (din.setAddr NDIRECT s.freeblock).type ≠ 0 := htype
          rw [number_setDinode htype' hmax, addr_indirect hbn htable, setAddr_self, disk_take h]
          exact (congrArg (word · _) (Function.update_self ..)).trans (word_zero _)
        refine meets_entryFor htook.ready htook.grew.ok htype hbn hmax htable
          (fun hpos => absurd hstill hpos) (fun _ _ t ht hblocks hnew => ?_) fun _ hend t ht => ?_
        · have hall : Took i bn s din t (din.setAddr NDIRECT s.freeblock) := by
            refine ⟨ht.ready, ht.freeinode.trans htook.freeinode, ht.dinode.trans htook.dinode,
              htook.rest, htook.grew.trans ht.grew fun k hk => ?_⟩
            have hval : k = ⟨bn, hmax⟩ := Fin.ext hk
            rw [hval, ← number_of_lt hmax]
            exact hnone
          have hend := hQ t _ hall hblocks ⟨fun _ => Or.inr hbn, fun _ => htable⟩
          rw [hnew] at hend
          refine hend ?_
          show s.freeblock + 1 ≠ 0
          omega
        · exact hfull (by have hend : s.freeblock + 1 = FSSIZE := hend; omega) _ _ ht
      · rw [entryFor, meets_bind, setAddr_self]
        have hend : s.freeblock = FSSIZE := by omega
        exact meets_rsect_beyond h.sectors hend.ge (by rw [hend]; decide) fun e =>
          hout (by omega) e _

end Inode

/-! ## The loop -/

theorem Tight.number_of_wrote {src : ℕ → Byte} (h : Tight D i off)
    (hwrote : Wrote sb i off m src D D') (bn : ℕ) :
    D'.number i bn ≠ 0 ↔ bn * BSIZE < off + m := by
  by_cases hin : Within off m bn
  · refine iff_of_true (hwrote.made bn hin) ?_
    obtain ⟨k, hlo, hhi, rfl⟩ := hin
    have := Nat.div_mul_le_self k BSIZE
    omega
  · rw [hwrote.other i bn fun hand => hin hand.2, h.data]
    refine ⟨fun hlt => by omega, fun hlt => ?_⟩
    by_contra hge
    exact hin ⟨bn * BSIZE, by omega, hlt, Nat.mul_div_cancel _ BSIZE_pos⟩

theorem getD_take {k : ℕ} (h : k < m) : (p.take m).getD k 0 = p.getD k 0 := by
  rw [List.getD_eq_getElem?_getD, List.getD_eq_getElem?_getD, List.getElem?_take_of_lt h]

theorem setBytes_take (buf : Block) (start m : ℕ) (p : List Byte) :
    setBytes buf start m (fun k => (p.take m).getD k 0) =
      setBytes buf start m fun k => p.getD k 0 := by
  funext b
  by_cases hb : start ≤ b ∧ b < start + m
  · rw [setBytes, setBytes, if_pos hb, if_pos hb, getD_take (by omega)]
  · rw [setBytes, setBytes, if_neg hb, if_neg hb]

/-- The bytes `p` have been written to inode `i` from byte `off` on. -/
structure Appended (i off : ℕ) (p : List Byte) (s : State) (din : Dinode) (t : State)
    (din' : Dinode) : Prop where
  ready : Ready t
  freeinode : t.freeinode = s.freeinode
  dinode : t.disk.dinode = s.disk.dinode
  rest : ∀ k, NDIRECT < k → din'.addrs k = din.addrs k
  wrote : Wrote sb i off p.length (fun k => p.getD k 0) (s.disk.setDinode i din)
    (t.disk.setDinode i din')
  tight : Tight (t.disk.setDinode i din') i (off + p.length)
  blocks : t.freeblock + need off = s.freeblock + need (off + p.length)

theorem Appended.nil (h : Ready s) (hok : (s.disk.setDinode i din).Ok sb)
    (htight : Tight (s.disk.setDinode i din) i off) : Appended i off [] s din s din :=
  ⟨h, rfl, rfl, fun _ _ => rfl, Wrote.zero hok, htight, rfl⟩

theorem Appended.trans {t' : State} {din₁ : Dinode} (hm : m ≤ p.length)
    (h : Appended i off (p.take m) s din t din₁)
    (h' : Appended i (off + m) (p.drop m) t din₁ t' din') : Appended i off p s din t' din' := by
  have hlen : (p.take m).length = m := List.length_take_of_le hm
  have hsum : m + (p.drop m).length = p.length := by
    rw [List.length_drop]
    omega
  have hfirst : Wrote sb i off m (fun k => p.getD k 0) (s.disk.setDinode i din)
      (t.disk.setDinode i din₁) := by
    have hwrote := h.wrote
    rw [hlen] at hwrote
    refine { hwrote with byte := fun k hlo hhi => ?_ }
    rw [hwrote.byte k hlo hhi, getD_take (by omega)]
  have hrest : Wrote sb i (off + m) (p.drop m).length (fun k => p.getD (m + k) 0)
      (t.disk.setDinode i din₁) (t'.disk.setDinode i din') := by
    have hsrc : (fun k => (p.drop m).getD k 0) = fun k => p.getD (m + k) 0 := by
      funext k
      rw [List.getD_eq_getElem?_getD, List.getD_eq_getElem?_getD, List.getElem?_drop]
    rw [← hsrc]
    exact h'.wrote
  have hall := hfirst.trans hrest
  have hend : off + m + (p.drop m).length = off + p.length := by omega
  have htight := h'.tight
  have hblocks := h'.blocks
  have hblocks₁ := h.blocks
  rw [hlen] at hblocks₁
  rw [hend] at htight hblocks
  rw [hsum] at hall
  exact ⟨h'.ready, h'.freeinode.trans h.freeinode, h'.dinode.trans h.dinode,
    fun k hk => (h'.rest k hk).trans (h.rest k hk), hall, htight, by omega⟩

/-- The sector that was found is written. -/
theorem Took.appended {x : ℕ} (htook : Took i (off / BSIZE) s din t din')
    (htight : Tight (s.disk.setDinode i din) i off) (hpos : 0 < p.length)
    (hm : p.length ≤ BSIZE - off % BSIZE)
    (hblocks : t.freeblock = s.freeblock + missing (s.disk.setDinode i din) i (off / BSIZE))
    (htable : din'.addrs NDIRECT ≠ 0 ↔ din.addrs NDIRECT ≠ 0 ∨ NDIRECT ≤ off / BSIZE)
    (hnew : (t.disk.setDinode i din').number i (off / BSIZE) ≠ 0)
    (hx : (t.disk.setDinode i din').number i (off / BSIZE) = x)
    (hbounds : nmeta ≤ x ∧ x < t.freeblock) :
    Appended i off p s din (t.write .contents x (setBytes (t.image x) (off % BSIZE) p.length
      fun k => p.getD k 0)) din' := by
  generalize hdata : setBytes _ _ _ _ = data
  have hbuf : (t.disk.setDinode i din').block x = t.image x := if_pos hbounds.1
  have hdisk : (t.write .contents x data).disk.setDinode i din' =
      (t.disk.setDinode i din').setBlock x data := by
    rw [disk_write htook.ready.slots hbounds.1]
    rfl
  have hwrote := htook.grew.wrote (fun k => p.getD k 0) hnew hpos hm
  rw [hx, hbuf, hdata, ← hdisk] at hwrote
  have hle := htook.ready.le_FSSIZE
  have hbefore : din.addrs NDIRECT ≠ 0 ↔ NDIRECT * BSIZE < off := by
    rw [← htight.table, setDinode_self]
  refine ⟨htook.ready.write hbounds.2 ⟨hbounds.1, by omega⟩ (by decide), htook.freeinode, ?_,
    htook.rest, hwrote, ⟨htight.number_of_wrote hwrote, ?_⟩, ?_⟩
  · rw [disk_write htook.ready.slots hbounds.1]
    exact htook.dinode
  · rw [setDinode_self, htable, hbefore]
    unfold NDIRECT BSIZE at *
    omega
  · have hneed := htight.need_add hpos hm
    have hsame : (t.write .contents x data).freeblock = t.freeblock := rfl
    omega

theorem meets_appendFrom {Q : Dinode × ℕ → State → Prop} (h : Ready s)
    (hok : (s.disk.setDinode i din).Ok sb) (htype : din.type ≠ 0)
    (htight : Tight (s.disk.setDinode i din) i off)
    (hout : MAXFILE * BSIZE < off + p.length ∨
      FSSIZE + need off < s.freeblock + need (off + p.length) → ∀ e t, E e t)
    (hQ : ∀ t din', Appended i off p s din t din' → Q (din', off + p.length) t) :
    Meets E (appendFrom din off p) Q s := by
  induction hlen : p.length using Nat.strong_induction_on generalizing s din off p with
  | _ len ih =>
  subst hlen
  rw [appendFrom]
  by_cases hlt : p.length > 0
  · rw [if_pos hlt]
    by_cases hmax : off / BSIZE < MAXFILE
    · -- one block
      rw [if_pos hmax, meets_bind]
      have hdiv := Nat.div_add_mod off BSIZE
      have hmod := Nat.mod_lt off BSIZE_pos
      have hoff : off - off / BSIZE * BSIZE = off % BSIZE := by
        rw [Nat.mul_comm]
        omega
      have hroom : (off / BSIZE + 1) * BSIZE - off = BSIZE - off % BSIZE := by
        rw [Nat.succ_mul, Nat.mul_comm]
        omega
      rw [hoff, hroom]
      generalize hm : min p.length (BSIZE - off % BSIZE) = m
      have hpos : 0 < m := by omega
      have hle : m ≤ p.length := by omega
      have hblock : m ≤ BSIZE - off % BSIZE := by omega
      have htake : (p.take m).length = m := List.length_take_of_le hle
      have hneed := htight.need_add hpos hblock
      have hmono := need_mono (show off + m ≤ off + p.length by omega)
      refine meets_sectorFor h hok htype hmax (fun hfull => hout (Or.inr (by omega)))
        (fun hfull din' t ht => ?_) fun t din' htook hblocks htable hnew => ?_
      · rw [meets_bind]
        exact meets_rsect_beyond ht le_rfl (by decide) fun e => hout (Or.inr (by omega)) e t
      · have hdin' : (t.disk.setDinode i din').dinode i = din' := setDinode_self _
        obtain ⟨addrs, haddrs⟩ := htook.grew.dinode
        have hcopy : din' = { din with addrs := addrs } := by
          rw [← hdin', haddrs, Function.update_self, setDinode_self]
        have htype' : din'.type ≠ 0 := by
          rw [hcopy]
          exact htype
        have hbounds : nmeta ≤ (t.disk.setDinode i din').number i (off / BSIZE) ∧
            (t.disk.setDinode i din').number i (off / BSIZE) < t.freeblock := by
          rw [number_setDinode htype' hmax] at hnew ⊢
          exact held_bounds htook.grew.ok htype' (.data ⟨_, hmax⟩) hnew
        have hle_FSSIZE := htook.ready.le_FSSIZE
        dsimp only
        generalize hx : (t.disk.setDinode i din').number i (off / BSIZE) = x at hbounds
        rw [meets_bind]
        refine meets_rsect htook.ready.sectors (by omega) ?_
        rw [meets_bind]
        refine meets_wsect htook.ready.sectors (by omega) ?_
        have hfirst := htook.appended (p := p.take m) htight (by omega) (by omega) hblocks htable
          hnew hx hbounds
        have hsrc : setBytes (t.image x) (off % BSIZE) (p.take m).length
            (fun k => (p.take m).getD k 0) =
            setBytes (t.image x) (off % BSIZE) m fun k => p.getD k 0 := by
          rw [htake]
          exact setBytes_take _ _ _ _
        rw [hsrc] at hfirst
        have htight' := hfirst.tight
        have hblocks' := hfirst.blocks
        rw [htake] at htight' hblocks'
        have hend : off + m + (p.drop m).length = off + p.length := by
          rw [List.length_drop]
          omega
        refine ih (p.drop m).length (by rw [List.length_drop]; omega) hfirst.ready
          hfirst.wrote.ok htype' htight' ?_ (fun t' din'' hrest => ?_) rfl
        · rw [hend]
          exact fun hbad => hout (by omega)
        · rw [hend]
          exact hQ t' din'' (hfirst.trans hle hrest)
    · have hbig : MAXFILE * BSIZE ≤ off := by
        rw [← Nat.le_div_iff_mul_le BSIZE_pos]
        omega
      rw [if_neg hmax, meets_fail]
      exact hout (Or.inl (by omega)) _ _
  · have hnil : p = [] := List.eq_nil_of_length_eq_zero (by omega)
    subst hnil
    rw [if_neg hlt, meets_pure]
    exact hQ s din (Appended.nil h hok htight)

end Xv6.Mkfs
