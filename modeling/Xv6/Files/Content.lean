import Xv6.Files.Blocks

/-!
# `readi` and `writei`

The bytes of an inode are those of its blocks, one after another.  `Wrote` is the effect
of the loop of `writei`, in terms of these bytes: those that are written are as asked,
and all others of any inode, as far as they have a block, stay.  The parts of a write
compose (`Wrote.trans`), so the loop is an induction.
-/

namespace Xv6.Files

open Faulting

variable {sb : Superblock} {D D' : Disk} {s t : Kernel} {i j bn b k off len m : ℕ}
variable {E : Fault → Kernel → Prop} {src : ℕ → Byte} {ip : ℕ}

theorem BSIZE_pos : 0 < BSIZE := by decide

/-- Byte `k` of inode `i`. -/
def Disk.byte (D : Disk) (i k : ℕ) : Byte := D.block (D.number i (k / BSIZE)) (k % BSIZE)

/-- The byte of an inode and of the blocks that its addresses lead to. -/
def Dinode.byte (d : Dinode) (block : ℕ → Block) (k : ℕ) : Byte :=
  block (d.addr block (k / BSIZE)) (k % BSIZE)

/-- Block `bn` is one of those that the `len` bytes from `off` on are in. -/
def Within (off len bn : ℕ) : Prop := ∃ k, off ≤ k ∧ k < off + len ∧ k / BSIZE = bn

/-- `len` bytes of inode `i` have been written, from byte `off` on. -/
structure Wrote (sb : Superblock) (i off len : ℕ) (src : ℕ → Byte) (D D' : Disk) : Prop where
  ok : D'.Ok sb
  dinode : ∃ addrs, D'.dinode = Function.update D.dinode i { D.dinode i with addrs := addrs }
  number : ∀ j bn, D.number j bn ≠ 0 → D'.number j bn = D.number j bn
  made : ∀ bn, Within off len bn → D'.number i bn ≠ 0
  other : ∀ j bn, ¬(j = i ∧ Within off len bn) → D'.number j bn = D.number j bn
  byte : ∀ k, off ≤ k → k < off + len → D'.byte i k = src (k - off)
  keep : ∀ j k, D.number j (k / BSIZE) ≠ 0 → ¬(j = i ∧ off ≤ k ∧ k < off + len) →
    D'.byte j k = D.byte j k
  same : (∀ bn, Within off len bn → D.number i bn ≠ 0) → D'.dinode = D.dinode

theorem not_within_zero : ¬ Within off 0 bn := by
  rintro ⟨k, hlo, hhi, -⟩
  omega

theorem within_add : Within off (m + len) bn ↔ Within off m bn ∨ Within (off + m) len bn := by
  constructor
  · rintro ⟨k, hlo, hhi, hk⟩
    by_cases hm : k < off + m
    · exact Or.inl ⟨k, hlo, hm, hk⟩
    · exact Or.inr ⟨k, by omega, by omega, hk⟩
  · rintro (⟨k, hlo, hhi, hk⟩ | ⟨k, hlo, hhi, hk⟩)
    · exact ⟨k, hlo, by omega, hk⟩
    · exact ⟨k, by omega, by omega, hk⟩

/-- The rest of one block. -/
theorem within_block (hpos : 0 < m) (hm : m ≤ BSIZE - off % BSIZE) :
    Within off m bn ↔ bn = off / BSIZE := by
  have hsame : ∀ k, off ≤ k → k < off + m → k / BSIZE = off / BSIZE := fun k hlo hhi => by
    unfold BSIZE at hm ⊢
    omega
  constructor
  · rintro ⟨k, hlo, hhi, rfl⟩
    exact hsame k hlo hhi
  · rintro rfl
    exact ⟨off, le_rfl, by omega, rfl⟩

theorem Wrote.zero (h : D.Ok sb) : Wrote sb i off 0 src D D where
  ok := h
  dinode := ⟨(D.dinode i).addrs, (Function.update_eq_self ..).symm⟩
  number _ _ _ := rfl
  made bn hbn := absurd hbn not_within_zero
  other _ _ _ := rfl
  byte k hlo hhi := by omega
  keep _ _ _ _ := rfl
  same _ := rfl

theorem Wrote.trans {D₁ : Disk} (h : Wrote sb i off m src D D₁)
    (h₁ : Wrote sb i (off + m) len (fun k => src (m + k)) D₁ D') :
    Wrote sb i off (m + len) src D D' := by
  obtain ⟨addrs, haddrs⟩ := h.dinode
  obtain ⟨addrs', haddrs'⟩ := h₁.dinode
  have hpresent : ∀ j bn, D.number j bn ≠ 0 → D₁.number j bn ≠ 0 := fun j bn hpos => by
    rwa [h.number j bn hpos]
  refine ⟨h₁.ok, ⟨addrs', by rw [haddrs', haddrs]; simp⟩, fun j bn hpos => ?_, fun bn hbn => ?_,
    fun j bn hbn => ?_, fun k hlo hhi => ?_, fun j k hpos hout => ?_, fun hall => ?_⟩
  · rw [h₁.number j bn (hpresent j bn hpos), h.number j bn hpos]
  · rcases within_add.mp hbn with hbn | hbn
    · have hpos := h.made bn hbn
      rwa [h₁.number i bn hpos]
    · exact h₁.made bn hbn
  · rw [h₁.other j bn fun hin => hbn ⟨hin.1, within_add.mpr (Or.inr hin.2)⟩,
      h.other j bn fun hin => hbn ⟨hin.1, within_add.mpr (Or.inl hin.2)⟩]
  · by_cases hk : k < off + m
    · have hpos := h.made (k / BSIZE) ⟨k, hlo, hk, rfl⟩
      rw [h₁.keep i k hpos (by omega), h.byte k hlo hk]
    · have hsub : m + (k - (off + m)) = k - off := by omega
      rw [h₁.byte k (by omega) (by omega), hsub]
  · rw [h₁.keep j k (hpresent j _ hpos) (by omega), h.keep j k hpos (by omega)]
  · have hfirst := h.same fun bn hbn => hall bn (within_add.mpr (Or.inl hbn))
    have hrest := h₁.same fun bn hbn => hpresent i bn (hall bn (within_add.mpr (Or.inr hbn)))
    rw [hrest, hfirst]

variable (src) in
/-- What is written to one block. -/
theorem Grew.wrote (h : Grew sb i (off / BSIZE) D D') (hnew : D'.number i (off / BSIZE) ≠ 0)
    (hpos : 0 < m) (hm : m ≤ BSIZE - off % BSIZE) :
    Wrote sb i off m src D (D'.setBlock (D'.number i (off / BSIZE))
      (setBytes (D'.block (D'.number i (off / BSIZE))) (off % BSIZE) m src)) := by
  have hwithin : ∀ bn, Within off m bn ↔ bn = off / BSIZE := fun _ => within_block hpos hm
  generalize hdata : setBytes _ _ _ src = data
  have hmax := lt_of_number hnew
  have hplace : (D'.setBlock (D'.number i (off / BSIZE)) data).place = D'.place := by
    rw [number_of_lt hmax]
    exact place_setBlock h.ok
  have hnumber : ∀ j bn, (D'.setBlock (D'.number i (off / BSIZE)) data).number j bn =
      D'.number j bn := number_congr hplace
  obtain ⟨addrs, haddrs⟩ := h.dinode
  refine ⟨h.ok.congr hplace rfl, ⟨addrs, haddrs⟩, fun j bn hpos => ?_, fun bn hbn => ?_,
    fun j bn hbn => ?_, fun k hlo hhi => ?_, fun j k hpos hout => ?_, fun hall => ?_⟩
  · rw [hnumber, h.number_of_pos hpos]
  · rw [hnumber, (hwithin bn).mp hbn]
    exact hnew
  · rw [hnumber, h.number]
    intro heq
    obtain ⟨rfl, rfl⟩ := Prod.mk.inj heq
    exact hbn ⟨rfl, (hwithin _).mpr rfl⟩
  · have hk : k / BSIZE = off / BSIZE := (hwithin _).mp ⟨k, hlo, hhi, rfl⟩
    have hmod : k % BSIZE - off % BSIZE = k - off := by
      unfold BSIZE at hk ⊢
      omega
    have hin : off % BSIZE ≤ k % BSIZE ∧ k % BSIZE < off % BSIZE + m := by
      unfold BSIZE at hk ⊢
      omega
    rw [Disk.byte, hnumber, hk, setBlock_self, ← hdata, setBytes, if_pos hin, hmod]
  · have hsame := h.number_of_pos hpos
    rw [Disk.byte, hnumber, hsame, Disk.byte]
    by_cases hblock : j = i ∧ k / BSIZE = off / BSIZE
    · -- the same block, but another byte
      obtain ⟨rfl, hk⟩ := hblock
      rw [hk] at hpos hsame ⊢
      have heq := h.eq_of_pos hpos
      have hnot : ¬(off % BSIZE ≤ k % BSIZE ∧ k % BSIZE < off % BSIZE + m) := by
        unfold BSIZE at hk
        intro hin
        refine hout ⟨rfl, ?_⟩
        unfold BSIZE at hin
        omega
      rw [← hsame, setBlock_self, ← hdata, setBytes, if_neg hnot, hsame, heq]
    · have hne : D.number j (k / BSIZE) ≠ D'.number i (off / BSIZE) := fun heq => by
        rw [← hsame] at heq hpos
        exact hblock (h.ok.number_inj hpos heq)
      rw [setBlock_of_ne _ hne, h.kept hpos]
  · have hpos := hall _ ((hwithin _).mpr rfl)
    show D'.dinode = D.dinode
    rw [h.eq_of_pos hpos]

/-! ## The loops -/

theorem div_lt_MAXFILE (h : k < MAXFILE * BSIZE) : k / BSIZE < MAXFILE :=
  (Nat.div_lt_iff_lt_mul BSIZE_pos).mpr h

/-- A chunk does not go beyond its block. -/
theorem chunk_bounds (n tot off : ℕ) (h : tot < n) :
    0 < min (n - tot) (BSIZE - off % BSIZE) ∧
      min (n - tot) (BSIZE - off % BSIZE) ≤ BSIZE - off % BSIZE ∧
      min (n - tot) (BSIZE - off % BSIZE) ≤ n - tot := by
  have := Nat.mod_lt off BSIZE_pos
  omega

theorem meets_writeFrom {n tot : ℕ} {Q : ℕ → Kernel → Prop} (hok : (s.image ip).Ok sb)
    (htype : (s.icache ip).type ≠ 0) (htot : tot ≤ n) (hmax : off + (n - tot) ≤ MAXFILE * BSIZE)
    (hout : NoBlock E s)
    (hQ : ∀ t, Touched ip s t → Wrote sb (s.icache ip).inum off (n - tot) (fun k => src (tot + k))
      (s.image ip) (t.image ip) → Q (off + (n - tot)) t) :
    Meets E (writeFrom sb ip src n tot off) Q s := by
  induction hrest : n - tot using Nat.strong_induction_on generalizing s tot off with
  | _ rest ih =>
  subst hrest
  rw [writeFrom]
  by_cases hlt : tot < n
  · obtain ⟨hpos, hblock, hle⟩ := chunk_bounds n tot off hlt
    have hbn : off / BSIZE < MAXFILE := div_lt_MAXFILE (by omega)
    rw [if_pos hlt, meets_bind]
    refine meets_bmap hok htype hbn hout fun t₁ ht₁ hgrew hnew => ?_
    generalize hm : min (n - tot) (BSIZE - off % BSIZE) = m at hpos hblock hle ⊢
    dsimp only
    rw [meets_bind, bwrite, meets_modify]
    generalize ht₂ : ({ t₁ with disk.block := _ } : Kernel) = t₂
    have hstep : Wrote sb (s.icache ip).inum off m (fun k => src (tot + k)) (s.image ip)
        (t₂.image ip) := by
      rw [← ht₂]
      exact hgrew.wrote _ hnew hpos hblock
    have htouched : Touched ip s t₂ := by
      rw [← ht₂]
      exact ht₁.trans ⟨rfl, rfl, ⟨_, (Function.update_eq_self ..).symm⟩, rfl, rfl, rfl⟩
    refine ih (n - (tot + m)) (by omega) hstep.ok (by rwa [htouched.type]) (by omega) (by omega)
      (hout.congr htouched.commits) (fun t ht hwrote => ?_) rfl
    rw [htouched.inum] at hwrote
    have hsrc : (fun k => src (tot + m + k)) = fun k => src (tot + (m + k)) := by
      funext k
      rw [Nat.add_assoc]
    rw [hsrc] at hwrote
    have hall := hstep.trans hwrote
    have hlen : m + (n - (tot + m)) = n - tot := by omega
    have hend : off + m + (n - (tot + m)) = off + (n - tot) := by omega
    rw [hlen] at hall
    rw [hend]
    exact hQ t (htouched.trans ht) hall
  · have hzero : n - tot = 0 := by omega
    rw [if_neg hlt, meets_pure]
    rw [hzero] at hQ
    exact hQ s (Touched.refl ip s) (Wrote.zero hok)

theorem meets_readFrom {n tot : ℕ} {dst : List Byte} {Q : List Byte → Kernel → Prop}
    (hpresent : ∀ bn, Within off (n - tot) bn →
      bn < MAXFILE ∧ (s.icache ip).addr s.disk.block bn ≠ 0)
    (hQ : Q (dst ++ (List.range (n - tot)).map fun k =>
      (s.icache ip).byte s.disk.block (off + k)) s) :
    Meets E (readFrom sb ip n tot off dst) Q s := by
  induction hrest : n - tot using Nat.strong_induction_on generalizing tot off dst with
  | _ rest ih =>
  subst hrest
  rw [readFrom]
  by_cases hlt : tot < n
  · obtain ⟨hpos, hblock, hle⟩ := chunk_bounds n tot off hlt
    have hfirst := hpresent (off / BSIZE) ⟨off, le_rfl, by omega, rfl⟩
    rw [if_pos hlt, meets_bind]
    refine meets_bmap_present hfirst.1 hfirst.2 ?_
    generalize hm : min (n - tot) (BSIZE - off % BSIZE) = m at hpos hblock hle ⊢
    rw [bread, meets_bind, meets_bind, meets_get, meets_pure]
    dsimp only
    refine ih (n - (tot + m)) (by omega) (fun bn hbn => hpresent bn ?_) ?_ rfl
    · have hsplit : n - tot = m + (n - (tot + m)) := by omega
      rw [hsplit]
      exact within_add.mpr (Or.inr hbn)
    · have hbytes : ∀ k < m, s.disk.block ((s.icache ip).addr s.disk.block (off / BSIZE))
          (off % BSIZE + k) = (s.icache ip).byte s.disk.block (off + k) := fun k hk => by
        have hdiv : (off + k) / BSIZE = off / BSIZE := by
          unfold BSIZE at hblock ⊢
          omega
        have hmod : (off + k) % BSIZE = off % BSIZE + k := by
          unfold BSIZE at hblock ⊢
          omega
        rw [Dinode.byte, hdiv, hmod]
      have hmap : ((List.range m).map fun k =>
          s.disk.block ((s.icache ip).addr s.disk.block (off / BSIZE)) (off % BSIZE + k)) =
          (List.range m).map fun k => (s.icache ip).byte s.disk.block (off + k) :=
        List.map_congr_left fun k hk => hbytes k (List.mem_range.mp hk)
      have hsplit : n - tot = m + (n - (tot + m)) := by omega
      rw [hsplit, List.range_add, List.map_append, List.map_map, ← hmap, ← List.append_assoc] at hQ
      simpa only [Function.comp_def, Nat.add_assoc] using hQ
  · have hzero : n - tot = 0 := by omega
    rw [hzero] at hQ
    rw [if_neg hlt, meets_pure]
    simpa using hQ

/-! ## The two functions -/

/-- There is a block for every byte of the inode. -/
def Disk.Whole (D : Disk) (i : ℕ) : Prop :=
  ∀ k < (D.dinode i).size, D.number i (k / BSIZE) ≠ 0

/-- The copy in the cache is the inode of the disk. -/
def Kernel.Coherent (s : Kernel) (ip : ℕ) : Prop :=
  (s.icache ip).toDinode = s.disk.dinode (s.icache ip).inum

theorem Kernel.Coherent.image (h : s.Coherent ip) : s.image ip = s.disk := by
  rw [Kernel.image, h]
  exact setDinode_same

theorem Disk.Whole.size_le (h : D.Whole i) : (D.dinode i).size ≤ MAXFILE * BSIZE := by
  by_contra hlt
  have hmax := lt_of_number (h (MAXFILE * BSIZE) (by omega))
  rw [Nat.mul_div_cancel _ BSIZE_pos] at hmax
  exact absurd hmax (lt_irrefl _)

/-- The inode has a new size. -/
def Disk.resize (D : Disk) (i size : ℕ) : Disk :=
  D.setDinode i { D.dinode i with size := size }

theorem place_resize {size : ℕ} : (D.resize i size).place = D.place := by
  funext ⟨j, slot⟩
  by_cases hj : j = i
  · subst hj
    simp only [Disk.place, Disk.resize, setDinode_self]
    rfl
  · exact place_congr (setDinode_of_ne _ hj) fun _ _ => rfl

theorem byte_resize {size : ℕ} : (D.resize i size).byte j k = D.byte j k := by
  rw [Disk.byte, number_congr place_resize]
  rfl

/-- An inode has been written back: it is `d` in the cache and on the disk `D`. -/
structure Updated (ip : ℕ) (D : Disk) (s t : Kernel) : Prop where
  disk : t.disk = D
  commits : t.commits = s.commits
  icache : t.icache = Function.update s.icache ip
    { s.icache ip with toDinode := D.dinode (s.icache ip).inum }
  ftable : t.ftable = s.ftable
  proc : t.proc = s.proc
  device : t.device = s.device

theorem resize_same {size : ℕ} (h : (D.dinode i).size = size) : D.resize i size = D := by
  subst h
  exact setDinode_same

theorem uint_wraps {n : ℕ} (hoff : off < 2 ^ 32) (hn : n < 2 ^ 32) :
    uint (off + n) < off ↔ 2 ^ 32 ≤ off + n := by
  unfold uint
  omega

theorem uint_of_le {n : ℕ} (hoff : off < 2 ^ 32) (hn : n < 2 ^ 32) (h : ¬ uint (off + n) < off) :
    uint (off + n) = off + n := by
  rw [uint_wraps hoff hn] at h
  exact Nat.mod_eq_of_lt (by omega)

/-- `readi`, when there are blocks for the bytes that it reads. -/
theorem meets_readi_present {devsw : Devsw} {n : ℕ} {Q : ℤ × List Byte → Kernel → Prop}
    (hdev : (s.icache ip).type ≠ T_DEV) (hoff : off < 2 ^ 32) (hn : n < 2 ^ 32)
    (hpresent : ∀ k, off ≤ k → k < off + n → k < (s.icache ip).size →
      k / BSIZE < MAXFILE ∧ (s.icache ip).addr s.disk.block (k / BSIZE) ≠ 0)
    (hreject : (s.icache ip).size < off ∨ 2 ^ 32 ≤ off + n → Q (-1, []) s)
    (hread : off ≤ (s.icache ip).size → off + n < 2 ^ 32 →
      Q (((min n ((s.icache ip).size - off) : ℕ) : ℤ),
        (List.range (min n ((s.icache ip).size - off))).map fun k =>
          (s.icache ip).byte s.disk.block (off + k)) s) :
    Meets E (readi sb devsw ip off n) Q s := by
  rw [readi, getinode, meets_bind, meets_bind, meets_get, meets_pure, if_neg hdev]
  split
  · rename_i hbad
    rw [uint_wraps hoff hn] at hbad
    exact hreject hbad
  · rename_i hgood
    rw [not_or] at hgood
    have huint := uint_of_le hoff hn hgood.2
    rw [uint_wraps hoff hn] at hgood
    have hmin : (if uint (off + n) > (s.icache ip).size then (s.icache ip).size - off else n) =
        min n ((s.icache ip).size - off) := by
      rw [huint]
      split <;> omega
    have hread := hread (by omega) (by omega)
    rw [hmin, meets_bind]
    generalize hm : min n ((s.icache ip).size - off) = m at hread ⊢
    refine meets_readFrom (fun bn hbn => ?_) ?_
    · obtain ⟨k, hlo, hhi, rfl⟩ := hbn
      exact hpresent k hlo (by omega) (by omega)
    · rw [Nat.sub_zero, List.nil_append]
      exact hread

/-- The addresses of an inode of the cache are those of the disk. -/
theorem Kernel.Coherent.addr (h : s.Coherent ip) (htype : (s.icache ip).type ≠ 0)
    (hbn : bn < MAXFILE) :
    (s.icache ip).addr s.disk.block bn = s.disk.number (s.icache ip).inum bn := by
  have hdinode : s.disk.dinode (s.icache ip).inum = (s.icache ip).toDinode := h.symm
  rw [number_of_lt hbn, place_data (by rwa [hdinode]), hdinode]

theorem meets_readi {devsw : Devsw} {n : ℕ} {Q : ℤ × List Byte → Kernel → Prop}
    (hcoherent : s.Coherent ip) (htype : (s.icache ip).type ≠ 0)
    (hdev : (s.icache ip).type ≠ T_DEV) (hwhole : s.disk.Whole (s.icache ip).inum)
    (hoff : off < 2 ^ 32) (hn : n < 2 ^ 32)
    (hreject : (s.icache ip).size < off ∨ 2 ^ 32 ≤ off + n → Q (-1, []) s)
    (hread : off ≤ (s.icache ip).size → off + n < 2 ^ 32 →
      Q (((min n ((s.icache ip).size - off) : ℕ) : ℤ),
        (List.range (min n ((s.icache ip).size - off))).map fun k =>
          s.disk.byte (s.icache ip).inum (off + k)) s) :
    Meets E (readi sb devsw ip off n) Q s := by
  have hsize : (s.icache ip).size = (s.disk.dinode (s.icache ip).inum).size :=
    congrArg Dinode.size hcoherent
  have hblock : ∀ k < (s.icache ip).size, k / BSIZE < MAXFILE ∧
      (s.icache ip).addr s.disk.block (k / BSIZE) ≠ 0 := fun k hk => by
    have hpos := hwhole k (by omega)
    have hmax := lt_of_number hpos
    rw [hcoherent.addr htype hmax]
    exact ⟨hmax, hpos⟩
  refine meets_readi_present hdev hoff hn (fun k _ _ => hblock k) hreject fun hle hlt => ?_
  have hmap : ((List.range (min n ((s.icache ip).size - off))).map fun k =>
      (s.icache ip).byte s.disk.block (off + k)) =
      (List.range (min n ((s.icache ip).size - off))).map fun k =>
        s.disk.byte (s.icache ip).inum (off + k) :=
    List.map_congr_left fun k hk => by
      have hk := List.mem_range.mp hk
      rw [Dinode.byte, hcoherent.addr htype (hblock (off + k) (by omega)).1, Disk.byte]
  rw [hmap]
  exact hread hle hlt

theorem meets_writei {devsw : Devsw} {n : ℕ} {Q : ℤ → Kernel → Prop}
    (hok : s.disk.Ok sb) (hcoherent : s.Coherent ip) (htype : (s.icache ip).type ≠ 0)
    (hdev : (s.icache ip).type ≠ T_DEV) (hwhole : s.disk.Whole (s.icache ip).inum)
    (hoff : off < 2 ^ 32) (hn : n < 2 ^ 32) (hout : NoBlock E s)
    (hreject : (s.icache ip).size < off ∨ 2 ^ 32 ≤ off + n ∨ MAXFILE * BSIZE < off + n →
      Q (-1) s)
    (hwrite : off ≤ (s.icache ip).size → off + n ≤ MAXFILE * BSIZE → ∀ D t,
      Wrote sb (s.icache ip).inum off n src s.disk D →
      Updated ip (D.resize (s.icache ip).inum (max (s.icache ip).size (off + n))) s t → Q n t) :
    Meets E (writei sb devsw ip src off n) Q s := by
  rw [writei, getinode, meets_bind, meets_bind, meets_get, meets_pure, if_neg hdev]
  split
  · rename_i hbad
    rw [uint_wraps hoff hn] at hbad
    exact hreject (by omega)
  rename_i hgood
  rw [not_or] at hgood
  have huint := uint_of_le hoff hn hgood.2
  rw [uint_wraps hoff hn] at hgood
  split
  · rename_i hbig
    rw [huint] at hbig
    exact hreject (by omega)
  rename_i hmax
  rw [huint] at hmax
  have himage := hcoherent.image
  have hsize : (s.icache ip).size = (s.disk.dinode (s.icache ip).inum).size :=
    congrArg Dinode.size hcoherent
  rw [meets_bind]
  refine meets_writeFrom (himage.symm ▸ hok) htype (Nat.zero_le n) (by omega) hout
    fun t ht hwrote => ?_
  have hsrc : (fun k => src (0 + k)) = src := by
    funext k
    rw [Nat.zero_add]
  rw [Nat.sub_zero, himage, hsrc] at hwrote
  rw [Nat.sub_zero]
  obtain ⟨addrs, haddrs⟩ := ht.icache
  have hcopy : (t.icache ip).toDinode = (t.image ip).dinode (s.icache ip).inum := by
    rw [← ht.inum, image_dinode]
  have hsame : (t.icache ip).size = (s.icache ip).size := by
    rw [haddrs, Function.update_self]
  have hend := hwrite (by omega) (by omega) (t.image ip)
  rw [meets_bind, meets_bind, meets_get, meets_pure]
  dsimp only
  rw [hsame]
  split
  · -- the inode grows, and is written back
    rename_i hgrown
    have hmaximum : max (s.icache ip).size (off + n) = off + n := by omega
    rw [hmaximum] at hend
    refine hend _ hwrote ⟨?_, ht.commits, ?_, ht.ftable, ht.proc, ht.device⟩
    · simp only [Disk.resize, Kernel.image, ht.inum, setDinode_self, setDinode_setDinode,
        Function.update_self]
      rfl
    · rw [Disk.resize, setDinode_self, ← hcopy]
      simp [haddrs]
  · -- all blocks were there
    rename_i hfits
    have hpresent : ∀ bn, Within off n bn → s.disk.number (s.icache ip).inum bn ≠ 0 := by
      rintro bn ⟨k, hlo, hhi, rfl⟩
      exact hwhole k (by omega)
    have hdinode := hwrote.same hpresent
    have hmaximum : max (s.icache ip).size (off + n) = (s.icache ip).size := by omega
    rw [hmaximum] at hend
    refine hend t hwrote ⟨?_, ht.commits, ?_, ht.ftable, ht.proc, ht.device⟩
    · rw [resize_same (by rw [hdinode, ← hsize])]
      have hdisk : (t.image ip).dinode = t.disk.dinode := hdinode.trans ht.dinode.symm
      show t.disk = { t.disk with dinode := (t.image ip).dinode }
      rw [hdisk]
    · rw [resize_same (by rw [hdinode, ← hsize]), ← hcopy, haddrs]
      simp

end Xv6.Files
