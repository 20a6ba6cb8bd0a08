import Mathlib.Data.Finset.Card
import Xv6.Lib.Traced
import Xv6.Files.Inodes

/-!
# What is written to the log

`writei` and what it calls, with the calls of `log_write`.  Without them these are the functions
of before (`erases_writei`).
-/

namespace Xv6.Files

open Faulting

/-! ## The code -/

/-- Where the inodes and the bitmap are. -/
structure Layout extends Superblock where
  inodestart : ℕ
  bmapstart : ℕ

/-- Inodes per block; `sizeof(struct dinode)` is 64. -/
def IPB : ℕ := BSIZE / 64

/-- Bitmap bits per block. -/
def BPB : ℕ := BSIZE * 8

def Layout.IBLOCK (L : Layout) (i : ℕ) : ℕ := i / IPB + L.inodestart

def Layout.BBLOCK (L : Layout) (b : ℕ) : ℕ := b / BPB + L.bmapstart

/-- What `filewrite` does besides changing the state.  `wrote` is a call of `writei` for the `n`
bytes from `start` on, which has returned `r`. -/
inductive WriteEvent where
  | beginOp
  | logWrite (b : ℕ)
  | wrote (start n : ℕ) (r : ℤ)
  | endOp

abbrev LogFs := Traced Kernel WriteEvent

def logWrite (b : ℕ) : LogFs PUnit := emit (.logWrite b)

namespace Logged

def bzero (b : ℕ) : LogFs PUnit := do
  lift (Files.bzero b)
  logWrite b

def balloc (L : Layout) : LogFs ℕ := do
  let s ← lift get
  match (List.range L.size).find? fun b => !s.disk.bitmap b with
  | some b =>
      lift (setbit b true)
      logWrite (L.BBLOCK b)
      bzero b
      pure b
  | none => fail "balloc: out of blocks"

def directBlock (L : Layout) (ip i : ℕ) : LogFs ℕ := do
  let addr := (← lift (getinode ip)).addrs i
  if addr = 0 then
    let addr ← balloc L
    lift (setaddr ip i addr)
    pure addr
  else pure addr

def bmap (L : Layout) (ip bn : ℕ) : LogFs ℕ := do
  if bn < NDIRECT then directBlock L ip bn
  else if bn - NDIRECT < NINDIRECT then
    let table ← directBlock L ip NDIRECT
    let addr := word (← lift (bread table)) (bn - NDIRECT)
    if addr = 0 then
      let addr ← balloc L
      lift (bwrite table fun a => setWord a (bn - NDIRECT) addr)
      logWrite table
      pure addr
    else pure addr
  else fail "bmap: out of range"

def iupdate (L : Layout) (ip : ℕ) : LogFs PUnit := do
  let inum := (← lift (getinode ip)).inum
  lift (Files.iupdate ip)
  logWrite (L.IBLOCK inum)

def writeFrom (L : Layout) (ip : ℕ) (src : ℕ → Byte) (n tot off : ℕ) : LogFs ℕ := do
  if tot < n then
    let b ← bmap L ip (off / BSIZE)
    let m := min (n - tot) (BSIZE - off % BSIZE)
    lift (bwrite b fun data => setBytes data (off % BSIZE) m fun i => src (tot + i))
    logWrite b
    writeFrom L ip src n (tot + m) (off + m)
  else pure off
termination_by n - tot
decreasing_by
  have := Nat.mod_lt off (show 0 < BSIZE by decide)
  omega

def writei (L : Layout) (devsw : Devsw) (ip : ℕ) (src : ℕ → Byte) (off n : ℕ) : LogFs ℤ := do
  let inode ← lift (getinode ip)
  if inode.type = T_DEV then
    if hasDevice devsw.write inode.major then pure n else pure (-1)
  else if off > inode.size ∨ uint (off + n) < off then pure (-1)
  else if uint (off + n) > MAXFILE * BSIZE then pure (-1)
  else
    let off ← writeFrom L ip src n 0 off
    if n > 0 ∧ off > (← lift (getinode ip)).size then
      lift (setinode ip fun inode => { inode with size := off })
      iupdate L ip
    pure n

end Logged

/-! ## The functions without the log -/

variable {L : Layout} {devsw : Devsw} {ip i j n off bn b : ℕ} {src : ℕ → Byte}

variable {tr : List WriteEvent} {data data' : Finset ℕ} {s t : Kernel × List WriteEvent}
variable {E : Fault → Kernel × List WriteEvent → Prop}

/-- The indirect block of the inode, if there is one, is `b`. -/
def Kernel.IsTable (k : Kernel) (ip b : ℕ) : Prop :=
  (k.icache ip).addrs NDIRECT ≠ 0 ∧ b = (k.icache ip).addrs NDIRECT

/-- The blocks that have been written since `tr` are the block of the bitmap, the indirect block,
and some of `data`. -/
structure Logs (L : Layout) (ip : ℕ) (tr : List WriteEvent) (data : Finset ℕ)
    (s : Kernel × List WriteEvent) : Prop where
  boot : s.1.disk.bitmap 0 = true
  events : ∃ blocks : List ℕ, s.2 = tr ++ blocks.map .logWrite ∧
    ∀ b ∈ blocks, b = L.bmapstart ∨ s.1.IsTable ip b ∨ b ∈ data

/-- How many blocks the `len` bytes from `off` on are in. -/
def blocksIn (off len : ℕ) : ℕ := (off + len + BSIZE - 1) / BSIZE - off / BSIZE

/-- All bits are in one block. -/
theorem Layout.BBLOCK_eq (hsize : L.size ≤ BPB) (hb : b < L.size) : L.BBLOCK b = L.bmapstart := by
  rw [Layout.BBLOCK, Nat.div_eq_of_lt (hb.trans_le hsize), Nat.zero_add]

namespace Logs

theorem start {k : Kernel} (hboot : k.disk.bitmap 0 = true) : Logs L ip tr ∅ (k, tr) :=
  ⟨hboot, [], (List.append_nil tr).symm, fun _ hb => absurd hb List.not_mem_nil⟩

/-- Another block is written that is one of these. -/
theorem write (h : Logs L ip tr data s)
    (hb : b = L.bmapstart ∨ s.1.IsTable ip b ∨ b ∈ data) :
    Logs L ip tr data (s.1, s.2 ++ [.logWrite b]) := by
  obtain ⟨blocks, hevents, hblocks⟩ := h.events
  refine ⟨h.boot, blocks ++ [b], ?_, fun c hc => ?_⟩
  · rw [hevents, List.append_assoc, List.map_append]
    rfl
  · rcases List.mem_append.mp hc with hc | hc
    · exact hblocks c hc
    · rwa [List.mem_singleton.mp hc]

/-- The state changes, but no block that has been written is lost. -/
theorem move {k : Kernel} (h : Logs L ip tr data s) (hboot : k.disk.bitmap 0 = true)
    (hkeep : ∀ b, s.1.IsTable ip b ∨ b ∈ data → k.IsTable ip b ∨ b ∈ data') :
    Logs L ip tr data' (k, s.2) := by
  obtain ⟨blocks, hevents, hblocks⟩ := h.events
  exact ⟨hboot, blocks, hevents, fun b hb => (hblocks b hb).imp_right (hkeep b)⟩

theorem setBlock {f : ℕ → Block} (h : Logs L ip tr data s) :
    Logs L ip tr data ({ s.1 with disk.block := f }, s.2) := h.move h.boot fun _ hb => hb

theorem setDinode {f : ℕ → Dinode} (h : Logs L ip tr data s) :
    Logs L ip tr data ({ s.1 with disk.dinode := f }, s.2) := h.move h.boot fun _ hb => hb

theorem resize {size : ℕ} (h : Logs L ip tr data s) :
    Logs L ip tr data (s.1.setInode ip { s.1.icache ip with size := size }, s.2) := by
  refine h.move h.boot fun b hb => hb.imp_left fun htable => ?_
  rw [Kernel.IsTable, setInode_self]
  exact htable

theorem mono (h : Logs L ip tr data s) (hsub : data ⊆ data') : Logs L ip tr data' s :=
  h.move h.boot fun _ hb => hb.imp_right fun hb => hsub hb

theorem meets_balloc (h : Logs L ip tr data s) (hsize : L.size ≤ BPB)
    {Q : ℕ → Kernel × List WriteEvent → Prop} (hout : E (.panic "balloc: out of blocks") s)
    (hQ : ∀ b t, b ≠ 0 → t.1.icache = s.1.icache → Logs L ip tr (insert b data) t → Q b t) :
    Meets E (Logged.balloc L) Q s := by
  rw [Logged.balloc, meets_bind, meets_lift, meets_get]
  cases hfind : (List.range L.size).find? fun b => !s.1.disk.bitmap b with
  | none => exact hout
  | some b =>
      have hfree : s.1.disk.bitmap b = false := by simpa using List.find?_some hfind
      have hlt : b < L.size := List.mem_range.mp (List.mem_of_find?_eq_some hfind)
      have hne : b ≠ 0 := fun hzero => by
        rw [hzero, h.boot] at hfree
        exact absurd hfree.symm Bool.false_ne_true
      simp only [meets_bind, meets_lift, setbit, meets_modify, logWrite, meets_emit, Logged.bzero,
        bzero, bwrite, meets_pure]
      rw [L.BBLOCK_eq hsize hlt]
      have hmarked := (h.mono (Finset.subset_insert b data)).write (Or.inl rfl)
      have hzeroed := hmarked.write (b := b) (Or.inr (Or.inr (Finset.mem_insert_self b data)))
      refine hQ b _ hne rfl (hzeroed.move ?_ fun _ hb => hb)
      show Function.update s.1.disk.bitmap b true 0 = true
      rw [Function.update_of_ne hne.symm]
      exact h.boot

theorem meets_directBlock (h : Logs L ip tr data s) (hsize : L.size ≤ BPB)
    {Q : ℕ → Kernel × List WriteEvent → Prop} (hout : E (.panic "balloc: out of blocks") s)
    (hQ : ∀ b t, b ≠ 0 → (t.1.icache ip).addrs j = b → Logs L ip tr (insert b data) t → Q b t) :
    Meets E (Logged.directBlock L ip j) Q s := by
  rw [Logged.directBlock, meets_bind, meets_lift, meets_getinode]
  by_cases haddr : (s.1.icache ip).addrs j = 0
  · rw [if_pos haddr, meets_bind]
    refine h.meets_balloc hsize hout fun b t hne hicache ht => ?_
    rw [meets_bind, meets_lift, setaddr, meets_setinode, meets_pure]
    refine hQ b _ hne ?_ (ht.move ht.boot fun c hc => hc.imp_left fun htable => ?_)
    · rw [setInode_self]
      exact Function.update_self ..
    · have hj : j ≠ NDIRECT := fun heq => by
        rw [← hicache, heq] at haddr
        exact htable.1 haddr
      have hkept : ((t.1.setInode ip
          { t.1.icache ip with addrs := Function.update (t.1.icache ip).addrs j b }).icache
            ip).addrs NDIRECT = (t.1.icache ip).addrs NDIRECT := by
        rw [setInode_self]
        exact Function.update_of_ne hj.symm ..
      rw [Kernel.IsTable, hkept]
      exact htable
  · rw [if_neg haddr, meets_pure]
    exact hQ _ s haddr rfl (h.mono (Finset.subset_insert _ _))

/-- Only the block that is returned may be a new one. -/
theorem meets_bmap (h : Logs L ip tr data s) (hsize : L.size ≤ BPB) (hbn : bn < MAXFILE)
    {Q : ℕ → Kernel × List WriteEvent → Prop}
    (hout : ∀ t, Logs L ip tr data t → E (.panic "balloc: out of blocks") t)
    (hQ : ∀ b t, Logs L ip tr (insert b data) t → Q b t) :
    Meets E (Logged.bmap L ip bn) Q s := by
  rw [Logged.bmap]
  by_cases hdirect : bn < NDIRECT
  · rw [if_pos hdirect]
    exact h.meets_directBlock hsize (hout s h) fun b t _ _ ht => hQ b t ht
  · have hindirect : bn - NDIRECT < NINDIRECT := by
      unfold MAXFILE at hbn
      omega
    rw [if_neg hdirect, if_pos hindirect, meets_bind]
    refine h.meets_directBlock hsize (hout s h) fun table t hne haddr ht => ?_
    -- the indirect block needs no place of its own
    have htable : t.1.IsTable ip table := ⟨haddr ▸ hne, haddr.symm⟩
    have ht' : Logs L ip tr data t := ht.move ht.boot fun c hc => by
      rcases hc with hc | hc
      · exact Or.inl hc
      · rcases Finset.mem_insert.mp hc with rfl | hc
        · exact Or.inl htable
        · exact Or.inr hc
    rw [meets_bind, meets_lift, bread, meets_bind, meets_get, meets_pure]
    by_cases hword : word (t.1.disk.block table) (bn - NDIRECT) = 0
    · rw [if_pos hword, meets_bind]
      refine ht'.meets_balloc hsize (hout t ht') fun b u _ hicache hu => ?_
      rw [meets_bind, meets_lift, bwrite, meets_modify, meets_bind, logWrite, meets_emit,
        meets_pure]
      refine hQ b _ (hu.setBlock.write (Or.inr (Or.inl ?_)))
      rw [Kernel.IsTable]
      dsimp only
      rw [hicache]
      exact htable
    · rw [if_neg hword, meets_pure]
      exact hQ _ t (ht'.mono (Finset.subset_insert _ _))

/-- Each turn of the loop writes one block, besides the block of the bitmap and the indirect
block. -/
theorem meets_writeFrom (h : Logs L ip tr data s) (hsize : L.size ≤ BPB) {tot N : ℕ}
    (hmax : off + (n - tot) ≤ MAXFILE * BSIZE) (htot : tot ≤ n) (hcard : data.card ≤ N)
    (hroom : tot < n → data.card + blocksIn off (n - tot) ≤ N)
    {Q : ℕ → Kernel × List WriteEvent → Prop}
    (hout : ∀ t data', data'.card ≤ N → Logs L ip tr data' t → E (.panic "balloc: out of blocks") t)
    (hQ : ∀ t data', data'.card ≤ N → Logs L ip tr data' t → Q (off + (n - tot)) t) :
    Meets E (Logged.writeFrom L ip src n tot off) Q s := by
  induction hlen : n - tot using Nat.strong_induction_on generalizing tot off data s with
  | _ len ih =>
      rw [Logged.writeFrom]
      by_cases hlt : tot < n
      · obtain ⟨hpos, hblock, hle⟩ := chunk_bounds n tot off hlt
        have hbn : off / BSIZE < MAXFILE := div_lt_MAXFILE (show off < MAXFILE * BSIZE by omega)
        rw [if_pos hlt, meets_bind]
        refine h.meets_bmap hsize hbn (fun t ht => hout t data hcard ht) fun b t ht => ?_
        generalize hm : min (n - tot) (BSIZE - off % BSIZE) = m at hpos hblock hle ⊢
        rw [meets_bind, meets_lift, bwrite, meets_modify, meets_bind, logWrite, meets_emit]
        have hone := hroom hlt
        have hnew : (insert b data).card ≤ data.card + 1 := Finset.card_insert_le b data
        have hfirst : 1 ≤ blocksIn off (n - tot) := by
          unfold blocksIn BSIZE
          omega
        have hnext : off + m + (n - (tot + m)) = off + (n - tot) := by omega
        refine ih (n - (tot + m)) (by omega)
          (ht.setBlock.write (Or.inr (Or.inr (Finset.mem_insert_self b data)))) (by rwa [hnext])
          (by omega) (by omega) (fun hmore => ?_) (fun u data' hcard' hu => ?_) rfl
        · -- the rest begins with the next block
          have hfull : m = BSIZE - off % BSIZE := by omega
          have hstep : blocksIn (off + m) (n - (tot + m)) + 1 ≤ blocksIn off (n - tot) := by
            rw [blocksIn, blocksIn, hnext, hfull]
            unfold BSIZE
            omega
          omega
        · rw [hnext]
          exact hQ u data' hcard' hu
      · have hzero : n - tot = 0 := by omega
        have hend := hQ s data hcard h
        rw [hzero, add_zero] at hend
        rw [if_neg hlt, meets_pure]
        exact hend

theorem meets_iupdate (h : Logs L ip tr data s) {Q : PUnit → Kernel × List WriteEvent → Prop}
    (hQ : ∀ t b, Logs L ip tr (insert b data) t → Q ⟨⟩ t) : Meets E (Logged.iupdate L ip) Q s := by
  rw [Logged.iupdate, meets_bind, meets_lift, meets_getinode, meets_bind, meets_lift, iupdate,
    meets_modify, logWrite, meets_emit]
  have hupdated := (h.mono (Finset.subset_insert (L.IBLOCK (s.1.icache ip).inum) data)).setDinode
    (f := Function.update s.1.disk.dinode (s.1.icache ip).inum (s.1.icache ip).toDinode)
  exact hQ _ _ (hupdated.write (Or.inr (Or.inr (Finset.mem_insert_self _ data))))

/-- A call of `writei` writes the blocks of its bytes, and three others. -/
theorem meets_writei (h : Logs L ip tr ∅ s) (hsize : L.size ≤ BPB) {N : ℕ} (hoff : off < 2 ^ 32)
    (hn : n < 2 ^ 32) (hN : blocksIn off n ≤ N) {Q : ℤ → Kernel × List WriteEvent → Prop}
    (hout : ∀ t data, data.card ≤ N + 1 → Logs L ip tr data t →
      E (.panic "balloc: out of blocks") t)
    (hQ : ∀ (r : ℤ) t data, data.card ≤ N + 1 → Logs L ip tr data t → r = -1 ∨ r = n → Q r t) :
    Meets E (Logged.writei L devsw ip src off n) Q s := by
  have hnothing : ∀ r : ℤ, r = -1 ∨ r = (n : ℤ) → Q r s := fun r hr => hQ r s ∅ (Nat.zero_le _) h hr
  rw [Logged.writei, meets_bind, meets_lift, meets_getinode]
  split
  · split
    · exact hnothing _ (Or.inr rfl)
    · exact hnothing _ (Or.inl rfl)
  split
  · exact hnothing _ (Or.inl rfl)
  rename_i hgood
  split
  · exact hnothing _ (Or.inl rfl)
  rename_i hmax
  rw [uint_of_le hoff hn fun hwrap => hgood (Or.inr hwrap)] at hmax
  rw [meets_bind]
  refine h.meets_writeFrom hsize (by omega) (Nat.zero_le n) (Nat.zero_le _)
    (fun _ => by simpa using hN) (fun t data hcard ht => hout t data (by omega) ht)
    fun t data hcard ht => ?_
  rw [meets_bind, meets_lift, meets_getinode]
  split
  · rw [meets_bind, meets_lift, meets_setinode, meets_bind]
    refine ht.resize.meets_iupdate fun u b hu => ?_
    rw [meets_pure]
    exact hQ n u (insert b data) ((Finset.card_insert_le b data).trans (by omega)) hu (Or.inr rfl)
  · rw [meets_pure]
    exact hQ n t data (by omega) ht (Or.inr rfl)

/-- How many blocks there are. -/
theorem few {N : ℕ} (h : Logs L ip tr data s) (hcard : data.card ≤ N) :
    ∃ blocks : List ℕ, s.2 = tr ++ blocks.map .logWrite ∧ blocks.toFinset.card ≤ N + 2 := by
  obtain ⟨blocks, hevents, hblocks⟩ := h.events
  refine ⟨blocks, hevents, ?_⟩
  have hsub : blocks.toFinset ⊆
      insert L.bmapstart (insert ((s.1.icache ip).addrs NDIRECT) data) := by
    intro b hb
    rw [Finset.mem_insert, Finset.mem_insert]
    exact (hblocks b (List.mem_toFinset.mp hb)).imp_right (Or.imp_left And.right)
  calc blocks.toFinset.card
      ≤ (insert L.bmapstart (insert ((s.1.icache ip).addrs NDIRECT) data)).card :=
        Finset.card_le_card hsub
    _ ≤ (insert ((s.1.icache ip).addrs NDIRECT) data).card + 1 := Finset.card_insert_le _ _
    _ ≤ data.card + 1 + 1 := Nat.add_le_add_right (Finset.card_insert_le _ _) 1
    _ ≤ N + 2 := by omega

end Logs

end Xv6.Files
