import Mathlib.Logic.Relation
import Xv6.Fs.Log
import Xv6.Lib.Writes

/-!
# Crashes and the log on the disk

What `commit` and `recover_from_log` write to the disk, block by block, and what
is left of it by a crash after any of these writes.  `bread` finds the contents
of a block in the buffer cache, so that what a transaction has changed is read
there although the disk does not have it yet; after a crash only the disk is
left.

On the disk a transaction is committed as soon as the header is written that
names its blocks (`Committed`), and done when the header is empty again (`Clean`).
A crash during `commit` or during any number of recoveries leaves one of these
two, and the next recovery finishes what is committed (`crash_atomic`).
-/

namespace Xv6

open Writes

/-! ## Blocks -/

/-- A block of `BSIZE` bytes, as words of 32 bits. -/
abbrev Block := Fin 128 → BitVec 32

/-- The contents of the blocks of a disk, by block number. -/
abbrev Disk := ℕ → Block

/-- The block numbers in a header block: `n` and then `block[0..n)`. -/
def readHead (header : Block) : List ℕ :=
  (List.range (header 0).toInt.toNat).map fun i =>
    if h : i + 1 < 128 then (header ⟨i + 1, h⟩).toNat else 0

/-- A header block in which `n` and `block[0..n)` are written anew. -/
def headerOf (blocks : List ℕ) (header : Block) : Block := fun i =>
  if i = 0 then BitVec.ofNat 32 blocks.length
  else match blocks[i.val - 1]? with
    | some b => BitVec.ofNat 32 b
    | none => header i

/-- What `bread` finds, and what `bwrite` has written to the disk so far. -/
structure Buffers where
  data : Disk
  written : List (ℕ × Block)

/-- Change the contents of a buffer and `bwrite` it. -/
def Buffers.bwrite (m : Buffers) (b : ℕ) (contents : Block) : Buffers where
  data := Function.update m.data b contents
  written := m.written ++ [(b, contents)]

/-! ## Writing and reading the log -/

/-- The loop of `write_log`, from `tail` on. -/
def writeLog (start : ℕ) : ℕ → List ℕ → Buffers → Buffers
  | _, [], m => m
  | tail, b :: rest, m =>
      writeLog start (tail + 1) rest (m.bwrite (start + tail + 1) (m.data b))

/-- The loop of `install_trans`, from `tail` on. -/
def installTrans (start : ℕ) : ℕ → List ℕ → Buffers → Buffers
  | _, [], m => m
  | tail, b :: rest, m =>
      installTrans start (tail + 1) rest (m.bwrite b (m.data (start + tail + 1)))

def writeHead (start : ℕ) (blocks : List ℕ) (m : Buffers) : Buffers :=
  m.bwrite start (headerOf blocks (m.data start))

/-- `commit()`, with `log.lh.block[0..log.lh.n)` in `blocks`. -/
def commit (start : ℕ) (blocks : List ℕ) (m : Buffers) : Buffers :=
  if 0 < blocks.length then
    writeHead start [] (installTrans start 0 blocks (writeHead start blocks
      (writeLog start 0 blocks m)))
  else m

def recoverFromLog (start : ℕ) (m : Buffers) : Buffers :=
  writeHead start [] (installTrans start 0 (readHead (m.data start)) m)

/-- The writes of a commit of the transaction that gives the blocks the contents
that `trans` lists. -/
def commitWrites (start : ℕ) (trans : List (ℕ × Block)) (disk : Disk) : List (ℕ × Block) :=
  (commit start (trans.map Prod.fst) ⟨writeAll disk trans, []⟩).written

/-- The writes of `recover_from_log` after a start of the machine. -/
def recoverWrites (start : ℕ) (disk : Disk) : List (ℕ × Block) :=
  (recoverFromLog start ⟨disk, []⟩).written

/-! ## The headers -/

theorem readHead_eq_nil {header : Block} (h : header 0 = 0) : readHead header = [] := by
  simp [readHead, h]

@[simp] theorem headerOf_nil_zero (header : Block) : headerOf [] header 0 = 0 := by
  simp [headerOf]

theorem readHead_headerOf {blocks : List ℕ} (header : Block) (hlength : blocks.length ≤ LOGSIZE)
    (hblocks : ∀ b ∈ blocks, b < 2 ^ 32) : readHead (headerOf blocks header) = blocks := by
  have hsize : LOGSIZE = 30 := rfl
  have hn : (headerOf blocks header 0).toInt.toNat = blocks.length := by
    have hcount : (BitVec.ofNat 32 blocks.length).toInt = toInt blocks.length :=
      BitVec.toInt_ofNat' _
    simp only [headerOf, if_true]
    rw [hcount, toInt_of_le (by omega), Int.toNat_natCast]
  rw [readHead, hn]
  refine List.ext_getElem (by simp) fun i hi hi' => ?_
  have hlt : i + 1 < 128 := by omega
  have hmod : (BitVec.ofNat 32 blocks[i]).toNat = blocks[i] := by
    rw [BitVec.toNat_ofNat, Nat.mod_eq_of_lt (hblocks _ (List.getElem_mem hi'))]
  simp [headerOf, hlt, hi', hmod]

/-! ## The writes -/

/-- The block is one of those from `logstart` on that the superblock gives to the
log. -/
def InLog (start size b : ℕ) : Prop :=
  start ≤ b ∧ b < start + size

instance (start size b : ℕ) : Decidable (InLog start size b) :=
  inferInstanceAs (Decidable (_ ∧ _))

variable {start size tail k : ℕ} {blocks : List ℕ} {trans : List (ℕ × Block)} {m : Buffers}
variable {disk disk' home : Disk}

def Buffers.issue (m : Buffers) (ws : List (ℕ × Block)) : Buffers where
  data := writeAll m.data ws
  written := m.written ++ ws

/-- The writes of `write_log` when the contents are these. -/
def logWrites (start : ℕ) : ℕ → List Block → List (ℕ × Block)
  | _, [] => []
  | tail, contents :: rest => (start + tail + 1, contents) :: logWrites start (tail + 1) rest

/-- The blocks with the contents that are logged for them. -/
def logged (disk : Disk) (start : ℕ) : ℕ → List ℕ → List (ℕ × Block)
  | _, [] => []
  | tail, b :: rest => (b, disk (start + tail + 1)) :: logged disk start (tail + 1) rest

@[simp] theorem map_fst_logged (disk : Disk) (start tail : ℕ) (blocks : List ℕ) :
    (logged disk start tail blocks).map Prod.fst = blocks := by
  induction blocks generalizing tail with
  | nil => rfl
  | cons b rest ih => simp [logged, ih]

@[simp] theorem length_logWrites (start tail : ℕ) (contents : List Block) :
    (logWrites start tail contents).length = contents.length := by
  induction contents generalizing tail with
  | nil => rfl
  | cons c rest ih => simp [logWrites, ih]

theorem mem_logWrites {contents : List Block} {b : ℕ}
    (h : b ∈ (logWrites start tail contents).map Prod.fst) :
    start + tail < b ∧ b ≤ start + tail + contents.length := by
  induction contents generalizing tail with
  | nil => simp [logWrites] at h
  | cons c rest ih =>
      simp only [logWrites, List.map_cons, List.mem_cons] at h
      rw [List.length_cons]
      rcases h with rfl | h
      · omega
      · have hrest := ih h
        omega

/-- What is logged depends on the blocks of the log only. -/
theorem logged_congr (hlength : tail + blocks.length < size)
    (h : ∀ b, start < b → InLog start size b → disk' b = disk b) :
    logged disk' start tail blocks = logged disk start tail blocks := by
  induction blocks generalizing tail with
  | nil => rfl
  | cons b rest ih =>
      rw [List.length_cons] at hlength
      rw [logged, logged, h _ (by omega) ⟨by omega, by omega⟩, ih (by omega)]

/-- What `write_log` writes is what is logged afterwards. -/
theorem logged_logWrites (trans : List (ℕ × Block)) (disk : Disk) (start tail : ℕ) :
    logged (writeAll disk (logWrites start tail (trans.map Prod.snd))) start tail
      (trans.map Prod.fst) = trans := by
  induction trans generalizing tail disk with
  | nil => rfl
  | cons w rest ih =>
      have hlater : start + tail + 1 ∉
          (logWrites start (tail + 1) (rest.map Prod.snd)).map Prod.fst := by
        intro hmem
        have hbounds := mem_logWrites hmem
        omega
      simp only [List.map_cons, logWrites, writeAll_cons, logged]
      rw [writeAll_of_not_mem hlater, Function.update_self, ih]

theorem writeLog_eq (hblocks : ∀ b ∈ blocks, ¬ InLog start size b)
    (hlength : tail + blocks.length < size) :
    writeLog start tail blocks m = m.issue (logWrites start tail (blocks.map m.data)) := by
  induction blocks generalizing tail m with
  | nil => simp [writeLog, logWrites, Buffers.issue]
  | cons b rest ih =>
      rw [List.length_cons] at hlength
      -- the blocks to come are not those of the log
      have hkept : ∀ b' ∈ rest,
          (m.bwrite (start + tail + 1) (m.data b)).data b' = m.data b' := by
        intro b' hb'
        refine Function.update_of_ne ?_ _ _
        rintro rfl
        exact hblocks _ (List.mem_cons_of_mem _ hb') ⟨by omega, by omega⟩
      rw [writeLog, ih (fun b' hb' => hblocks b' (List.mem_cons_of_mem _ hb')) (by omega),
        List.map_congr_left hkept]
      simp [Buffers.issue, Buffers.bwrite, logWrites]

theorem installTrans_eq (hblocks : ∀ b ∈ blocks, ¬ InLog start size b)
    (hlength : tail + blocks.length < size) :
    installTrans start tail blocks m = m.issue (logged m.data start tail blocks) := by
  induction blocks generalizing tail m with
  | nil => simp [installTrans, logged, Buffers.issue]
  | cons b rest ih =>
      rw [List.length_cons] at hlength
      have hkept : logged (m.bwrite b (m.data (start + tail + 1))).data start (tail + 1) rest =
          logged m.data start (tail + 1) rest := by
        have hfits : tail + 1 + rest.length < size := by omega
        refine logged_congr hfits fun b' _ hb' => Function.update_of_ne ?_ _ _
        rintro rfl
        exact hblocks _ List.mem_cons_self hb'
      rw [installTrans, ih (fun b' hb' => hblocks b' (List.mem_cons_of_mem _ hb')) (by omega),
        hkept]
      simp [Buffers.issue, Buffers.bwrite, logged]

/-! ## What a crash leaves -/

/-- Distinct blocks outside the log, as many as it has room for.  Block numbers
are of type `uint`. -/
structure Fits (start size : ℕ) (trans : List (ℕ × Block)) : Prop where
  nodup : (trans.map Prod.fst).Nodup
  outside : ∀ b ∈ trans.map Prod.fst, ¬ InLog start size b
  uint : ∀ b ∈ trans.map Prod.fst, b < 2 ^ 32
  logsize : trans.length ≤ LOGSIZE
  size : trans.length < size

/-- The header is empty, and the blocks outside the log are these. -/
structure Clean (start size : ℕ) (home disk : Disk) : Prop where
  header : disk start 0 = 0
  home : ∀ b, ¬ InLog start size b → disk b = home b

/-- The header names the blocks of the transaction, and the log has their
contents. -/
structure Committed (start size : ℕ) (home : Disk) (trans : List (ℕ × Block)) (disk : Disk) :
    Prop where
  header : readHead (disk start) = trans.map Prod.fst
  log : logged disk start 0 (trans.map Prod.fst) = trans
  home : ∀ b, ¬ InLog start size b → b ∉ trans.map Prod.fst → disk b = home b

namespace Fits

variable (h : Fits start size trans)

include h

theorem inLog_start : InLog start size start :=
  ⟨le_rfl, by have hsize := h.size; omega⟩

theorem not_mem (b : ℕ) (hb : InLog start size b) : b ∉ trans.map Prod.fst :=
  fun hmem => h.outside b hmem hb

theorem length_lt : 0 + (trans.map Prod.fst).length < size := by
  have hsize := h.size
  simpa using hsize

end Fits

/-- Writing home some of the blocks of a transaction leaves it committed. -/
theorem Committed.install (h : Committed start size home trans disk)
    (hfits : Fits start size trans) (k : ℕ) :
    Committed start size home trans (writeAll disk (trans.take k)) := by
  have hkept : ∀ b, b ∉ trans.map Prod.fst → writeAll disk (trans.take k) b = disk b := by
    intro b hb
    refine writeAll_of_not_mem fun hmem => hb ?_
    rw [List.map_take] at hmem
    exact List.mem_of_mem_take hmem
  constructor
  case header =>
    rw [hkept start (hfits.not_mem start hfits.inLog_start)]
    exact h.header
  case log =>
    rw [logged_congr hfits.length_lt fun b _ hb => hkept b (hfits.not_mem b hb)]
    exact h.log
  case home =>
    intro b hb hnot
    rw [hkept b hnot]
    exact h.home b hb hnot

/-- A transaction is done when all its blocks are home and the header is empty. -/
theorem Committed.erase (h : Committed start size home trans disk)
    (hfits : Fits start size trans) (header : Block) :
    Clean start size (writeAll home trans)
      (writeAll disk (trans ++ [(start, headerOf [] header)])) := by
  constructor
  case header => simp
  case home =>
    intro b hb
    have hne : b ≠ start := by
      rintro rfl
      exact hb hfits.inLog_start
    rw [writeAll_append, writeAll_cons, writeAll_nil, Function.update_of_ne hne]
    exact writeAll_congr fun hnot => h.home b hb hnot

theorem Clean.erase (h : Clean start size home disk) (hstart : InLog start size start)
    (header : Block) :
    Clean start size home (writeAll disk [(start, headerOf [] header)]) := by
  constructor
  case header => simp
  case home =>
    intro b hb
    have hne : b ≠ start := by
      rintro rfl
      exact hb hstart
    rw [writeAll_cons, writeAll_nil, Function.update_of_ne hne]
    exact h.home b hb

/-! ## Recovery -/

theorem recoverWrites_of_clean (h : Clean start size home disk) :
    recoverWrites start disk = [(start, headerOf [] (disk start))] := by
  simp [recoverWrites, recoverFromLog, readHead_eq_nil h.header, installTrans, writeHead,
    Buffers.bwrite]

theorem recoverWrites_of_committed (h : Committed start size home trans disk)
    (hfits : Fits start size trans) :
    recoverWrites start disk = trans ++ [(start, headerOf [] (disk start))] := by
  have hstart : writeAll disk trans start = disk start :=
    writeAll_of_not_mem (hfits.not_mem start hfits.inLog_start)
  have hinstall := installTrans_eq (m := ⟨disk, []⟩) hfits.outside hfits.length_lt
  rw [recoverWrites, recoverFromLog, h.header, hinstall, h.log]
  simp [writeHead, Buffers.bwrite, Buffers.issue, hstart]

/-- A recovery that is cut short leaves a clean disk as it is. -/
theorem Clean.recover (h : Clean start size home disk) (hstart : InLog start size start) (k : ℕ) :
    Clean start size home (writeAll disk ((recoverWrites start disk).take k)) := by
  rw [recoverWrites_of_clean h]
  cases k with
  | zero => exact h
  | succ k =>
      rw [List.take_of_length_le (by simp)]
      exact h.erase hstart _

/-- A recovery that is cut short has finished the transaction, or can be repeated. -/
theorem Committed.recover (h : Committed start size home trans disk)
    (hfits : Fits start size trans) (k : ℕ) :
    Committed start size home trans (writeAll disk ((recoverWrites start disk).take k)) ∨
      Clean start size (writeAll home trans)
        (writeAll disk ((recoverWrites start disk).take k)) := by
  rw [recoverWrites_of_committed h hfits]
  by_cases hk : k ≤ trans.length
  · rw [List.take_append_of_le_length hk]
    exact Or.inl (h.install hfits k)
  · rw [List.take_of_length_le (by rw [List.length_append, List.length_singleton]; omega)]
    exact Or.inr (h.erase hfits _)

/-- One step from crash to crash: a recovery of which the first `k` writes are done. -/
def CrashesInRecovery (start : ℕ) (disk disk' : Disk) : Prop :=
  ∃ k, disk' = writeAll disk ((recoverWrites start disk).take k)

/-! ## Commits -/

theorem commitWrites_eq (hfits : Fits start size trans) (hne : trans ≠ []) (disk : Disk) :
    commitWrites start trans disk = logWrites start 0 (trans.map Prod.snd) ++
      (start, headerOf (trans.map Prod.fst) (disk start)) :: (trans ++
        [(start, headerOf [] (headerOf (trans.map Prod.fst) (disk start)))]) := by
  have hpos : 0 < (trans.map Prod.fst).length := by
    rw [List.length_map]
    exact List.length_pos_iff.mpr hne
  -- the buffers of the transaction's blocks hold what it wrote
  have hcontents : (trans.map Prod.fst).map (writeAll disk trans) = trans.map Prod.snd := by
    rw [List.map_map]
    exact List.map_congr_left fun w hw => writeAll_of_mem hfits.nodup hw
  have hheader : writeAll (writeAll disk trans) (logWrites start 0 (trans.map Prod.snd)) start =
      disk start := by
    rw [writeAll_of_not_mem, writeAll_of_not_mem (hfits.not_mem start hfits.inLog_start)]
    intro hmem
    have hbounds := mem_logWrites hmem
    omega
  have hlogged : logged (Function.update
      (writeAll (writeAll disk trans) (logWrites start 0 (trans.map Prod.snd))) start
        (headerOf (trans.map Prod.fst) (disk start))) start 0 (trans.map Prod.fst) = trans := by
    rw [logged_congr hfits.length_lt fun b hb _ => Function.update_of_ne hb.ne' _ _]
    exact logged_logWrites trans _ start 0
  have hstart : start ∉ trans.map Prod.fst := hfits.not_mem start hfits.inLog_start
  rw [commitWrites, commit, if_pos hpos, writeLog_eq hfits.outside hfits.length_lt]
  simp only [hcontents, writeHead, Buffers.bwrite, Buffers.issue, hheader, List.nil_append]
  rw [installTrans_eq hfits.outside hfits.length_lt, Buffers.issue, hlogged]
  simp [writeAll_of_not_mem hstart]

/-- Writing blocks of the log other than the header changes neither the header nor
the home blocks. -/
theorem Clean.writeLog (h : Clean start size home disk)
    {ws : List (ℕ × Block)} (hws : ∀ b ∈ ws.map Prod.fst, b ≠ start ∧ InLog start size b) :
    Clean start size home (writeAll disk ws) := by
  constructor
  case header =>
    rw [writeAll_of_not_mem fun hmem => (hws start hmem).1 rfl]
    exact h.header
  case home =>
    intro b hb
    rw [writeAll_of_not_mem fun hmem => hb (hws b hmem).2]
    exact h.home b hb

/-- The first write of the header commits the transaction. -/
theorem Clean.writeHead (h : Clean start size home disk) (hfits : Fits start size trans)
    (header : Block) :
    Committed start size home trans (writeAll disk (logWrites start 0 (trans.map Prod.snd) ++
      [(start, headerOf (trans.map Prod.fst) header)])) := by
  rw [writeAll_append, writeAll_cons, writeAll_nil]
  constructor
  case header =>
    rw [Function.update_self]
    exact readHead_headerOf header (by simpa using hfits.logsize) hfits.uint
  case log =>
    rw [logged_congr hfits.length_lt fun b hb _ => Function.update_of_ne hb.ne' _ _]
    exact logged_logWrites trans disk start 0
  case home =>
    intro b hb _
    have hne : b ≠ start := by
      rintro rfl
      exact hb hfits.inLog_start
    have hnot : b ∉ (logWrites start 0 (trans.map Prod.snd)).map Prod.fst := by
      intro hmem
      have hbounds := mem_logWrites hmem
      have hsize := hfits.size
      rw [List.length_map] at hbounds
      exact hb ⟨by omega, by omega⟩
    rw [Function.update_of_ne hne, writeAll_of_not_mem hnot]
    exact h.home b hb

/-- A commit that is cut short has left the header and the home blocks as they
were; or its first write of the header is done, and the transaction is committed
or finished. -/
theorem Clean.commit (h : Clean start size home disk) (hfits : Fits start size trans) (k : ℕ) :
    (start ∉ ((commitWrites start trans disk).take k).map Prod.fst ∧
        Clean start size home (writeAll disk ((commitWrites start trans disk).take k))) ∨
      Committed start size home trans
          (writeAll disk ((commitWrites start trans disk).take k)) ∨
        Clean start size (writeAll home trans)
          (writeAll disk ((commitWrites start trans disk).take k)) := by
  by_cases hne : trans = []
  · subst hne
    exact Or.inr (Or.inr (by simpa [commitWrites, Xv6.commit] using h))
  rw [commitWrites_eq hfits hne]
  by_cases hk : k ≤ trans.length
  · have hlog : ∀ b ∈ ((logWrites start 0 (trans.map Prod.snd)).take k).map Prod.fst,
        b ≠ start ∧ InLog start size b := by
      intro b hb
      rw [List.map_take] at hb
      have hbounds := mem_logWrites (List.mem_of_mem_take hb)
      have hsize := hfits.size
      rw [List.length_map] at hbounds
      exact ⟨by omega, by omega, by omega⟩
    rw [List.take_append_of_le_length (by simpa using hk)]
    exact Or.inl ⟨fun hmem => (hlog start hmem).1 rfl, h.writeLog hlog⟩
  · refine Or.inr ?_
    obtain ⟨j, rfl⟩ : ∃ j, k = trans.length + (j + 1) := ⟨k - trans.length - 1, by omega⟩
    have hcommitted := h.writeHead hfits (disk start)
    rw [List.take_append, List.take_of_length_le (by simp), length_logWrites, List.length_map,
      Nat.add_sub_cancel_left, List.take_succ_cons, List.append_cons, writeAll_append]
    by_cases hj : j ≤ trans.length
    · rw [List.take_append_of_le_length hj]
      exact Or.inl (hcommitted.install hfits j)
    · rw [List.take_of_length_le (by rw [List.length_append, List.length_singleton]; omega)]
      exact Or.inr (hcommitted.erase hfits _)

/-- A commit that is not cut short. -/
theorem Clean.commit_done (h : Clean start size home disk) (hfits : Fits start size trans) :
    Clean start size (writeAll home trans) (writeAll disk (commitWrites start trans disk)) := by
  by_cases hne : trans = []
  · subst hne
    simpa [commitWrites, Xv6.commit] using h
  · rw [commitWrites_eq hfits hne, List.append_cons, writeAll_append]
    exact (h.writeHead hfits (disk start)).erase hfits _

/-! ## Atomicity -/

theorem recover_crashes (hfits : Fits start size trans)
    (hcrashes : Relation.ReflTransGen (CrashesInRecovery start) disk disk')
    (h : Committed start size home trans disk ∨ Clean start size (writeAll home trans) disk) :
    Committed start size home trans disk' ∨ Clean start size (writeAll home trans) disk' := by
  induction hcrashes with
  | refl => exact h
  | tail _ hlast ih =>
      obtain ⟨k, rfl⟩ := hlast
      rcases ih with ih | ih
      · exact ih.recover hfits k
      · exact Or.inr (ih.recover hfits.inLog_start k)

theorem Clean.crashes (hstart : InLog start size start)
    (hcrashes : Relation.ReflTransGen (CrashesInRecovery start) disk disk')
    (h : Clean start size home disk) : Clean start size home disk' := by
  induction hcrashes with
  | refl => exact h
  | tail _ hlast ih =>
      obtain ⟨k, rfl⟩ := hlast
      exact ih.recover hstart k

/-- Whatever crashes there are during a commit and the recoveries after it, one
recovery that is not cut short leaves an empty header and all home blocks as they
were before the transaction, or all as they are after it; and after it, if the
first write of the header was done. -/
theorem crash_atomic (start size : ℕ) (disk : Disk) (trans : List (ℕ × Block)) (k : ℕ)
    (disk' : Disk) (hclean : disk start 0 = 0) (hfits : Fits start size trans)
    (hcrashes : Relation.ReflTransGen (CrashesInRecovery start)
      (writeAll disk ((commitWrites start trans disk).take k)) disk') :
    (Clean start size disk (writeAll disk' (recoverWrites start disk')) ∨
        Clean start size (writeAll disk trans) (writeAll disk' (recoverWrites start disk'))) ∧
      (start ∈ ((commitWrites start trans disk).take k).map Prod.fst →
        Clean start size (writeAll disk trans) (writeAll disk' (recoverWrites start disk'))) := by
  have h : Clean start size disk disk := ⟨hclean, fun _ _ => rfl⟩
  rcases h.commit hfits k with ⟨hheader, h⟩ | h
  · have hdone := (h.crashes hfits.inLog_start hcrashes).recover hfits.inLog_start
      (recoverWrites start disk').length
    rw [List.take_length] at hdone
    exact ⟨Or.inl hdone, fun hwritten => absurd hwritten hheader⟩
  · have hdone : Clean start size (writeAll disk trans)
        (writeAll disk' (recoverWrites start disk')) := by
      rcases recover_crashes hfits hcrashes h with h | h
      · rw [recoverWrites_of_committed h hfits]
        exact h.erase hfits _
      · rw [recoverWrites_of_clean h]
        exact h.erase hfits.inLog_start _
    exact ⟨Or.inr hdone, fun _ => hdone⟩

/-- The machine stops when one of two blocks has been written home, and again when
the recovery has written the same one; both get there all the same. -/
theorem crash_atomic_twoBlocks : ∃ disk' : Disk,
    CrashesInRecovery 2 (writeAll (fun _ _ => 0)
      ((commitWrites 2 [(40, fun _ => 1), (41, fun _ => 2)] fun _ _ => 0).take 4)) disk' ∧
    Clean 2 31 (writeAll (fun _ _ => 0) [(40, fun _ => 1), (41, fun _ => 2)])
      (writeAll disk' (recoverWrites 2 disk')) := by
  have hfits : Fits 2 31 [(40, fun _ => 1), (41, fun _ => 2)] :=
    ⟨by decide, by decide, by decide, by decide, by decide⟩
  exact ⟨_, ⟨1, rfl⟩,
    (crash_atomic 2 31 (fun _ _ => 0) _ 4 _ rfl hfits (.single ⟨1, rfl⟩)).2 (by decide)⟩

end Xv6
