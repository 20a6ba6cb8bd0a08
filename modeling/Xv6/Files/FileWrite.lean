import Xv6.Files.SharedOffset
import Xv6.Files.Logged

/-!
# How much a piece of a write takes of the log

`filewrite` for a file whose inode nobody else uses meanwhile.  It cuts a write into pieces of at
most `writeMax` bytes and writes each of them in a transaction of its own.

`begin_op` and `end_op` are events only.  A pipe is written by another function, which is a
parameter.
-/

namespace Xv6.Files

open Faulting

/-! ## The code -/

/-- `f->off = off` -/
def setoff (f off : ℕ) : Fs PUnit :=
  modify fun s =>
    { s with ftable := Function.update s.ftable f { s.ftable f with off := off } }

/-- The loop body of `filewrite` up to `end_op`. -/
def writePiece (L : Layout) (devsw : Devsw) (f : ℕ) (src : ℕ → Byte) (n i : ℕ) : LogFs ℤ := do
  emit .beginOp
  let file := (← lift get).ftable f
  lift (ilock file.ip)
  let r ← Logged.writei L devsw file.ip (fun k => src (i + k)) file.off n
  if r > 0 then lift (setoff f (uint (file.off + r.toNat)))
  lift (iunlock file.ip)
  emit (.wrote i n r)
  emit .endOp
  pure r

/-- The loop of `filewrite`. -/
def writePieces (L : Layout) (devsw : Devsw) (f : ℕ) (src : ℕ → Byte) (n : Int32) (i : ℕ) :
    LogFs ℤ := do
  if i < n.toInt then
    let r ← writePiece L devsw f src (chunk n i) i
    if r < 0 then pure (Sharing.writeResult n i)
    else if _h : r ≠ chunk n i then fail "short filewrite"
    else writePieces L devsw f src n (i + r.toNat)
  else pure (Sharing.writeResult n i)
termination_by n.toInt.toNat - i
decreasing_by
  have : 0 < writeMax := by decide
  unfold chunk at *
  omega

def filewrite (L : Layout) (devsw : Devsw) (pipewrite : (ℕ → Byte) → Int32 → LogFs ℤ) (f : ℕ)
    (src : ℕ → Byte) (n : Int32) : LogFs ℤ := do
  let file := (← lift get).ftable f
  if !file.writable then pure (-1)
  else
    match file.type with
    | .FD_PIPE => pipewrite src n
    | .FD_INODE => writePieces L devsw f src n 0
    | .FD_NONE => fail "filewrite"

variable {L : Layout} {devsw : Devsw} {f n i ip : ℕ} {src : ℕ → Byte} {k k' : Kernel}
variable {e : List WriteEvent} {E : Fault → Kernel × List WriteEvent → Prop} {r : ℤ}

/-! ## The pieces -/

/-- What one transaction has done. -/
structure WritePiece where
  start : ℕ
  n : ℕ
  r : ℤ
  blocks : List ℕ

namespace WritePiece

def events (p : WritePiece) : List WriteEvent :=
  .beginOp :: p.blocks.map .logWrite ++ [.wrote p.start p.n p.r, .endOp]

/-- The bytes of the source that have been written. -/
def bytes (p : WritePiece) : List ℕ := List.range' p.start p.r.toNat

/-- The transaction has room in the log. -/
structure Fits (p : WritePiece) : Prop where
  few : p.blocks.toFinset.card ≤ MAXOPBLOCKS
  short : p.n ≤ writeMax
  result : p.r = -1 ∨ p.r = p.n

end WritePiece

/-- The file can be written: its inode is a regular file without holes, and nobody has locked it. -/
structure Writing (L : Layout) (f : ℕ) (k : Kernel) : Prop where
  cache : CacheOk none k
  lt : (k.ftable f).ip < NINODE
  ref : 0 < (k.icache (k.ftable f).ip).ref
  ok : k.disk.Ok L.toSuperblock
  whole : k.disk.Whole (k.icache (k.ftable f).ip).inum
  type : (k.disk.dinode (k.icache (k.ftable f).ip).inum).type = T_FILE
  off : (k.ftable f).off < 2 ^ 32

/-- The inode number of a file. -/
def Kernel.inumOf (k : Kernel) (f : ℕ) : ℕ := (k.icache (k.ftable f).ip).inum

/-- `r` bytes of inode `inum` have been written at `off`, or none if `r` is negative.  They come
from byte `i` of the source. -/
structure Filled (sb : Superblock) (inum off i : ℕ) (src : ℕ → Byte) (r : ℤ) (D D' : Disk) :
    Prop where
  ok : D'.Ok sb
  whole : D'.Whole inum
  type : (D'.dinode inum).type = (D.dinode inum).type
  lt : off + r.toNat < 2 ^ 32
  size : (D.dinode inum).size ≤ (D'.dinode inum).size
  reached : 0 < r → off + r.toNat ≤ (D'.dinode inum).size
  new : ∀ j < r.toNat, D'.byte inum (off + j) = src (i + j)
  old : ∀ j < (D.dinode inum).size, j < off → D'.byte inum j = D.byte inum j

/-- What one piece does to the file. -/
structure Advanced (L : Layout) (f : ℕ) (src : ℕ → Byte) (i : ℕ) (r : ℤ) (k k' : Kernel) :
    Prop where
  writing : Writing L f k'
  file : k'.ftable f = { k.ftable f with off := (k.ftable f).off + r.toNat }
  inum : k'.inumOf f = k.inumOf f
  filled : Filled L.toSuperblock (k.inumOf f) (k.ftable f).off i src r k.disk k'.disk

theorem Writing.boot (h : Writing L f k) : k.disk.bitmap 0 = true :=
  h.ok.reserved 0 L.toSuperblock.dataStart_pos

section Filled

variable {sb : Superblock} {D D' : Disk} {inum off : ℕ}

theorem Filled.none (hok : D.Ok sb) (hwhole : D.Whole inum) (hoff : off < 2 ^ 32) :
    Filled sb inum off i src (-1) D D where
  ok := hok
  whole := hwhole
  type := rfl
  lt := hoff
  size := le_rfl
  reached hpos := absurd hpos (by decide)
  new j hj := absurd hj (Nat.not_lt_zero j)
  old _ _ _ := rfl

theorem Wrote.filled (h : Wrote sb inum off n (fun j => src (i + j)) D D') (hwhole : D.Whole inum)
    (hoff : off ≤ (D.dinode inum).size) (hmax : off + n ≤ MAXFILE * BSIZE) :
    Filled sb inum off i src n D (D'.resize inum (max (D.dinode inum).size (off + n))) := by
  have hsize : ((D'.resize inum (max (D.dinode inum).size (off + n))).dinode inum).size =
      max (D.dinode inum).size (off + n) := by
    rw [Disk.resize, setDinode_self]
  have hlt : MAXFILE * BSIZE < 2 ^ 32 := by decide
  obtain ⟨addrs, haddrs⟩ := h.dinode
  refine ⟨h.ok.congr place_resize rfl, ?_, ?_, ?_, ?_, fun _ => ?_, fun j hj => ?_,
    fun j hj hbefore => ?_⟩
  · intro j hj
    rw [hsize] at hj
    rw [number_congr place_resize]
    by_cases hold : j < (D.dinode inum).size
    · have hpos := hwhole j hold
      rwa [h.number _ _ hpos]
    · exact h.made _ ⟨j, by omega, by omega, rfl⟩
  · rw [Disk.resize, setDinode_self, haddrs, Function.update_self]
  · rw [Int.toNat_natCast]
    omega
  · rw [hsize]
    exact le_max_left _ _
  · rw [hsize, Int.toNat_natCast]
    exact le_max_right _ _
  · rw [Int.toNat_natCast] at hj
    rw [byte_resize, h.byte _ (Nat.le_add_right off j) (by omega), Nat.add_sub_cancel_left]
  · rw [byte_resize]
    exact h.keep inum j (hwhole j hj) fun hin => by omega

end Filled

/-- The end of a piece: the offset is advanced and the inode is unlocked. -/
theorem Writing.meets_finish (h : Writing L f k) {u : Kernel} (hcache : CacheOk (some ip) u)
    (hip : ip = (k.ftable f).ip) (hftable : u.ftable = k.ftable)
    (hinum : (u.icache ip).inum = k.inumOf f) (href : 0 < (u.icache ip).ref)
    (hfilled : Filled L.toSuperblock (k.inumOf f) (k.ftable f).off i src r k.disk u.disk)
    {rest : LogFs ℤ} {events : List WriteEvent} {Q : ℤ → Kernel × List WriteEvent → Prop}
    (hQ : ∀ k', Advanced L f src i r k k' → Meets E rest Q (k', events)) :
    Meets E (do
      if r > 0 then lift (setoff f (uint ((k.ftable f).off + r.toNat)))
      lift (iunlock ip)
      rest) Q (u, events) := by
  have hunlock : ∀ u', u'.disk = u.disk → u'.icache = u.icache →
      u'.ftable f = { k.ftable f with off := (k.ftable f).off + r.toNat } →
      Meets E (lift (iunlock ip) >>= fun _ => rest) Q (u', events) := by
    intro u' hdisk hicache hfile
    rw [meets_bind, meets_lift]
    refine (hcache.congr hicache hdisk).meets_iunlock (hip ▸ h.lt) (hicache ▸ href) fun v hv =>
      hQ v ?_
    have hvdisk : v.disk = u.disk := hv.disk.trans hdisk
    have hvfile : v.ftable f = { k.ftable f with off := (k.ftable f).off + r.toNat } := by
      rw [hv.ftable, hfile]
    have hvip : (v.ftable f).ip = ip := by
      rw [hvfile, hip]
    have hvinum : v.inumOf f = k.inumOf f := by
      rw [Kernel.inumOf, hvip, hv.inum ip (hicache ▸ href), hicache, hinum]
    refine ⟨⟨hv.cache, ?_, ?_, ?_, ?_, ?_, ?_⟩, hvfile, hvinum, hvdisk ▸ hfilled⟩
    · rw [hvip, hip]
      exact h.lt
    · rw [hvip, hv.ref, hicache]
      exact href.trans_le (le_add_of_nonneg_right le_rfl)
    · rw [hvdisk]
      exact hfilled.ok
    · show v.disk.Whole (v.inumOf f)
      rw [hvinum, hvdisk]
      exact hfilled.whole
    · show (v.disk.dinode (v.inumOf f)).type = T_FILE
      rw [hvinum, hvdisk, hfilled.type]
      exact h.type
    · rw [hvfile]
      exact hfilled.lt
  split
  · rw [meets_bind, meets_lift, setoff, meets_modify]
    refine hunlock _ rfl rfl ?_
    dsimp only
    rw [Function.update_self, hftable, uint, Nat.mod_eq_of_lt hfilled.lt]
  · rename_i hneg
    have hzero : r.toNat = 0 := Int.toNat_of_nonpos (by omega)
    refine hunlock u rfl rfl ?_
    rw [hftable, hzero]
    rfl

/-- The first `i` bytes of the source have been written, since `k` was the state. -/
structure Progressed (L : Layout) (f : ℕ) (src : ℕ → Byte) (k : Kernel) (i : ℕ) (k' : Kernel) :
    Prop where
  writing : Writing L f k'
  file : k'.ftable f = { k.ftable f with off := (k.ftable f).off + i }
  inum : k'.inumOf f = k.inumOf f
  reached : 0 < i → (k.ftable f).off + i ≤ (k'.disk.dinode (k.inumOf f)).size
  new : ∀ j < i, k'.disk.byte (k.inumOf f) ((k.ftable f).off + j) = src j

theorem Writing.progressed (h : Writing L f k) : Progressed L f src k 0 k where
  writing := h
  file := rfl
  inum := rfl
  reached hpos := absurd hpos (lt_irrefl _)
  new j hj := absurd hj (Nat.not_lt_zero j)

/-- A piece goes on from where the last one has ended. -/
theorem Progressed.advance {k'' : Kernel} (h : Progressed L f src k i k')
    (h' : Advanced L f src i r k' k'') : Progressed L f src k (i + r.toNat) k'' := by
  have hinum : k'.inumOf f = k.inumOf f := h.inum
  have hoff : (k'.ftable f).off = (k.ftable f).off + i := by rw [h.file]
  have hfilled := h'.filled
  rw [hinum, hoff] at hfilled
  refine ⟨h'.writing, ?_, h'.inum.trans hinum, fun hpos => ?_, fun j hj => ?_⟩
  · rw [h'.file, h.file, Nat.add_assoc]
  · by_cases hr : 0 < r
    · rw [← Nat.add_assoc]
      exact hfilled.reached hr
    · have hzero : r.toNat = 0 := Int.toNat_of_nonpos (by omega)
      rw [hzero, Nat.add_zero] at hpos ⊢
      exact (h.reached hpos).trans hfilled.size
  · by_cases hold : j < i
    · have hreached := h.reached (by omega)
      rw [hfilled.old _ (by omega) (by omega)]
      exact h.new j hold
    · have hnew := hfilled.new (j - i) (by omega)
      have hsum : (k.ftable f).off + i + (j - i) = (k.ftable f).off + j := by omega
      have hsrc : i + (j - i) = j := by omega
      rwa [hsum, hsrc] at hnew

/-- The events of whole pieces. -/
def eventsOf (pieces : List WritePiece) : List WriteEvent := pieces.flatMap WritePiece.events

/-- The loop has come to an end after `i` bytes. -/
structure Written (L : Layout) (f : ℕ) (src : ℕ → Byte) (n : Int32) (k : Kernel) (r : ℤ)
    (s : Kernel × List WriteEvent) (pieces : List WritePiece) (i : ℕ) : Prop where
  events : s.2 = eventsOf pieces
  fits : ∀ p ∈ pieces, p.Fits
  bytes : pieces.flatMap WritePiece.bytes = List.range i
  result : r = Sharing.writeResult n i
  progressed : Progressed L f src k i s.1

def sampleLayout : Layout := { sampleSuperblock with inodestart := 2, bmapstart := 4 }

end Xv6.Files
