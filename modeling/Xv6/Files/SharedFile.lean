import Xv6.Files.ByteArrays
import Xv6.Fs.Log
import Xv6.Lib.Transition

/-!
# A file that is shared

`fileread` and `filewrite` for one entry of the file table and any number of calls, by any
processes that have it by `fork` or `dup`.  The offset is in the entry, and it is read and
advanced in steps of their own while the inode is locked; a write that is too long for one
transaction gives up the lock between its pieces.  `begin_op` and `end_op` only delay a
process and are left out.

`Pieces` is the record of a run: who has taken the lock of the inode, and what has been
read or written at which offset.
-/

namespace Xv6.Files

open Faulting Transition

/-- How many bytes `filewrite` writes in one transaction. -/
def writeMax : ℕ := ((MAXOPBLOCKS - 1 - 1 - 2) / 2) * 512

/-- What a call asks for. -/
inductive Io where
  | read (n : Int32)
  | write (src : ℕ → Byte) (n : Int32)

/-- Where a call is.  `i` bytes have been written, and `r` is what `readi`, which read `data`, or
`writei` has returned. -/
inductive IoStage where
  | idle
  | ready (i : ℕ)
  | locked (i : ℕ)
  | moved (i : ℕ) (r : ℤ) (data : List Byte)
  | advanced (i : ℕ) (r : ℤ) (data : List Byte)
  | returned (r : ℤ) (data : List Byte)

/-- The call has the lock of the inode. -/
def IoStage.locks : IoStage → Bool
  | locked _ | moved _ _ _ | advanced _ _ _ => true
  | _ => false

/-- The length of the next piece, `n1`. -/
def chunk (n : Int32) (i : ℕ) : ℕ := min (n.toInt.toNat - i) writeMax

/-- The loop of `filewrite` goes on. -/
def Io.goesOn : Io → ℕ → Bool
  | .read _, _ => true
  | .write _ n, i => (i : ℤ) < n.toInt

structure Sharing (P : Type) where
  file : File
  kernel : Kernel
  holder : Option P
  stage : P → IoStage

inductive IoAction (P : Type)
  | call (p : P)
  | lock (p : P)
  | transfer (p : P)
  | advance (p : P)
  | unlock (p : P)
  | finish (p : P)

namespace Sharing

variable {P : Type} [DecidableEq P]

def goto (s : Sharing P) (p : P) (stage : IoStage) : Sharing P :=
  { s with stage := Function.update s.stage p stage }

/-- Permissions and the type of the file; pipes are not modelled here. -/
def enter (io : P → Io) (s : Sharing P) (p : P) : Outcome (Sharing P) :=
  let (allowed, name) := match io p with
    | .read _ => (s.file.readable, "fileread")
    | .write _ _ => (s.file.writable, "filewrite")
  if !allowed then .next (s.goto p (.returned (-1) []))
  else match s.file.type with
    | .FD_INODE => .next (s.goto p (.ready 0))
    | .FD_PIPE => .blocked
    | .FD_NONE => .panic name

/-- `readi` or `writei`, with the offset of the file. -/
def access (sb : Superblock) (devsw : Devsw) (file : File) : Io → ℕ → Fs (ℤ × List Byte)
  | .read n, _ => readi sb devsw file.ip file.off n.toUInt32.toNat
  | .write src n, i => do
      let r ← writei sb devsw file.ip (fun k => src (i + k)) file.off (chunk n i)
      pure (r, [])

/-- What the call returns when the loop of `filewrite` has ended. -/
def writeResult (n : Int32) (i : ℕ) : ℤ := if (i : ℤ) = n.toInt then n.toInt else -1

def step (sb : Superblock) (devsw : Devsw) (io : P → Io) (s : Sharing P) :
    IoAction P → Outcome (Sharing P)
  | .call p =>
      match s.stage p with
      | .idle => s.enter io p
      | _ => .blocked
  | .lock p =>
      match s.stage p with
      | .ready i =>
          if (io p).goesOn i ∧ s.holder = none then
            .next ({ s with holder := some p }.goto p (.locked i))
          else .blocked
      | _ => .blocked
  | .transfer p =>
      match s.stage p with
      | .locked i =>
          match (access sb devsw s.file (io p) i).run s.kernel with
          | (.ok (r, data), kernel) => .next ({ s with kernel }.goto p (.moved i r data))
          | (.error (.panic message), _) => .panic message
          | (.error .deadlock, _) => .blocked
      | _ => .blocked
  | .advance p =>
      match s.stage p with
      | .moved i r data =>
          let off := if r > 0 then uint (s.file.off + r.toNat) else s.file.off
          .next ({ s with file.off := off }.goto p (.advanced i r data))
      | _ => .blocked
  | .unlock p =>
      match s.stage p with
      | .advanced i r data =>
          let s := { s with holder := none }
          match io p with
          | .read _ => .next (s.goto p (.returned r data))
          | .write _ n =>
              if r < 0 then .next (s.goto p (.returned (writeResult n i) []))
              else if r ≠ chunk n i then .panic "short filewrite"
              else .next (s.goto p (.ready (i + r.toNat)))
      | _ => .blocked
  | .finish p =>
      match s.stage p, io p with
      | .ready i, .write _ n =>
          if (io p).goesOn i then .blocked
          else .next (s.goto p (.returned (writeResult n i) []))
      | _, _ => .blocked

def start (P : Type) (file : File) (kernel : Kernel) : Sharing P where
  file := file
  kernel := kernel
  holder := none
  stage _ := .idle

end Sharing

/-- What has been read or written while the inode was locked once. -/
structure Piece (P : Type) where
  owner : P
  start : ℕ
  bytes : List Byte

structure Pieces (P : Type) where
  taken : List P
  pieces : List (Piece P)

namespace Pieces

variable {P : Type}

/-- The bytes of a call of `readi` or `writei` that has returned `r`. -/
def moved (io : Io) (i : ℕ) (r : ℤ) (data : List Byte) : List Byte :=
  match io with
  | .read _ => data
  | .write src _ => (List.range r.toNat).map fun k => src (i + k)

def record (io : P → Io) (h : Pieces P) (s : Sharing P) (a : IoAction P) (t : Sharing P) :
    Pieces P :=
  match a with
  | .lock p => { h with taken := h.taken ++ [p] }
  | .transfer p =>
      match t.stage p with
      | .moved i r data =>
          { h with pieces := h.pieces ++ [⟨p, s.file.off, moved (io p) i r data⟩] }
      | _ => h
  | _ => h

def empty (P : Type) : Pieces P where
  taken := []
  pieces := []

/-- What call `p` has read or written, piece by piece. -/
def of [DecidableEq P] (h : Pieces P) (p : P) : List Byte :=
  (h.pieces.filter fun piece => piece.owner = p).flatMap Piece.bytes

end Pieces

/-! ## The steps -/

/-- All steps. -/
inductive SharingStep {P : Type} [DecidableEq P] (sb : Superblock) (devsw : Devsw) (io : P → Io)
    (s : Sharing P) : IoAction P → Sharing P → Prop
  | refused {p} (hstage : s.stage p = .idle) :
      SharingStep sb devsw io s (.call p) (s.goto p (.returned (-1) []))
  | enter {p} (hstage : s.stage p = .idle) :
      SharingStep sb devsw io s (.call p) (s.goto p (.ready 0))
  | lock {p i} (hstage : s.stage p = .ready i) (hgo : (io p).goesOn i = true)
      (hfree : s.holder = none) :
      SharingStep sb devsw io s (.lock p) ({ s with holder := some p }.goto p (.locked i))
  | transfer {p i r data kernel} (hstage : s.stage p = .locked i)
      (hrun : (Sharing.access sb devsw s.file (io p) i).run s.kernel = (.ok (r, data), kernel)) :
      SharingStep sb devsw io s (.transfer p) ({ s with kernel }.goto p (.moved i r data))
  | advance {p i r data} (hstage : s.stage p = .moved i r data) :
      SharingStep sb devsw io s (.advance p)
        ({ s with file.off := if r > 0 then uint (s.file.off + r.toNat) else s.file.off }.goto p
          (.advanced i r data))
  | read {p i r data n} (hstage : s.stage p = .advanced i r data) (hio : io p = .read n) :
      SharingStep sb devsw io s (.unlock p)
        ({ s with holder := none }.goto p (.returned r data))
  | failed {p i r data src n} (hstage : s.stage p = .advanced i r data)
      (hio : io p = .write src n) (hr : r < 0) :
      SharingStep sb devsw io s (.unlock p)
        ({ s with holder := none }.goto p (.returned (Sharing.writeResult n i) []))
  | written {p i r data src n} (hstage : s.stage p = .advanced i r data)
      (hio : io p = .write src n) (hr : r = chunk n i) :
      SharingStep sb devsw io s (.unlock p)
        ({ s with holder := none }.goto p (.ready (i + r.toNat)))
  | finish {p i src n} (hstage : s.stage p = .ready i) (hio : io p = .write src n)
      (hgo : (io p).goesOn i = false) :
      SharingStep sb devsw io s (.finish p) (s.goto p (.returned (Sharing.writeResult n i) []))

theorem Sharing.step_cases {P : Type} [DecidableEq P] {sb : Superblock} {devsw : Devsw}
    {io : P → Io} {s t : Sharing P} {a : IoAction P} (h : Sharing.step sb devsw io s a = .next t) :
    SharingStep sb devsw io s a t := by
  cases a with
  | call p =>
      simp only [step] at h
      split at h
      · rename_i hstage
        unfold enter at h
        split at h
        split at h
        · obtain rfl := Outcome.next.inj h
          exact .refused hstage
        · split at h
          · obtain rfl := Outcome.next.inj h
            exact .enter hstage
          · cases h
          · cases h
      · cases h
  | lock p =>
      simp only [step] at h
      split at h
      · rename_i i hstage
        split at h
        · rename_i hguard
          obtain rfl := Outcome.next.inj h
          exact .lock hstage hguard.1 hguard.2
        · cases h
      · cases h
  | transfer p =>
      simp only [step] at h
      split at h
      · rename_i i hstage
        split at h
        · rename_i hrun
          obtain rfl := Outcome.next.inj h
          exact .transfer hstage hrun
        · cases h
        · cases h
      · cases h
  | advance p =>
      simp only [step] at h
      split at h
      · rename_i hstage
        obtain rfl := Outcome.next.inj h
        exact .advance hstage
      · cases h
  | unlock p =>
      simp only [step] at h
      split at h
      · rename_i i r data hstage
        split at h
        · rename_i hio
          obtain rfl := Outcome.next.inj h
          exact .read hstage hio
        · rename_i hio
          split at h
          · rename_i hr
            obtain rfl := Outcome.next.inj h
            exact .failed hstage hio hr
          · split at h
            · cases h
            · rename_i hr
              obtain rfl := Outcome.next.inj h
              exact .written hstage hio (not_not.mp hr)
      · cases h
  | finish p =>
      simp only [step] at h
      split at h
      · rename_i hstage hio
        split at h
        · cases h
        · rename_i hgo
          obtain rfl := Outcome.next.inj h
          exact .finish hstage hio (by simpa using hgo)
      · cases h

end Xv6.Files
