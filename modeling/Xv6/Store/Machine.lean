import Xv6.Bio.Cache
import Xv6.Files.Disk
import Xv6.Fs.GroupCommit
import Xv6.Ide.Machine

/-!
# Buffers, log and disk together

The buffer cache, the log and the disk as one system with any number of processes.  A process reads
blocks with `bread`, gives the buffers back with `brelse`, and between `begin_op` and `end_op`
changes a buffer and calls `log_write`.  The last `end_op` commits: `write_log`, `write_head` and
`install_trans` read and write blocks through the same buffers (`LogPc.body`), while other processes
use the cache.

`iderw` is one step: nobody else has the buffer until it returns.  The blocks that are changed are
those of the file system, which is on the disk `ROOTDEV` behind the log; from the other disk, blocks
are only read.

`Contents` is not in the code.  It says what was last written to each block of `ROOTDEV`, and which
blocks have been changed since the last commit.
-/

namespace Xv6

open Transition
open Files (ROOTDEV)

/-- What a commit does with buffers.  The buffers that `bread` has returned are numbered in this
order. -/
inductive Instr where
  | bread (blockno : ℕ)
  | memmove (dst src : ℕ)
  /-- `n` and `block[0..n)` are put into the header. -/
  | header (k : ℕ)
  | bwrite (k : ℕ)
  | brelse (k : ℕ)

/-- The bodies of the loops of `write_log` and `install_trans`, and `write_head`. -/
def LogPc.body (start : ℕ) (lh : List ℕ) : LogPc → List Instr
  | writeLog tail =>
      match lh[tail]? with
      | some b =>
          [.bread (start + tail + 1), .bread b, .memmove 0 1, .bwrite 0, .brelse 1, .brelse 0]
      | none => []
  | installTrans tail =>
      match lh[tail]? with
      | some b =>
          [.bread (start + tail + 1), .bread b, .memmove 1 0, .bwrite 1, .brelse 0, .brelse 1]
      | none => []
  | writeHead | eraseHead => [.bread start, .header 0, .bwrite 0, .brelse 0]
  | _ => []

/-- The variables of a process: the buffer that it has just locked in `bread`, how many
instructions of the body are done, and the buffers that it works on. -/
structure Frame where
  reading : Option BufId
  done : ℕ
  bufs : List BufId

/-- `disk` by drive and block number. -/
structure Store (P : Type) where
  bio : Bio P Block
  log : Logging P
  disk : ℕ × ℕ → Block
  frame : P → Frame

inductive StoreCall (P : Type) where
  | bread (p : P) (dev blockno : ℕ)
  /-- The buffer is changed to `data`, and `log_write` is called. -/
  | logWrite (p : P) (b : BufId) (data : Block)
  | brelse (p : P) (b : BufId)
  | beginOp (p : P)
  | endOp (p : P)
  | kill (p : P)
  /-- The call that the process is in goes on. -/
  | proceed (p : P)

namespace Store

variable {P : Type} [DecidableEq P] (s : Store P) (p : P)

abbrev buf {P : Type} (s : Store P) (b : BufId) : Buf P Block := s.bio.cache.buf b

def setFrame (f : Frame) : Store P := { s with frame := Function.update s.frame p f }

def modify {P : Type} (s : Store P) (b : BufId) (f : Buf P Block → Buf P Block) : Store P :=
  { s with bio := { s.bio with cache := s.bio.cache.modify b f } }

/-- The process is not in `bread` or `brelse`. -/
def Idle {P : Type} (s : Store P) (p : P) : Prop :=
  s.bio.pc p = .running ∧ (s.frame p).reading = none

/-- The process may make calls. -/
def Free {P : Type} (s : Store P) (p : P) : Prop :=
  s.Idle p ∧ (s.log.pc p = .outside ∨ s.log.pc p = .working)

/-- The buffer is locked by the process, and for a block of the file system. -/
def Changes {P : Type} (s : Store P) (p : P) (b : BufId) : Prop :=
  (s.buf b).lock = some p ∧ (s.buf b).dev = ROOTDEV ∧
    ¬ InLog s.log.start s.log.size (s.buf b).blockno

instance {P : Type} (s : Store P) (p : P) : Decidable (s.Idle p) := by
  unfold Idle
  infer_instance

instance {P : Type} (s : Store P) (p : P) : Decidable (s.Free p) := by
  unfold Free
  infer_instance

instance (b : BufId) : Decidable (s.Changes p b) := by
  unfold Changes
  infer_instance

/-- An instruction of a commit is done. -/
def advance : Store P :=
  if (s.log.pc p).commits then s.setFrame p { s.frame p with done := (s.frame p).done + 1 } else s

/-- `bread` returns `b`. -/
def returned (b : BufId) : Store P :=
  let f := s.frame p
  if (s.log.pc p).commits then s.setFrame p ⟨none, f.done + 1, f.bufs ++ [b]⟩
  else s.setFrame p { f with reading := none }

def iderw (b : BufId) : Outcome (Store P) :=
  let x := s.buf b
  let place := (x.dev % 2, x.blockno)
  if x.lock ≠ some p then .panic "iderw: buf not locked"
  else if x.valid ∧ x.dirty = false then .panic "iderw: nothing to do"
  else if x.blockno ≥ Ide.FSSIZE then .panic "incorrect blockno"
  else if x.dirty then
    .next { s.modify b fun x => { x with valid := true, dirty := false } with
      disk := Function.update s.disk place x.data }
  else .next (s.modify b fun x => { x with valid := true, data := s.disk place })

def bwrite (b : BufId) : Outcome (Store P) :=
  if (s.buf b).lock ≠ some p then .panic "bwrite"
  else (s.modify b fun x => { x with dirty := true }).iderw p b

/-- A step of the buffer cache. -/
def cacheStep (a : BioCall P Block) : Outcome (Store P) :=
  s.bio.step a >>= fun bio => .next { s with bio := bio }

def logStep (a : LogCall P) : Outcome (Store P) :=
  s.log.step a >>= fun log => .next { s with log := log }

/-- The instruction of a commit that comes next. -/
def instr {P : Type} (s : Store P) (p : P) : Option Instr :=
  ((s.log.pc p).body s.log.start s.log.lh)[(s.frame p).done]?

def exec : Instr → Outcome (Store P)
  | .bread blockno => s.cacheStep (.bget p ROOTDEV blockno)
  | .memmove dst src =>
      match (s.frame p).bufs[dst]?, (s.frame p).bufs[src]? with
      | some d, some c => .next ((s.modify d fun x => { x with data := (s.buf c).data }).advance p)
      | _, _ => .blocked
  | .header k =>
      match (s.frame p).bufs[k]? with
      | some b => .next ((s.modify b fun x =>
          { x with data := headerOf s.log.lh x.data }).advance p)
      | none => .blocked
  | .bwrite k =>
      match (s.frame p).bufs[k]? with
      | some b => s.bwrite p b >>= fun s => .next (s.advance p)
      | none => .blocked
  | .brelse k =>
      match (s.frame p).bufs[k]? with
      | some b => s.cacheStep (.brelse p b)
      | none => .blocked

/-- The log goes on; `log_write` sets `B_DIRTY` while it has the lock of the log. -/
def logProceed : Outcome (Store P) :=
  match s.log.pc p with
  | .tested _ => s.logStep (.proceed p)
  | .locking _ =>
      match (s.frame p).bufs with
      | [b] =>
          (s.modify b fun x => { x with dirty := true }).logStep (.proceed p) >>= fun s =>
            .next (s.setFrame p ⟨none, 0, []⟩)
      | _ => .blocked
  | _ => s.logStep (.proceed p) >>= fun s => .next (s.setFrame p ⟨none, 0, []⟩)

def proceed : Outcome (Store P) :=
  match s.bio.pc p with
  | .acquiring b =>
      s.cacheStep (.acquiresleep p) >>= fun s =>
        .next (s.setFrame p { s.frame p with reading := some b })
  | .releasing _ => s.cacheStep (.unref p) >>= fun s => .next (s.advance p)
  | .running =>
      match (s.frame p).reading with
      | some b =>
          (if (s.buf b).valid then .next s else s.iderw p b) >>= fun s => .next (s.returned p b)
      | none =>
          match s.instr p with
          | some i => s.exec p i
          | none => s.logProceed p

def step (s : Store P) : StoreCall P → Outcome (Store P)
  | .bread p dev blockno =>
      if s.Free p ∧ dev < 2 then s.cacheStep (.bget p dev blockno) else .blocked
  | .logWrite p b data =>
      if s.Free p ∧ s.Changes p b then
        (s.modify b fun x => { x with data := data }).logStep (.logWrite p (s.buf b).blockno) >>=
          fun s => .next (s.setFrame p ⟨none, 0, [b]⟩)
      else .blocked
  | .brelse p b => if s.Free p then s.cacheStep (.brelse p b) else .blocked
  | .beginOp p => if s.Idle p then s.logStep (.beginOp p) else .blocked
  | .endOp p => if s.Free p then s.logStep (.endOp p) else .blocked
  | .kill p => s.logStep (.kill p)
  | .proceed p => s.proceed p

/-- The log has been recovered, and the cache is empty. -/
def boot (P : Type) (start size : ℕ) (disk : ℕ × ℕ → Block) : Store P where
  bio := Bio.boot P fun _ => 0
  log := Logging.boot P start size
  disk := disk
  frame := fun _ => ⟨none, 0, []⟩

end Store

/-! ## What has been written -/

/-- By block number: what was written last, and what it was at the last commit. -/
structure Contents where
  latest : Disk
  committed : Disk
  pending : Finset ℕ

namespace Contents

def boot (disk : ℕ × ℕ → Block) : Contents where
  latest b := disk (ROOTDEV, b)
  committed b := disk (ROOTDEV, b)
  pending := ∅

/-- What a commit has done when it has carried out an instruction. -/
def exec {P : Type} (g : Contents) (pc : LogPc) (bufs : List BufId) (t : Store P) :
    Instr → Contents
  | .memmove dst _ =>
      match pc, bufs[dst]? with
      | .writeLog _, some b =>
          { g with latest := Function.update g.latest (t.buf b).blockno (t.buf b).data }
      | _, _ => g
  | .header k =>
      match bufs[k]? with
      | some b => { g with latest := Function.update g.latest (t.buf b).blockno (t.buf b).data }
      | none => g
  | .bwrite _ =>
      match pc with
      | .writeHead => { g with committed := g.latest, pending := ∅ }
      | _ => g
  | _ => g

def record {P : Type} [DecidableEq P] (g : Contents) (s : Store P) :
    StoreCall P → Store P → Contents
  | .logWrite _ b data, _ =>
      { g with
        latest := Function.update g.latest (s.buf b).blockno data
        pending := insert (s.buf b).blockno g.pending }
  | .proceed p, t =>
      if s.Idle p then
        match s.instr p with
        | some i => g.exec (s.log.pc p) (s.frame p).bufs t i
        | none => g
      else g
  | _, _ => g

end Contents

/-- The steps with the record of what has been written. -/
abbrev storeTrace {P : Type} [DecidableEq P] :
    Store P × Contents → StoreCall P → Outcome (Store P × Contents) :=
  traced Store.step Contents.record

end Xv6
