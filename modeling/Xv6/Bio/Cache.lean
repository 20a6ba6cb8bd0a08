import Xv6.Fs.Log
import Xv6.Lib.Linked
import Xv6.Lib.Transition

/-!
# The buffer cache

The list of buffers of `bio.c` and the processes that use it.  `bget` and the
second half of `brelse` run under `bcache.lock` and are one step each; a process
waits for the sleep-lock of its buffer between two steps, and others may come in
between.

The pointers `prev` and `next` are kept as they are in memory; that they form a ring
is an invariant.  `refcnt` is a number that does not wrap, because it counts at most
one reference for each process and one for the holder of the sleep-lock.
-/

namespace Xv6

open Transition

/-- The size of the buffer cache. -/
def NBUF : ℕ := MAXOPBLOCKS * 3

instance : NeZero NBUF := ⟨by decide⟩

/-- An index into `bcache.buf`. -/
abbrev BufId := Fin NBUF

/-- A pointer to a buffer of the list; `none` is `&bcache.head`. -/
abbrev BufPtr := Option BufId

/-- `struct buf` without its links; `valid` and `dirty` are the bits `B_VALID` and
`B_DIRTY` of `flags`, and `lock` is who holds the sleep-lock. -/
structure Buf (P β : Type) where
  valid : Bool
  dirty : Bool
  dev : ℕ
  blockno : ℕ
  lock : Option P
  refcnt : ℕ
  data : β

structure Bcache (P β : Type) where
  buf : BufId → Buf P β
  links : Linked.Links BufPtr

namespace Bcache

variable {P β : Type} (s : Bcache P β) (b : BufId)

def modify (f : Buf P β → Buf P β) : Bcache P β :=
  { s with buf := Function.update s.buf b (f (s.buf b)) }

/-- What `bcache` holds when the kernel starts. -/
def zero (data : β) : Bcache P β where
  buf _ :=
    { valid := false, dirty := false, dev := 0, blockno := 0, lock := none, refcnt := 0, data }
  links := { next := fun _ => none, prev := fun _ => none }

/-- Create the linked list of buffers. -/
def binit : Bcache P β :=
  { s with
    links := (List.finRange NBUF).foldl (fun links b => links.insert none (some b)) s.links }

/-- `b->dev == dev && b->blockno == blockno` -/
def caches (dev blockno : ℕ) : Bool :=
  (s.buf b).dev == dev && (s.buf b).blockno == blockno

/-- `b->refcnt == 0 && (b->flags & B_DIRTY) == 0` -/
def unused : Bool :=
  (s.buf b).refcnt == 0 && !(s.buf b).dirty

/-- The block is cached in `b`. -/
def hit : Bcache P β :=
  s.modify b fun x => { x with refcnt := x.refcnt + 1 }

/-- Use `b` for another block. -/
def recycle (dev blockno : ℕ) : Bcache P β :=
  s.modify b fun x =>
    { x with dev := dev, blockno := blockno, valid := false, dirty := false, refcnt := 1 }

/-- The part of `bget` under `bcache.lock`: the buffer and the cache afterwards.  A
loop that does not come back to the head never ends. -/
def bget (dev blockno : ℕ) : Outcome (BufId × Bcache P β) :=
  match Linked.search s.links.next none (Option.any (s.caches · dev blockno)) (NBUF + 1)
      (s.links.next none) with
  | .found (some b) => .next (b, s.hit b)
  | .absent =>
      match Linked.search s.links.prev none (Option.any s.unused) (NBUF + 1)
          (s.links.prev none) with
      | .found (some b) => .next (b, s.recycle b dev blockno)
      | .absent => .panic "bget: no buffers"
      | _ => .blocked
  | _ => .blocked

/-- The part of `brelse` under `bcache.lock`. -/
def unref : Bcache P β :=
  let s := s.modify b fun x => { x with refcnt := x.refcnt - 1 }
  if (s.buf b).refcnt = 0 then
    -- no one is waiting for it: move it to the head of the list
    { s with links := (s.links.unlink (some b)).insert none (some b) }
  else s

end Bcache

/-! ## Its users -/

/-- Where a process is in `bget` or `brelse`. -/
inductive BioPc
  | running
  | acquiring (b : BufId)
  | releasing (b : BufId)
  deriving DecidableEq

/-- The buffer that a process in `bget` or `brelse` has counted in `refcnt`. -/
def BioPc.buf : BioPc → Option BufId
  | running => none
  | acquiring b | releasing b => some b

structure Bio (P β : Type) where
  cache : Bcache P β
  pc : P → BioPc

inductive BioCall (P β : Type)
  | bget (p : P) (dev blockno : ℕ)
  | acquiresleep (p : P)
  | use (p : P) (b : BufId) (valid dirty : Bool) (data : β)
  | brelse (p : P) (b : BufId)
  | unref (p : P)

namespace Bio

variable {P β : Type} [DecidableEq P] (s : Bio P β)

def goto (p : P) (pc : BioPc) : Bio P β :=
  { s with pc := Function.update s.pc p pc }

@[simp] theorem goto_cache (p : P) (pc : BioPc) : (s.goto p pc).cache = s.cache := rfl

/-- A step of a process.  Whoever holds the sleep-lock of a buffer may change its
flags and its data. -/
def step : BioCall P β → Outcome (Bio P β)
  | .bget p dev blockno =>
      if s.pc p = .running then
        s.cache.bget dev blockno >>= fun r =>
          .next ({ s with cache := r.2 }.goto p (.acquiring r.1))
      else .blocked
  | .acquiresleep p =>
      match s.pc p with
      | .acquiring b =>
          if (s.cache.buf b).lock = none then
            .next ({ s with cache := s.cache.modify b fun x => { x with lock := some p } }.goto p
              .running)
          else .blocked
      | _ => .blocked
  | .use p b valid dirty data =>
      if s.pc p = .running ∧ (s.cache.buf b).lock = some p then
        .next { s with cache := s.cache.modify b fun x => { x with valid, dirty, data } }
      else .blocked
  | .brelse p b =>
      if s.pc p = .running then
        if (s.cache.buf b).lock = some p then
          .next ({ s with cache := s.cache.modify b fun x => { x with lock := none } }.goto p
            (.releasing b))
        else .panic "brelse"
      else .blocked
  | .unref p =>
      match s.pc p with
      | .releasing b => .next ({ s with cache := s.cache.unref b }.goto p .running)
      | _ => .blocked

/-- After `binit`. -/
def boot (P : Type) {β : Type} (data : β) : Bio P β where
  cache := (Bcache.zero data).binit
  pc _ := .running

end Bio

end Xv6
