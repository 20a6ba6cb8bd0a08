import Xv6.Lib.References
import Xv6.Lib.Transition
import Xv6.Syscall.Handlers

/-!
# The file table

`filealloc`, `filedup` and `fileclose` of `file.c`, `pipealloc` and `pipeclose` of
`pipe.c`, and the calls that use them, as the steps of any number of processes: `open`,
`dup`, `close`, `pipe`, `fork`, `custmpro` and `exit`.

What a process does under `ftable.lock` or `p->lock` is one step, together with what it
does before or after to its own descriptors and to file structures that nobody else has
a pointer to.  Whether a path is found, whether there are pages for a new process, and
which page `kalloc` returns, if any, is part of the action.

A call that fails before it has done anything returns at once.  The inode of a file does
not occur: what `iput` does in `fileclose` is not a matter of the file table.
-/

namespace Xv6.Ftable

open Transition

/-- `NFILE`, the number of open files per system. -/
def NFILE : ℕ := 100

inductive FileType
  | none
  | pipe
  | inode
  deriving DecidableEq

/-- `struct file`.  The pointer to a pipe may be an old one. -/
structure File (A : Type) where
  type : FileType := .none
  ref : ℕ := 0
  readable : Bool := false
  writable : Bool := false
  pipe : Option A := Option.none

/-- The flags of `struct pipe`. -/
structure PipeFlags where
  readopen : Bool
  writeopen : Bool
  deriving DecidableEq

def PipeFlags.shut (flags : PipeFlags) (writable : Bool) : PipeFlags :=
  if writable then { flags with writeopen := false } else { flags with readopen := false }

/-- What `kalloc` and `kfree` have been called for. -/
inductive PipeEvent (A : Type)
  | alloc (a : A)
  | free (a : A)

/-- Where the slot of a process is in its life. -/
inductive Life
  | unused
  | embryo
  | running
  | zombie
  deriving DecidableEq

abbrev FileId := Fin NFILE

abbrev Fd := Fin NOFILE

inductive FileCall (P : Type)
  | openFile (omode : ℕ)
  | dup (fd : Fd)
  | close (fd : Fd)
  | pipe
  | fork (np : Option P)
  | custmpro (np : Option P)
  | exit

/-- What follows a `fileclose`: nothing, another one, or the rest of the loop of `exit`. -/
inductive Next
  | done
  | close (f : FileId)
  | exit (fd : Fd)
  deriving DecidableEq

/-- Where a process is in a call. -/
inductive FilePc (P A : Type)
  | idle
  /-- Before `filealloc` in `sys_open`. -/
  | opening (omode : ℕ)
  /-- The descriptor is there, and the file is not filled in yet. -/
  | filling (omode : ℕ) (f : FileId)
  /-- Before `filedup` in `sys_dup`; `fd` is the new descriptor. -/
  | duping (f : FileId) (fd : Fd)
  | closing (f : FileId) (next : Next)
  | pipeClosing (p : A) (writable : Bool) (next : Next)
  /-- In `pipealloc`, with the files that it has got. -/
  | pipe0
  | pipe1 (f0 : FileId)
  | pipe2 (f0 f1 : FileId)
  /-- In `fork`, after `allocproc` has found `np`. -/
  | creating (np : P)
  /-- In the loop of `fork`. -/
  | copying (np : P) (i : ℕ)
  /-- In the loop of `exit`. -/
  | exiting (i : ℕ)
  deriving DecidableEq

structure Filing (P A : Type) where
  ftable : FileId → File A
  pipes : A → Option PipeFlags
  ofile : P → Fd → Option FileId
  life : P → Life
  pc : P → FilePc P A
  log : List (PipeEvent A)

/-- `found`: the path is found, or there are pages for the new process.  `page` is what
`kalloc` returns to `pipealloc`. -/
inductive FileAction (P A : Type)
  | call (p : P) (c : FileCall P)
  | proceed (p : P) (found : Bool) (page : Option A)
  /-- `wait` frees the slot of a zombie. -/
  | reap (np : P)

namespace Filing

variable {P A : Type} [DecidableEq P] [DecidableEq A] (s : Filing P A) (p : P)

def goto (pc : FilePc P A) : Filing P A :=
  { s with pc := Function.update s.pc p pc }

def setOfile (fd : Fd) (o : Option FileId) : Filing P A :=
  { s with ofile := Function.update s.ofile p (Function.update (s.ofile p) fd o) }

def setLife (life : Life) : Filing P A :=
  { s with life := Function.update s.life p life }

def setFile {P A : Type} (s : Filing P A) (f : FileId) (file : File A) : Filing P A :=
  { s with ftable := Function.update s.ftable f file }

/-- The file that `filealloc` finds. -/
def freeFile {P A : Type} (s : Filing P A) : Option FileId :=
  (List.finRange NFILE).find? fun f => (s.ftable f).ref = 0

/-- `f->ref = 1` -/
def filealloc {P A : Type} (s : Filing P A) (f : FileId) : Filing P A :=
  s.setFile f { s.ftable f with ref := 1 }

/-- The descriptor that `fdalloc` finds. -/
def freeFd (ofile : Fd → Option FileId) : Option Fd :=
  (List.finRange NOFILE).find? fun fd => (ofile fd).isNone

def filedup {P A : Type} (s : Filing P A) (f : FileId) : Outcome (Filing P A) :=
  if (s.ftable f).ref < 1 then .panic "filedup"
  else .next (s.setFile f { s.ftable f with ref := (s.ftable f).ref + 1 })

/-- After a `fileclose`. -/
def after : Next → Filing P A
  | .done => s.goto p .idle
  | .close f => s.goto p (.closing f .done)
  | .exit fd => (s.setOfile p fd none).goto p (.exiting (fd + 1))

/-- The part of `fileclose` under `ftable.lock`. -/
def fileclose (f : FileId) (next : Next) : Outcome (Filing P A) :=
  let ff := s.ftable f
  if ff.ref < 1 then .panic "fileclose"
  else if ff.ref - 1 > 0 then .next ((s.setFile f { ff with ref := ff.ref - 1 }).after p next)
  else
    let s := s.setFile f { ff with ref := 0, type := .none }
    match ff.type, ff.pipe with
    | .pipe, some a => .next (s.goto p (.pipeClosing a ff.writable next))
    | .pipe, none => .panic "trap"
    | _, _ => .next (s.after p next)

/-- What `pipeclose` does to the pipe.  A page that is not allocated is full of ones. -/
def shutPipe {P A : Type} [DecidableEq A] (s : Filing P A) (a : A) (writable : Bool) :
    Filing P A :=
  let flags := ((s.pipes a).getD ⟨true, true⟩).shut writable
  if flags.readopen = false ∧ flags.writeopen = false then
    { s with
      pipes := Function.update s.pipes a none
      log := s.log ++ [PipeEvent.free a] }
  else { s with pipes := Function.update s.pipes a ((s.pipes a).map fun _ => flags) }

def pipeclose (a : A) (writable : Bool) (next : Next) : Filing P A :=
  (s.shutPipe a writable).after p next

/-- The pipe and its two files are filled in. -/
def fillPipe {P A : Type} [DecidableEq A] (s : Filing P A) (f0 f1 : FileId) (a : A) :
    Filing P A :=
  let s := { s with
    pipes := Function.update s.pipes a (some ⟨true, true⟩)
    log := s.log ++ [PipeEvent.alloc a] }
  let s := s.setFile f0
    { s.ftable f0 with type := .pipe, readable := true, writable := false, pipe := some a }
  s.setFile f1
    { s.ftable f1 with type := .pipe, readable := false, writable := true, pipe := some a }

/-- `sys_pipe` after `pipealloc`. -/
def installPipe (f0 f1 : FileId) : Filing P A :=
  match freeFd (s.ofile p) with
  | none => s.goto p (.closing f0 (.close f1))
  | some fd0 =>
      match freeFd ((s.setOfile p fd0 (some f0)).ofile p) with
      -- `ofile[fd0] = 0`
      | none => s.goto p (.closing f0 (.close f1))
      | some fd1 => ((s.setOfile p fd0 (some f0)).setOfile p fd1 (some f1)).goto p .idle

/-- `fork` and `custmpro`: `allocproc`, unless there is no slot. -/
def allocproc : Option P → Outcome (Filing P A)
  | none => .next s
  | some np =>
      if s.life np = .unused then .next ((s.setLife np .embryo).goto p (.creating np))
      else .blocked

/-- The first step of a call. -/
def call (initproc : P) : FileCall P → Outcome (Filing P A)
  | .openFile omode => .next (s.goto p (.opening omode))
  | .dup fd =>
      match s.ofile p fd with
      | none => .next s
      | some f =>
          match freeFd (s.ofile p) with
          | none => .next s
          | some fd => .next ((s.setOfile p fd (some f)).goto p (.duping f fd))
  | .close fd =>
      match s.ofile p fd with
      | none => .next s
      | some f => .next ((s.setOfile p fd none).goto p (.closing f .done))
  | .pipe => .next (s.goto p .pipe0)
  | .fork np | .custmpro np => s.allocproc p np
  | .exit => if p = initproc then .panic "init exiting" else .next (s.goto p (.exiting 0))

/-- `f->readable = !(omode & O_WRONLY)`, and so on. -/
def fillInode {P A : Type} (s : Filing P A) (omode : ℕ) (f : FileId) : Filing P A :=
  s.setFile f { s.ftable f with
    type := .inode
    readable := !omode.testBit 0
    writable := omode.testBit 0 || omode.testBit 1 }

/-- The next step of a call. -/
def proceed (found : Bool) (page : Option A) : FilePc P A → Outcome (Filing P A)
  | .idle => .blocked
  | .opening omode =>
      if found then
        match s.freeFile with
        | none => .next (s.goto p .idle)
        | some f =>
            match freeFd (s.ofile p) with
            | none => .next ((s.filealloc f).goto p (.closing f .done))
            | some fd =>
                .next (((s.filealloc f).setOfile p fd (some f)).goto p (.filling omode f))
      else .next (s.goto p .idle)
  | .filling omode f => .next ((s.fillInode omode f).goto p .idle)
  | .duping f _ => s.filedup f >>= fun s => .next (s.goto p .idle)
  | .closing f next => s.fileclose p f next
  | .pipeClosing a writable next => .next (s.pipeclose p a writable next)
  | .pipe0 =>
      match s.freeFile with
      | none => .next (s.goto p .idle)
      | some f0 => .next ((s.filealloc f0).goto p (.pipe1 f0))
  | .pipe1 f0 =>
      match s.freeFile with
      | none => .next (s.goto p (.closing f0 .done))
      | some f1 => .next ((s.filealloc f1).goto p (.pipe2 f0 f1))
  | .pipe2 f0 f1 =>
      match page with
      | none => .next (s.goto p (.closing f0 (.close f1)))
      | some a =>
          -- `kalloc` returns no page that is in use
          if s.pipes a = none then .next ((s.fillPipe f0 f1 a).installPipe p f0 f1) else .blocked
  | .creating np =>
      if found then .next (s.goto p (.copying np 0))
      else .next ((s.setLife np .unused).goto p .idle)
  | .copying np i =>
      if h : i < NOFILE then
        match s.ofile p ⟨i, h⟩ with
        | none => .next (s.goto p (.copying np (i + 1)))
        | some f => s.filedup f >>= fun s =>
            .next ((s.setOfile np ⟨i, h⟩ (some f)).goto p (.copying np (i + 1)))
      else .next ((s.setLife np .running).goto p .idle)
  | .exiting i =>
      if h : i < NOFILE then
        match s.ofile p ⟨i, h⟩ with
        | none => .next (s.goto p (.exiting (i + 1)))
        | some f => .next (s.goto p (.closing f (.exit ⟨i, h⟩)))
      else .next ((s.setLife p .zombie).goto p .idle)

def step (initproc : P) (s : Filing P A) : FileAction P A → Outcome (Filing P A)
  | .call p c =>
      if s.life p = .running then
        match s.pc p with
        | .idle => s.call p initproc c
        | _ => .blocked
      else .blocked
  | .proceed p found page => s.proceed p found page (s.pc p)
  | .reap np => if s.life np = .zombie then .next (s.setLife np .unused) else .blocked

/-- The first process, with no file open. -/
def boot (initproc : P) : Filing P A where
  ftable := fun _ => {}
  pipes := fun _ => none
  ofile := fun _ _ => none
  life := Function.update (fun _ => .unused) initproc .running
  pc := fun _ => .idle
  log := []

end Filing

end Xv6.Ftable
