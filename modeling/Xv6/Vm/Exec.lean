import Xv6.Vm.Growproc
import Xv6.Syscall.Handlers

/-!
# `exec`

The code of `exec.c`, and of `loaduvm`, `clearpteu`, `uva2ka` and `copyout` in
`vm.c`.  What `namei` and `readi` find is an answer from outside, so that the file
and its headers are arbitrary.  The caller's arguments are given as strings.

`uva2ka` reads the entry that `walkpgdir` returns without a check that there is one.
A null pointer is the user address 0 of the caller, whose page directory is loaded.
-/

namespace Xv6.Vm

open Allocation

/-! ## Bytes -/

/-- Byte `i` of a page. -/
def byte (page : Page) (i : ℕ) : ℕ := page (i / 4) / 256 ^ (i % 4) % 256

/-- The word of the bytes from `i` on. -/
def wordAt (data : ℕ → ℕ) (i : ℕ) : ℕ :=
  data i % 256 + data (i + 1) % 256 * 256 + data (i + 2) % 256 * 256 ^ 2 +
    data (i + 3) % 256 * 256 ^ 3

/-- `n` bytes are stored from byte `start` of a page on. -/
def putBytes (start n : ℕ) (data : ℕ → ℕ) (page : Page) : Page := fun i =>
  if 4 * i + 3 < start ∨ start + n ≤ 4 * i then page i
  else wordAt (fun j => if start ≤ j ∧ j < start + n then data (j - start) else byte page j) (4 * i)

/-- The bytes of a string and of its terminating 0. -/
def stringBytes (s : List ℕ) (i : ℕ) : ℕ := s.getD i 0

/-- The bytes of an array of words. -/
def wordBytes (words : List ℕ) (i : ℕ) : ℕ := words.getD (i / 4) 0 / 256 ^ (i % 4) % 256

/-! ## The file -/

/-- What comes from the file system: whether `namei` finds the path, and for each offset and
size what `readi` returns, how many bytes it has stored, and which. -/
structure Reply where
  found : Bool
  count : ℕ → ℕ → ℤ
  written : ℕ → ℕ → ℕ
  data : ℕ → ℕ → ℕ → ℕ

/-- `readi` into a buffer on the kernel stack -/
def readi (off n : ℕ) : Call Curproc Reply (ℤ × (ℕ → ℕ)) :=
  .input fun reply => .ret (reply.count off n, reply.data off n)

/-- `readi` into a page -/
def readiPage (page : Frame) (off n : ℕ) : Call Curproc Reply ℤ :=
  .input fun reply =>
    .modify page (putBytes 0 (min n (reply.written off n)) (reply.data off n))
      (.ret (reply.count off n))

def begin_op : Call Curproc Reply Unit := setproc fun p => { p with begun := p.begun + 1 }

def end_op : Call Curproc Reply Unit := setproc fun p => { p with ended := p.ended + 1 }

/-- `namei` has a reference to what it returns. -/
def namei : Call Curproc Reply Bool :=
  .input fun reply =>
    if reply.found then .act (fun p => { p with refs := p.refs + 1 }) fun _ => .ret true
    else .ret false

def ilock : Call Curproc Reply Unit := setproc fun p => { p with locks := p.locks + 1 }

def iunlockput : Call Curproc Reply Unit :=
  setproc fun p => { p with locks := p.locks - 1, refs := p.refs - 1 }

/-! ## `vm.c` -/

/-- The loop of `loaduvm` from byte `i` on; -1 is `false`. -/
def loadFrom (pgdir : Frame) (addr offset sz i : ℕ) : Call Curproc Reply Bool :=
  if i < sz then do
    match ← walkpgdir pgdir (uint (addr + i)) false with
    | none => .panic "loaduvm: address should exist"
    | some (pgtab, j) =>
        let pte ← load pgtab j
        let n := if sz - i < PGSIZE then sz - i else PGSIZE
        if (← readiPage (PTE_ADDR pte) (uint (offset + i)) n) ≠ n then pure false
        else loadFrom pgdir addr offset sz (i + PGSIZE)
  else pure true
termination_by sz - i
decreasing_by
  simp only [PGSIZE]; omega

def loaduvm (pgdir : Frame) (addr offset sz : ℕ) : Call Curproc Reply Bool :=
  if addr % PGSIZE ≠ 0 then .panic "loaduvm: addr must be page aligned"
  else loadFrom pgdir addr offset sz 0

/-- `pte & ~PTE_U` -/
def clearUser (pte : ℕ) : ℕ := if user pte then pte - PTE_U else pte

def clearpteu (pgdir : Frame) (uva : ℕ) : Call Curproc Reply Unit := do
  match ← walkpgdir pgdir uva false with
  | none => .panic "clearpteu"
  | some (pgtab, i) =>
      let pte ← load pgtab i
      store pgtab i (clearUser pte)

/-- The word at user address 0, as the kernel reads it through a null pointer. -/
def loadNull : Call Curproc Reply ℕ := do
  let curproc ← myproc
  match ← walkpgdir curproc.cr3 0 false with
  | none => .panic "trap"
  | some (pgtab, i) =>
      let pte ← load pgtab i
      if present pte then load (PTE_ADDR pte) 0 else .panic "trap"

def uva2ka (pgdir : Frame) (uva : ℕ) : Call Curproc Reply (Option Frame) := do
  let pte ← match ← walkpgdir pgdir uva false with
    | none => loadNull
    | some (pgtab, i) => load pgtab i
  if !present pte then pure none
  else if !user pte then pure none
  else pure (some (PTE_ADDR pte))

/-- A page that the kernel may write to at its address. -/
def Layout.Writable (lay : Layout) (page : Frame) : Prop :=
  page < EXTMEM / PGSIZE ∨ lay.dataPage ≤ page ∧ page < PHYSTOP / PGSIZE

instance (lay : Layout) (page : Frame) : Decidable (lay.Writable page) :=
  inferInstanceAs (Decidable (_ ∨ _))

/-- `memmove(pa0 + start, buf, n)`.  Only memory is modelled: elsewhere the kernel stops. -/
def putPage (lay : Layout) (page : Frame) (start n : ℕ) (data : ℕ → ℕ) : Call Curproc Reply Unit :=
  if lay.Writable page then .modify page (putBytes start n data) (.ret ())
  else .panic "trap"

/-- -1 is `false`. -/
def copyout (lay : Layout) (pgdir : Frame) (va : ℕ) (data : ℕ → ℕ) (len : ℕ) :
    Call Curproc Reply Bool :=
  if 0 < len then do
    let va0 := PGROUNDDOWN va
    match ← uva2ka pgdir va0 with
    | none => pure false
    | some pa0 =>
        let n := min (PGSIZE - (va - va0)) len
        putPage lay pa0 (va - va0) n data
        copyout lay pgdir (uint (va0 + PGSIZE)) (fun i => data (i + n)) (len - n)
  else pure true
termination_by len
decreasing_by
  simp only [PGROUNDDOWN, PGSIZE]; omega

/-! ## `exec.c` -/

def ELF_MAGIC : ℕ := 0x464C457F
def ELF_PROG_LOAD : ℕ := 1

/-- The fields of `struct elfhdr` and of `struct proghdr` that `exec` reads. -/
def elfhdr : ℕ := 52
def proghdr : ℕ := 32

def elfMagic (elf : ℕ → ℕ) : ℕ := wordAt elf 0
def elfEntry (elf : ℕ → ℕ) : ℕ := wordAt elf 24
def elfPhoff (elf : ℕ → ℕ) : ℕ := wordAt elf 28
def elfPhnum (elf : ℕ → ℕ) : ℕ := wordAt elf 44 % 2 ^ 16

def phType (ph : ℕ → ℕ) : ℕ := wordAt ph 0
def phOff (ph : ℕ → ℕ) : ℕ := wordAt ph 4
def phVaddr (ph : ℕ → ℕ) : ℕ := wordAt ph 8
def phFilesz (ph : ℕ → ℕ) : ℕ := wordAt ph 16
def phMemsz (ph : ℕ → ℕ) : ℕ := wordAt ph 20

/-- The loop over the program headers, `n` of which are left; `none` is `goto bad`. -/
def loadSegments (lay : Layout) (pgdir : Frame) : ℕ → ℕ → ℕ → Call Curproc Reply (Option ℕ)
  | 0, _, sz => pure (some sz)
  | n + 1, off, sz => do
      let (count, ph) ← readi off proghdr
      if count ≠ proghdr then pure none
      else if phType ph ≠ ELF_PROG_LOAD then loadSegments lay pgdir n (uint (off + proghdr)) sz
      else if phMemsz ph < phFilesz ph then pure none
      else if uint (phVaddr ph + phMemsz ph) < phVaddr ph then pure none
      else
        let sz ← allocuvm lay pgdir sz (uint (phVaddr ph + phMemsz ph))
        if sz = 0 then pure none
        else if phVaddr ph % PGSIZE ≠ 0 then pure none
        else if ← loaduvm pgdir (phVaddr ph) (phOff ph) (phFilesz ph) then
          loadSegments lay pgdir n (uint (off + proghdr)) sz
        else pure none

/-- The loop that pushes the arguments: the stack pointer, and the addresses of the strings
that have been pushed; `none` is `goto bad`. -/
def pushStrings (lay : Layout) (pgdir : Frame) :
    List (List ℕ) → ℕ → List ℕ → Call Curproc Reply (Option (ℕ × List ℕ))
  | [], sp, ustack => pure (some (sp, ustack))
  | s :: rest, sp, ustack => do
      if ustack.length ≥ MAXARG then pure none
      else
        let len := uint (s.length + 1)
        let sp := uint (sp + 2 ^ 32 - len) / 4 * 4
        if ← copyout lay pgdir sp (stringBytes s) len then
          pushStrings lay pgdir rest sp (ustack ++ [sp])
        else pure none

/-- `for(last=s=path; *s; s++) if(*s == '/') last = s+1;` -/
def lastName (path : List ℕ) : List ℕ :=
  path.foldl (fun last c => if c = 0x2F then [] else last ++ [c]) []

/-- From `// Commit to the user image.` on. -/
def commit (lay : Layout) (path : List ℕ) (pgdir : Frame) (sz entry sp : ℕ) :
    Call Curproc Reply ℤ := do
  setproc fun p => { p with name := (lastName path).take 15 }
  let curproc ← myproc
  let oldpgdir := curproc.pgdir
  setproc fun p => { p with pgdir := pgdir, sz := sz, eip := entry, esp := sp }
  switchuvm
  freevm lay oldpgdir
  pure 0

/-- The label `bad`. -/
def bad (lay : Layout) (pgdir : Option Frame) (ip : Bool) : Call Curproc Reply ℤ := do
  match pgdir with
  | none => pure ()
  | some pgdir => freevm lay pgdir
  if ip then
    iunlockput
    end_op
    pure (-1)
  else pure (-1)

/-- From `// Allocate two pages at the next page boundary.` on. -/
@[irreducible] def execStack (lay : Layout) (path : List ℕ) (argv : List (List ℕ)) (entry : ℕ)
    (pgdir : Frame) (sz : ℕ) : Call Curproc Reply ℤ := do
  let sz ← allocuvm lay pgdir (PGROUNDUP sz) (PGROUNDUP sz + 2 * PGSIZE)
  if sz = 0 then bad lay (some pgdir) false
  else
    clearpteu pgdir (sz - 2 * PGSIZE)
    match ← pushStrings lay pgdir argv sz [] with
    | none => bad lay (some pgdir) false
    | some (sp, ustack) =>
        let argc := ustack.length
        let words := [0xffffffff, argc, uint (sp + 2 ^ 32 - (argc + 1) * 4)] ++ ustack ++ [0]
        let sp := uint (sp + 2 ^ 32 - (3 + argc + 1) * 4)
        if ← copyout lay pgdir sp (wordBytes words) ((3 + argc + 1) * 4) then
          commit lay path pgdir sz entry sp
        else bad lay (some pgdir) false

/-- From `setupkvm` on. -/
def execLoad (lay : Layout) (path : List ℕ) (argv : List (List ℕ)) (elf : ℕ → ℕ) :
    Call Curproc Reply ℤ := do
  match ← setupkvm lay with
  | none => bad lay none true
  | some pgdir =>
      match ← loadSegments lay pgdir (elfPhnum elf) (elfPhoff elf) 0 with
      | none => bad lay (some pgdir) true
      | some sz =>
          iunlockput
          end_op
          execStack lay path argv (elfEntry elf) pgdir sz

def exec (lay : Layout) (path : List ℕ) (argv : List (List ℕ)) : Call Curproc Reply ℤ := do
  begin_op
  if ← namei then
    ilock
    let (count, elf) ← readi 0 elfhdr
    if count ≠ elfhdr then bad lay none true
    else if elfMagic elf ≠ ELF_MAGIC then bad lay none true
    else execLoad lay path argv elf
  else
    end_op
    pure (-1)

end Xv6.Vm
