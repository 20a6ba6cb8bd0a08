import Xv6.Syscall.Faults
import Xv6.Vm.Code

/-!
# User pointers are confined

The checks of `fetchint`, `argptr` and `sys_exec` add with 32 bits.  A process is never
larger than `KERNBASE`, and so a sum of an address below its size and an `int` does not
wrap around: what has passed the checks lies in the process, as integers.

* `fetches_confined`: the words, blocks, strings and argument vectors that are fetched;
* `user_pointers_confined`: what the handlers pass on.  They are compared with handlers that
  look at every pointer once more, and give an alarm if it is not confined.
-/

namespace Xv6

variable {F I D α : Type}

/-! ## Ranges and strings -/

namespace Caller

variable (u : Caller F)

/-- `[p, p + n)` lies in the process. -/
def Confined (p : BitVec 32) (n : ℕ) : Prop := p.toNat + n ≤ u.sz.toNat

instance (p : BitVec 32) (n : ℕ) : Decidable (u.Confined p n) :=
  inferInstanceAs (Decidable (_ ≤ _))

/-- A block of so many bytes, an `int`. -/
def IsBlock (p size : BitVec 32) : Prop := 0 ≤ size.toInt ∧ u.Confined p size.toInt.toNat

instance (p size : BitVec 32) : Decidable (u.IsBlock p size) :=
  inferInstanceAs (Decidable (_ ∧ _))

/-- A string of this length, with its NUL. -/
def StringAt (p : BitVec 32) (length : ℕ) : Prop :=
  u.Confined p (length + 1) ∧ u.mem (p + BitVec.ofNat 32 length) = 0 ∧
    ∀ i < length, u.mem (p + BitVec.ofNat 32 i) ≠ 0

instance (p : BitVec 32) (length : ℕ) : Decidable (u.StringAt p length) :=
  inferInstanceAs (Decidable (_ ∧ _ ∧ _))

def IsString (p : BitVec 32) : Prop := ∃ length < u.sz.toNat, u.StringAt p length

instance (p : BitVec 32) : Decidable (u.IsString p) :=
  inferInstanceAs (Decidable (∃ length < u.sz.toNat, u.StringAt p length))

/-- At `uargv` there are the pointers `argv` and a 0, and each of them points at a string. -/
structure VectorAt (uargv : BitVec 32) (argv : List (BitVec 32)) : Prop where
  confined : u.Confined uargv (4 * (argv.length + 1))
  words : ∀ i < argv.length + 1,
    u.word (uargv + 4 * BitVec.ofNat 32 i) = (argv ++ [0]).getD i 0
  strings : ∀ arg ∈ argv, u.IsString arg

/-- What is fetched lies in the process. -/
structure FetchesConfined : Prop where
  argint : ∀ n value, u.argint n = some value →
    u.Confined (u.esp + 4 + 4 * BitVec.ofNat 32 n) 4 ∧
      value = u.word (u.esp + 4 + 4 * BitVec.ofNat 32 n)
  argptr : ∀ n size p, u.argptr n size = some p → u.argint n = some p ∧ u.IsBlock p size
  argstr : ∀ n p, u.argstr n = some p → u.argint n = some p ∧ u.IsString p
  argv : ∀ uargv argv, u.fetchargv MAXARG uargv = some argv →
    u.VectorAt uargv argv ∧ argv.length < MAXARG

/-! ## The fetches -/

variable {u}

theorem fetchint_confined (hsz : u.sz.toNat ≤ Vm.KERNBASE) {addr value : BitVec 32}
    (h : u.fetchint addr = some value) : u.Confined addr 4 ∧ value = u.word addr := by
  unfold Caller.fetchint at h
  split at h
  · simp at h
  · rename_i hcheck
    rw [not_or] at hcheck
    refine ⟨?_, (Option.some.inj h).symm⟩
    unfold Vm.KERNBASE at hsz
    unfold Confined
    bv_omega

theorem argptr_isBlock (hsz : u.sz.toNat ≤ Vm.KERNBASE) {n : ℕ} {size p : BitVec 32}
    (h : u.argptr n size = some p) : u.argint n = some p ∧ u.IsBlock p size := by
  obtain ⟨i, hi, hcheck⟩ := Option.bind_eq_some_iff.mp h
  split at hcheck
  · simp at hcheck
  · rename_i hchecks
    obtain rfl := Option.some.inj hcheck
    simp only [not_or, not_lt] at hchecks
    obtain ⟨hsize, hstart, hend⟩ := hchecks
    refine ⟨hi, hsize, ?_⟩
    have hcond := BitVec.toInt_eq_toNat_cond size
    have hlt := size.isLt
    -- the size is below 2 ^ 31, and so is the pointer
    unfold Vm.KERNBASE at hsz
    unfold Confined
    split at hcond
    · rw [hcond, Int.toNat_natCast]
      bv_omega
    · omega

/-- A string ends below the size, whatever the size is. -/
theorem fetchstr_isString {p : BitVec 32} {length : ℕ} (h : u.fetchstr p = some length) :
    u.IsString p := by
  unfold Caller.fetchstr at h
  split at h
  · simp at h
  · rename_i hstart
    obtain ⟨hzero, hrange, hbefore⟩ := List.find?_range_eq_some.mp h
    have hlength := List.mem_range.mp hrange
    have hconfined : u.Confined p (length + 1) := by
      unfold Confined
      bv_omega
    refine ⟨length, ?_, hconfined, by simpa using hzero, fun i hi => ?_⟩
    · unfold Confined at hconfined
      omega
    · simpa using hbefore i hi

theorem argstr_isString {n : ℕ} {p : BitVec 32} (h : u.argstr n = some p) :
    u.argint n = some p ∧ u.IsString p := by
  obtain ⟨addr, haddr, hrest⟩ := Option.bind_eq_some_iff.mp h
  obtain ⟨length, hlength, hp⟩ := Option.bind_eq_some_iff.mp hrest
  obtain rfl := Option.some.inj hp
  exact ⟨haddr, fetchstr_isString hlength⟩

/-- The address of the next word. -/
theorem vector_next (uargv : BitVec 32) (i : ℕ) :
    uargv + 4 * BitVec.ofNat 32 (i + 1) = uargv + 4 + 4 * BitVec.ofNat 32 i := by
  have hone : BitVec.ofNat 32 (i + 1) = BitVec.ofNat 32 i + 1 := BitVec.ofNat_add i 1
  rw [hone]
  bv_omega

theorem fetchargv_vectorAt (hsz : u.sz.toNat ≤ Vm.KERNBASE) {room : ℕ} {uargv : BitVec 32}
    {argv : List (BitVec 32)} (h : u.fetchargv room uargv = some argv) :
    u.VectorAt uargv argv ∧ argv.length < room := by
  induction room generalizing uargv argv with
  | zero => simp [fetchargv] at h
  | succ room ih =>
      rw [fetchargv] at h
      obtain ⟨uarg, huarg, hrest⟩ := Option.bind_eq_some_iff.mp h
      obtain ⟨hword, hvalue⟩ := fetchint_confined hsz huarg
      split at hrest
      · rename_i hzero
        obtain rfl := Option.some.inj hrest
        refine ⟨⟨hword, fun i hi => ?_, by simp⟩, Nat.succ_pos room⟩
        obtain rfl : i = 0 := by simpa using hi
        simpa [hzero] using hvalue.symm
      · obtain ⟨length, hlength, hrest⟩ := Option.bind_eq_some_iff.mp hrest
        obtain ⟨rest, hfetched, hargv⟩ := Option.bind_eq_some_iff.mp hrest
        obtain rfl := Option.some.inj hargv
        obtain ⟨hvector, hroom⟩ := ih hfetched
        have hconfined := hvector.confined
        refine ⟨⟨?_, fun i hi => ?_, fun arg harg => ?_⟩, by simpa using hroom⟩
        · -- no wrap around between two words
          unfold Vm.KERNBASE at hsz
          unfold Confined at hword hconfined ⊢
          rw [List.length_cons]
          bv_omega
        · cases i with
          | zero => simpa using hvalue.symm
          | succ i =>
              rw [vector_next]
              simpa using hvector.words i (by simpa using hi)
        · rcases List.mem_cons.mp harg with rfl | harg
          · exact fetchstr_isString hlength
          · exact hvector.strings arg harg

theorem fetches_confined (hsz : u.sz.toNat ≤ Vm.KERNBASE) : u.FetchesConfined where
  argint _ _ h := fetchint_confined hsz h
  argptr _ _ _ := argptr_isBlock hsz
  argstr _ _ := argstr_isString
  argv _ _ := fetchargv_vectorAt hsz

end Caller

/-! ## The handlers -/

/-- `sizeof(struct pstat)` of the FCFS kernel, where it has no `priority`. -/
def sizeofPstatFcfs : BitVec 32 := 16

namespace Parts

variable (parts : Parts F I D) (s : KernelState F D)

def sysProcstatFcfs : KernelState F D × ℤ :=
  ifFetched s
    (do
      let pid ← s.caller.argint 0
      let pstat ← s.caller.argptr 1 sizeofPstatFcfs
      pure (pid, pstat))
    fun (pid, pstat) => parts.procstat pid pstat

/-- The handlers of the FCFS kernel, which has no `custmpro`. -/
def handlerFcfs (junk : BitVec 32) : Syscall → KernelState F D × ℤ
  | .sysProcstat => parts.sysProcstatFcfs s
  | call => parts.handler junk s call

/-- Every function that gets a user pointer is replaced by one that checks it first. -/
def guarded (pstat : BitVec 32) (alarm : Call F D)
    (alarmInode : KernelState F D → KernelState F D × Option I) : Parts F I D :=
  { parts with
    procstat := fun pid p s =>
      if s.caller.IsBlock p pstat then parts.procstat pid p s else alarm s
    exec := fun path argv s =>
      if s.caller.IsString path ∧ argv.length < MAXARG ∧ ∀ arg ∈ argv, s.caller.IsString arg then
        parts.exec path argv s
      else alarm s
    pipe := fun fd s => if s.caller.IsBlock fd 8 then parts.pipe fd s else alarm s
    fileread := fun f p n s =>
      if s.caller.IsBlock p n then parts.fileread f p n s else alarm s
    filewrite := fun f p n s =>
      if s.caller.IsBlock p n then parts.filewrite f p n s else alarm s
    filestat := fun f p s =>
      if s.caller.IsBlock p sizeofStat then parts.filestat f p s else alarm s
    openFile := fun path omode s =>
      if s.caller.IsString path then parts.openFile path omode s else alarm s
    link := fun old new s =>
      if s.caller.IsString old ∧ s.caller.IsString new then parts.link old new s else alarm s
    unlink := fun path s => if s.caller.IsString path then parts.unlink path s else alarm s
    create := fun path type major minor s =>
      if s.caller.IsString path then parts.create path type major minor s else alarmInode s
    namei := fun path s =>
      if s.caller.IsString path then parts.namei path s else alarmInode s }

variable {parts s}

theorem ifFetched_congr {args : Option α} {go go' : α → Call F D}
    (h : ∀ a, args = some a → go a s = go' a s) : ifFetched s args go = ifFetched s args go' := by
  cases hargs : args with
  | none => rfl
  | some a => exact h a hargs

theorem ifFetchedInOp_congr {parts' : Parts F I D} {args : Caller F → Option α}
    {go go' : α → Call F D} (hbegin : parts'.beginOp s = parts.beginOp s)
    (hend : parts'.endOp = parts.endOp)
    (h : ∀ a, args (parts.beginOp s).caller = some a →
      go' a (parts.beginOp s) = go a (parts.beginOp s)) :
    parts'.ifFetchedInOp s args go' = parts.ifFetchedInOp s args go := by
  unfold ifFetchedInOp
  rw [hbegin, hend]
  dsimp only
  cases hargs : args (parts.beginOp s).caller with
  | none => rfl
  | some a => exact h a hargs

variable {pstat junk : BitVec 32} {alarm : Call F D}
variable {alarmInode : KernelState F D → KernelState F D × Option I}

/-- `read` and `write` fetch a file, a block, and its size. -/
theorem isBlock_of_fetched (hsz : s.caller.sz.toNat ≤ Vm.KERNBASE) {f : F} {p n : BitVec 32}
    (h : (do
      let (_, f) ← s.caller.argfd 0
      let n ← s.caller.argint 2
      let p ← s.caller.argptr 1 n
      pure (f, p, n)) = some (f, p, n)) : s.caller.IsBlock p n := by
  obtain ⟨fd, -, hrest⟩ := Option.bind_eq_some_iff.mp h
  obtain ⟨n', -, hrest⟩ := Option.bind_eq_some_iff.mp hrest
  obtain ⟨p', hp, heq⟩ := Option.bind_eq_some_iff.mp hrest
  obtain ⟨-, rfl, rfl⟩ : fd.2 = f ∧ p' = p ∧ n' = n := by simpa using Option.some.inj heq
  exact (Caller.argptr_isBlock hsz hp).2

/-- `fstat` and `procstat` fetch a block of a fixed size. -/
theorem isBlock_of_fetched_snd (hsz : s.caller.sz.toNat ≤ Vm.KERNBASE) {args : Option α}
    {size p : BitVec 32} {a : α}
    (h : (do
      let a ← args
      let p ← s.caller.argptr 1 size
      pure (a, p)) = some (a, p)) : s.caller.IsBlock p size := by
  obtain ⟨a', -, hrest⟩ := Option.bind_eq_some_iff.mp h
  obtain ⟨p', hp, heq⟩ := Option.bind_eq_some_iff.mp hrest
  obtain ⟨-, rfl⟩ := Prod.mk.inj (Option.some.inj heq)
  exact (Caller.argptr_isBlock hsz hp).2

/-- A path that is fetched first. -/
theorem isString_of_fetched {u : Caller F} {args : Option α} {path : BitVec 32} {a : α}
    (h : (do
      let path ← u.argstr 0
      let a ← args
      pure (path, a)) = some (path, a)) : u.IsString path := by
  obtain ⟨path', hpath, hrest⟩ := Option.bind_eq_some_iff.mp h
  obtain ⟨a', -, heq⟩ := Option.bind_eq_some_iff.mp hrest
  obtain ⟨rfl, -⟩ := Prod.mk.inj (Option.some.inj heq)
  exact (Caller.argstr_isString hpath).2

theorem guarded_handler_of_ne (hsz : s.caller.sz.toNat ≤ Vm.KERNBASE) {call : Syscall}
    (hcall : call ≠ .sysProcstat) :
    (parts.guarded pstat alarm alarmInode).handler junk s call = parts.handler junk s call := by
  cases call with
  | sysFork | sysExit | sysWait | sysKill | sysDup | sysGetpid | sysSbrk | sysSleep | sysUptime
  | sysClose | sysPs | sysCustmpro => rfl
  | sysPipe => exact ifFetched_congr fun fd hfd => if_pos (Caller.argptr_isBlock hsz hfd).2
  | sysRead =>
      refine ifFetched_congr ?_
      rintro ⟨f, p, n⟩ h
      exact if_pos (isBlock_of_fetched hsz h)
  | sysWrite =>
      refine ifFetched_congr ?_
      rintro ⟨f, p, n⟩ h
      exact if_pos (isBlock_of_fetched hsz h)
  | sysExec =>
      refine ifFetched_congr ?_
      rintro ⟨path, argv⟩ h
      refine if_pos ?_
      obtain ⟨path', hpath, hrest⟩ := Option.bind_eq_some_iff.mp h
      obtain ⟨uargv, -, hrest⟩ := Option.bind_eq_some_iff.mp hrest
      obtain ⟨argv', hargv, heq⟩ := Option.bind_eq_some_iff.mp hrest
      obtain ⟨rfl, rfl⟩ := Prod.mk.inj (Option.some.inj heq)
      obtain ⟨hvector, hlength⟩ := Caller.fetchargv_vectorAt hsz hargv
      exact ⟨(Caller.argstr_isString hpath).2, hlength, hvector.strings⟩
  | sysFstat =>
      refine ifFetched_congr ?_
      rintro ⟨f, p⟩ h
      refine if_pos ?_
      obtain ⟨fd, -, hrest⟩ := Option.bind_eq_some_iff.mp h
      obtain ⟨p', hp, heq⟩ := Option.bind_eq_some_iff.mp hrest
      obtain ⟨-, rfl⟩ : fd.2 = f ∧ p' = p := by simpa using Option.some.inj heq
      exact (Caller.argptr_isBlock hsz hp).2
  | sysOpen =>
      refine ifFetched_congr ?_
      rintro ⟨path, omode⟩ h
      exact if_pos (isString_of_fetched h)
  | sysUnlink => exact ifFetched_congr fun path h => if_pos (Caller.argstr_isString h).2
  | sysLink =>
      refine ifFetched_congr ?_
      rintro ⟨old, new⟩ h
      refine if_pos ⟨isString_of_fetched h, ?_⟩
      obtain ⟨old', -, hrest⟩ := Option.bind_eq_some_iff.mp h
      obtain ⟨new', hnew, heq⟩ := Option.bind_eq_some_iff.mp hrest
      obtain ⟨-, rfl⟩ := Prod.mk.inj (Option.some.inj heq)
      exact (Caller.argstr_isString hnew).2
  | sysChdir =>
      rw [handler, handler, sysChdir, sysChdir]
      refine ifFetchedInOp_congr rfl rfl fun path h => ?_
      have hpath := (Caller.argstr_isString h).2
      dsimp only [guarded]
      rw [if_pos hpath]
      rfl
  | sysMkdir =>
      rw [handler, handler, sysMkdir, sysMkdir]
      refine ifFetchedInOp_congr rfl rfl fun path h => ?_
      have hpath := (Caller.argstr_isString h).2
      dsimp only [guarded]
      rw [if_pos hpath]
      rfl
  | sysMknod =>
      rw [handler, handler, sysMknod, sysMknod]
      refine ifFetchedInOp_congr rfl rfl ?_
      rintro ⟨path, major, minor⟩ h
      have hpath : (parts.beginOp s).caller.IsString path := by
        obtain ⟨path', hpath, hrest⟩ := Option.bind_eq_some_iff.mp h
        obtain ⟨major', -, hrest⟩ := Option.bind_eq_some_iff.mp hrest
        obtain ⟨minor', -, heq⟩ := Option.bind_eq_some_iff.mp hrest
        obtain ⟨rfl, -⟩ := Prod.mk.inj (Option.some.inj heq)
        exact (Caller.argstr_isString hpath).2
      dsimp only [guarded]
      rw [if_pos hpath]
      rfl
  | sysProcstat => exact absurd rfl hcall

theorem guarded_handler (hsz : s.caller.sz.toNat ≤ Vm.KERNBASE) (call : Syscall) :
    (parts.guarded sizeofPstat alarm alarmInode).handler junk s call =
      parts.handler junk s call := by
  by_cases hcall : call = .sysProcstat
  · subst hcall
    exact ifFetched_congr fun (pid, p) h => if_pos (isBlock_of_fetched_snd hsz h)
  · exact guarded_handler_of_ne hsz hcall

theorem handlerFcfs_of_ne (parts : Parts F I D) {call : Syscall} (hcall : call ≠ .sysProcstat) :
    parts.handlerFcfs s junk call = parts.handler junk s call := by
  cases call with
  | sysProcstat => exact absurd rfl hcall
  | _ => rfl

theorem guarded_handlerFcfs (hsz : s.caller.sz.toNat ≤ Vm.KERNBASE) (call : Syscall) :
    (parts.guarded sizeofPstatFcfs alarm alarmInode).handlerFcfs s junk call =
      parts.handlerFcfs s junk call := by
  by_cases hcall : call = .sysProcstat
  · subst hcall
    exact ifFetched_congr fun (pid, p) h => if_pos (isBlock_of_fetched_snd hsz h)
  · rw [handlerFcfs_of_ne _ hcall, handlerFcfs_of_ne _ hcall]
    exact guarded_handler_of_ne hsz hcall

/-- What is fetched lies in the process, and so does what the handlers pass on: another check
makes no difference. -/
theorem user_pointers_confined (parts : Parts F I D) (alarm : Call F D)
    (alarmInode : KernelState F D → KernelState F D × Option I) (junk : BitVec 32)
    (s : KernelState F D) (hsz : s.caller.sz.toNat ≤ Vm.KERNBASE) :
    s.caller.FetchesConfined ∧ ∀ call,
      (parts.guarded sizeofPstat alarm alarmInode).handler junk s call =
          parts.handler junk s call ∧
        (parts.guarded sizeofPstatFcfs alarm alarmInode).handlerFcfs s junk call =
          parts.handlerFcfs s junk call :=
  ⟨Caller.fetches_confined hsz, fun call => ⟨guarded_handler hsz call,
    guarded_handlerFcfs hsz call⟩⟩

end Parts

/-! ## A pointer that is passed on -/

/-- A process of `sz` bytes with the word `word` as its first argument. -/
def callingWith (sz word : BitVec 32) : KernelState Unit Unit :=
  { atEnd with
    caller :=
      { sz := sz
        esp := 4096
        mem := fun addr => (word >>> (8 * (addr - 4100))).setWidth 8
        ofile := fun _ => none } }

/-- `pipe` with an array at address 100. -/
theorem user_pointers_confined_pipe : (callingWith 8192 100).caller.argptr 0 8 = some 100 ∧
    (callingWith 8192 100).caller.IsBlock 100 8 := by
  have hconfined := Parts.user_pointers_confined refusing (fun s => (s, -2)) (fun s => (s, none)) 5
    (callingWith 8192 100) (by decide)
  have hfetched : (callingWith 8192 100).caller.argptr 0 8 = some 100 := by decide
  exact ⟨hfetched, (hconfined.1.argptr 0 8 100 hfetched).2⟩

/-- A larger process could pass a pointer whose block wraps around. -/
example : (callingWith 0xFFFFF000 0xFFFFEFFF).caller.argptr 0 0x7FFFFFFF = some 0xFFFFEFFF := by
  decide

end Xv6
