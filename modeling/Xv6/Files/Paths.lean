import Xv6.Lib.Components
import Xv6.Files.Directory

/-!
# Path names

`namei` and `nameiparent`.  A path is the list of its bytes, without the NUL at the end, and
`cwd` is the entry of the inode cache for the current directory of the process.
-/

namespace Xv6.Files

open Faulting Components

variable {E : Fault → Kernel → Prop} {sb : Superblock} {devsw : Devsw} {s t : Kernel} {D : Disk}
variable {ip i n cwd : ℕ} {name name' : ℕ → Byte} {path rest : List Byte} {T : Set ℕ}

/-! ## The code -/

def slash : Byte := 47

/-- What is left of the path, and `name`, of which only some bytes are set. -/
def skipelem (path : List Byte) (name : ℕ → Byte) : Option (List Byte × (ℕ → Byte)) :=
  let s := path.dropWhile (· = slash)
  if s = [] then none
  else
    let len := (s.takeWhile (· ≠ slash)).length
    let name :=
      if DIRSIZ ≤ len then setBytes name 0 DIRSIZ fun i => s.getD i 0
      else Function.update (setBytes name 0 len fun i => s.getD i 0) len 0
    some ((s.dropWhile (· ≠ slash)).dropWhile (· = slash), name)

theorem length_skipelem (h : skipelem path name = some (rest, name')) :
    rest.length < path.length := by
  rw [skipelem] at h
  split at h
  · simp at h
  · rename_i hne
    simp only [Option.some.injEq, Prod.mk.injEq] at h
    obtain ⟨x, l, hl⟩ := List.exists_cons_of_ne_nil hne
    have hx : x ≠ slash := by
      have hhead := List.head?_dropWhile_not (· = slash) path
      rw [hl] at hhead
      simpa using hhead
    have hle : (path.dropWhile (· = slash)).length ≤ path.length :=
      (List.dropWhile_sublist _).length_le
    rw [← h.1, hl, List.dropWhile_cons_of_pos (by simpa using hx)]
    rw [hl, List.length_cons] at hle
    have hrest : ((l.dropWhile (· ≠ slash)).dropWhile (· = slash)).length ≤ l.length :=
      ((List.dropWhile_sublist _).trans (List.dropWhile_sublist _)).length_le
    omega

/-- The loop of `namex`, which holds a reference to `ip`. -/
def namexFrom (sb : Superblock) (devsw : Devsw) (nameiparent : Bool) (ip : ℕ) (path : List Byte)
    (name : ℕ → Byte) : Fs (Option ℕ × (ℕ → Byte)) := do
  match _h : skipelem path name with
  | some (path, name) =>
      ilock ip
      if (← getinode ip).type ≠ T_DIR then
        iunlockput ip
        pure (none, name)
      else if nameiparent ∧ path = [] then
        -- stop one level early
        iunlock ip
        pure (some ip, name)
      else
        match ← dirlookup sb devsw ip name with
        | none =>
            iunlockput ip
            pure (none, name)
        | some (next, _) =>
            iunlockput ip
            namexFrom sb devsw nameiparent next path name
  | none =>
      if nameiparent then
        iput ip
        pure (none, name)
      else pure (some ip, name)
termination_by path.length
decreasing_by exact length_skipelem _h

def namex (sb : Superblock) (devsw : Devsw) (cwd : ℕ) (path : List Byte) (nameiparent : Bool)
    (name : ℕ → Byte) : Fs (Option ℕ × (ℕ → Byte)) := do
  let ip ← if path.head? = some slash then iget ROOTDEV ROOTINO else idup cwd
  namexFrom sb devsw nameiparent ip path name

/-- The array `name` of the function is not initialized. -/
def namei (sb : Superblock) (devsw : Devsw) (cwd : ℕ) (path : List Byte) (name : ℕ → Byte) :
    Fs (Option ℕ) := do
  let (ip, _) ← namex sb devsw cwd path false name
  pure ip

def nameiparent (sb : Superblock) (devsw : Devsw) (cwd : ℕ) (path : List Byte)
    (name : ℕ → Byte) : Fs (Option ℕ × (ℕ → Byte)) :=
  namex sb devsw cwd path true name

/-! ## One element of a path -/

/-- A name that ends where the list does. -/
theorem bytesUpTo_eq {l : List Byte} (hlen : l.length ≤ n) (hzero : 0 ∉ l)
    (hbytes : ∀ i < l.length, name i = l.getD i 0) (hend : l.length = n ∨ name l.length = 0) :
    bytesUpTo n name = l := by
  induction l generalizing n name with
  | nil =>
      cases n with
      | zero => rfl
      | succ n =>
          have hfirst : name 0 = 0 := by simpa using hend
          rw [bytesUpTo_succ, if_neg (by simpa using hfirst)]
  | cons x l ih =>
      cases n with
      | zero => simp at hlen
      | succ n =>
          have hx : x ≠ 0 := fun hx => hzero (hx ▸ List.mem_cons_self)
          have hfirst : name 0 = x := hbytes 0 (Nat.succ_pos _)
          rw [bytesUpTo_succ, hfirst, if_pos hx]
          congr 1
          refine ih (Nat.le_of_succ_le_succ hlen) (fun hmem => hzero (List.mem_cons_of_mem x hmem))
            (fun i hi => hbytes (i + 1) (Nat.succ_lt_succ hi)) ?_
          rw [List.length_cons, Nat.add_right_cancel_iff] at hend
          exact hend

/-- `c` has been put into `name`, which is `name'` then: its first bytes, and a NUL if there is
room.  Nothing is written beyond `DIRSIZ` bytes. -/
structure Stored (name name' : ℕ → Byte) (c : List Byte) : Prop where
  byte : ∀ i < min c.length DIRSIZ, name' i = c.getD i 0
  ends : c.length < DIRSIZ → name' c.length = 0
  beyond : ∀ i, DIRSIZ ≤ i → name' i = name i

theorem stored_setBytes {c l : List Byte} (hstart : c <+: l) :
    Stored name (if DIRSIZ ≤ c.length then setBytes name 0 DIRSIZ fun i => l.getD i 0
      else Function.update (setBytes name 0 c.length fun i => l.getD i 0) c.length 0) c := by
  have hget : ∀ i < c.length, c.getD i 0 = l.getD i 0 := by
    intro i hi
    obtain ⟨l', rfl⟩ := hstart
    rw [List.getD_eq_getElem?_getD, List.getD_eq_getElem?_getD, List.getElem?_append_left hi]
  by_cases hlong : DIRSIZ ≤ c.length
  · rw [if_pos hlong]
    refine ⟨fun i hi => ?_, fun h => absurd h (by omega), fun i hi => ?_⟩
    · rw [setBytes, if_pos (by omega), Nat.sub_zero, hget i (by omega)]
    · rw [setBytes, if_neg (by omega)]
  · rw [if_neg hlong]
    refine ⟨fun i hi => ?_, fun _ => Function.update_self .., fun i hi => ?_⟩
    · rw [Function.update_of_ne (by omega), setBytes, if_pos (by omega), Nat.sub_zero,
        hget i (by omega)]
    · rw [Function.update_of_ne (by omega), setBytes, if_neg (by omega)]

/-- The name that is compared with those in directories. -/
theorem Stored.key {c : List Byte} (h : Stored name name' c) (hzero : 0 ∉ c) :
    key name' = c.take DIRSIZ := by
  have hlen : (c.take DIRSIZ).length = min DIRSIZ c.length := List.length_take
  refine bytesUpTo_eq (by omega) (fun hmem => hzero (List.mem_of_mem_take hmem))
    (fun i hi => ?_) ?_
  · rw [h.byte i (by omega), List.getD_eq_getElem?_getD, List.getD_eq_getElem?_getD,
      List.getElem?_take_of_lt (by omega)]
  · by_cases hlong : DIRSIZ ≤ c.length
    · exact Or.inl (by omega)
    · right
      rw [List.take_of_length_le (by omega)]
      exact h.ends (by omega)

theorem skipelem_eq_none : skipelem path name = none ↔ components slash path = [] := by
  rw [skipelem, ← dropWhile_eq_nil_iff]
  dsimp only
  split <;> simp [*]

/-- The first component is put into `name`. -/
theorem skipelem_eq_some (h : skipelem path name = some (rest, name')) :
    rest <:+ path ∧ (rest = [] ↔ components slash rest = []) ∧
      ∃ c, c <:+: path ∧ components slash path = c :: components slash rest ∧
        Stored name name' c := by
  rw [skipelem] at h
  dsimp only at h
  split at h
  · simp at h
  rename_i hne
  simp only [Option.some.injEq, Prod.mk.injEq] at h
  obtain ⟨rfl, rfl⟩ := h
  have hsuffix : path.dropWhile (· = slash) <:+ path := List.dropWhile_suffix _
  have hhead : ∀ x ∈ (path.dropWhile (· = slash)).head?, x ≠ slash := fun x hx => by
    have hnot := List.head?_dropWhile_not (· = slash) path
    rw [Option.mem_def.mp hx] at hnot
    simpa using hnot
  have hparts := components_of_skip hne hhead
  rw [components_dropWhile] at hparts
  generalize path.dropWhile (· = slash) = s at *
  refine ⟨((List.dropWhile_suffix _).trans (List.dropWhile_suffix _)).trans hsuffix, ?_,
    s.takeWhile (· ≠ slash), ?_, hparts, stored_setBytes (List.takeWhile_prefix _)⟩
  · rw [components_dropWhile, ← dropWhile_eq_nil_iff]
  · exact (List.takeWhile_prefix _).isInfix.trans hsuffix.isInfix

/-- `skipelem` is applied again and again: the arrays that `name` has been. -/
def splitPath (path : List Byte) (name : ℕ → Byte) : List (ℕ → Byte) :=
  match _h : skipelem path name with
  | some (path, name) => name :: splitPath path name
  | none => []
termination_by path.length
decreasing_by exact length_skipelem _h

theorem splitPath_stored (path : List Byte) (name : ℕ → Byte) :
    List.Forall₂ (fun name' c => ∃ name, Stored name name' c) (splitPath path name)
      (components slash path) := by
  induction hn : path.length using Nat.strong_induction_on generalizing path name with
  | _ n ih =>
      rw [splitPath]
      split
      · rename_i rest name' helem
        obtain ⟨-, -, c, -, hcs, hstored⟩ := skipelem_eq_some helem
        rw [hcs]
        exact List.Forall₂.cons ⟨name, hstored⟩
          (ih _ (hn ▸ length_skipelem helem) rest name' rfl)
      · rename_i helem
        rw [skipelem_eq_none.mp helem]
        exact List.Forall₂.nil

/-- `skipelem` splits a path into its components.  Each is stored as far as it fits, and nothing
is written beyond `DIRSIZ` bytes.  What is returned is 0 if there is no component, and the end of
the path after the last one. -/
theorem skipelem_splits (path : List Byte) (name : ℕ → Byte) :
    List.Forall₂ (fun name' c => ∃ name, Stored name name' c) (splitPath path name)
        (components slash path) ∧
      (skipelem path name = none ↔ components slash path = []) ∧
      ∀ rest name', skipelem path name = some (rest, name') →
        rest <:+ path ∧ (rest = [] ↔ (components slash path).length = 1) ∧
          ∃ c, components slash path = c :: components slash rest ∧ Stored name name' c := by
  refine ⟨splitPath_stored path name, skipelem_eq_none, fun rest name' helem => ?_⟩
  obtain ⟨hsuffix, hlast, c, -, hcs, hstored⟩ := skipelem_eq_some helem
  refine ⟨hsuffix, ?_, c, hcs, hstored⟩
  rw [hlast, hcs, List.length_cons, Nat.add_eq_right, List.length_eq_zero_iff]

/-! ## What a path stands for -/

/-- What a component leads to.  Only a directory leads anywhere. -/
def Disk.child (D : Disk) (i : ℕ) (c : List Byte) : Option ℕ :=
  if (D.dinode i).type = T_DIR then D.lookup i (c.take DIRSIZ) else none

/-- The components are looked up one after another, from inode `i` on. -/
def Disk.resolve (D : Disk) (i : ℕ) (cs : List (List Byte)) : Option ℕ := cs.foldlM D.child i

/-- The directory in which the last component is to be looked up. -/
def Disk.resolveParent (D : Disk) (i : ℕ) (cs : List (List Byte)) : Option ℕ :=
  if cs = [] then none
  else (D.resolve i cs.dropLast).filter fun d => decide ((D.dinode d).type = T_DIR)

/-- What `namex` looks for. -/
def Disk.target (D : Disk) (parent : Bool) (i : ℕ) (cs : List (List Byte)) : Option ℕ :=
  if parent then D.resolveParent i cs else D.resolve i cs

variable {parent : Bool} {c : List Byte} {cs : List (List Byte)}

@[simp] theorem resolve_nil : D.resolve i [] = some i := rfl

/-- `T` has the inodes that can be reached by looking up names.  They are allocated, and those
without links are in use. -/
structure Tree (s : Kernel) (T : Set ℕ) : Prop where
  cache : CacheOk none s
  type : ∀ i ∈ T, (s.disk.dinode i).type ≠ 0
  dir : ∀ i ∈ T, (s.disk.dinode i).type = T_DIR → s.disk.Dir i
  closed : ∀ i ∈ T, (s.disk.dinode i).type = T_DIR →
    ∀ name n, s.disk.lookup i name = some n → n ∈ T
  link : ∀ i ∈ T, (s.disk.dinode i).nlink = 0 →
    ∃ j < NINODE, 0 < (s.icache j).ref ∧ (s.icache j).inum = i

/-- The cache had at most one entry that was not in use. -/
def CacheFull (s : Kernel) (e : Fault) (_ : Kernel) : Prop :=
  e = .panic "iget: no inodes" ∧
    ∀ i < NINODE, ∀ j < NINODE, (s.icache i).ref = 0 → (s.icache j).ref = 0 → i = j

/-- A reference to what has been found. -/
def refs : Option ℕ → ℕ → ℤ
  | none => 0
  | some ip => Pi.single ip 1

/-- Entries that are in use in `t` stand for the same inodes in `u`. -/
def SameInums (t u : Kernel) : Prop :=
  ∀ j, 0 < (t.icache j).ref → (u.icache j).inum = (t.icache j).inum

variable {u : Kernel} {extra : ℕ → ℤ} {held : Option ℕ} {Q : PUnit → Kernel → Prop}

namespace Tree

/-- The reference that is given back is not the last one, or the inode has links. -/
theorem meets_iput (tree : Tree s T) (ht : Moved (Pi.single ip 1 + extra) none s t)
    (hextra : ∀ j, 0 ≤ extra j) (hip : ip < NINODE) (hmem : (t.icache ip).inum ∈ T)
    (hQ : ∀ u, Moved extra none s u → SameInums t u → Q ⟨⟩ u) : Meets E (iput ip) Q t := by
  have hsum : ∀ j, 0 ≤ (Pi.single ip 1 + extra : ℕ → ℤ) j := fun j =>
    add_nonneg (single_nonneg ip j) (hextra j)
  have hown : (t.icache ip).ref = (s.icache ip).ref + (1 + extra ip) := by
    rw [ht.ref, Pi.add_apply, Pi.single_eq_same]
  have hbefore := tree.cache.ref ip hip
  have hmore := hextra ip
  refine ht.cache.meets_iput hip (by omega) (fun hvalid hnlink hone => ?_) (fun heq => ?_)
    fun _ u hu => ?_
  · have hcopy := ht.cache.copy ip hip (by omega) hvalid
    have hzero : (s.disk.dinode (t.icache ip).inum).nlink = 0 := by
      rw [← ht.disk, ← hcopy]
      exact hnlink
    obtain ⟨j, hj, hpos, hinum⟩ := tree.link _ hmem hzero
    have hused : 0 < (t.icache j).ref := by
      have hj := hsum j
      rw [ht.ref]
      omega
    have hsame : j = ip := ht.cache.inj j hj ip hip hused (by omega) (by rw [ht.inum j hpos, hinum])
    subst hsame
    omega
  · simp at heq
  · have hall := ht.trans hu hsum
    have hcancel : Pi.single ip 1 + extra + Pi.single ip (-1) = extra := by
      funext j
      rw [Pi.add_apply, Pi.add_apply]
      by_cases hj : j = ip
      · rw [hj, Pi.single_eq_same, Pi.single_eq_same]
        omega
      · rw [Pi.single_eq_of_ne hj, Pi.single_eq_of_ne hj]
        omega
    rw [hcancel] at hall
    exact hQ u hall hu.inum

theorem meets_iunlock (tree : Tree s T) (ht : Moved (Pi.single ip 1 + extra) (some ip) s t)
    (hextra : ∀ j, 0 ≤ extra j) (hip : ip < NINODE)
    (hQ : ∀ u, Moved (Pi.single ip 1 + extra) none s u → SameInums t u → Q ⟨⟩ u) :
    Meets E (iunlock ip) Q t := by
  have hown : (t.icache ip).ref = (s.icache ip).ref + (1 + extra ip) := by
    rw [ht.ref, Pi.add_apply, Pi.single_eq_same]
  have hbefore := tree.cache.ref ip hip
  have hmore := hextra ip
  refine ht.cache.meets_iunlock hip (by omega) fun u hu => ?_
  have hall := ht.trans hu fun j => add_nonneg (single_nonneg ip j) (hextra j)
  rw [add_zero] at hall
  exact hQ u hall hu.inum

/-- A lookup takes a reference to what it finds.  There has been room for another entry. -/
theorem meets_dirlookup (tree : Tree s T) (ht : Moved (Pi.single ip 1) (some ip) s t)
    (hip : ip < NINODE) (hmem : (t.icache ip).inum ∈ T) (hcoherent : t.Coherent ip)
    (hdir : (s.disk.dinode (t.icache ip).inum).type = T_DIR)
    {Q : Option (ℕ × ℕ) → Kernel → Prop}
    (hnone : s.disk.lookup (t.icache ip).inum (key name) = none → Q none t)
    (hsome : ∀ n, s.disk.lookup (t.icache ip).inum (key name) = some n → ∀ next < NINODE, ∀ off u,
      Moved (Pi.single ip 1 + Pi.single next 1) (some ip) s u → SameInums t u →
      (u.icache next).inum = n → Q (some (next, off)) u) :
    Meets (CacheFull s) (dirlookup sb devsw ip name) Q t := by
  have hpos : 0 < (t.icache ip).ref := by
    have hbefore := tree.cache.ref ip hip
    rw [ht.ref, Pi.single_eq_same]
    omega
  have hisDir : t.IsDir ip := ⟨hcoherent, ht.disk ▸ tree.dir _ hmem hdir⟩
  refine hisDir.meets_dirlookup (fun h => hnone (ht.disk ▸ h)) fun n h => ?_
  rw [ht.disk] at h
  rw [ht.cache.dev ip hip hpos]
  refine ht.cache.meets_iget (fun hfull => ⟨rfl, ?_⟩) fun next hnext u hu _ _ hinum =>
    hsome n h next hnext _ u (ht.trans hu (single_nonneg ip)) hu.inum hinum
  -- an entry that was not in use then is the one that holds `ip`
  have hheld : ∀ j < NINODE, (s.icache j).ref = 0 → j = ip := by
    intro j hj hfree
    by_contra hne
    refine (hfull j hj).1 ?_
    rw [ht.ref, hfree, Pi.single_eq_of_ne hne, add_zero]
  exact fun i hi j hj hifree hjfree => (hheld i hi hifree).trans (hheld j hj hjfree).symm

end Tree

/-! ## The loop -/

/-- The inode where a path starts. -/
def Kernel.start (s : Kernel) (cwd : ℕ) (path : List Byte) : ℕ :=
  if path.head? = some slash then ROOTINO else (s.icache cwd).inum

/-- A process runs in a directory tree, and its current directory is in the tree. -/
structure Cwd (s : Kernel) (T : Set ℕ) (cwd : ℕ) : Prop where
  tree : Tree s T
  root : ROOTINO ∈ T
  lt : cwd < NINODE
  ref : 0 < (s.icache cwd).ref
  inum : (s.icache cwd).inum ∈ T

theorem Cwd.start_mem (h : Cwd s T cwd) : s.start cwd path ∈ T := by
  rw [Kernel.start]
  split
  · exact h.root
  · exact h.inum

end Xv6.Files
