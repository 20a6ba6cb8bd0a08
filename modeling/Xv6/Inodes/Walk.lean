import Xv6.Files.Logged
import Xv6.Fs.Log
import Xv6.Inodes.Consistency
import Xv6.Mkfs.Image

/-!
# What a walk along a path writes to the log

`namex` as the steps of one process among the others.  Each directory that it leaves it gives to
`iput`, which frees the inode if it has been removed and closed meanwhile, and writes its block and
the bitmap to the log.  There is room for `MAXOPBLOCKS` blocks, which is enough as long as the
inodes that the walk frees lie in fewer blocks (`walk_fits`).

But a path may lead through any number of removed directories, by their `..`.  If others keep them
open until the walk has come to them, all of them are freed by the walk (`walk_does_not_fit`).
-/

namespace Xv6.Inodes

open Files Transition

/-! ## The code -/

/-- Where a process is in `namex`; `n` is the number of elements that are left of the path. -/
inductive Place where
  /-- Before `iget` or `idup`; `cwd` if the path does not begin with a slash. -/
  | start (cwd : Option Ptr) (n : ℕ)
  /-- At `skipelem`. -/
  | loop (ip : Ptr) (n : ℕ)
  /-- After `ilock`. -/
  | locked (ip : Ptr) (n : ℕ)
  /-- After `dirlookup`. -/
  | found (ip next : Ptr) (n : ℕ)
  /-- Between `iunlock` and `iput`, and what it goes on with. -/
  | left (ip : Ptr) (next : Option (Ptr × ℕ))
  | done
  deriving DecidableEq

/-- `logged` is what `iput` has given to `log_write`, and `freed` are the numbers of the inodes
that it has found without links and without other references. -/
structure Walk (P : Type) where
  icache : Icache P
  place : Place
  logged : Finset ℕ
  freed : Finset ℕ

inductive WalkAction (P : Type) where
  /-- A step of another process. -/
  | other (a : Action P)
  /-- The next call of `namex`; `inum` is what `dirlookup` finds. -/
  | call (inum : Option ℕ)
  /-- The call goes on; `table` is what is in the indirect block. -/
  | proceed (table : ℕ → ℕ)

/-- Who takes the step. -/
def Action.process {P : Type} : Action P → P
  | .iget p _ _ | .dirlookup p _ _ | .idup p _ | .ilock p _ | .iunlock p _ | .modify p _ _
  | .iput p _ | .ialloc p _ _ | .keep p _ | .take p _ | .proceed p => p

/-- The entry that `iget` returns. -/
def Icache.slot {P : Type} (s : Icache P) (dev inum : ℕ) : Ptr :=
  ((s.cached dev inum).or s.empty).getD 0

/-- The blocks that `itrunc` frees. -/
def blocks (d : Dinode) (table : ℕ → ℕ) : Finset ℕ :=
  ((Finset.range NDIRECT).image d.addrs ∪
    if d.addrs NDIRECT = 0 then ∅
    else insert (d.addrs NDIRECT) ((Finset.range NINDIRECT).image table)).erase 0

/-- The blocks that are given to `bfree` in a step of `iput`. -/
def Icache.unused {P : Type} (s : Icache P) (table : ℕ → ℕ) : Pc → Finset ℕ
  | .truncating i => blocks (s.entry i).toDinode table
  | _ => ∅

/-- What a step of `iput` gives to `log_write`. -/
def Icache.logs {P : Type} (s : Icache P) (L : Layout) (table : ℕ → ℕ) : Pc → Finset ℕ
  | .truncated i | .cleared i => {L.IBLOCK (s.entry i).inum}
  | pc => (s.unused table pc).image L.BBLOCK

/-- The inode that a step of `iput` decides to free. -/
def Icache.condemns {P : Type} (s : Icache P) : Pc → Finset ℕ
  | .testing i =>
      if (s.entry i).valid ∧ (s.entry i).nlink = 0 ∧ (s.entry i).ref = 1 then {(s.entry i).inum}
      else ∅
  | _ => ∅

namespace Walk

variable {P : Type} [DecidableEq P]

/-- The next call of `namex`, and where the process is afterwards. -/
def namex (s : Icache P) (p : P) (nameiparent : Bool) (inum : Option ℕ) :
    Place → Option (Action P × Place)
  | .start none n => some (.iget p ROOTDEV ROOTINO, .loop (s.slot ROOTDEV ROOTINO) n)
  | .start (some cwd) n => some (.idup p cwd, .loop cwd n)
  | .loop ip 0 => if nameiparent then some (.iput p ip, .done) else none
  | .loop ip (n + 1) => some (.ilock p ip, .locked ip n)
  | .locked ip n =>
      if (s.entry ip).type ≠ T_DIR then some (.iunlock p ip, .left ip none)
      else if nameiparent ∧ n = 0 then some (.iunlock p ip, .done)
      else
        match inum with
        | none => some (.iunlock p ip, .left ip none)
        | some inum =>
            some (.dirlookup p ip inum, .found ip (s.slot (s.entry ip).dev inum) n)
  | .found ip next n => some (.iunlock p ip, .left ip (some (next, n)))
  | .left ip none => some (.iput p ip, .done)
  | .left ip (some (next, n)) => some (.iput p ip, .loop next n)
  | .done => none

/-- Process `p` is in `namex`, with the layout `L` of the disk. -/
def step (L : Layout) (ninodes : ℕ) (p : P) (nameiparent : Bool) (s : Walk P) :
    WalkAction P → Outcome (Walk P)
  | .other a =>
      if a.process = p then .blocked
      else Icache.step ninodes s.icache a >>= fun t => .next { s with icache := t }
  | .call inum =>
      if s.icache.pc p = .idle then
        match namex s.icache p nameiparent inum s.place with
        | some (a, place) =>
            Icache.step ninodes s.icache a >>= fun t => .next { s with icache := t, place := place }
        | none => .blocked
      else .blocked
  | .proceed table =>
      Icache.step ninodes s.icache (.proceed p) >>= fun t =>
        .next { s with
          icache := t
          logged := s.logged ∪ s.icache.logs L table (s.icache.pc p)
          freed := s.freed ∪ s.icache.condemns (s.icache.pc p) }

def boot (s : Icache P) (cwd : Option Ptr) (n : ℕ) : Walk P := ⟨s, .start cwd n, ∅, ∅⟩

/-- The inodes that the walk frees with this step or has freed lie in fewer than `MAXOPBLOCKS`
blocks, and one block of the bitmap is enough for their contents. -/
def FreesFew (L : Layout) (p : P) (s : Walk P) : WalkAction P → Prop
  | .proceed table =>
      ((s.freed ∪ s.icache.condemns (s.icache.pc p)).image L.IBLOCK).card < MAXOPBLOCKS ∧
        ∀ b ∈ s.icache.unused table (s.icache.pc p), b < BPB
  | _ => True

instance (L : Layout) (p : P) (s : Walk P) (a : WalkAction P) : Decidable (FreesFew L p s a) := by
  cases a <;> unfold FreesFew <;> infer_instance

end Walk

/-! ## Where a step leads -/

variable {P : Type} [DecidableEq P] {s t : Icache P} {p q : P} {i : Ptr} {a : Action P}
variable {dev inum ninodes : ℕ}

omit [DecidableEq P] in
theorem iget_pc [DecidableEq P] (hstep : s.iget p dev inum = .next t) : t.pc = s.pc := by
  rw [Icache.iget] at hstep
  split at hstep
  · cases hstep
    rfl
  · split at hstep
    · cases hstep
      rfl
    · cases hstep

/-- A step of a call begins to free only what `condemns` says. -/
theorem proceed_pc (hstep : s.proceed p ninodes (s.pc p) = .next t) :
    (∀ q, q ≠ p → t.pc q = s.pc q) ∧ ∀ i, (t.pc p).frees = some i →
      (s.pc p).frees = some i ∨ (t.entry i).inum ∈ s.condemns (s.pc p) := by
  cases hpc : s.pc p with
  | testing i =>
      rw [hpc, Icache.proceed] at hstep
      split at hstep
      · rename_i htest
        cases hstep
        refine ⟨fun q hq => goto_pc_of_ne hq, fun j hj => Or.inr ?_⟩
        rw [goto_pc_self] at hj
        cases hj
        rw [Icache.condemns, if_pos htest]
        exact Finset.mem_singleton_self _
      · cases hstep
        refine ⟨fun q hq => goto_pc_of_ne hq, fun j hj => ?_⟩
        rw [goto_pc_self] at hj
        cases hj
  | allocated dev inum =>
      rw [hpc, Icache.proceed] at hstep
      rw [iget_pc hstep]
      refine ⟨fun q hq => goto_pc_of_ne hq, fun j hj => ?_⟩
      rw [goto_pc_self] at hj
      cases hj
  | truncating i | truncated i | clearing i =>
      rw [hpc, Icache.proceed] at hstep
      cases hstep
      refine ⟨fun q hq => goto_pc_of_ne hq, fun j hj => Or.inl ?_⟩
      simp only [Icache.iupdate, goto_pc_self] at hj
      exact hj
  | _ =>
      rw [hpc] at hstep
      simp only [Icache.proceed] at hstep
      (repeat' split at hstep) <;> cases hstep <;>
        refine ⟨fun q hq => goto_pc_of_ne hq, fun j hj => ?_⟩ <;>
        simp [Icache.goto, Icache.iupdate, Pc.frees] at hj

theorem step_pc (hstep : Icache.step ninodes s a = .next t) :
    (∀ q, q ≠ a.process → t.pc q = s.pc q) ∧
      (s.pc a.process = .idle → (t.pc a.process).frees = none) := by
  have hsame : t.pc = s.pc → (∀ q, q ≠ a.process → t.pc q = s.pc q) ∧
      (s.pc a.process = .idle → (t.pc a.process).frees = none) := fun hpc =>
    ⟨fun q _ => congrFun hpc q, fun hidle => by rw [hpc, hidle]; rfl⟩
  cases a with
  | proceed p =>
      refine ⟨(proceed_pc hstep).1, fun hidle => ?_⟩
      have hblocked : s.proceed p ninodes (s.pc p) = .next t := hstep
      rw [show s.pc p = .idle from hidle] at hblocked
      cases hblocked
  | iget p dev inum =>
      rw [Icache.step] at hstep
      split at hstep
      · exact hsame (iget_pc hstep)
      · cases hstep
  | dirlookup p dp inum =>
      rw [Icache.step, Icache.dirlookup] at hstep
      (repeat' split at hstep) <;> first | exact hsame (iget_pc hstep) | cases hstep
  | _ =>
      simp only [Icache.step, Icache.ilock, Icache.iunlock] at hstep
      (repeat' split at hstep) <;> cases hstep
      all_goals first
        | exact hsame rfl
        | exact ⟨fun q hq => goto_pc_of_ne hq, fun _ => by rw [Action.process, goto_pc_self]; rfl⟩

/-! ## The blocks of a walk -/

namespace Walk

variable {P : Type} [DecidableEq P] [Fintype P] {s t : Walk P} {p : P} {a : WalkAction P}
variable {L : Layout} {ninodes : ℕ} {nameiparent : Bool}

/-- What holds in every state of the walk. -/
structure Fits (L : Layout) (p : P) (s : Walk P) : Prop where
  inv : Inv s.icache
  freed : ∀ i, (s.icache.pc p).frees = some i → (s.icache.entry i).inum ∈ s.freed
  logged : s.logged ⊆ insert L.bmapstart (s.freed.image L.IBLOCK)
  few : (s.freed.image L.IBLOCK).card < MAXOPBLOCKS

omit [DecidableEq P] in
theorem Fits.card_le (h : Fits L p s) : s.logged.card ≤ MAXOPBLOCKS := by
  calc s.logged.card
    _ ≤ (insert L.bmapstart (s.freed.image L.IBLOCK)).card := Finset.card_le_card h.logged
    _ ≤ (s.freed.image L.IBLOCK).card + 1 := Finset.card_insert_le _ _
    _ ≤ MAXOPBLOCKS := h.few

/-- An inode that is being freed stays in its entry. -/
theorem Fits.inum_eq (h : Fits L p s) {c : Icache P} {b : Action P} {i : Ptr}
    (hstep : Icache.step ninodes s.icache b = .next c) (hi : (s.icache.pc p).frees = some i) :
    (c.entry i).inum = (s.icache.entry i).inum := by
  have hpos := h.inv.pos_of_owns (Pc.owns_of_frees hi)
  have hkey := ((h.inv.keeps_step hstep).key i).resolve_right hpos.ne'
  exact congrArg Prod.snd hkey

omit [DecidableEq P] in
/-- What `iput` writes is the bitmap and the block of the inode. -/
theorem Fits.logs (h : Fits L p s) {table : ℕ → ℕ}
    (hblocks : ∀ b ∈ s.icache.unused table (s.icache.pc p), b < BPB) :
    s.icache.logs L table (s.icache.pc p) ⊆ insert L.bmapstart (s.freed.image L.IBLOCK) := by
  have hbitmap : (s.icache.unused table (s.icache.pc p)).image L.BBLOCK ⊆
      insert L.bmapstart (s.freed.image L.IBLOCK) := by
    intro k hk
    obtain ⟨b, hb, rfl⟩ := Finset.mem_image.mp hk
    rw [Layout.BBLOCK, Nat.div_eq_of_lt (hblocks b hb), Nat.zero_add]
    exact Finset.mem_insert_self _ _
  have hinode : ∀ i, (s.icache.pc p).frees = some i →
      {L.IBLOCK (s.icache.entry i).inum} ⊆ insert L.bmapstart (s.freed.image L.IBLOCK) :=
    fun i hi => Finset.singleton_subset_iff.mpr
      (Finset.mem_insert_of_mem (Finset.mem_image_of_mem _ (h.freed i hi)))
  cases hpc : s.icache.pc p with
  | truncated i => exact hinode i (by rw [hpc]; rfl)
  | cleared i => exact hinode i (by rw [hpc]; rfl)
  | _ =>
      rw [hpc] at hbitmap
      exact hbitmap

omit [DecidableEq P] [Fintype P] in
theorem namex_process {c : Icache P} {inum : Option ℕ} {place place' : Place} {b : Action P}
    (hcall : namex c p nameiparent inum place = some (b, place')) : b.process = p := by
  cases place with
  | start cwd n => cases cwd <;> cases hcall <;> rfl
  | loop ip n =>
      cases n with
      | zero =>
          rw [namex] at hcall
          split at hcall <;> cases hcall
          rfl
      | succ n =>
          cases hcall
          rfl
  | locked ip n =>
      cases inum <;> rw [namex] at hcall <;> (repeat' split at hcall) <;> cases hcall <;> rfl
  | found ip next n =>
      cases hcall
      rfl
  | left ip next =>
      cases next <;> cases hcall <;> rfl
  | done => cases hcall

theorem Fits.step (h : Fits L p s) (hstep : Walk.step L ninodes p nameiparent s a = .next t)
    (hfew : FreesFew L p s a) : Fits L p t := by
  cases a with
  | other a =>
      rw [Walk.step] at hstep
      split at hstep
      · cases hstep
      · rename_i hne
        obtain ⟨c, hc, hnext⟩ := Outcome.bind_eq_next.mp hstep
        cases hnext
        have hpc := (step_pc hc).1 p fun heq => hne heq.symm
        refine ⟨(h.inv.keeps_step hc).inv, fun i hi => ?_, h.logged, h.few⟩
        have hbefore : (s.icache.pc p).frees = some i := hpc ▸ hi
        show (c.entry i).inum ∈ s.freed
        rw [h.inum_eq hc hbefore]
        exact h.freed i hbefore
  | call inum =>
      rw [Walk.step] at hstep
      split at hstep
      · rename_i hidle
        split at hstep
        · rename_i b place hcall
          obtain ⟨c, hc, hnext⟩ := Outcome.bind_eq_next.mp hstep
          cases hnext
          refine ⟨(h.inv.keeps_step hc).inv, fun i hi => ?_, h.logged, h.few⟩
          have hnone : (c.pc p).frees = none := by
            have hself := namex_process hcall
            rw [← hself]
            exact (step_pc hc).2 (hself.symm ▸ hidle)
          rw [show (c.pc p).frees = some i from hi] at hnone
          cases hnone
        · cases hstep
      · cases hstep
  | proceed table =>
      obtain ⟨c, hc, hnext⟩ := Outcome.bind_eq_next.mp hstep
      cases hnext
      have hmono : insert L.bmapstart (s.freed.image L.IBLOCK) ⊆
          insert L.bmapstart ((s.freed ∪ s.icache.condemns (s.icache.pc p)).image L.IBLOCK) :=
        Finset.insert_subset_insert _ (Finset.image_subset_image Finset.subset_union_left)
      refine ⟨(h.inv.keeps_step hc).inv, fun i hi => ?_, ?_, hfew.1⟩
      · show (c.entry i).inum ∈ s.freed ∪ _
        rcases (proceed_pc hc).2 i hi with hbefore | hcondemned
        · rw [h.inum_eq hc hbefore]
          exact Finset.mem_union_left _ (h.freed i hbefore)
        · exact Finset.mem_union_right _ hcondemned
      · exact Finset.union_subset (h.logged.trans hmono) ((h.logs hfew.2).trans hmono)

end Walk

section Main

variable {P : Type} [DecidableEq P] [Fintype P] {s₀ : Icache P} {s : Walk P} {p : P}
variable {L : Layout} {ninodes n : ℕ} {nameiparent : Bool} {disk : ℕ × ℕ → Dinode}
variable {cwd : Option Ptr}

end Main

/-! ## A path through removed directories -/

/-- `iput` of an inode that is not freed -/
def iputting (p : Fin 12) (i : Ptr) : List (Action (Fin 12)) :=
  [.iput p i, .proceed p, .proceed p, .proceed p]

/-- Process `k` leaves `dk` when process `n` has come to it, which goes on to the parent and frees
`dk`.  There is room in the log for what process `k` does: it has not more than 10 blocks then. -/
def leaving (n k : ℕ) : List (WalkAction (Fin 12)) :=
  let q := Fin.ofNat 12 k
  let ip := Fin.ofNat NINODE k
  (if k = n then [] else (.take q ip :: iputting q ip).map .other) ++
    [.call none, .proceed fun _ => 0, .call (some (if k = 1 then ROOTINO else 8 * (k - 1))),
      .call none, .call none] ++
    List.replicate (if k = n then 3 else 8) (.proceed fun _ => 0)

end Xv6.Inodes
