import Xv6.Store.Sound

/-!
# What a commit has done

`Logged` says how far a commit has come.  The copies in the log have the last contents of their
blocks (`Stage.copied`, and on the disk `Stage.stored`); from the write of the header on, the disk
holds a transaction that a recovery would finish (`Stage.headed`); and the blocks that the commit
has installed are clean (`Stage.installed`), so that nothing is lost when the log is emptied.

A block that has been changed is in the log from `log_write` on, and its buffer is dirty until it is
installed.  This keeps the block away from the disk, and it keeps the log small where the log has as
many blocks as there are buffers: a commit needs a buffer for the log itself
(`Logged.room_of_reading`).
-/

namespace Xv6

open Transition WriteBack Writes
open Files (ROOTDEV)

namespace LogPc

/-- How many blocks are in the log when `done` instructions of the body are done, and `n` is
`log.lh.n`. -/
def copied (n done : ℕ) : LogPc → ℕ
  | writeLog tail => if 3 ≤ done then tail + 1 else tail
  | writeHead | installTrans _ | eraseLog => n
  | _ => 0

/-- The same on the disk, as long as it matters. -/
def stored (n done : ℕ) : LogPc → ℕ
  | writeLog tail => if 4 ≤ done then tail + 1 else tail
  | writeHead => n
  | _ => 0

/-- How many blocks are installed. -/
def installed (n done : ℕ) : LogPc → ℕ
  | installTrans tail => if 4 ≤ done then tail + 1 else tail
  | eraseLog => n
  | _ => 0

/-- The transaction is committed, and the blocks are not all home yet. -/
def installs (done : ℕ) : LogPc → Bool
  | writeHead => decide (3 ≤ done)
  | installTrans _ | eraseLog => true
  | _ => false

/-- The header on the disk names the blocks of the transaction. -/
def headed (done : ℕ) : LogPc → Bool
  | writeHead => decide (3 ≤ done)
  | installTrans _ | eraseLog => true
  | eraseHead => decide (done < 3)
  | _ => false

end LogPc

namespace Store

variable {P : Type}

/-- The blocks of the file system's disk. -/
def root (s : Store P) : Disk := fun b => s.disk (ROOTDEV, b)

/-- The log has a block for each of those that are logged, and the header a number. -/
def Room (s : Store P) : Prop :=
  s.log.lh.length < s.log.size ∧ s.log.lh.length ≤ LOGSIZE

def Installs (s : Store P) (p : P) : Prop :=
  (s.log.pc p).installs (s.frame p).done = true

def Headed (s : Store P) (p : P) : Prop :=
  (s.log.pc p).headed (s.frame p).done = true

/-- A commit that is at `pc`, where `done` instructions of the body are done. -/
structure Stage (s : Store P) (g : Contents) (pc : LogPc) (done : ℕ) : Prop where
  room : pc.writes = true → s.Room ∨ pc = .writeLog 0 ∧ done = 0 ∧ 0 < s.log.lh.length
  copied : ∀ i k, i < pc.copied s.log.lh.length done → s.log.lh[i]? = some k →
    g.latest (s.log.start + i + 1) = g.latest k
  stored : ∀ i k, i < pc.stored s.log.lh.length done → s.log.lh[i]? = some k →
    s.root (s.log.start + i + 1) = g.latest k
  titled : pc = .writeHead ∨ pc = .eraseHead → done = 2 →
    ∃ header, g.latest s.log.start = headerOf s.log.lh header
  headed : pc.headed done = true → ∃ base trans, Fits s.log.start s.log.size trans ∧
    Committed s.log.start s.log.size base trans s.root ∧
    (∀ b, ¬ InLog s.log.start s.log.size b → writeAll base trans b = g.committed b) ∧
    (pc.installs done = true → trans.map Prod.fst = s.log.lh)
  emptied : pc.installs done = true → g.pending = ∅
  installed : ∀ i k b, i < pc.installed s.log.lh.length done → s.log.lh[i]? = some k →
    (s.line b).key = (ROOTDEV, k) → (s.line b).dirty = false

structure Logged (s : Store P) (g : Contents) : Prop where
  fits : NBUF ≤ s.log.size ∨ (0 < s.log.lh.length → s.Room)
  home : ∀ k ∈ s.log.lh, ¬ InLog s.log.start s.log.size k ∧ k < Ide.FSSIZE
  number : ∀ b, (s.buf b).valid = true → (s.buf b).blockno < Ide.FSSIZE
  marked : ∀ b, (s.line b).dirty = true → ∃ k ∈ s.log.lh, (s.line b).key = (ROOTDEV, k)
  pinned : (∀ p, ¬ s.Installs p) → ∀ k ∈ s.log.lh, ∃ b, (s.line b).key = (ROOTDEV, k) ∧
    (s.line b).dirty = true
  pending : ∀ k ∈ g.pending, k ∈ s.log.lh ∨ ∃ p, (s.log.pc p).block = some k
  settled : ∀ k, ¬ InLog s.log.start s.log.size k → k ∉ g.pending → g.committed k = g.latest k
  kept : ∀ k, ¬ InLog s.log.start s.log.size k → (k ∈ s.log.lh → ∀ p, ¬ s.Installs p) →
    s.root k = g.committed k
  header : (∀ p, ¬ s.Headed p) → s.root s.log.start 0 = 0
  stage : ∀ p, s.Stage g (s.log.pc p) (s.frame p).done

variable {s t : Store P} {g g' : Contents} {p q : P} {b c : BufId} {pc : LogPc} {n done k : ℕ}
variable {a : StoreCall P}

theorem root_congr (h : t.disk = s.disk) : t.root = s.root :=
  funext fun b => congrFun h (ROOTDEV, b)

/-! ## Who does not commit -/

/-- There is nothing to say before the first write of a commit and after its last one. -/
theorem Stage.idle (h : pc.writes = false) : s.Stage g pc done := by
  cases pc <;> try cases h
  all_goals
    constructor
    case room => exact fun h => Bool.noConfusion h
    case copied => exact fun i k hi => absurd hi (Nat.not_lt_zero i)
    case stored => exact fun i k hi => absurd hi (Nat.not_lt_zero i)
    case titled => exact fun h => by rcases h with h | h <;> cases h
    case headed => exact fun h => Bool.noConfusion h
    case emptied => exact fun h => Bool.noConfusion h
    case installed => exact fun i k b hi => absurd hi (Nat.not_lt_zero i)

theorem not_writes (h : pc.commits = false) : pc.writes = false := by
  by_contra hwrites
  rw [LogPc.commits_of_writes (by simpa using hwrites)] at h
  cases h

theorem commits_of_installs (h : pc.installs done = true) : pc.commits = true := by
  cases pc <;> first | rfl | cases h

theorem commits_of_headed (h : pc.headed done = true) : pc.commits = true := by
  cases pc <;> first | rfl | cases h

theorem headed_of_installs (h : pc.installs done = true) : pc.headed done = true := by
  cases pc <;> first | exact h | cases h

/-- The stage of the others: either they do not commit, or they are where they were. -/
theorem Others.stage [DecidableEq P] (h : s.Others t p) (hq : q ≠ p)
    (hstage : t.Stage g (s.log.pc q) (s.frame q).done) :
    t.Stage g (t.log.pc q) (t.frame q).done := by
  rw [h.frame q hq]
  rcases h.log q hq with ⟨hpc, -⟩ | ⟨-, hwoken⟩
  · rw [hpc]
    exact hstage
  · exact Stage.idle (by rw [hwoken]; rfl)

theorem Others.installs [DecidableEq P] (h : s.Others t p) (hq : q ≠ p) :
    t.Installs q ↔ s.Installs q := by
  rw [Installs, Installs, h.frame q hq]
  rcases h.log q hq with ⟨hpc, -⟩ | ⟨hasleep, hwoken⟩
  · rw [hpc]
  · rw [hasleep, hwoken]
    exact Iff.rfl

theorem Others.headed [DecidableEq P] (h : s.Others t p) (hq : q ≠ p) :
    t.Headed q ↔ s.Headed q := by
  rw [Headed, Headed, h.frame q hq]
  rcases h.log q hq with ⟨hpc, -⟩ | ⟨hasleep, hwoken⟩
  · rw [hpc]
  · rw [hasleep, hwoken]
    exact Iff.rfl

/-! ## Steps that leave the log and the disk alone -/

/-- The log, the disk and the dirty buffers are the same. -/
structure Same (s t : Store P) : Prop where
  start : t.log.start = s.log.start
  size : t.log.size = s.log.size
  lh : t.log.lh = s.log.lh
  disk : t.disk = s.disk
  dirty : ∀ b, (t.line b).dirty = (s.line b).dirty
  key : ∀ b, (s.line b).dirty = true → (t.line b).key = (s.line b).key

theorem Stage.same (h : s.Stage g pc done) (hsame : s.Same t) : t.Stage g pc done := by
  obtain ⟨hstart, hsize, hlh, hdisk, hdirty, hkey⟩ := hsame
  have hroot := root_congr hdisk
  constructor
  case room =>
    rw [Room, hlh, hsize]
    exact h.room
  case copied =>
    rw [hlh, hstart]
    exact h.copied
  case stored =>
    rw [hlh, hstart, hroot]
    exact h.stored
  case titled =>
    rw [hlh, hstart]
    exact h.titled
  case headed =>
    rw [hlh, hstart, hsize, hroot]
    exact h.headed
  case emptied => exact h.emptied
  case installed =>
    rw [hlh]
    intro i k b hi hk hb
    by_contra hno
    rw [hdirty, Bool.not_eq_false] at hno
    rw [hkey b hno] at hb
    rw [h.installed i k b hi hk hb] at hno
    cases hno

theorem Logged.same [DecidableEq P] (h : s.Logged g) (hsame : s.Same t) (hothers : s.Others t p)
    (hnumber : ∀ b, (t.buf b).valid = true → (t.buf b).blockno < Ide.FSSIZE)
    (hblock : (t.log.pc p).block = (s.log.pc p).block)
    (hinstalls : s.Installs p → t.Installs p) (hheaded : s.Headed p → t.Headed p)
    (hstage : t.Stage g (t.log.pc p) (t.frame p).done) : t.Logged g := by
  obtain ⟨hstart, hsize, hlh, hdisk, hdirty, hkey⟩ := hsame
  have hroot := root_congr hdisk
  have hinstalls' : (∀ q, ¬ t.Installs q) → ∀ q, ¬ s.Installs q := fun hno q hq => by
    by_cases hqp : q = p
    · subst hqp
      exact hno q (hinstalls hq)
    · exact hno q ((hothers.installs hqp).mpr hq)
  constructor
  case fits =>
    rw [Room, hlh, hsize]
    exact h.fits
  case home =>
    rw [hlh, hstart, hsize]
    exact h.home
  case number => exact hnumber
  case marked =>
    rw [hlh]
    intro b hb
    rw [hdirty] at hb
    rw [hkey b hb]
    exact h.marked b hb
  case pinned =>
    rw [hlh]
    intro hno k hk
    obtain ⟨b, hb, hd⟩ := h.pinned (hinstalls' hno) k hk
    exact ⟨b, (hkey b hd).trans hb, (hdirty b).trans hd⟩
  case pending =>
    rw [hlh]
    intro k hk
    refine (h.pending k hk).imp_right ?_
    rintro ⟨q, hq⟩
    refine ⟨q, ?_⟩
    by_cases hqp : q = p
    · subst hqp
      rw [hblock, hq]
    · rw [(hothers.want hqp).2.1, hq]
  case settled =>
    rw [hstart, hsize]
    exact h.settled
  case kept =>
    rw [hlh, hstart, hsize, hroot]
    exact fun k hk hno => h.kept k hk fun hmem => hinstalls' (hno hmem)
  case header =>
    rw [hstart, hroot]
    intro hno
    refine h.header fun q hq => ?_
    by_cases hqp : q = p
    · subst hqp
      exact hno q (hheaded hq)
    · exact hno q ((hothers.headed hqp).mpr hq)
  case stage =>
    intro q
    by_cases hqp : q = p
    · rw [hqp]
      exact hstage
    · exact hothers.stage hqp ((h.stage q).same ⟨hstart, hsize, hlh, hdisk, hdirty, hkey⟩)

/-! ## Reading and giving back -/

/-- While blocks are read nothing else happens. -/
theorem counts_of_read {start : ℕ} {lh : List ℕ} (h : (pc.reads start lh)[done]? = some k) :
    (∀ n, pc.copied n (done + 1) = pc.copied n done ∧ pc.stored n (done + 1) = pc.stored n done ∧
      pc.installed n (done + 1) = pc.installed n done) ∧
    pc.installs (done + 1) = pc.installs done ∧ pc.headed (done + 1) = pc.headed done ∧
    (pc = .writeHead ∨ pc = .eraseHead → done + 1 ≠ 2) := by
  have hlt := (List.getElem?_eq_some_iff.mp h).1
  cases pc with
  | writeLog tail | installTrans tail =>
      have hdone : done < 2 := by
        rw [LogPc.reads] at hlt
        split at hlt
        · exact hlt
        · exact absurd hlt (Nat.not_lt_zero _)
      have h3 : ¬ 3 ≤ done := by omega
      have h3' : ¬ 3 ≤ done + 1 := by omega
      have h4 : ¬ 4 ≤ done := by omega
      have h4' : ¬ 4 ≤ done + 1 := by omega
      simp [LogPc.copied, LogPc.stored, LogPc.installed, LogPc.installs, LogPc.headed, h3, h3', h4,
        h4']
  | writeHead | eraseHead =>
      have hdone : done = 0 := Nat.lt_one_iff.mp hlt
      subst hdone
      simp [LogPc.copied, LogPc.stored, LogPc.installed, LogPc.installs, LogPc.headed]
  | _ => exact absurd hlt (Nat.not_lt_zero _)

/-- And when the buffers are given back, everything is done. -/
theorem counts_of_brelse (hcommits : pc.commits = true) (h : pc.writeAt < done) :
    (∀ n, pc.copied n (done + 1) = pc.copied n done ∧ pc.stored n (done + 1) = pc.stored n done ∧
      pc.installed n (done + 1) = pc.installed n done) ∧
    pc.installs (done + 1) = pc.installs done ∧ pc.headed (done + 1) = pc.headed done ∧
    (pc = .writeHead ∨ pc = .eraseHead → done + 1 ≠ 2) := by
  cases pc with
  | writeLog tail | installTrans tail =>
      have hdone : 3 < done := h
      have h3 : 3 ≤ done := by omega
      have h3' : 3 ≤ done + 1 := by omega
      have h4 : 4 ≤ done := by omega
      have h4' : 4 ≤ done + 1 := by omega
      simp [LogPc.copied, LogPc.stored, LogPc.installed, LogPc.installs, LogPc.headed, h3, h3', h4,
        h4']
  | writeHead | eraseHead =>
      have hdone : 2 < done := h
      have h3 : 3 ≤ done := by omega
      have h3' : 3 ≤ done + 1 := by omega
      have hlt : ¬ done < 3 := by omega
      have hlt' : ¬ done + 1 < 3 := by omega
      have h2 : done + 1 ≠ 2 := by omega
      simp [LogPc.copied, LogPc.stored, LogPc.installed, LogPc.installs, LogPc.headed, h3, h3', hlt,
        hlt', h2]
  | commit | eraseLog | finish =>
      simp [LogPc.copied, LogPc.stored, LogPc.installed, LogPc.installs, LogPc.headed]
  | _ => cases hcommits

theorem Stage.succ (h : s.Stage g pc done)
    (hcounts : ∀ n, pc.copied n (done + 1) = pc.copied n done ∧
      pc.stored n (done + 1) = pc.stored n done ∧
      pc.installed n (done + 1) = pc.installed n done)
    (hinstalls : pc.installs (done + 1) = pc.installs done)
    (hheaded : pc.headed (done + 1) = pc.headed done)
    (htitled : pc = .writeHead ∨ pc = .eraseHead → done + 1 ≠ 2)
    (hroom : pc = .writeLog 0 → done = 0 → s.Room) : s.Stage g pc (done + 1) := by
  obtain ⟨hcopied, hstored, hinstalled⟩ := hcounts s.log.lh.length
  constructor
  case room =>
    intro hwrites
    refine Or.inl ?_
    rcases h.room hwrites with hfits | ⟨hpc, hdone, -⟩
    · exact hfits
    · exact hroom hpc hdone
  case copied =>
    rw [hcopied]
    exact h.copied
  case stored =>
    rw [hstored]
    exact h.stored
  case titled => exact fun hpc hdone => absurd hdone (htitled hpc)
  case headed =>
    rw [hheaded, hinstalls]
    exact h.headed
  case emptied =>
    rw [hinstalls]
    exact h.emptied
  case installed =>
    rw [hinstalled]
    exact h.installed

section Steps

variable [DecidableEq P] [Fintype P]

omit [DecidableEq P] in
/-- The blocks in the log are pinned in as many buffers, and the first buffer for the log itself is
not among them. -/
theorem Logged.room_of_reading (h : s.Logged g) (hs : s.Sound g) (hpc : s.log.pc p = .writeLog 0)
    (hdone : (s.frame p).done = 0) (hreading : (s.frame p).reading = some b) : s.Room := by
  have hcommits : (s.log.pc p).commits = true := by
    rw [hpc]
    rfl
  obtain ⟨hroot, hinstr⟩ := (hs.parts p).target hcommits b (Or.inr hreading)
  rw [instr, hpc, hdone, LogPc.body] at hinstr
  cases hlh : s.log.lh[0]? with
  | none =>
      rw [hlh] at hinstr
      cases hinstr
  | some k =>
      rw [hlh] at hinstr
      have hkey : s.log.start + 1 = (s.line b).key.2 := Instr.bread.inj (Option.some.inj hinstr)
      have hpos : 0 < s.log.lh.length := (List.getElem?_eq_some_iff.mp hlh).1
      refine h.fits.elim (fun hsize => ?_) fun hroom => hroom hpos
      have hNBUF : NBUF = 30 := rfl
      have hLOGSIZE : LOGSIZE = 30 := rfl
      have hnone : ∀ q, ¬ s.Installs q := fun q hq => by
        obtain rfl : q = p := hs.log.committer q p (commits_of_installs hq) hcommits
        rw [Installs, hpc] at hq
        cases hq
      choose! f hfkey _ using h.pinned hnone
      have hinj : Set.InjOn f s.log.lh.toFinset := by
        intro k hk k' hk' heq
        have hk := hfkey k (List.mem_toFinset.mp hk)
        have hk' := hfkey k' (List.mem_toFinset.mp hk')
        rw [heq, hk'] at hk
        exact (congrArg Prod.snd hk).symm
      have hmaps : ∀ k ∈ s.log.lh.toFinset, f k ∈ Finset.univ.erase b := by
        intro k hk
        rw [List.mem_toFinset] at hk
        refine Finset.mem_erase.mpr ⟨fun heq => ?_, Finset.mem_univ _⟩
        have hb := hfkey k hk
        rw [heq] at hb
        have hin : k = s.log.start + 1 := (congrArg Prod.snd hb).symm.trans hkey.symm
        exact (h.home k hk).1 (hin ▸ ⟨by omega, by omega⟩)
      have hcard := Finset.card_le_card_of_injOn f hmaps hinj
      rw [List.toFinset_card_of_nodup hs.log.nodup, Finset.card_erase_of_mem (Finset.mem_univ b),
        Finset.card_univ, Fintype.card_fin] at hcard
      exact ⟨by omega, by omega⟩

omit [DecidableEq P] in
/-- The stage of a process for which `bread` returns. -/
theorem Logged.stage_given (h : s.Logged g) (hs : s.Sound g)
    (hreading : (s.frame p).reading = some b) :
    s.Stage g (s.log.pc p) (s.given p b).done ∧
      (s.log.pc p).installs (s.given p b).done = (s.log.pc p).installs (s.frame p).done ∧
      (s.log.pc p).headed (s.given p b).done = (s.log.pc p).headed (s.frame p).done := by
  by_cases hcommits : (s.log.pc p).commits = true
  · obtain ⟨hroot, hinstr⟩ := (hs.parts p).target hcommits b (Or.inr hreading)
    have hread : ((s.log.pc p).reads s.log.start s.log.lh)[(s.frame p).done]? =
        some (s.line b).key.2 := at_of_body hinstr
    obtain ⟨hcounts, hinstalls, hheaded, htitled⟩ := counts_of_read hread
    have hgiven : (s.given p b).done = (s.frame p).done + 1 := by
      rw [given, if_pos hcommits]
    rw [hgiven]
    refine ⟨(h.stage p).succ hcounts hinstalls hheaded htitled fun hpc hdone => ?_, hinstalls,
      hheaded⟩
    exact h.room_of_reading hs hpc hdone hreading
  · have hidle : (s.log.pc p).commits = false := by simpa using hcommits
    have hgiven : (s.given p b).done = (s.frame p).done := by
      rw [given, if_neg hcommits]
    exact ⟨Stage.idle (not_writes hidle), by rw [hgiven], by rw [hgiven]⟩

omit [DecidableEq P] in
theorem Logged.stage_stepped (h : s.Logged g) (hs : s.Sound g) (hpc : s.bio.pc p = .releasing b) :
    s.Stage g (s.log.pc p) (s.stepped p).done ∧
      (s.log.pc p).installs (s.stepped p).done = (s.log.pc p).installs (s.frame p).done ∧
      (s.log.pc p).headed (s.stepped p).done = (s.log.pc p).headed (s.frame p).done := by
  by_cases hcommits : (s.log.pc p).commits = true
  · obtain ⟨k, hk⟩ := (hs.parts p).releasing hcommits b hpc
    have hafter : (s.log.pc p).writeAt < (s.frame p).done := at_of_body hk
    obtain ⟨hcounts, hinstalls, hheaded, htitled⟩ := counts_of_brelse hcommits hafter
    rw [stepped_of_commits hcommits]
    refine ⟨(h.stage p).succ hcounts hinstalls hheaded htitled fun _ hdone => ?_, hinstalls,
      hheaded⟩
    omega
  · have hidle : (s.log.pc p).commits = false := by simpa using hcommits
    have hstepped : s.stepped p = s.frame p := if_neg hcommits
    rw [hstepped]
    exact ⟨Stage.idle (not_writes hidle), rfl, rfl⟩

omit [DecidableEq P] [Fintype P] in
theorem same_of_lines (hstart : t.log.start = s.log.start) (hsize : t.log.size = s.log.size)
    (hlh : t.log.lh = s.log.lh) (hdisk : t.disk = s.disk) (hlines : ∀ b, t.line b = s.line b) :
    s.Same t :=
  ⟨hstart, hsize, hlh, hdisk, fun b => by rw [hlines], fun b _ => by rw [hlines]⟩

omit [DecidableEq P] [Fintype P] in
theorem Logged.number_of_lines (h : s.Logged g) (hlines : ∀ b, t.line b = s.line b) (b : BufId)
    (hb : (t.buf b).valid = true) : (t.buf b).blockno < Ide.FSSIZE := by
  have hvalid := (congrArg Line.valid (hlines b)).symm.trans hb
  exact (congrArg (fun l => l.key.2) (hlines b)).trans_lt (h.number b hvalid)

theorem Logged.get (h : s.Logged g) (hs : s.Sound g) {dev blockno : ℕ} {bio : Bio P Block}
    (hbio : s.bio.step (.bget p dev blockno) = .next bio) : Logged { s with bio := bio } g := by
  obtain ⟨_, _, hinv⟩ := hs.bio
  obtain ⟨-, b, -, -, -, hline, hcase⟩ := Bio.bget_cases hinv hbio
  have hrefines : s.Refines { s with bio := bio } p :=
    ⟨Or.inr ⟨_, rfl, hbio⟩, Or.inl rfl, fun _ _ => rfl⟩
  have hsame : s.Same { s with bio := bio } := by
    refine ⟨rfl, rfl, rfl, rfl, fun c => ?_, fun c hc => ?_⟩
    · by_cases hcb : c = b
      · subst hcb
        rcases hcase with hsame | ⟨-, hclean, -, hclean', -⟩
        · exact congrArg Line.dirty hsame
        · exact hclean'.trans hclean.symm
      · exact congrArg Line.dirty (hline c hcb)
    · by_cases hcb : c = b
      · subst hcb
        rcases hcase with hsame | ⟨-, hclean, -⟩
        · exact congrArg Line.key hsame
        · exact absurd (hclean.symm.trans hc) Bool.false_ne_true
      · exact congrArg Line.key (hline c hcb)
  refine h.same hsame (hrefines.others hs) (fun c hc => ?_) rfl id id ((h.stage p).same hsame)
  by_cases hcb : c = b
  · subst hcb
    rcases hcase with hsame | ⟨-, -, hvalid, -⟩
    · have hvalid := (congrArg Line.valid hsame).symm.trans hc
      exact (congrArg (fun l => l.key.2) hsame).trans_lt (h.number c hvalid)
    · exact absurd (hvalid.symm.trans hc) Bool.false_ne_true
  · have hvalid := (congrArg Line.valid (hline c hcb)).symm.trans hc
    exact (congrArg (fun l => l.key.2) (hline c hcb)).trans_lt (h.number c hvalid)

theorem Logged.lock (h : s.Logged g) (hs : s.Sound g) {bio : Bio P Block}
    (hpc : s.bio.pc p = .acquiring b) (hbio : s.bio.step (.acquiresleep p) = .next bio) :
    ({ s with bio := bio }.setFrame p { s.frame p with reading := some b }).Logged g := by
  obtain ⟨-, -, -, hline, -⟩ := Bio.acquiresleep_cases hpc hbio
  have hrefines :
      s.Refines ({ s with bio := bio }.setFrame p { s.frame p with reading := some b }) p :=
    ⟨Or.inr ⟨_, rfl, hbio⟩, Or.inl rfl, fun q hq => setFrame_of_ne hq⟩
  have hsame : s.Same ({ s with bio := bio }.setFrame p { s.frame p with reading := some b }) :=
    same_of_lines rfl rfl rfl rfl hline
  have hdone : (({ s with bio := bio } : Store P).setFrame p
      { s.frame p with reading := some b }).frame p = { s.frame p with reading := some b } :=
    setFrame_self
  refine h.same hsame (hrefines.others hs) (h.number_of_lines hline) rfl (fun hp => ?_)
    (fun hp => ?_) ?_
  · rw [Installs, hdone]
    exact hp
  · rw [Headed, hdone]
    exact hp
  · rw [hdone]
    exact (h.stage p).same hsame

theorem Logged.release (h : s.Logged g) (hs : s.Sound g) {bio : Bio P Block}
    (hbio : s.bio.step (.brelse p b) = .next bio) : Logged { s with bio := bio } g := by
  obtain ⟨-, -, -, -, hline, -⟩ := Bio.brelse_cases hbio
  have hrefines : s.Refines { s with bio := bio } p :=
    ⟨Or.inr ⟨_, rfl, hbio⟩, Or.inl rfl, fun _ _ => rfl⟩
  have hsame : s.Same { s with bio := bio } := same_of_lines rfl rfl rfl rfl hline
  exact h.same hsame (hrefines.others hs) (h.number_of_lines hline) rfl id id
    ((h.stage p).same hsame)

theorem Logged.unref (h : s.Logged g) (hs : s.Sound g) {bio : Bio P Block}
    (hpc : s.bio.pc p = .releasing b) (hbio : s.bio.step (.unref p) = .next bio) :
    (Store.advance { s with bio := bio } p).Logged g := by
  obtain ⟨-, hline, -⟩ := Bio.unref_cases hpc hbio
  have hstepped : Store.stepped { s with bio := bio } p = s.stepped p := rfl
  rw [advance_eq, hstepped]
  have hrefines : s.Refines (Store.setFrame { s with bio := bio } p (s.stepped p)) p :=
    ⟨Or.inr ⟨_, rfl, hbio⟩, Or.inl rfl, fun q hq => setFrame_of_ne hq⟩
  have hsame : s.Same (Store.setFrame { s with bio := bio } p (s.stepped p)) :=
    same_of_lines rfl rfl rfl rfl hline
  have hdone : (Store.setFrame { s with bio := bio } p (s.stepped p)).frame p = s.stepped p :=
    setFrame_self
  obtain ⟨hstage, hinstalls, hheaded⟩ := h.stage_stepped hs hpc
  refine h.same hsame (hrefines.others hs) (h.number_of_lines hline) rfl (fun hp => ?_)
    (fun hp => ?_) ?_
  · rw [Installs, hdone]
    exact hinstalls.trans hp
  · rw [Headed, hdone]
    exact hheaded.trans hp
  · rw [hdone]
    exact hstage.same hsame

theorem Logged.hit (h : s.Logged g) (hs : s.Sound g) (hreading : (s.frame p).reading = some b) :
    (s.returned p b).Logged g := by
  rw [returned_eq]
  have hrefines : s.Refines (s.setFrame p (s.given p b)) p :=
    ⟨Or.inl rfl, Or.inl rfl, fun q hq => setFrame_of_ne hq⟩
  have hsame : s.Same (s.setFrame p (s.given p b)) :=
    same_of_lines rfl rfl rfl rfl fun _ => rfl
  obtain ⟨hstage, hinstalls, hheaded⟩ := h.stage_given hs hreading
  refine h.same hsame (hrefines.others hs) (h.number_of_lines fun _ => rfl) rfl (fun hp => ?_)
    (fun hp => ?_) ?_
  · rw [Installs, setFrame_self]
    exact hinstalls.trans hp
  · rw [Headed, setFrame_self]
    exact hheaded.trans hp
  · rw [setFrame_self]
    exact hstage.same hsame

omit [Fintype P] in
theorem iderw_blockno (ht : s.iderw p b = .next t) : (s.buf b).blockno < Ide.FSSIZE := by
  rw [iderw] at ht
  dsimp only at ht
  split at ht
  · cases ht
  · split at ht
    · cases ht
    · split at ht
      · cases ht
      · rename_i hlt
        exact not_le.mp hlt

theorem Logged.fetch (h : s.Logged g) (hs : s.Sound g) (hpc : s.bio.pc p = .running)
    (hreading : (s.frame p).reading = some b) (hvalid : (s.buf b).valid = false)
    (ht : s.iderw p b = .next t) : (t.returned p b).Logged g := by
  have hdirty : (s.buf b).dirty = false := by
    by_contra hno
    have hvalid' := hs.clean b (by simpa using hno)
    rw [hvalid] at hvalid'
    cases hvalid'
  have hnumber := iderw_blockno ht
  obtain ⟨hlock, ht'⟩ := iderw_fetch hvalid hdirty ht
  have hgiven : t.given p b = s.given p b := by
    rw [ht']
    rfl
  rw [returned_eq, hgiven]
  generalize hu : t.setFrame p (s.given p b) = u
  have hlog : u.log = s.log := by rw [← hu, ht']; rfl
  have hdisk : u.disk = s.disk := by rw [← hu, ht']; rfl
  have hframe : u.frame = Function.update s.frame p (s.given p b) := by rw [← hu, ht']; rfl
  have hbio := congrArg Store.bio (hu.symm.trans (by rw [ht']))
  have htouches : s.Touches u p b := touches_of_modify hpc hlock hbio rfl
  have hread : u.buf b = { s.buf b with
      valid := true, data := s.disk ((s.buf b).dev % 2, (s.buf b).blockno) } := buf_of_modify hbio
  have hrefines : s.Refines u p :=
    ⟨Or.inr htouches.bio, Or.inl hlog, fun q hq => by rw [hframe, Function.update_of_ne hq]⟩
  have hsame : s.Same u := by
    refine ⟨by rw [hlog], by rw [hlog], by rw [hlog], hdisk, fun c => ?_, fun c _ =>
      htouches.key c⟩
    by_cases hcb : c = b
    · rw [hcb, line, line, hread]
      rfl
    · rw [htouches.line c hcb]
  obtain ⟨hstage, hinstalls, hheaded⟩ := h.stage_given hs hreading
  have hself : u.frame p = s.given p b := by rw [hframe, Function.update_self]
  refine h.same hsame (hrefines.others hs) (fun c hc => ?_) (by rw [hlog]) (fun hp => ?_)
    (fun hp => ?_) ?_
  · have hkey : (u.buf c).blockno = (s.buf c).blockno := congrArg Prod.snd (htouches.key c)
    rw [hkey]
    by_cases hcb : c = b
    · rw [hcb]
      exact hnumber
    · exact h.number c ((congrArg Line.valid (htouches.line c hcb)).symm.trans hc)
  · rw [Installs, hself, hlog]
    exact hinstalls.trans hp
  · rw [Headed, hself, hlog]
    exact hheaded.trans hp
  · rw [hself, hlog]
    exact hstage.same hsame

/-! ## Steps of the log -/

theorem Logged.log_step (h : s.Logged g) (hs : s.Sound g) {c : LogCall P} {log : Logging P}
    (hlog : LogStep s.log c log)
    (hc : (∃ p, a = .beginOp p ∧ c = .beginOp p ∧ s.Idle p) ∨
      (∃ p, a = .endOp p ∧ c = .endOp p ∧ s.Free p) ∨ (∃ p, a = .kill p ∧ c = .kill p) ∨
      ∃ p k, a = .proceed p ∧ c = .proceed p ∧ s.Idle p ∧ s.log.pc p = .tested k) :
    Logged { s with log := log } g := by
  have hrefines : s.Refines { s with log := log } c.process :=
    ⟨Or.inl rfl, Or.inr ⟨c, rfl, hlog⟩, fun _ _ => rfl⟩
  -- the process neither commits before nor writes anything afterwards
  have hquiet : log.lh = s.log.lh → (s.log.pc c.process).commits = false →
      (log.pc c.process).block = (s.log.pc c.process).block →
      Stage { s with log := log } g (log.pc c.process) (s.frame c.process).done →
      Logged { s with log := log } g := by
    intro hlh hbefore hblock hstage
    refine h.same ⟨hlog.start_eq, hlog.size_eq, hlh, rfl, fun _ => rfl, fun _ _ => rfl⟩
      (hrefines.others hs) h.number hblock (fun hp => ?_) (fun hp => ?_) hstage
    · rw [commits_of_installs hp] at hbefore
      cases hbefore
    · rw [commits_of_headed hp] at hbefore
      cases hbefore
  cases hlog with
  | enter p hpc | sleep p hpc =>
      have hpc' : (s.log.pc p).commits = false ∧ (s.log.pc p).block = none := by
        rcases hpc with hpc | hpc <;> rw [hpc] <;> exact ⟨rfl, rfl⟩
      refine hquiet rfl hpc'.1 ?_ ?_
      · rw [LogCall.process, Logging.goto_pc, Function.update_self, hpc'.2]
        rfl
      · refine Stage.idle ?_
        rw [LogCall.process, Logging.goto_pc, Function.update_self]
        rfl
  | leave p hpc | last p hpc | kill p hpc | check p k hpc =>
      refine hquiet rfl (by rw [LogCall.process, hpc]; rfl) ?_ ?_
      · rw [LogCall.process, Logging.goto_pc, Function.update_self, hpc]
        rfl
      · refine Stage.idle ?_
        rw [LogCall.process, Logging.goto_pc, Function.update_self]
        rfl
  | call p k hpc =>
      rcases hc with ⟨q, -, hc, -⟩ | ⟨q, -, hc, -⟩ | ⟨q, -, hc⟩ | ⟨q, k', -, hc, -⟩ <;> cases hc
  | absorb p k hpc | erase p hpc | advance p hpc | finish p hpc =>
      rcases hc with ⟨q, -, hc, -⟩ | ⟨q, -, hc, -⟩ | ⟨q, -, hc⟩ | ⟨q, k', -, hc, -, hpc'⟩
      · cases hc
      · cases hc
      · cases hc
      · cases hc
        rw [hpc'] at hpc
        cases hpc

omit [DecidableEq P] [Fintype P] in
/-- When the body of a loop is done, the commit goes on. -/
theorem Stage.next (h : s.Stage g pc done) (hcommits : pc.commits = true) (herase : pc ≠ .eraseLog)
    (hbody : (pc.body s.log.start s.log.lh)[done]? = none) :
    s.Stage g (pc.advance s.log.lh.length) 0 ∧
      (pc.installs done = true → (pc.advance s.log.lh.length).installs 0 = true) ∧
      (pc.headed done = true → (pc.advance s.log.lh.length).headed 0 = true) := by
  have hlen := List.getElem?_eq_none_iff.mp hbody
  cases pc with
  | commit =>
      refine ⟨?_, fun h => Bool.noConfusion h, fun h => Bool.noConfusion h⟩
      rw [LogPc.advance]
      split
      · rename_i hpos
        constructor
        case room => exact fun _ => Or.inr ⟨rfl, rfl, hpos⟩
        case copied => exact fun i k hi => absurd hi (Nat.not_lt_zero i)
        case stored => exact fun i k hi => absurd hi (Nat.not_lt_zero i)
        case titled => exact fun h => by rcases h with h | h <;> cases h
        case headed => exact fun h => Bool.noConfusion h
        case emptied => exact fun h => Bool.noConfusion h
        case installed => exact fun i k b hi => absurd hi (Nat.not_lt_zero i)
      · exact Stage.idle rfl
  | writeLog tail =>
      refine ⟨?_, fun h => Bool.noConfusion h, fun h => Bool.noConfusion h⟩
      rw [LogPc.advance]
      split
      · rename_i hlt
        rw [LogPc.body, List.getElem?_eq_getElem hlt] at hlen
        have hdone : 6 ≤ done := hlen
        have h3 : 3 ≤ done := by omega
        have h4 : 4 ≤ done := by omega
        constructor
        case room =>
          intro _
          rcases h.room rfl with hroom | ⟨-, hzero, -⟩
          · exact Or.inl hroom
          · omega
        case copied =>
          have hcopied := h.copied
          simp only [LogPc.copied, if_pos h3] at hcopied
          exact hcopied
        case stored =>
          have hstored := h.stored
          simp only [LogPc.stored, if_pos h4] at hstored
          exact hstored
        case titled => exact fun h => by rcases h with h | h <;> cases h
        case headed => exact fun h => Bool.noConfusion h
        case emptied => exact fun h => Bool.noConfusion h
        case installed => exact fun i k b hi => absurd hi (Nat.not_lt_zero i)
      · rename_i hge
        constructor
        case room =>
          intro _
          rcases h.room rfl with hroom | ⟨hpc, -, hpos⟩
          · exact Or.inl hroom
          · cases hpc
            omega
        case copied =>
          intro i k hi hk
          have hi : i < s.log.lh.length := hi
          refine h.copied i k ?_ hk
          rw [LogPc.copied]
          split <;> omega
        case stored =>
          intro i k hi hk
          have hi : i < s.log.lh.length := hi
          refine h.stored i k ?_ hk
          rw [LogPc.stored]
          split <;> omega
        case titled => exact fun _ h => by cases h
        case headed => exact fun h => by cases h
        case emptied => exact fun h => by cases h
        case installed => exact fun i k b hi => absurd hi (Nat.not_lt_zero i)
  | writeHead =>
      have hdone : 4 ≤ done := hlen
      have h3 : decide (3 ≤ done) = true := decide_eq_true (by omega)
      refine ⟨?_, fun _ => rfl, fun _ => rfl⟩
      constructor
      case room =>
        intro _
        rcases h.room rfl with hroom | ⟨hpc, -⟩
        · exact Or.inl hroom
        · cases hpc
      case copied => exact h.copied
      case stored => exact fun i k hi => absurd hi (Nat.not_lt_zero i)
      case titled => exact fun h => by rcases h with h | h <;> cases h
      case headed =>
        intro _
        obtain ⟨base, trans, hfits, hcommitted, hall, hlh⟩ := h.headed h3
        exact ⟨base, trans, hfits, hcommitted, hall, fun _ => hlh h3⟩
      case emptied => exact fun _ => h.emptied h3
      case installed => exact fun i k b hi => absurd hi (Nat.not_lt_zero i)
  | installTrans tail =>
      have hroom : s.Room := by
        rcases h.room rfl with hroom | ⟨hpc, -⟩
        · exact hroom
        · cases hpc
      rw [LogPc.advance]
      split
      · rename_i hlt
        rw [LogPc.body, List.getElem?_eq_getElem hlt] at hlen
        have hdone : 6 ≤ done := hlen
        have h4 : 4 ≤ done := by omega
        refine ⟨?_, fun _ => rfl, fun _ => rfl⟩
        constructor
        case room => exact fun _ => Or.inl hroom
        case copied => exact h.copied
        case stored => exact fun i k hi => absurd hi (Nat.not_lt_zero i)
        case titled => exact fun h => by rcases h with h | h <;> cases h
        case headed => exact h.headed
        case emptied => exact h.emptied
        case installed =>
          have hinstalled := h.installed
          simp only [LogPc.installed, if_pos h4] at hinstalled
          exact hinstalled
      · rename_i hge
        refine ⟨?_, fun _ => rfl, fun _ => rfl⟩
        constructor
        case room => exact fun _ => Or.inl hroom
        case copied => exact h.copied
        case stored => exact fun i k hi => absurd hi (Nat.not_lt_zero i)
        case titled => exact fun h => by rcases h with h | h <;> cases h
        case headed => exact h.headed
        case emptied => exact h.emptied
        case installed =>
          intro i k b hi hk hb
          have hi : i < s.log.lh.length := hi
          refine h.installed i k b ?_ hk hb
          rw [LogPc.installed]
          split <;> omega
  | eraseLog => exact absurd rfl herase
  | eraseHead =>
      have hdone : 4 ≤ done := hlen
      refine ⟨Stage.idle rfl, fun h => Bool.noConfusion h, fun h => ?_⟩
      have hlt : done < 3 := of_decide_eq_true h
      omega
  | finish => exact ⟨Stage.idle rfl, fun h => Bool.noConfusion h, fun h => Bool.noConfusion h⟩
  | _ => cases hcommits

/-- Nobody works on a buffer when the log is emptied. -/
theorem Sound.nobody_writes (hs : s.Sound g) (hpc : s.log.pc p = .eraseLog) (q : P) :
    s.writing q = none := by
  have hcommits : (s.log.pc p).commits = true := by
    rw [hpc]
    rfl
  by_cases hq : q = p
  · refine writing_of_quiet (by rw [hq, hpc]; rfl) fun k hk => ?_
    rw [hq, instr, hpc] at hk
    cases hk
  · have hblock : (s.log.pc q).operates = false := by
      by_contra hoperates
      have hidle := hs.log.not_committing (p := q) (by simpa using hoperates)
      rw [hs.log.committing p hcommits] at hidle
      cases hidle
    refine writing_of_quiet (LogPc.block_of_not_operates hblock) fun k hk => ?_
    rw [instr_eq_none (hs.log.others hcommits q hq)] at hk
    cases hk

/-- All blocks are home when the log is emptied. -/
theorem Logged.root_eq (h : s.Logged g) (hs : s.Sound g) (hpc : s.log.pc p = .eraseLog)
    (hk : ¬ InLog s.log.start s.log.size k) : s.root k = g.committed k := by
  have hinstalls : (s.log.pc p).installs (s.frame p).done = true := by
    rw [hpc]
    rfl
  have hstage := h.stage p
  by_cases hmem : k ∈ s.log.lh
  · obtain ⟨i, hi, hik⟩ := List.getElem_of_mem hmem
    have hpending := hstage.emptied hinstalls
    rw [h.settled k hk (by rw [hpending]; exact Finset.notMem_empty k)]
    by_contra hne
    obtain ⟨b, hb, -, hcause⟩ := hs.coherent.stale (ROOTDEV, k) rfl hne
    rcases hcause with hdirty | ⟨q, hq⟩
    · have hclean := hstage.installed i k b (by rw [hpc]; exact hi)
        (List.getElem?_eq_some_iff.mpr ⟨hi, hik⟩) hb
      rw [hdirty] at hclean
      cases hclean
    · rw [hs.nobody_writes hpc q] at hq
      cases hq
  · exact h.kept k hk fun hmem' => absurd hmem' hmem

theorem Logged.erase (h : s.Logged g) (hs : s.Sound g) (hpc : s.log.pc p = .eraseLog) :
    (Store.setFrame { s with log := { s.log with lh := [] }.goto p .eraseHead } p
      ⟨none, 0, []⟩).Logged g := by
  have hcommits : (s.log.pc p).commits = true := by
    rw [hpc]
    rfl
  have hstage := h.stage p
  rw [hpc] at hstage
  have hpending := hstage.emptied rfl
  generalize ht : Store.setFrame { s with log := { s.log with lh := [] }.goto p .eraseHead } p
    ⟨none, 0, []⟩ = t
  have hbio : t.bio = s.bio := by rw [← ht]; rfl
  have hlog : t.log = { s.log with lh := [] }.goto p .eraseHead := by rw [← ht]; rfl
  have hstart : t.log.start = s.log.start := by rw [hlog]; rfl
  have hsize : t.log.size = s.log.size := by rw [hlog]; rfl
  have hlh : t.log.lh = [] := by rw [hlog]; rfl
  have hdisk : t.disk = s.disk := by rw [← ht]; rfl
  have hframe : t.frame p = ⟨none, 0, []⟩ := by rw [← ht]; exact setFrame_self
  have hpc' : t.log.pc p = .eraseHead := by
    rw [hlog, Logging.goto_pc, Function.update_self]
  have hroot := root_congr hdisk
  have hlines : ∀ b, t.line b = s.line b := fun b => by rw [line, line, buf, hbio]
  have hothers : s.Others t p := by
    have hrefines : s.Refines t p := ⟨Or.inl hbio, Or.inr ⟨.proceed p, rfl, ?_⟩, fun q hq => ?_⟩
    · exact hrefines.others hs
    · rw [hlog]
      exact .erase p hpc
    · rw [← ht]
      exact setFrame_of_ne hq
  constructor
  case fits =>
    rw [hlh]
    exact Or.inr fun hpos => absurd hpos (Nat.lt_irrefl 0)
  case home =>
    rw [hlh]
    exact fun k hk => absurd hk List.not_mem_nil
  case number => exact h.number_of_lines hlines
  case marked =>
    intro b hb
    rw [hlines] at hb
    obtain ⟨k, hk, hkey⟩ := h.marked b hb
    obtain ⟨i, hi, hik⟩ := List.getElem_of_mem hk
    rw [hstage.installed i k b hi (List.getElem?_eq_some_iff.mpr ⟨hi, hik⟩) hkey] at hb
    cases hb
  case pinned =>
    rw [hlh]
    exact fun _ k hk => absurd hk List.not_mem_nil
  case pending =>
    rw [hpending]
    exact fun k hk => absurd hk (Finset.notMem_empty k)
  case settled =>
    rw [hstart, hsize]
    exact h.settled
  case kept =>
    rw [hstart, hsize, hroot]
    exact fun k hk _ => h.root_eq hs hpc hk
  case header =>
    intro hno
    refine absurd ?_ (hno p)
    rw [Headed, hpc', hframe]
    rfl
  case stage =>
    intro q
    by_cases hq : q = p
    · rw [hq, hpc', hframe]
      constructor
      case room =>
        intro _
        rcases hstage.room rfl with hroom | ⟨hpc, -⟩
        · refine Or.inl ⟨?_, ?_⟩
          · rw [hlh, hsize]
            exact Nat.zero_lt_of_lt hroom.1
          · rw [hlh]
            exact Nat.zero_le _
        · cases hpc
      case copied => exact fun i k hi => absurd hi (Nat.not_lt_zero i)
      case stored => exact fun i k hi => absurd hi (Nat.not_lt_zero i)
      case titled => exact fun _ h => by cases h
      case headed =>
        intro _
        rw [hstart, hsize, hroot]
        obtain ⟨base, trans, hfits, hcommitted, hall, -⟩ := hstage.headed rfl
        exact ⟨base, trans, hfits, hcommitted, hall, fun h => by cases h⟩
      case emptied => exact fun h => by cases h
      case installed => exact fun i k b hi => absurd hi (Nat.not_lt_zero i)
    · refine Stage.idle (not_writes ?_)
      rw [(hothers.want hq).1]
      exact hs.log.others hcommits q hq

theorem Logged.commit (h : s.Logged g) (hs : s.Sound g) {log : Logging P}
    (hinstr : s.instr p = none) (hcommits : (s.log.pc p).commits = true)
    (hlog : LogStep s.log (.proceed p) log) :
    (Store.setFrame { s with log := log } p ⟨none, 0, []⟩).Logged g := by
  have hrefines : s.Refines (Store.setFrame { s with log := log } p ⟨none, 0, []⟩) p :=
    ⟨Or.inl rfl, Or.inr ⟨_, rfl, hlog⟩, fun q hq => setFrame_of_ne hq⟩
  have hself : (Store.setFrame { s with log := log } p ⟨none, 0, []⟩).frame p = ⟨none, 0, []⟩ :=
    setFrame_self
  have hblock : (s.log.pc p).block = none := block_of_commits hcommits
  -- the log stays as it is
  have hquiet : log.lh = s.log.lh → (log.pc p).block = none →
      ((s.log.pc p).installs (s.frame p).done = true → (log.pc p).installs 0 = true) →
      ((s.log.pc p).headed (s.frame p).done = true → (log.pc p).headed 0 = true) →
      s.Stage g (log.pc p) 0 →
      (Store.setFrame { s with log := log } p ⟨none, 0, []⟩).Logged g := by
    intro hlh hblock' hinstalls hheaded hstage
    have hsame : s.Same (Store.setFrame { s with log := log } p ⟨none, 0, []⟩) :=
      same_of_lines hlog.start_eq hlog.size_eq hlh rfl fun _ => rfl
    refine h.same hsame (hrefines.others hs) h.number (hblock'.trans hblock.symm) (fun hp => ?_)
      (fun hp => ?_) ?_
    · rw [Installs, hself]
      exact hinstalls hp
    · rw [Headed, hself]
      exact hheaded hp
    · rw [hself]
      exact hstage.same hsame
  cases hlog with
  | check _ k hpc | absorb _ k hpc =>
      rw [hpc] at hcommits
      cases hcommits
  | erase _ hpc => exact h.erase hs hpc
  | finish _ hpc =>
      have hpc' :
          (({ s.log with committing := false }.wakeup).goto p .outside).pc p = .outside := by
        rw [Logging.goto_pc, Function.update_self]
      refine hquiet rfl ?_ (fun hp => ?_) (fun hp => ?_) ?_
      · rw [hpc']
        rfl
      · rw [hpc] at hp
        cases hp
      · rw [hpc] at hp
        cases hp
      · rw [hpc']
        exact Stage.idle rfl
  | advance _ _ herase hfinish =>
      obtain ⟨hstage, hinstalls, hheaded⟩ :=
        (h.stage p).next hcommits herase hinstr
      have hpc' : (s.log.goto p ((s.log.pc p).advance s.log.lh.length)).pc p =
          (s.log.pc p).advance s.log.lh.length := by
        rw [Logging.goto_pc, Function.update_self]
      refine hquiet rfl ?_ ?_ ?_ ?_
      · rw [hpc']
        exact LogPc.block_of_not_operates
          (LogPc.not_operates_of_commits (LogPc.commits_advance hcommits _))
      · rw [hpc']
        exact hinstalls
      · rw [hpc']
        exact hheaded
      · rw [hpc']
        exact hstage

end Steps

end Store

end Xv6
