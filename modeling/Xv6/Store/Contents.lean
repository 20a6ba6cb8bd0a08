import Xv6.Store.Steps

/-!
# The contents of the buffers

`Sound` holds in every state: a process works on buffers that it has locked and that are for the
blocks it wants (`Local`), and the buffers are a cache of the disk that writes back
(`WriteBack.Coherent`).  So whoever has a buffer from `bread` has what was last written to its
block.
-/

namespace Xv6

open Transition WriteBack
open Files (ROOTDEV)

/-! ## The bodies of the loops -/

namespace LogPc

/-- The blocks that are read, in this order. -/
def reads (start : ℕ) (lh : List ℕ) : LogPc → List ℕ
  | writeLog tail | installTrans tail =>
      match lh[tail]? with
      | some b => [start + tail + 1, b]
      | none => []
  | writeHead | eraseHead => [start]
  | _ => []

/-- Where `bwrite` stands. -/
def writeAt : LogPc → ℕ
  | writeLog _ | installTrans _ => 3
  | _ => 2

end LogPc

/-- Where an instruction may stand. -/
def Instr.At (pc : LogPc) (start : ℕ) (lh : List ℕ) (n : ℕ) : Instr → Prop
  | .bread blockno => (pc.reads start lh)[n]? = some blockno
  | .memmove k _ | .header k => (pc.reads start lh).length ≤ n ∧ n < pc.writeAt ∧
      (pc.body start lh)[n + 1]? = some (.bwrite k)
  | .bwrite _ => (pc.reads start lh).length ≤ n ∧ n = pc.writeAt
  | .brelse _ => pc.writeAt < n

section Bodies

variable {pc : LogPc} {start n d c k : ℕ} {lh : List ℕ} {i : Instr}

theorem body_eq_nil (h : pc.commits = false) : pc.body start lh = [] := by
  cases pc <;> first | rfl | cases h

theorem reads_eq_nil (h : pc.commits = false) : pc.reads start lh = [] := by
  cases pc <;> first | rfl | cases h

/-- First the blocks are read, then one is written, and then the buffers are given back. -/
theorem at_of_body (h : (pc.body start lh)[n]? = some i) : i.At pc start lh n := by
  have hloop : ∀ {a b : ℕ} {x y z w : Instr} (l : List Instr),
      l = [.bread a, .bread b, x, y, z, w] →
      l[n]? = some i → n = 0 ∧ i = .bread a ∨ n = 1 ∧ i = .bread b ∨ n = 2 ∧ i = x ∨
        n = 3 ∧ i = y ∨ n = 4 ∧ i = z ∨ n = 5 ∧ i = w := by
    rintro a b x y z w _ rfl hi
    rcases n with _ | _ | _ | _ | _ | _ | n <;> simp at hi <;> simp [hi]
  have hhead : ∀ {a : ℕ} {x y z : Instr} (l : List Instr), l = [.bread a, x, y, z] →
      l[n]? = some i → n = 0 ∧ i = .bread a ∨ n = 1 ∧ i = x ∨ n = 2 ∧ i = y ∨ n = 3 ∧ i = z := by
    rintro a x y z _ rfl hi
    rcases n with _ | _ | _ | _ | n <;> simp at hi <;> simp [hi]
  cases pc with
  | writeLog tail | installTrans tail =>
      simp only [LogPc.body] at h
      split at h
      · rename_i b hb
        rcases hloop _ rfl h with ⟨rfl, rfl⟩ | ⟨rfl, rfl⟩ | ⟨rfl, rfl⟩ | ⟨rfl, rfl⟩ | ⟨rfl, rfl⟩ |
          ⟨rfl, rfl⟩ <;> simp [Instr.At, LogPc.reads, LogPc.writeAt, LogPc.body, hb]
      · cases h
  | writeHead | eraseHead =>
      rcases hhead _ rfl h with ⟨rfl, rfl⟩ | ⟨rfl, rfl⟩ | ⟨rfl, rfl⟩ | ⟨rfl, rfl⟩ <;>
        simp [Instr.At, LogPc.reads, LogPc.writeAt, LogPc.body]
  | _ => cases h

/-- Only the loops copy blocks: `write_log` to the log, `install_trans` from it. -/
theorem memmove_of_body (h : (pc.body start lh)[n]? = some (.memmove d c)) :
    n = 2 ∧ ∃ tail k, lh[tail]? = some k ∧
      (pc = .writeLog tail ∧ d = 0 ∧ c = 1 ∨ pc = .installTrans tail ∧ d = 1 ∧ c = 0) := by
  cases pc with
  | writeLog tail | installTrans tail =>
      simp only [LogPc.body] at h
      split at h
      · rename_i k hk
        rcases n with _ | _ | _ | _ | _ | _ | n <;> simp at h
        exact ⟨rfl, tail, k, hk, by simp [h]⟩
      · cases h
  | writeHead | eraseHead => rcases n with _ | _ | _ | _ | n <;> cases h
  | _ => cases h

/-- Only the header is filled in. -/
theorem header_of_body (h : (pc.body start lh)[n]? = some (.header k)) :
    n = 1 ∧ k = 0 ∧ (pc = .writeHead ∨ pc = .eraseHead) := by
  cases pc with
  | writeLog tail | installTrans tail =>
      simp only [LogPc.body] at h
      split at h
      · rcases n with _ | _ | _ | _ | _ | _ | n <;> cases h
      · cases h
  | writeHead | eraseHead =>
      rcases n with _ | _ | _ | _ | n <;> simp [LogPc.body] at h
      exact ⟨rfl, h.symm, by simp⟩
  | _ => cases h

theorem bwrite_of_body (h : (pc.body start lh)[n]? = some (.bwrite k)) :
    (∃ tail b, lh[tail]? = some b ∧ n = 3 ∧
      (pc = .writeLog tail ∧ k = 0 ∨ pc = .installTrans tail ∧ k = 1)) ∨
    n = 2 ∧ k = 0 ∧ (pc = .writeHead ∨ pc = .eraseHead) := by
  cases pc with
  | writeLog tail | installTrans tail =>
      simp only [LogPc.body] at h
      split at h
      · rename_i b hb
        rcases n with _ | _ | _ | _ | _ | _ | n <;> simp at h
        exact Or.inl ⟨tail, b, hb, rfl, by simp [h]⟩
      · cases h
  | writeHead | eraseHead =>
      rcases n with _ | _ | _ | _ | n <;> simp [LogPc.body] at h
      exact Or.inr ⟨rfl, h.symm, by simp⟩
  | _ => cases h

end Bodies

/-! ## What holds of a process -/

namespace Store

variable {P : Type}

def line (s : Store P) (b : BufId) : Line (ℕ × ℕ) Block := (s.buf b).line

/-- The process has the buffer from `bread`, and it is for block `k`. -/
structure Held (s : Store P) (p : P) (b : BufId) (k : ℕ) : Prop where
  lock : (s.buf b).lock = some p
  key : (s.line b).key = (ROOTDEV, k)
  reading : (s.frame p).reading ≠ some b

structure Local (s : Store P) (p : P) : Prop where
  reading : ∀ b, (s.frame p).reading = some b →
    s.bio.pc p = .running ∧ (s.buf b).lock = some p
  valid : ∀ b, (s.buf b).lock = some p → (s.frame p).reading ≠ some b →
    (s.buf b).valid = true
  rest : (s.log.pc p).commits = false → (s.log.pc p).block = none →
    (s.frame p).done = 0 ∧ (s.frame p).bufs = []
  args : ∀ k, (s.log.pc p).block = some k → s.Idle p ∧
    ∃ b, (s.frame p).bufs = [b] ∧ s.Held p b k ∧ ¬ InLog s.log.start s.log.size k
  vars : (s.log.pc p).commits = true → (s.frame p).done ≤ (s.log.pc p).writeAt →
    List.Forall₂ (s.Held p) (s.frame p).bufs
      (((s.log.pc p).reads s.log.start s.log.lh).take (s.frame p).done)
  target : (s.log.pc p).commits = true → ∀ b,
    s.bio.pc p = .acquiring b ∨ (s.frame p).reading = some b →
    (s.line b).key.1 = ROOTDEV ∧ s.instr p = some (.bread (s.line b).key.2)
  releasing : (s.log.pc p).commits = true → ∀ b, s.bio.pc p = .releasing b →
    ∃ k, s.instr p = some (.brelse k)

/-- The buffer that the process has changed and not yet marked or written. -/
def writing (s : Store P) (p : P) : Option BufId :=
  match s.log.pc p with
  | .tested _ | .locking _ => (s.frame p).bufs.head?
  | _ =>
      match s.instr p with
      | some (.bwrite k) => (s.frame p).bufs[k]?
      | _ => none

structure Sound [Fintype P] (s : Store P) (g : Contents) : Prop where
  bio : ∃ h order, BioInv s.bio h order
  log : s.log.Inv
  drive : ∀ b, (s.buf b).dev < 2
  clean : ∀ b, (s.buf b).dirty = true → (s.buf b).valid = true
  parts : ∀ p, s.Local p
  coherent : Coherent {k | k.1 = ROOTDEV} s.line s.disk (fun k => g.latest k.2)
    {b | ∃ p, s.writing p = some b}

variable {s t : Store P} {p q : P} {b : BufId} {k : ℕ}

theorem instr_eq_none (h : (s.log.pc p).commits = false) : s.instr p = none := by
  rw [instr, body_eq_nil h]
  rfl

theorem Local.commits_of_instr {i : Instr} (hinstr : s.instr p = some i) :
    (s.log.pc p).commits = true := by
  by_contra hno
  rw [instr_eq_none (by simpa using hno)] at hinstr
  cases hinstr

/-- When the blocks are read, their buffers are there. -/
theorem Local.bufs (h : s.Local p) {i : Instr} (hinstr : s.instr p = some i)
    (hreads : ((s.log.pc p).reads s.log.start s.log.lh).length ≤ (s.frame p).done)
    (hdone : (s.frame p).done ≤ (s.log.pc p).writeAt) :
    List.Forall₂ (s.Held p) (s.frame p).bufs ((s.log.pc p).reads s.log.start s.log.lh) := by
  have hvars := h.vars (commits_of_instr hinstr) hdone
  rwa [List.take_of_length_le hreads] at hvars

theorem Local.held_of_bufs {bufs : List BufId} {blocks : List ℕ} {n : ℕ}
    (h : List.Forall₂ (s.Held p) bufs blocks) (hb : bufs[n]? = some b) :
    ∃ k, blocks[n]? = some k ∧ s.Held p b k := by
  obtain ⟨hlt, hb⟩ := List.getElem?_eq_some_iff.mp hb
  have hlen := h.length_eq
  have hheld := (List.forall₂_iff_get.mp h).2 n hlt (by omega)
  rw [List.get_eq_getElem, hb] at hheld
  exact ⟨_, List.getElem?_eq_getElem (by omega), hheld⟩

theorem Local.writing_held (h : s.Local p) (hw : s.writing p = some b) : ∃ k, s.Held p b k := by
  have hargs : ∀ k, (s.log.pc p).block = some k → (s.frame p).bufs.head? = some b →
      ∃ k, s.Held p b k := fun k hk hb => by
    obtain ⟨-, b', hbufs, hheld, -⟩ := h.args k hk
    rw [hbufs] at hb
    cases hb
    exact ⟨k, hheld⟩
  rw [writing] at hw
  split at hw
  · rename_i k hpc
    exact hargs k (by rw [hpc]; rfl) hw
  · rename_i k hpc
    exact hargs k (by rw [hpc]; rfl) hw
  · split at hw
    · rename_i k hinstr
      obtain ⟨hreads, hdone⟩ := at_of_body hinstr
      obtain ⟨k', -, hheld⟩ := held_of_bufs (h.bufs hinstr hreads hdone.le) hw
      exact ⟨k', hheld⟩
    · cases hw

theorem writing_of_quiet (hblock : (s.log.pc p).block = none)
    (hinstr : ∀ k, s.instr p ≠ some (.bwrite k)) : s.writing p = none := by
  rw [writing]
  split
  · rename_i hpc
    rw [hpc] at hblock
    cases hblock
  · rename_i hpc
    rw [hpc] at hblock
    cases hblock
  · split
    · rename_i k hk
      exact absurd hk (hinstr k)
    · rfl

theorem writing_of_bwrite (hinstr : s.instr p = some (.bwrite k)) :
    s.writing p = (s.frame p).bufs[k]? := by
  have hcommits := Local.commits_of_instr hinstr
  rw [writing]
  split
  · rename_i hpc
    rw [hpc] at hcommits
    cases hcommits
  · rename_i hpc
    rw [hpc] at hcommits
    cases hcommits
  · rw [hinstr]

/-- A process that is in `bread` or `brelse` has not changed a buffer. -/
theorem Local.writing_eq_none (h : s.Local p) (hbusy : ¬ s.Idle p) : s.writing p = none := by
  have hblock : (s.log.pc p).block = none := by
    cases hpc : (s.log.pc p).block with
    | none => rfl
    | some k => exact absurd (h.args k hpc).1 hbusy
  have hinstr : ∀ k, s.instr p ≠ some (.bwrite k) := by
    intro k hk
    have hcommits := commits_of_instr hk
    cases hbio : s.bio.pc p with
    | running =>
        cases hreading : (s.frame p).reading with
        | none => exact hbusy ⟨hbio, hreading⟩
        | some b =>
            have htarget := (h.target hcommits b (Or.inr hreading)).2
            rw [hk] at htarget
            cases htarget
    | acquiring b =>
        have htarget := (h.target hcommits b (Or.inl hbio)).2
        rw [hk] at htarget
        cases htarget
    | releasing b =>
        obtain ⟨j, hj⟩ := h.releasing hcommits b hbio
        rw [hk] at hj
        cases hj
  exact writing_of_quiet hblock hinstr

/-! ## The other processes -/

/-- What a step of `p` leaves alone. -/
structure Others (s t : Store P) (p : P) : Prop where
  bio : s.bio.Others t.bio p
  frame : ∀ q, q ≠ p → t.frame q = s.frame q
  start : t.log.start = s.log.start
  size : t.log.size = s.log.size
  log : ∀ q, q ≠ p →
    t.log.pc q = s.log.pc q ∧ (t.log.lh = s.log.lh ∨ (s.log.pc q).commits = false) ∨
      s.log.pc q = .asleep ∧ t.log.pc q = .woken

namespace Others

variable (h : s.Others t p) (hq : q ≠ p)
include h hq

/-- What the log wants of another process does not change. -/
theorem want : (t.log.pc q).commits = (s.log.pc q).commits ∧
    (t.log.pc q).block = (s.log.pc q).block ∧ (t.log.pc q).writeAt = (s.log.pc q).writeAt ∧
    (t.log.pc q).body t.log.start t.log.lh = (s.log.pc q).body s.log.start s.log.lh ∧
    (t.log.pc q).reads t.log.start t.log.lh = (s.log.pc q).reads s.log.start s.log.lh := by
  rcases h.log q hq with ⟨hpc, hlh⟩ | ⟨hs, ht⟩
  · rw [hpc, h.start]
    refine ⟨rfl, rfl, rfl, ?_⟩
    rcases hlh with hlh | hcommits
    · rw [hlh]
      exact ⟨rfl, rfl⟩
    · rw [body_eq_nil hcommits, body_eq_nil hcommits, reads_eq_nil hcommits,
        reads_eq_nil hcommits]
      exact ⟨rfl, rfl⟩
  · rw [hs, ht]
    exact ⟨rfl, rfl, rfl, rfl, rfl⟩

theorem instr_eq : t.instr q = s.instr q := by
  rw [instr, instr, (h.want hq).2.2.2.1, h.frame q hq]

theorem held (hheld : s.Held q b k) : t.Held q b k := by
  obtain ⟨hline, hlock⟩ := h.bio.locked q b hq hheld.lock
  refine ⟨hlock, ?_, ?_⟩
  · rw [line, hline]
    exact hheld.key
  · rw [h.frame q hq]
    exact hheld.reading

theorem writing_eq : t.writing q = s.writing q := by
  rw [writing, writing, h.instr_eq hq, h.frame q hq]
  rcases h.log q hq with ⟨hpc, -⟩ | ⟨hs, ht⟩
  · rw [hpc]
  · rw [hs, ht]

end Others

theorem Local.other [Fintype P] (hinv : ∃ h order, BioInv s.bio h order) (h : s.Others t p)
    (hq : q ≠ p) (hlocked : ∀ b, (t.buf b).lock = some q → (s.buf b).lock = some q)
    (hlocal : s.Local q) : t.Local q := by
  obtain ⟨hcommits, hblock, hwriteAt, -, hreads⟩ := h.want hq
  have hframe := h.frame q hq
  have hpc := h.bio.pc q hq
  constructor
  case reading =>
    intro b hb
    rw [hframe] at hb
    obtain ⟨hrunning, hlock⟩ := hlocal.reading b hb
    exact ⟨hpc.trans hrunning, (h.bio.locked q b hq hlock).2⟩
  case valid =>
    intro b hlock hb
    rw [hframe] at hb
    have hbefore := hlocked b hlock
    have hline := (h.bio.locked q b hq hbefore).1
    have hvalid := hlocal.valid b hbefore hb
    exact (congrArg Line.valid hline).trans hvalid
  case rest =>
    rw [hcommits, hblock, hframe]
    exact hlocal.rest
  case args =>
    intro k hk
    rw [hblock] at hk
    obtain ⟨hidle, b, hbufs, hheld, hhome⟩ := hlocal.args k hk
    refine ⟨⟨hpc.trans hidle.1, by rw [hframe]; exact hidle.2⟩, b, ?_, h.held hq hheld, ?_⟩
    · rw [hframe, hbufs]
    · rwa [h.start, h.size]
  case vars =>
    rw [hcommits, hwriteAt, hreads, hframe]
    exact fun hc hdone => (hlocal.vars hc hdone).imp fun b k hheld => h.held hq hheld
  case target =>
    rw [hcommits, h.instr_eq hq, hframe, hpc]
    intro hc b hb
    have hkey : (t.line b).key = (s.line b).key := by
      rcases hb with hacquiring | hreading
      · obtain ⟨_, _, hbio⟩ := hinv
        refine h.bio.key b fun hzero => ?_
        have hcounted := hbio.counted b
        rw [hzero] at hcounted
        have hnone : s.bio.pending b = 0 := by omega
        rw [Bio.pending, Finset.card_eq_zero, Finset.filter_eq_empty_iff] at hnone
        exact hnone (Finset.mem_univ q) (by rw [hacquiring]; rfl)
      · have hlock := (hlocal.reading b hreading).2
        exact congrArg Line.key (h.bio.locked q b hq hlock).1
    rw [hkey]
    exact hlocal.target hc b hb
  case releasing =>
    rw [hcommits, h.instr_eq hq, hpc]
    exact hlocal.releasing

end Store

end Xv6
