import Mathlib.Algebra.Order.BigOperators.Group.Finset
import Xv6.Fs.GroupCommit

/-!
# Room in the log

`begin_op` admits an operation only if the log has room for `MAXOPBLOCKS` more
blocks of every operation at work.  If each operation logs at most that many
distinct blocks, the log never holds more than `LOGSIZE` of them
(`length_le_logsize`), which is the length of `lh.block`.

The log that `mkfs` makes has `LOGSIZE` blocks, one of which is the header, so
`log_write` refuses from `LOGSIZE - 1` blocks on, and also a block that is in the
log already.  What decides is how many distinct blocks have been logged since the
last commit (`not_too_big_iff`), and three operations of ten blocks each are one
too many (`too_big`).
-/

namespace Xv6

open Transition

section Room

variable {P : Type} {s t : Logging P} {h : LogHistory P} {o b : ℕ} {p q : P}
variable {a : LogCall P}

namespace LogHistory

/-- The distinct blocks that an operation has logged. -/
def blocksOf (h : LogHistory P) (o : ℕ) : Finset ℕ :=
  ((h.logged.filter fun l => l.1 = o).map Prod.snd).toFinset

/-- The distinct blocks that were logged since the last commit. -/
def current (h : LogHistory P) : Finset ℕ :=
  ((h.logged.filter fun l => h.window l.1 = h.commits).map Prod.snd).toFinset

theorem mem_blocksOf : b ∈ h.blocksOf o ↔ (o, b) ∈ h.logged := by
  simp [blocksOf]

theorem mem_current : b ∈ h.current ↔ ∃ o, (o, b) ∈ h.logged ∧ h.window o = h.commits := by
  simp [current]

/-- Until the commit empties the log, it holds what was logged since the last one. -/
theorem Inv.current_eq (hh : h.Inv s) (hnone : ∀ p, (s.pc p).erased = false) :
    h.current = s.lh.toFinset := by
  ext b
  rw [mem_current, List.mem_toFinset]
  constructor
  · rintro ⟨o, hb, hwindow⟩
    exact hh.kept hnone o b hb hwindow
  · exact hh.source b

end LogHistory

/-- The log holds as many blocks as were logged since the last commit. -/
theorem Logging.Inv.length_eq (hs : s.Inv) (hh : h.Inv s) (hidle : s.committing = false) :
    s.lh.length = h.current.card := by
  have hnone : ∀ p, (s.pc p).erased = false := by
    intro p
    refine LogPc.not_erased ?_
    by_contra hp
    simp [hs.committing p (by simpa using hp)] at hidle
  rw [hh.current_eq hnone, List.toFinset_card_of_nodup hs.nodup]

/-- The operation of the call logs at most `MAXOPBLOCKS` distinct blocks. -/
def Small (s : Logging P × LogHistory P) : LogCall P → Prop
  | .logWrite p b => (insert b (s.2.blocksOf (s.2.op p))).card ≤ MAXOPBLOCKS
  | _ => True

instance (s : Logging P × LogHistory P) : DecidablePred (Small s)
  | .logWrite p b =>
      inferInstanceAs (Decidable ((insert b (s.2.blocksOf (s.2.op p))).card ≤ MAXOPBLOCKS))
  | .beginOp _ | .proceed _ | .endOp _ | .kill _ => isTrue trivial

/-! ## The blocks that operations may still log -/

/-- `begin_op` has kept room for all that the operations at work may still log. -/
structure LogHistory.Reserved (s : Logging P) (h : LogHistory P) : Prop where
  room : ∃ ops : Finset P, (∀ p, p ∈ ops ↔ (s.pc p).operates = true) ∧
    ops.card = s.outstanding ∧
    s.lh.length + ∑ p ∈ ops, (MAXOPBLOCKS - (h.blocksOf (h.op p)).card) ≤ LOGSIZE
  distinct : ∀ p q, (s.pc p).operates = true → (s.pc q).operates = true → h.op p = h.op q → p = q
  pending : ∀ p, ∀ b ∈ (s.pc p).block, (insert b (h.blocksOf (h.op p))).card ≤ MAXOPBLOCKS

namespace LogHistory

theorem blocksOf_append (h : LogHistory P) (o' : ℕ) :
    blocksOf { h with logged := h.logged ++ [(o', b)] } o =
      if o = o' then insert b (h.blocksOf o) else h.blocksOf o := by
  ext b'
  split
  · rename_i hsame
    subst hsame
    simp only [mem_blocksOf, Finset.mem_insert, List.mem_append, List.mem_singleton, Prod.mk.injEq,
      true_and]
    exact or_comm
  · rename_i hother
    simp [mem_blocksOf, hother]

/-- A new operation has logged nothing. -/
theorem Inv.blocksOf_ops (hh : h.Inv s) : h.blocksOf h.ops = ∅ := by
  refine Finset.eq_empty_of_forall_notMem fun b hb => ?_
  exact (hh.logged_lt _ _ (mem_blocksOf.mp hb)).false

namespace Reserved

/-- A step that logs nothing and neither begins nor ends an operation. -/
theorem quiet (hr : h.Reserved s) (hlh : t.lh.length ≤ s.lh.length)
    (hout : t.outstanding = s.outstanding)
    (hop : ∀ q, (t.pc q).operates = (s.pc q).operates)
    (hpending : ∀ q, ∀ b ∈ (t.pc q).block, (insert b (h.blocksOf (h.op q))).card ≤ MAXOPBLOCKS) :
    h.Reserved t where
  room := by
    obtain ⟨ops, hops, hcard, hroom⟩ := hr.room
    refine ⟨ops, fun q => by rw [hops, hop], by rw [hcard, hout], ?_⟩
    omega
  distinct p q hp hq := hr.distinct p q (by rw [← hop, hp]) (by rw [← hop, hq])
  pending := hpending

variable [DecidableEq P]

theorem enter (hh : h.Inv s) (hr : h.Reserved s) (hpc : (s.pc p).operates = false)
    (hadmits : s.log.admits = true) :
    (h.begin p).Reserved ({ s with outstanding := s.outstanding + 1 }.goto p .working) := by
  have hold : ∀ q, q ≠ p → (h.begin p).op q = h.op q := fun q hq => Function.update_of_ne hq _ _
  have hnew : (h.begin p).op p = h.ops := Function.update_self ..
  constructor
  case room =>
    obtain ⟨ops, hops, hcard, -⟩ := hr.room
    have hp : p ∉ ops := by simp [hops, hpc]
    refine ⟨insert p ops, fun q => ?_, ?_, ?_⟩
    · by_cases hq : q = p
      · simp [hq, LogPc.operates]
      · simp [hq, hops]
    · rw [Finset.card_insert_of_notMem hp, hcard]
      rfl
    · -- each of the operations may log `MAXOPBLOCKS` blocks at most
      have hroom := (Log.admits_iff.mp hadmits).2
      have hsum : ∑ q ∈ insert p ops, (MAXOPBLOCKS - ((h.begin p).blocksOf
          ((h.begin p).op q)).card) ≤ (insert p ops).card * MAXOPBLOCKS := by
        rw [← Nat.nsmul_eq_mul]
        exact Finset.sum_le_card_nsmul _ _ _ fun q _ => Nat.sub_le ..
      rw [Finset.card_insert_of_notMem hp, hcard] at hsum
      exact (Nat.add_le_add_left hsum _).trans hroom
  case distinct =>
    have hlt : ∀ q, q ≠ p → (s.pc q).operates = true → (h.begin p).op q ≠ (h.begin p).op p := by
      intro q hq hoperates
      rw [hold q hq, hnew]
      exact (hh.current q hoperates).1.ne
    intro q r hq hr' hsame
    by_cases hqp : q = p <;> by_cases hrp : r = p
    · rw [hqp, hrp]
    · subst hqp
      exact absurd hsame.symm (hlt r hrp (by simpa [hrp] using hr'))
    · subst hrp
      exact absurd hsame (hlt q hqp (by simpa [hqp] using hq))
    · rw [hold q hqp, hold r hrp] at hsame
      exact hr.distinct q r (by simpa [hqp] using hq) (by simpa [hrp] using hr') hsame
  case pending =>
    intro q b hq
    by_cases hqp : q = p
    · simp [hqp, LogPc.block] at hq
    · have hblocks : (h.begin p).blocksOf = h.blocksOf := rfl
      rw [hold q hqp, hblocks]
      exact hr.pending q b (by simpa [hqp] using hq)

/-- An operation ends, and gives up what it has not used. -/
theorem leave (hr : h.Reserved s) (hpc : (s.pc p).operates = true)
    (hlh : t.lh = s.lh) (hout : t.outstanding = s.outstanding - 1)
    (hother : ∀ q, (t.pc q).operates = true ↔ q ≠ p ∧ (s.pc q).operates = true)
    (hblock : ∀ q, ∀ b ∈ (t.pc q).block, b ∈ (s.pc q).block) : h.Reserved t where
  room := by
    obtain ⟨ops, hops, hcard, hroom⟩ := hr.room
    refine ⟨ops.erase p, fun q => by rw [Finset.mem_erase, hops, hother], ?_, ?_⟩
    · rw [Finset.card_erase_of_mem ((hops p).mpr hpc), hcard, hout]
    · rw [hlh]
      refine le_trans (Nat.add_le_add_left ?_ _) hroom
      exact Finset.sum_le_sum_of_subset (Finset.erase_subset p ops)
  distinct q r hq hr' := hr.distinct q r ((hother q).mp hq).2 ((hother r).mp hr').2
  pending q b hq := hr.pending q b (hblock q b hq)

/-- A block is logged out of what its operation may still log. -/
theorem absorb (hh : h.Inv s) (hs : s.Inv) (hr : h.Reserved s) (hpc : s.pc p = .locking b) :
    LogHistory.Reserved ((s.absorb b).goto p .working)
      { h with logged := h.logged ++ [(h.op p, b)] } := by
  have hoperates : (s.pc p).operates = true := by rw [hpc]; rfl
  have hsame : ∀ q, (Function.update s.pc p .working q).operates = (s.pc q).operates :=
    apply_update (by rw [hoperates]; rfl)
  have hother : ∀ q, q ≠ p → (s.pc q).operates = true → h.op q ≠ h.op p := fun q hq hq' heq =>
    hq (hr.distinct q p hq' hoperates heq)
  constructor
  case room =>
    obtain ⟨ops, hops, hcard, hroom⟩ := hr.room
    refine ⟨ops, fun q => by rw [hops, Logging.goto_pc, Logging.absorb_pc, hsame], hcard, ?_⟩
    have hp : p ∈ ops := (hops p).mpr hoperates
    -- only the share of this operation changes
    have hrest : ∑ q ∈ ops.erase p, (MAXOPBLOCKS - (blocksOf
          { h with logged := h.logged ++ [(h.op p, b)] } (h.op q)).card) =
        ∑ q ∈ ops.erase p, (MAXOPBLOCKS - (h.blocksOf (h.op q)).card) := by
      refine Finset.sum_congr rfl fun q hq => ?_
      obtain ⟨hqp, hq⟩ := Finset.mem_erase.mp hq
      rw [blocksOf_append, if_neg (hother q hqp ((hops q).mp hq))]
    have hmine := blocksOf_append (b := b) (o := h.op p) h (h.op p)
    rw [if_pos rfl] at hmine
    have hlimit := hr.pending p b (by rw [hpc]; rfl)
    rw [← Finset.add_sum_erase ops _ hp] at hroom ⊢
    rw [hrest, hmine, Logging.goto_lh]
    by_cases hb : b ∈ s.lh
    · have hlh : (s.absorb b).lh = s.lh := if_pos hb
      have hmono := Finset.card_le_card (Finset.subset_insert b (h.blocksOf (h.op p)))
      rw [hlh]
      omega
    · have hlh : (s.absorb b).lh = s.lh ++ [b] := if_neg hb
      have hfresh : b ∉ h.blocksOf (h.op p) := by
        intro hlogged
        refine hb (hh.kept (fun q => ?_) _ _ (mem_blocksOf.mp hlogged)
          (hh.current p hoperates).2)
        refine LogPc.not_erased ?_
        by_contra hq
        have hcommitting := hs.committing q (by simpa using hq)
        simp [hs.not_committing hoperates] at hcommitting
      rw [Finset.card_insert_of_notMem hfresh] at hlimit ⊢
      rw [hlh, List.length_append, List.length_singleton]
      omega
  case distinct =>
    intro q r hq hr'
    simp only [Logging.goto_pc, Logging.absorb_pc, hsame] at hq hr'
    exact hr.distinct q r hq hr'
  case pending =>
    intro q b' hq
    by_cases hqp : q = p
    · simp [hqp, LogPc.block] at hq
    · have hq : b' ∈ (s.pc q).block := by simpa [hqp] using hq
      have hop : (s.pc q).operates = true := by
        by_contra hnot
        simp [LogPc.block_of_not_operates (by simpa using hnot)] at hq
      rw [blocksOf_append, if_neg (hother q hqp hop)]
      exact hr.pending q b' hq

omit [DecidableEq P] in
/-- What is reserved depends on what is logged for which operation. -/
theorem congr {h' : LogHistory P} (hr : h.Reserved s) (hop : h'.op = h.op)
    (hlogged : h'.logged = h.logged) : h'.Reserved s := by
  have hblocks : h'.blocksOf = h.blocksOf := by
    funext o
    rw [blocksOf, hlogged, blocksOf]
  constructor
  case room => simpa only [hop, hblocks] using hr.room
  case distinct => simpa only [hop] using hr.distinct
  case pending => simpa only [hop, hblocks] using hr.pending

theorem goto (hr : h.Reserved s) {pc : LogPc} (hop : pc.operates = (s.pc p).operates)
    (hblock : ∀ b ∈ pc.block, (insert b (h.blocksOf (h.op p))).card ≤ MAXOPBLOCKS) :
    h.Reserved (s.goto p pc) := by
  refine hr.quiet le_rfl rfl (apply_update hop) fun q b hb => ?_
  by_cases hq : q = p
  · subst hq
    exact hblock b (by simpa using hb)
  · exact hr.pending q b (by simpa [hq] using hb)

theorem step (hs : s.Inv) (hh : h.Inv s) (hr : h.Reserved s) (hsmall : Small (s, h) a)
    (hstep : LogStep s a t) : (h.record s a t).Reserved t := by
  cases hstep with
  | enter p hpc hadmits =>
      have hrecord : h.record s (.beginOp p)
          ({ s with outstanding := s.outstanding + 1 }.goto p .working) = h.begin p := by
        simp [record, LogPc.operates]
      rw [hrecord]
      refine hr.enter hh ?_ hadmits
      rcases hpc with hpc | hpc <;> rw [hpc] <;> rfl
  | sleep p hpc hadmits =>
      have hrecord : h.record s (.beginOp p) (s.goto p .asleep) = h := by
        simp [record, LogPc.operates]
      rw [hrecord]
      refine hr.goto ?_ (by simp [LogPc.block])
      rcases hpc with hpc | hpc <;> rw [hpc] <;> rfl
  | call p b hpc hfull =>
      refine hr.goto (by rw [hpc]; rfl) fun b' hb => ?_
      obtain rfl : b = b' := by simpa [LogPc.block] using hb
      exact hsmall
  | check p b hpc =>
      simp only [record, LogHistory.proceed, hpc]
      refine hr.goto (by rw [hpc]; rfl) fun b' hb => hr.pending p b' ?_
      rw [hpc]
      exact hb
  | absorb p b hpc =>
      simp only [record, LogHistory.proceed, hpc]
      exact hr.absorb hh hs hpc
  | leave p hpc hidle hmore =>
      refine hr.leave (p := p) (by rw [hpc]; rfl) rfl rfl (fun q => ?_) fun q b hb => ?_
      · by_cases hq : q = p
        · simp [hq, LogPc.operates]
        · simp only [Logging.goto_pc, Function.update_of_ne hq, Logging.operates_wakeup]
          simp [hq]
      · by_cases hq : q = p
        · simp [hq, LogPc.block] at hb
        · simpa [hq] using hb
  | last p hpc hidle hlast =>
      refine hr.leave (p := p) (by rw [hpc]; rfl) rfl hlast.symm (fun q => ?_) fun q b hb => ?_
      · by_cases hq : q = p
        · simp [hq, LogPc.operates]
        · simp [hq]
      · by_cases hq : q = p
        · simp [hq, LogPc.block] at hb
        · simpa [hq] using hb
  | erase p hpc =>
      simp only [record, LogHistory.proceed, hpc]
      have hempty : h.Reserved { s with lh := [] } :=
        hr.quiet (Nat.zero_le _) rfl (fun _ => rfl) hr.pending
      exact hempty.goto (by simp [hpc, LogPc.operates]) (by simp [LogPc.block])
  | advance p hcommits herase hfinish =>
      have hafter := LogPc.not_operates_of_commits (LogPc.commits_advance hcommits s.lh.length)
      have hbefore := LogPc.not_operates_of_commits hcommits
      have hsame : (h.proceed s p).Reserved s := by
        refine hr.congr ?_ ?_ <;> unfold LogHistory.proceed <;> grind [LogPc.commits]
      refine hsame.goto (by rw [hafter, hbefore]) ?_
      simp [LogPc.block_of_not_operates hafter]
  | finish p hpc =>
      simp only [record, LogHistory.proceed, hpc]
      have hwoken : h.Reserved ({ s with committing := false }.wakeup) :=
        hr.quiet le_rfl rfl (fun q => by simp) fun q b hb => hr.pending q b (by simpa using hb)
      have hout : LogPc.outside.operates =
          ({ s with committing := false }.wakeup.pc p).operates := by
        rw [Logging.operates_wakeup, hpc]
        rfl
      exact (hwoken.goto hout (by simp [LogPc.block])).congr rfl rfl
  | kill p hpc => exact hr.goto (by rw [hpc]; rfl) (by simp [LogPc.block])

end Reserved

end LogHistory

theorem LogHistory.reserved_boot (P : Type) (start size : ℕ) :
    (LogHistory.boot P).Reserved (Logging.boot P start size) where
  room := ⟨∅, by simp [Logging.boot, LogPc.operates], rfl, by simp [Logging.boot]⟩
  distinct := by simp [Logging.boot, LogPc.operates]
  pending := by simp [Logging.boot, LogPc.block]

end Room

/-! ## Transactions that are too big -/

section Runs

variable {P : Type} [DecidableEq P] {start size : ℕ} {s : Logging P × LogHistory P}

/-- In runs of such operations `log.lh.block` does not overflow. -/
theorem length_le_logsize
    (run : Run logTrace (fun s a _ => Small s a) (Logging.boot P start size, LogHistory.boot P) s) :
    s.1.lh.length ≤ LOGSIZE := by
  have hreserved : s.2.Reserved s.1 := by
    refine run.invariant_of_inductive (I := fun s => s.2.Reserved s.1)
      (J := fun s => s.1.Inv ∧ s.2.Inv s.1)
      ⟨Logging.inv_boot P start size, LogHistory.inv_boot P start size⟩ ?_
      (LogHistory.reserved_boot P start size) ?_
    · rintro s a t hstep ⟨hs, hh⟩
      obtain ⟨hlog, hrecord⟩ := traced_eq_next.mp hstep
      rw [hrecord]
      exact ⟨hs.step (Logging.logStep hlog), hh.step hs (Logging.logStep hlog)⟩
    · rintro s a t hstep hsmall ⟨hs, hh⟩ hr
      obtain ⟨hlog, hrecord⟩ := traced_eq_next.mp hstep
      rw [hrecord]
      exact hr.step hs hh hsmall (Logging.logStep hlog)
  obtain ⟨ops, -, -, hroom⟩ := hreserved.room
  omega

/-- Only the first test of `log_write` finds a transaction too big. -/
theorem Logging.step_eq_too_big_iff {s : Logging P} {a : LogCall P} :
    s.step a = .panic "too big a transaction" ↔
      ∃ p b, a = .logWrite p b ∧ s.pc p = .working ∧ s.full = true := by
  constructor
  · intro hstep
    cases a with
    | beginOp p =>
        simp only [step, beginOp] at hstep
        split at hstep
        · split at hstep <;> simp at hstep
        · simp at hstep
    | logWrite p b =>
        simp only [step, logWrite] at hstep
        split at hstep
        · rename_i hpc
          split at hstep
          · rename_i hfull
            exact ⟨p, b, rfl, hpc, hfull⟩
          · simp at hstep
        · simp at hstep
    | endOp p =>
        simp only [step, endOp] at hstep
        split at hstep
        · split at hstep
          · simp at hstep
          · split at hstep <;> simp at hstep
        · simp at hstep
    | proceed p =>
        simp only [step, proceed] at hstep
        split at hstep <;> try simp at hstep
        split at hstep <;> simp at hstep
    | kill p =>
        simp only [step, kill] at hstep
        split at hstep <;> simp at hstep
  · rintro ⟨p, b, rfl, hpc, hfull⟩
    simp [step, logWrite, hpc, hfull]

theorem size_of_logTrace
    (run : Reaches logTrace (Logging.boot P start size, LogHistory.boot P) s) :
    s.1.size = size := by
  refine run.invariant (I := fun s => s.1.size = size) rfl ?_
  intro s a t hstep _ hsize
  exact (Logging.logStep (traced_eq_next.mp hstep).1).size_eq.trans hsize

/-- With the log that `mkfs` makes, `log_write` does not find the transaction too big
exactly as long as fewer than `LOGSIZE - 1` distinct blocks have been logged since
the last commit. -/
theorem not_too_big_iff
    (run : Run logTrace (fun s a _ => Small s a)
      (Logging.boot P start LOGSIZE, LogHistory.boot P) s) (a : LogCall P) :
    s.1.step a ≠ .panic "too big a transaction" ↔
      ∀ p b, a = .logWrite p b → s.1.pc p = .working → s.2.current.card < LOGSIZE - 1 := by
  obtain ⟨hs, hh⟩ := inv_of_logTrace run.reaches
  have hsize := size_of_logTrace run.reaches
  have hfull : ∀ p, s.1.pc p = .working →
      (s.1.full = true ↔ LOGSIZE - 1 ≤ s.2.current.card) := by
    intro p hpc
    have hlength := hs.length_eq hh (hs.not_committing (p := p) (by rw [hpc]; rfl))
    simp only [Logging.full, decide_eq_true_eq, hsize, hlength]
    omega
  rw [Ne, Logging.step_eq_too_big_iff]
  constructor
  · intro hnot p b ha hpc
    by_contra hmany
    exact hnot ⟨p, b, ha, hpc, (hfull p hpc).mpr (not_lt.mp hmany)⟩
  · rintro hfew ⟨p, b, ha, hpc, hp⟩
    exact absurd (hfew p b ha hpc) (not_lt.mpr ((hfull p hpc).mp hp))

/-- An operation that has logged ten blocks may log one of them again. -/
theorem not_too_big_tenBlocks :
    ∃ s : Logging Bool × LogHistory Bool, s.1.pc true = .working ∧ s.2.current.card = 10 ∧
      s.1.step (.logWrite true 100) ≠ .panic "too big a transaction" := by
  have hrun : (exec (checked logTrace fun s a _ => Small s a)
      (Logging.boot Bool 2 LOGSIZE, LogHistory.boot Bool)
      (.beginOp true :: logCalls true (List.range' 100 10))).test
      (fun s => decide (s.1.pc true = .working ∧ s.2.current.card = 10)) = true := by
    decide +kernel
  obtain ⟨s, run, hcheck⟩ := run_of_test hrun
  obtain ⟨hpc, hcard⟩ := of_decide_eq_true hcheck
  refine ⟨s, hpc, hcard, (not_too_big_iff run _).mpr fun _ _ _ _ => ?_⟩
  rw [hcard]
  decide

/-- The thirtieth block of three operations that log ten blocks each. -/
theorem too_big : ∃ s : Logging (Fin 3) × LogHistory (Fin 3),
    Run logTrace (fun s a _ => Small s a)
        (Logging.boot (Fin 3) 2 LOGSIZE, LogHistory.boot (Fin 3)) s ∧
      Small s (.logWrite 2 309) ∧
      s.1.step (.logWrite 2 309) = .panic "too big a transaction" := by
  have hrun : (exec (checked logTrace fun s a _ => Small s a)
      (Logging.boot (Fin 3) 2 LOGSIZE, LogHistory.boot (Fin 3))
      ([.beginOp 0, .beginOp 1, .beginOp 2] ++ logCalls 0 (List.range' 100 10) ++
        logCalls 1 (List.range' 200 10) ++ logCalls 2 (List.range' 300 9))).test
      (fun s => decide (Small s (.logWrite 2 309) ∧ s.1.pc 2 = .working ∧ s.1.full = true)) =
      true := by
    decide +kernel
  obtain ⟨s, run, hcheck⟩ := run_of_test hrun
  obtain ⟨hsmall, hpc, hfull⟩ := of_decide_eq_true hcheck
  exact ⟨s, run, hsmall, Logging.step_eq_too_big_iff.mpr ⟨2, 309, rfl, hpc, hfull⟩⟩

end Runs

end Xv6
