import Xv6.Store.Commit

/-!
# The file system's disk

Processes see the blocks as they were written last (`transparent`), and a crash at any time leaves a
disk from which `recover_from_log` makes the blocks as they were at the last commit (`durable`).
-/

namespace Xv6

open Transition WriteBack Writes
open Files (ROOTDEV)

namespace Store

variable {P : Type} {s t : Store P} {g g' : Contents} {p q : P} {b c : BufId} {pc : LogPc}
variable {n done k : ℕ} {a : StoreCall P}

section Steps

variable [DecidableEq P] [Fintype P]

/-! ## Operations -/

omit [DecidableEq P] in
/-- There is no commit while an operation is at work. -/
theorem Sound.not_commits (hs : s.Sound g) (hop : (s.log.pc p).operates = true) (q : P) :
    (s.log.pc q).commits = false := by
  have hidle := hs.log.not_committing hop
  by_contra hno
  rw [hs.log.committing q (by simpa using hno)] at hidle
  cases hidle

omit [DecidableEq P] in
theorem Sound.not_installs (hs : s.Sound g) (hop : (s.log.pc p).operates = true) (q : P) :
    ¬ s.Installs q := fun hq => by
  have hno := hs.not_commits hop q
  rw [commits_of_installs hq] at hno
  cases hno

omit [DecidableEq P] in
theorem Sound.not_headed (hs : s.Sound g) (hop : (s.log.pc p).operates = true) (q : P) :
    ¬ s.Headed q := fun hq => by
  have hno := hs.not_commits hop q
  rw [commits_of_headed hq] at hno
  cases hno

theorem Sound.stage_of_operates (hs : s.Sound g) (hop : (s.log.pc p).operates = true)
    (hothers : s.Others t p) (hp : (t.log.pc p).writes = false) (q : P) :
    t.Stage g' (t.log.pc q) (t.frame q).done := by
  by_cases hq : q = p
  · rw [hq]
    exact Stage.idle hp
  · refine Stage.idle (not_writes ?_)
    rw [(hothers.want hq).1]
    exact hs.not_commits hop q

/-- A block is changed, and `log_write` is called. -/
theorem Logged.change (h : s.Logged g) (hs : s.Sound g) {data : Block} (hfree : s.Free p)
    (hchanges : s.Changes p b) (hpc : s.log.pc p = .working) (hfull : s.log.full ≠ true) :
    ({ s.modify b fun x => { x with data := data } with
      log := s.log.goto p (.tested (s.buf b).blockno) }.setFrame p ⟨none, 0, [b]⟩).Logged
      { g with
        latest := Function.update g.latest (s.buf b).blockno data
        pending := insert (s.buf b).blockno g.pending } := by
  have hop : (s.log.pc p).operates = true := by rw [hpc]; rfl
  generalize ht : Store.setFrame { s.modify b fun x => { x with data := data } with
    log := s.log.goto p (.tested (s.buf b).blockno) } p ⟨none, 0, [b]⟩ = t
  have hbio : t.bio = (s.modify b fun x => { x with data := data }).bio := by rw [← ht]; rfl
  have hlog : t.log = s.log.goto p (.tested (s.buf b).blockno) := by rw [← ht]; rfl
  have hframe : t.frame = Function.update s.frame p ⟨none, 0, [b]⟩ := by rw [← ht]; rfl
  have hroot : t.root = s.root := root_congr (by rw [← ht]; rfl)
  have hlh : t.log.lh = s.log.lh := by rw [hlog]; rfl
  have hstart : t.log.start = s.log.start := by rw [hlog]; rfl
  have hsize : t.log.size = s.log.size := by rw [hlog]; rfl
  have hpc' : t.log.pc p = .tested (s.buf b).blockno := by
    rw [hlog, Logging.goto_pc, Function.update_self]
  have htouches : s.Touches t p b := touches_of_modify hfree.1.1 hchanges.1 hbio rfl
  have hbuf : t.buf b = { s.buf b with data := data } := buf_of_modify hbio
  have hvalid : ∀ c, (t.buf c).valid = (s.buf c).valid := fun c => by
    by_cases hc : c = b
    · rw [hc, hbuf]
    · exact congrArg Line.valid (htouches.line c hc)
  have hdirty : ∀ c, (t.line c).dirty = (s.line c).dirty := fun c => by
    by_cases hc : c = b
    · rw [hc, line, line, hbuf]
      rfl
    · rw [htouches.line c hc]
  have hothers : s.Others t p := by
    refine Refines.others ⟨Or.inr htouches.bio, Or.inr ⟨.logWrite p (s.buf b).blockno, rfl, ?_⟩,
      fun q hq => by rw [hframe, Function.update_of_ne hq]⟩ hs
    rw [hlog]
    exact .call p _ hpc hfull
  constructor
  case fits =>
    rw [Room, hlh, hsize]
    exact h.fits
  case home =>
    rw [hlh, hstart, hsize]
    exact h.home
  case number =>
    intro c hc
    rw [hvalid] at hc
    exact (congrArg Prod.snd (htouches.key c)).trans_lt (h.number c hc)
  case marked =>
    intro c hc
    rw [hdirty] at hc
    rw [hlh, htouches.key]
    exact h.marked c hc
  case pinned =>
    rw [hlh]
    intro _ k hk
    obtain ⟨c, hkey, hc⟩ := h.pinned (hs.not_installs hop) k hk
    exact ⟨c, (htouches.key c).trans hkey, (hdirty c).trans hc⟩
  case pending =>
    intro k hk
    rcases Finset.mem_insert.mp hk with rfl | hk
    · exact Or.inr ⟨p, by rw [hpc']; rfl⟩
    · rw [hlh]
      refine (h.pending k hk).imp_right ?_
      rintro ⟨q, hq⟩
      have hqp : q ≠ p := by
        rintro rfl
        rw [hpc] at hq
        cases hq
      exact ⟨q, (hothers.want hqp).2.1.trans hq⟩
  case settled =>
    rw [hstart, hsize]
    intro k hk hno
    rw [Finset.mem_insert, not_or] at hno
    exact (h.settled k hk hno.2).trans (Function.update_of_ne hno.1 ..).symm
  case kept =>
    rw [hstart, hsize, hroot]
    exact fun k hk _ => h.kept k hk fun _ => hs.not_installs hop
  case header =>
    rw [hstart, hroot]
    exact fun _ => h.header (hs.not_headed hop)
  case stage => exact hs.stage_of_operates hop hothers (by rw [hpc']; rfl)

/-- `log_write` has the lock. -/
theorem Logged.absorb (h : s.Logged g) (hs : s.Sound g)
    (hroom : NBUF ≤ s.log.size ∨ HasRoom s.log (.proceed p)) (hidle : s.Idle p)
    (hpc : s.log.pc p = .locking k) (hbufs : (s.frame p).bufs = [b]) :
    ({ s.modify b fun x => { x with dirty := true } with
      log := (s.log.absorb k).goto p .working }.setFrame p ⟨none, 0, []⟩).Logged g := by
  have hop : (s.log.pc p).operates = true := by rw [hpc]; rfl
  obtain ⟨-, b', hbufs', hheld, hhome⟩ := (hs.parts p).args k (by rw [hpc]; rfl)
  obtain rfl : b = b' := List.singleton_inj.mp (hbufs.symm.trans hbufs')
  generalize ht : Store.setFrame { s.modify b fun x => { x with dirty := true } with
    log := (s.log.absorb k).goto p .working } p ⟨none, 0, []⟩ = t
  have hbio : t.bio = (s.modify b fun x => { x with dirty := true }).bio := by rw [← ht]; rfl
  have hlog : t.log = (s.log.absorb k).goto p .working := by rw [← ht]; rfl
  have hframe : t.frame = Function.update s.frame p ⟨none, 0, []⟩ := by rw [← ht]; rfl
  have hroot : t.root = s.root := root_congr (by rw [← ht]; rfl)
  have hlh : t.log.lh = (s.log.absorb k).lh := by rw [hlog]; rfl
  have hstart : t.log.start = s.log.start := by rw [hlog]; rfl
  have hsize : t.log.size = s.log.size := by rw [hlog]; rfl
  have hpc' : t.log.pc p = .working := by rw [hlog, Logging.goto_pc, Function.update_self]
  have htouches : s.Touches t p b := touches_of_modify hidle.1 hheld.lock hbio rfl
  have hbuf : t.buf b = { s.buf b with dirty := true } := buf_of_modify hbio
  have hdirty : ∀ c, c ≠ b → (t.line c).dirty = (s.line c).dirty := fun c hc => by
    rw [htouches.line c hc]
  have hself : (t.line b).dirty = true := by
    rw [line, hbuf]
    rfl
  have hnumber : k < Ide.FSSIZE :=
    (congrArg Prod.snd hheld.key).symm.trans_lt (h.number b (hs.valid_of_held hheld))
  have hothers : s.Others t p := by
    refine Refines.others ⟨Or.inr htouches.bio, Or.inr ⟨.proceed p, rfl, ?_⟩,
      fun q hq => by rw [hframe, Function.update_of_ne hq]⟩ hs
    rw [hlog]
    exact .absorb p k hpc
  constructor
  case fits =>
    rw [Room, hlh, hsize]
    rcases hroom with hlarge | hroom
    · exact Or.inl hlarge
    · refine h.fits.imp_right fun hfits hpos => ?_
      have hnow := hroom k (by rw [hpc]; rfl)
      rw [Logging.absorb]
      by_cases hk : k ∈ s.log.lh
      · rw [if_pos hk]
        exact hfits (List.length_pos_of_mem hk)
      · have hfull := hnow.resolve_left hk
        have hfull := of_decide_eq_false hfull
        rw [if_neg hk]
        simp only [List.length_append, List.length_singleton]
        omega
  case home =>
    rw [hlh, hstart, hsize]
    intro j hj
    rcases Logging.mem_absorb.mp hj with hj | rfl
    · exact h.home j hj
    · exact ⟨hhome, hnumber⟩
  case number =>
    intro c hc
    rw [show (t.buf c).blockno = (s.buf c).blockno from congrArg Prod.snd (htouches.key c)]
    by_cases hcb : c = b
    · rw [hcb]
      exact h.number b (hs.valid_of_held hheld)
    · exact h.number c ((congrArg Line.valid (htouches.line c hcb)).symm.trans hc)
  case marked =>
    intro c hc
    rw [hlh, htouches.key]
    by_cases hcb : c = b
    · exact ⟨k, Logging.mem_absorb.mpr (Or.inr rfl), by rw [hcb, hheld.key]⟩
    · rw [hdirty c hcb] at hc
      obtain ⟨j, hj, hkey⟩ := h.marked c hc
      exact ⟨j, Logging.mem_absorb.mpr (Or.inl hj), hkey⟩
  case pinned =>
    rw [hlh]
    intro _ j hj
    rcases Logging.mem_absorb.mp hj with hj | rfl
    · obtain ⟨c, hkey, hc⟩ := h.pinned (hs.not_installs hop) j hj
      refine ⟨c, (htouches.key c).trans hkey, ?_⟩
      by_cases hcb : c = b
      · rw [hcb]
        exact hself
      · rw [hdirty c hcb, hc]
    · exact ⟨b, (htouches.key b).trans hheld.key, hself⟩
  case pending =>
    rw [hlh]
    intro j hj
    rcases h.pending j hj with hj | ⟨q, hq⟩
    · exact Or.inl (Logging.mem_absorb.mpr (Or.inl hj))
    · by_cases hqp : q = p
      · rw [hqp, hpc] at hq
        cases hq
        exact Or.inl (Logging.mem_absorb.mpr (Or.inr rfl))
      · exact Or.inr ⟨q, (hothers.want hqp).2.1.trans hq⟩
  case settled =>
    rw [hstart, hsize]
    exact h.settled
  case kept =>
    rw [hstart, hsize, hroot]
    exact fun j hj _ => h.kept j hj fun _ => hs.not_installs hop
  case header =>
    rw [hstart, hroot]
    exact fun _ => h.header (hs.not_headed hop)
  case stage => exact hs.stage_of_operates hop hothers (by rw [hpc']; rfl)

/-! ## Instructions of a commit -/

omit [DecidableEq P] in
theorem Sound.idle_others (hs : s.Sound g) (hcommits : (s.log.pc p).commits = true)
    (hothers : s.Others t p) (hq : q ≠ p) : t.Stage g' (t.log.pc q) (t.frame q).done := by
  refine Stage.idle (not_writes ?_)
  rw [(hothers.want hq).1]
  exact hs.log.others hcommits q hq

omit [DecidableEq P] in
/-- Nobody has called `log_write` while somebody commits. -/
theorem Logged.pending_subset (h : s.Logged g) (hs : s.Sound g)
    (hcommits : (s.log.pc p).commits = true) (hk : k ∈ g.pending) : k ∈ s.log.lh := by
  refine (h.pending k hk).resolve_right ?_
  rintro ⟨q, hq⟩
  have hop : (s.log.pc q).operates = true := by
    by_contra hno
    rw [LogPc.block_of_not_operates (by simpa using hno)] at hq
    cases hq
  have hidle := hs.log.not_committing hop
  rw [hs.log.committing p hcommits] at hidle
  cases hidle

omit [DecidableEq P] [Fintype P] in
/-- A commit gives only blocks of the log new contents. -/
theorem Logged.latest (h : s.Logged g) (hcommitted : g'.committed = g.committed)
    (hpending : g'.pending = g.pending)
    (hlatest : ∀ k, ¬ InLog s.log.start s.log.size k → g'.latest k = g.latest k)
    (hstage : ∀ p, s.Stage g' (s.log.pc p) (s.frame p).done) : s.Logged g' := by
  refine ⟨h.fits, h.home, h.number, h.marked, h.pinned, ?_, fun k hk => ?_, ?_, h.header, hstage⟩
  · rw [hpending]
    exact h.pending
  · rw [hpending, hcommitted, hlatest k hk]
    exact h.settled k hk
  · rw [hcommitted]
    exact h.kept

/-- The contents of a buffer change, and nothing else. -/
theorem Logged.store (h : s.Logged g') (hs : s.Sound g) {i : Instr} {data : Block}
    (hidle : s.Idle p) (hinstr : s.instr p = some i)
    (hreads : ((s.log.pc p).reads s.log.start s.log.lh).length ≤ (s.frame p).done)
    (hdone : (s.frame p).done < (s.log.pc p).writeAt) (hb : (s.frame p).bufs[n]? = some b)
    (hinstalls : s.Installs p → (s.log.pc p).installs ((s.frame p).done + 1) = true)
    (hheaded : s.Headed p → (s.log.pc p).headed ((s.frame p).done + 1) = true)
    (hstage : s.Stage g' (s.log.pc p) ((s.frame p).done + 1)) :
    ((s.modify b fun x => { x with data := data }).advance p).Logged g' := by
  have hcommits := Local.commits_of_instr hinstr
  obtain ⟨blockno, -, hheld⟩ :=
    Local.held_of_bufs ((hs.parts p).bufs hinstr hreads hdone.le) hb
  have hstepped : (s.modify b fun x => { x with data := data }).stepped p = s.stepped p := rfl
  rw [advance_eq, hstepped, stepped_of_commits hcommits]
  generalize ht : (s.modify b fun x => { x with data := data }).setFrame p
    { s.frame p with done := (s.frame p).done + 1 } = t
  have hbio : t.bio = (s.modify b fun x => { x with data := data }).bio := by rw [← ht]; rfl
  have hlog : t.log = s.log := by rw [← ht]; rfl
  have hframe : t.frame p = { s.frame p with done := (s.frame p).done + 1 } := by
    rw [← ht]
    exact setFrame_self
  have htouches : s.Touches t p b := touches_of_modify hidle.1 hheld.lock hbio rfl
  have hbuf : t.buf b = { s.buf b with data := data } := buf_of_modify hbio
  have hflags : ∀ c, (t.line c).dirty = (s.line c).dirty ∧ (t.line c).valid = (s.line c).valid :=
    fun c => by
      by_cases hc : c = b
      · rw [hc, line, line, hbuf]
        exact ⟨rfl, rfl⟩
      · rw [htouches.line c hc]
        exact ⟨rfl, rfl⟩
  have hrefines : s.Refines t p :=
    ⟨Or.inr htouches.bio, Or.inl hlog, fun q hq => by rw [← ht]; exact setFrame_of_ne hq⟩
  have hsame : s.Same t :=
    ⟨by rw [hlog], by rw [hlog], by rw [hlog], by rw [← ht]; rfl, fun c => (hflags c).1,
      fun c _ => htouches.key c⟩
  refine h.same hsame (hrefines.others hs) (fun c hc => ?_) (by rw [hlog]) (fun hp => ?_)
    (fun hp => ?_) ?_
  · exact (congrArg Prod.snd (htouches.key c)).trans_lt
      (h.number c ((hflags c).2.symm.trans hc))
  · rw [Installs, hlog, hframe]
    exact hinstalls hp
  · rw [Headed, hlog, hframe]
    exact hheaded hp
  · rw [hlog, hframe]
    exact hstage.same hsame

omit [DecidableEq P] [Fintype P] in
/-- A block of the log is not one of those that are logged. -/
theorem Logged.ne_of_inLog (h : s.Logged g) {i j : ℕ} (hk : s.log.lh[i]? = some k)
    (hj : InLog s.log.start s.log.size j) : k ≠ j := by
  rintro rfl
  exact (h.home k (List.mem_of_getElem? hk)).1 hj

theorem Logged.memmove (h : s.Logged g) (hs : s.Sound g) {dst src : ℕ} (hidle : s.Idle p)
    (hinstr : s.instr p = some (.memmove dst src)) (hb : (s.frame p).bufs[dst]? = some b)
    (hc : (s.frame p).bufs[src]? = some c)
    (ht : t = (s.modify b fun x => { x with data := (s.buf c).data }).advance p) :
    t.Logged (g.record s (.proceed p) t) := by
  obtain ⟨hreads, hlt, -⟩ := at_of_body hinstr
  obtain ⟨hdone, tail, k, hk, hpc⟩ := memmove_of_body hinstr
  have hcommits := Local.commits_of_instr hinstr
  have hbufs := (hs.parts p).bufs hinstr hreads hlt.le
  have hstage := h.stage p
  have hbuf : t.buf b = { s.buf b with data := (s.buf c).data } := by
    rw [ht, advance_buf, modify_self]
  rcases hpc with ⟨hpc, rfl, rfl⟩ | ⟨hpc, rfl, rfl⟩
  · rw [hpc, LogPc.reads, hk] at hbufs
    rw [hpc, hdone] at hstage
    obtain ⟨_, hlog, hto⟩ := Local.held_of_bufs hbufs hb
    obtain ⟨_, hhome, hfrom⟩ := Local.held_of_bufs hbufs hc
    cases hlog
    cases hhome
    have hdata : (s.buf c).data = g.latest k := by
      have hdata := hs.coherent.data c (congrArg Prod.fst hfrom.key) (hs.valid_of_held hfrom)
      rwa [hfrom.key] at hdata
    have hrecord : g.record s (.proceed p) t =
        { g with latest := Function.update g.latest (s.log.start + tail + 1) (g.latest k) } := by
      have hblockno : (s.buf b).blockno = s.log.start + tail + 1 := congrArg Prod.snd hto.key
      rw [record_of_instr hidle hinstr, hpc, exec_writeLog hb, hbuf, ← hdata, ← hblockno]
    have hroom : s.Room := by
      rcases hstage.room rfl with hroom | ⟨-, hzero, -⟩
      · exact hroom
      · cases hzero
    have hlength := (List.getElem?_eq_some_iff.mp hk).1
    have hin : InLog s.log.start s.log.size (s.log.start + tail + 1) := by
      have hsize := hroom.1
      exact ⟨by omega, by omega⟩
    -- after the copy, and as far as what was there before is concerned
    have hcopied : ∀ d, d = 2 ∨ d = 3 →
        s.Stage (g.record s (.proceed p) t) (.writeLog tail) d := by
      rw [hrecord]
      intro d hd
      have h4 : ¬ 4 ≤ d := by omega
      constructor
      case room => exact fun _ => Or.inl hroom
      case copied =>
        intro i j hi hj
        have hi : i < tail + 1 := by
          rw [LogPc.copied] at hi
          split at hi <;> omega
        dsimp only
        rw [Function.update_of_ne (h.ne_of_inLog hj hin)]
        by_cases hit : i = tail
        · subst hit
          rw [Function.update_self]
          rw [hk] at hj
          cases hj
          rfl
        · rw [Function.update_of_ne (by omega)]
          exact hstage.copied i j (by rw [LogPc.copied, if_neg (by omega)]; omega) hj
      case stored =>
        intro i j hi hj
        dsimp only
        rw [LogPc.stored, if_neg h4] at hi
        rw [Function.update_of_ne (h.ne_of_inLog hj hin)]
        exact hstage.stored i j (by rw [LogPc.stored, if_neg (by omega)]; exact hi) hj
      case titled => exact fun h => by rcases h with h | h <;> cases h
      case headed => exact fun h => Bool.noConfusion h
      case emptied => exact fun h => Bool.noConfusion h
      case installed => exact fun i j b hi => absurd hi (Nat.not_lt_zero i)
    have hbefore : s.Logged (g.record s (.proceed p) t) := by
      refine h.latest (by rw [hrecord]) (by rw [hrecord]) (fun j hj => ?_) fun q => ?_
      · rw [hrecord]
        refine Function.update_of_ne ?_ ..
        rintro rfl
        exact hj hin
      · by_cases hq : q = p
        · rw [hq, hpc, hdone]
          exact hcopied 2 (Or.inl rfl)
        · exact Stage.idle (not_writes (hs.log.others hcommits q hq))
    have hinstalls : s.Installs p → (s.log.pc p).installs ((s.frame p).done + 1) = true := by
      intro hp
      rw [Installs, hpc] at hp
      cases hp
    have hheaded : s.Headed p → (s.log.pc p).headed ((s.frame p).done + 1) = true := by
      intro hp
      rw [Headed, hpc] at hp
      cases hp
    have hafter : ((s.modify b fun x => { x with data := (s.buf c).data }).advance p).Logged
        (g.record s (.proceed p) t) :=
      hbefore.store hs hidle hinstr hreads hlt hb hinstalls hheaded
        (by rw [hpc, hdone]; exact hcopied 3 (Or.inr rfl))
    rwa [← ht] at hafter
  · have hrecord : g.record s (.proceed p) t = g := by
      rw [record_of_instr hidle hinstr, hpc]
      rfl
    rw [hrecord, ht]
    refine h.store hs hidle hinstr hreads hlt hb (fun _ => by rw [hpc]; rfl)
      (fun _ => by rw [hpc]; rfl) ?_
    rw [hpc, hdone] at hstage ⊢
    refine hstage.succ (fun n => ⟨rfl, rfl, rfl⟩) rfl rfl
      (fun h => by rcases h with h | h <;> cases h) fun h => by cases h

theorem Logged.header_filled (h : s.Logged g) (hs : s.Sound g) (hidle : s.Idle p)
    (hinstr : s.instr p = some (.header k)) (hb : (s.frame p).bufs[k]? = some b)
    (ht : t = (s.modify b fun x => { x with data := headerOf s.log.lh x.data }).advance p) :
    t.Logged (g.record s (.proceed p) t) := by
  obtain ⟨hreads, hlt, -⟩ := at_of_body hinstr
  obtain ⟨hdone, rfl, hpc⟩ := header_of_body hinstr
  have hcommits := Local.commits_of_instr hinstr
  have hbufs := (hs.parts p).bufs hinstr hreads hlt.le
  have hstage := h.stage p
  rw [hdone] at hstage
  have hreads' : (s.log.pc p).reads s.log.start s.log.lh = [s.log.start] := by
    rcases hpc with hpc | hpc <;> rw [hpc] <;> rfl
  rw [hreads'] at hbufs
  obtain ⟨_, hlog, hto⟩ := Local.held_of_bufs hbufs hb
  cases hlog
  have hbuf : t.buf b = { s.buf b with data := headerOf s.log.lh (s.buf b).data } := by
    rw [ht, advance_buf, modify_self]
  have hrecord : g.record s (.proceed p) t = { g with
      latest := Function.update g.latest s.log.start (headerOf s.log.lh (s.buf b).data) } := by
    have hblockno : (s.buf b).blockno = s.log.start := congrArg Prod.snd hto.key
    rw [record_of_instr hidle hinstr, Contents.exec, hb]
    dsimp only
    rw [hbuf, hblockno]
  have hroom : s.Room := by
    have hwrites : (s.log.pc p).writes = true := by
      rcases hpc with hpc | hpc <;> rw [hpc] <;> rfl
    rcases hstage.room hwrites with hroom | ⟨hpc', -⟩
    · exact hroom
    · rcases hpc with hpc | hpc <;> rw [hpc] at hpc' <;> cases hpc'
  have hin : InLog s.log.start s.log.size s.log.start := by
    have hsize := hroom.1
    exact ⟨le_rfl, by omega⟩
  have htitled : ∀ d, d = 1 ∨ d = 2 → s.Stage (g.record s (.proceed p) t) (s.log.pc p) d := by
    rw [hrecord]
    intro d hd
    have hkept : ∀ i j, s.log.lh[i]? = some j →
        Function.update g.latest s.log.start (headerOf s.log.lh (s.buf b).data) j = g.latest j :=
      fun i j hj => Function.update_of_ne (h.ne_of_inLog hj hin) ..
    have hcopies : ∀ i, Function.update g.latest s.log.start
        (headerOf s.log.lh (s.buf b).data) (s.log.start + i + 1) = g.latest (s.log.start + i + 1) :=
      fun i => Function.update_of_ne (by omega) ..
    have hnot : decide (3 ≤ d) = false := decide_eq_false (by omega)
    constructor
    case room => exact fun _ => Or.inl hroom
    case copied =>
      intro i j hi hj
      dsimp only
      rw [hkept i j hj, hcopies]
      refine hstage.copied i j ?_ hj
      rcases hpc with hpc | hpc <;> rw [hpc] at hi ⊢ <;> exact hi
    case stored =>
      intro i j hi hj
      dsimp only
      rw [hkept i j hj]
      refine hstage.stored i j ?_ hj
      rcases hpc with hpc | hpc <;> rw [hpc] at hi ⊢ <;> exact hi
    case titled => exact fun _ _ => ⟨_, Function.update_self ..⟩
    case headed =>
      intro hheaded
      rcases hpc with hpc | hpc
      · rw [hpc, LogPc.headed, hnot] at hheaded
        cases hheaded
      · obtain ⟨base, trans, hfits, hcommitted, hall, -⟩ := hstage.headed (by rw [hpc]; rfl)
        refine ⟨base, trans, hfits, hcommitted, hall, fun hno => ?_⟩
        rw [hpc] at hno
        cases hno
    case emptied =>
      intro hinstalls
      rcases hpc with hpc | hpc
      · rw [hpc, LogPc.installs, hnot] at hinstalls
        cases hinstalls
      · rw [hpc] at hinstalls
        cases hinstalls
    case installed =>
      intro i j c hi
      rcases hpc with hpc | hpc <;> rw [hpc] at hi <;> exact absurd hi (Nat.not_lt_zero i)
  have hbefore : s.Logged (g.record s (.proceed p) t) := by
    refine h.latest (by rw [hrecord]) (by rw [hrecord]) (fun j hj => ?_) fun q => ?_
    · rw [hrecord]
      refine Function.update_of_ne ?_ ..
      rintro rfl
      exact hj hin
    · by_cases hq : q = p
      · rw [hq, hdone]
        exact htitled 1 (Or.inl rfl)
      · exact Stage.idle (not_writes (hs.log.others hcommits q hq))
  have hinstalls : s.Installs p → (s.log.pc p).installs ((s.frame p).done + 1) = true := by
    intro hp
    rw [Installs, hdone] at hp
    rcases hpc with hpc | hpc <;> rw [hpc] at hp <;> cases hp
  have hheaded : s.Headed p → (s.log.pc p).headed ((s.frame p).done + 1) = true := by
    intro hp
    rw [Headed, hdone] at hp
    rw [hdone]
    rcases hpc with hpc | hpc
    · rw [hpc] at hp
      cases hp
    · rw [hpc]
      rfl
  have hsame : s.modify b (fun x => { x with data := headerOf s.log.lh x.data }) =
      s.modify b fun x => { x with data := headerOf s.log.lh (s.buf b).data } := modify_congr rfl
  have hafter : ((s.modify b fun x =>
      { x with data := headerOf s.log.lh (s.buf b).data }).advance p).Logged
        (g.record s (.proceed p) t) :=
    hbefore.store hs hidle hinstr hreads hlt hb hinstalls hheaded
      (by rw [hdone]; exact htitled 2 (Or.inr rfl))
  rwa [← hsame, ← ht] at hafter

/-! ## Writes of a commit -/

omit [DecidableEq P] [Fintype P] in
theorem Written.root (hw : s.Written t p b k) :
    t.root = Function.update s.root k (s.buf b).data := by
  funext j
  rw [Store.root, hw.disk]
  by_cases hj : j = k
  · rw [hj, Function.update_self, Function.update_self]
  · have hne : (ROOTDEV, j) ≠ (ROOTDEV, k) := fun heq => hj (congrArg Prod.snd heq)
    rw [Function.update_of_ne hne, Function.update_of_ne hj]
    rfl

omit [DecidableEq P] in
/-- The contents of the buffer that is written. -/
theorem Written.data (hw : s.Written t p b k) (hs : s.Sound g) : (s.buf b).data = g.latest k := by
  have hdata := hs.coherent.data b (congrArg Prod.fst hw.held.key) (hs.valid_of_held hw.held)
  rwa [hw.held.key] at hdata

/-- What is to be shown when a block has been written to the disk. -/
theorem Logged.written (h : s.Logged g) (hs : s.Sound g) (hw : s.Written t p b k)
    (htouches : s.Touches t p b) (hcommits : (s.log.pc p).commits = true)
    (hframe : ∀ q, q ≠ p → t.frame q = s.frame q)
    (hpending : g'.pending = g.pending ∨ g'.pending = ∅) (hinstalls : s.Installs p → t.Installs p)
    (hpinned : ¬ t.Installs p → k ∉ s.log.lh)
    (hsettled : ∀ j, ¬ InLog s.log.start s.log.size j → j ∉ g'.pending →
      g'.committed j = g'.latest j)
    (hkept : ∀ j, ¬ InLog s.log.start s.log.size j → (j ∈ s.log.lh → ¬ t.Installs p) →
      t.root j = g'.committed j)
    (hheader : ¬ t.Headed p → t.root s.log.start 0 = 0)
    (hstage : t.Stage g' (s.log.pc p) ((s.frame p).done + 1)) : t.Logged g' := by
  have hlog := hw.log
  have hothers : s.Others t p := Refines.others ⟨Or.inr htouches.bio, Or.inl hlog, hframe⟩ hs
  have hflags : ∀ c, c ≠ b →
      (t.line c).dirty = (s.line c).dirty ∧ (t.line c).valid = (s.line c).valid := fun c hc => by
    rw [htouches.line c hc]
    exact ⟨rfl, rfl⟩
  have hclean : (t.line b).dirty = false := by
    rw [line, hw.buf]
    rfl
  constructor
  case fits =>
    rw [Room, hlog]
    exact h.fits
  case home =>
    rw [hlog]
    exact h.home
  case number =>
    intro c hc
    rw [show (t.buf c).blockno = (s.buf c).blockno from congrArg Prod.snd (htouches.key c)]
    by_cases hcb : c = b
    · rw [hcb]
      exact h.number b (hs.valid_of_held hw.held)
    · exact h.number c ((hflags c hcb).2.symm.trans hc)
  case marked =>
    intro c hc
    have hcb : c ≠ b := by
      rintro rfl
      rw [hclean] at hc
      cases hc
    rw [hlog, htouches.key]
    exact h.marked c ((hflags c hcb).1.symm.trans hc)
  case pinned =>
    intro hno j hj
    rw [hlog] at hj
    have hnone : ∀ q, ¬ s.Installs q := fun q hq => by
      by_cases hqp : q = p
      · exact hno p (hinstalls (hqp ▸ hq))
      · exact hno q ((hothers.installs hqp).mpr hq)
    obtain ⟨c, hkey, hc⟩ := h.pinned hnone j hj
    have hcb : c ≠ b := by
      rintro rfl
      rw [hw.held.key] at hkey
      have hkj : k = j := congrArg Prod.snd hkey
      exact hpinned (hno p) (hkj ▸ hj)
    exact ⟨c, (htouches.key c).trans hkey, (hflags c hcb).1.trans hc⟩
  case pending =>
    intro j hj
    rw [hlog]
    rcases hpending with hpending | hpending
    · rw [hpending] at hj
      exact h.pending j hj
    · rw [hpending] at hj
      exact absurd hj (Finset.notMem_empty j)
  case settled =>
    rw [hlog]
    exact hsettled
  case kept =>
    rw [hlog]
    exact fun j hj hno => hkept j hj fun hmem => hno hmem p
  case header =>
    rw [hlog]
    exact fun hno => hheader (hno p)
  case stage =>
    intro q
    by_cases hq : q = p
    · rw [hq, hlog, hw.frame]
      exact hstage
    · exact hs.idle_others hcommits hothers hq

/-- `write_log` writes a copy to the log. -/
theorem Logged.bwrite_writeLog (h : s.Logged g) (hs : s.Sound g) {tail j : ℕ}
    (hw : s.Written t p b k) (htouches : s.Touches t p b)
    (hframe : ∀ q, q ≠ p → t.frame q = s.frame q) (hpc : s.log.pc p = .writeLog tail)
    (hdone : (s.frame p).done = 3) (hj : s.log.lh[tail]? = some j)
    (hk : k = s.log.start + tail + 1) : t.Logged g := by
  have hstage := h.stage p
  rw [hpc, hdone] at hstage
  have hroom : s.Room := by
    rcases hstage.room rfl with hroom | ⟨-, hzero, -⟩
    · exact hroom
    · cases hzero
  have hlength := (List.getElem?_eq_some_iff.mp hj).1
  have hin : InLog s.log.start s.log.size k := by
    have hsize := hroom.1
    exact ⟨by omega, by omega⟩
  have hcommits : (s.log.pc p).commits = true := by
    rw [hpc]
    rfl
  have hnone : ∀ q, ¬ s.Installs q := fun q hq => by
    obtain rfl : q = p := hs.log.committer q p (commits_of_installs hq) hcommits
    rw [Installs, hpc] at hq
    cases hq
  have hroot : t.root = Function.update s.root k (g.latest k) := by rw [hw.root, hw.data hs]
  have hpc' : t.log.pc p = .writeLog tail := by rw [hw.log, hpc]
  refine h.written hs hw htouches hcommits hframe (Or.inl rfl) (fun hp => absurd hp (hnone p))
    (fun _ hmem => (h.home k hmem).1 hin) h.settled (fun i hi _ => ?_) (fun _ => ?_) ?_
  · have hne : i ≠ k := by
      rintro rfl
      exact hi hin
    rw [hroot, Function.update_of_ne hne]
    exact h.kept i hi fun _ => hnone
  · rw [hroot, Function.update_of_ne (by omega)]
    refine h.header fun q hq => ?_
    obtain rfl : q = p := hs.log.committer q p (commits_of_headed hq) hcommits
    rw [Headed, hpc] at hq
    cases hq
  · rw [hpc, hdone]
    constructor
    case room =>
      rw [Room, hw.log]
      exact fun _ => Or.inl hroom
    case copied =>
      rw [hw.log]
      exact hstage.copied
    case stored =>
      rw [hw.log, hroot]
      intro i j' hi hj'
      have hi : i < tail + 1 := hi
      by_cases hit : i = tail
      · rw [hit, ← hk, Function.update_self, hk]
        rw [hit] at hj'
        exact hstage.copied tail j' (Nat.lt_succ_self tail) hj'
      · rw [Function.update_of_ne (by omega)]
        refine hstage.stored i j' ?_ hj'
        have hlt : i < tail := by omega
        exact hlt
    case titled => exact fun h => by rcases h with h | h <;> cases h
    case headed => exact fun h => Bool.noConfusion h
    case emptied => exact fun h => Bool.noConfusion h
    case installed => exact fun i j b hi => absurd hi (Nat.not_lt_zero i)

/-- The transaction that a commit has put into the log. -/
def logTrans (lh : List ℕ) (disk : Disk) : List (ℕ × Block) :=
  lh.map fun k => (k, disk k)

omit [DecidableEq P] [Fintype P] in
theorem logged_logTrans {start tail : ℕ} {lh : List ℕ} {disk contents : Disk}
    (h : ∀ i k, lh[i]? = some k → disk (start + tail + i + 1) = contents k) :
    logged disk start tail lh = logTrans lh contents := by
  induction lh generalizing tail with
  | nil => rfl
  | cons k rest ih =>
      have hrest : ∀ i j, rest[i]? = some j → disk (start + (tail + 1) + i + 1) = contents j := by
        intro i j hj
        rw [show start + (tail + 1) + i + 1 = start + tail + (i + 1) + 1 by omega]
        exact h (i + 1) j hj
      rw [logged, ih hrest, h 0 k rfl]
      rfl

omit [DecidableEq P] [Fintype P] in
theorem map_fst_logTrans {lh : List ℕ} {disk : Disk} : (logTrans lh disk).map Prod.fst = lh := by
  rw [logTrans, List.map_map]
  exact List.map_id lh

/-- `write_head` commits. -/
theorem Logged.bwrite_writeHead (h : s.Logged g) (hs : s.Sound g) (hw : s.Written t p b k)
    (htouches : s.Touches t p b) (hframe : ∀ q, q ≠ p → t.frame q = s.frame q)
    (hpc : s.log.pc p = .writeHead) (hdone : (s.frame p).done = 2) (hk : k = s.log.start) :
    t.Logged { g with committed := g.latest, pending := ∅ } := by
  subst hk
  have hstage := h.stage p
  rw [hpc, hdone] at hstage
  have hroom : s.Room := by
    rcases hstage.room rfl with hroom | ⟨hpc', -⟩
    · exact hroom
    · cases hpc'
  have hin : InLog s.log.start s.log.size s.log.start := by
    have hsize := hroom.1
    exact ⟨le_rfl, by omega⟩
  have hcommits : (s.log.pc p).commits = true := by
    rw [hpc]
    rfl
  have hnone : ∀ q, ¬ s.Installs q := fun q hq => by
    obtain rfl : q = p := hs.log.committer q p (commits_of_installs hq) hcommits
    rw [Installs, hpc, hdone] at hq
    cases hq
  have hnow : t.Installs p := by
    rw [Installs, hw.log, hpc, hw.frame, hdone]
    rfl
  obtain ⟨header, htitled⟩ := hstage.titled (Or.inl rfl) rfl
  have hroot : t.root = Function.update s.root s.log.start (headerOf s.log.lh header) := by
    rw [hw.root, hw.data hs, htitled]
  have hhome : ∀ j, ¬ InLog s.log.start s.log.size j → t.root j = s.root j := fun j hj => by
    rw [hroot, Function.update_of_ne]
    rintro rfl
    exact hj hin
  -- what is not in the log has not been changed since the last commit
  have hsame : ∀ j, ¬ InLog s.log.start s.log.size j → j ∉ s.log.lh → s.root j = g.latest j := by
    intro j hj hmem
    rw [h.kept j hj fun hmem' => absurd hmem' hmem]
    exact h.settled j hj fun hpending => hmem (h.pending_subset hs hcommits hpending)
  refine h.written hs hw htouches hcommits hframe (Or.inr rfl) (fun hp => absurd hp (hnone p))
    (fun hno => absurd hnow hno) (fun _ _ _ => rfl) (fun j hj hmem => ?_)
    (fun hno => absurd (headed_of_installs hnow) hno) ?_
  · rw [hhome j hj]
    exact hsame j hj fun hmem' => hmem hmem' hnow
  · rw [hpc, hdone]
    constructor
    case room =>
      rw [Room, hw.log]
      exact fun _ => Or.inl hroom
    case copied =>
      rw [hw.log]
      exact hstage.copied
    case stored =>
      rw [hw.log, hroot]
      intro i j hi hj
      rw [Function.update_of_ne (by omega)]
      exact hstage.stored i j hi hj
    case titled => exact fun _ h => by cases h
    case headed =>
      intro _
      rw [hw.log]
      refine ⟨s.root, logTrans s.log.lh g.latest, ⟨?_, ?_, ?_, ?_, ?_⟩, ⟨?_, ?_, ?_⟩, ?_, fun _ =>
        map_fst_logTrans⟩
      · rw [map_fst_logTrans]
        exact hs.log.nodup
      · rw [map_fst_logTrans]
        exact fun j hj => (h.home j hj).1
      · rw [map_fst_logTrans]
        intro j hj
        have hnumber := (h.home j hj).2
        have hFSSIZE : Ide.FSSIZE = 1000 := rfl
        omega
      · rw [logTrans, List.length_map]
        exact hroom.2
      · rw [logTrans, List.length_map]
        exact hroom.1
      · rw [map_fst_logTrans, hroot, Function.update_self]
        refine readHead_headerOf header hroom.2 fun j hj => ?_
        have hnumber := (h.home j hj).2
        have hFSSIZE : Ide.FSSIZE = 1000 := rfl
        omega
      · rw [map_fst_logTrans]
        refine logged_logTrans fun i j hj => ?_
        rw [hroot, Function.update_of_ne (by omega)]
        exact hstage.stored i j (List.getElem?_eq_some_iff.mp hj).1 hj
      · rw [map_fst_logTrans]
        exact fun j hj _ => hhome j hj
      · intro j hj
        by_cases hmem : j ∈ s.log.lh
        · refine writeAll_of_mem ?_ (List.mem_map.mpr ⟨j, hmem, rfl⟩)
          rw [map_fst_logTrans]
          exact hs.log.nodup
        · rw [writeAll_of_not_mem (by rwa [map_fst_logTrans])]
          exact hsame j hj hmem
    case emptied => exact fun _ => rfl
    case installed => exact fun i j b hi => absurd hi (Nat.not_lt_zero i)

/-- `install_trans` writes a block home. -/
theorem Logged.bwrite_installTrans (h : s.Logged g) (hs : s.Sound g) {tail : ℕ}
    (hw : s.Written t p b k) (htouches : s.Touches t p b)
    (hframe : ∀ q, q ≠ p → t.frame q = s.frame q) (hpc : s.log.pc p = .installTrans tail)
    (hdone : (s.frame p).done = 3) (hk : s.log.lh[tail]? = some k) : t.Logged g := by
  have hstage := h.stage p
  rw [hpc, hdone] at hstage
  have hcommits : (s.log.pc p).commits = true := by
    rw [hpc]
    rfl
  have hmem := List.mem_of_getElem? hk
  have hhome := (h.home k hmem).1
  have hnow : t.Installs p := by
    rw [Installs, hw.log, hpc]
    rfl
  have hroot : t.root = Function.update s.root k (g.latest k) := by rw [hw.root, hw.data hs]
  have hlogBlocks : ∀ j, InLog s.log.start s.log.size j → t.root j = s.root j := fun j hj => by
    rw [hroot, Function.update_of_ne]
    rintro rfl
    exact hhome hj
  have hroom : s.Room := by
    rcases hstage.room rfl with hroom | ⟨hpc', -⟩
    · exact hroom
    · cases hpc'
  refine h.written hs hw htouches hcommits hframe (Or.inl rfl) (fun _ => hnow)
    (fun hno => absurd hnow hno) h.settled (fun j hj hno => ?_)
    (fun hno => absurd (headed_of_installs hnow) hno) ?_
  · have hjk : j ≠ k := by
      rintro rfl
      exact hno hmem hnow
    rw [hroot, Function.update_of_ne hjk]
    exact h.kept j hj fun hmem' => absurd hnow (hno hmem')
  · rw [hpc, hdone]
    constructor
    case room =>
      rw [Room, hw.log]
      exact fun _ => Or.inl hroom
    case copied =>
      rw [hw.log]
      exact hstage.copied
    case stored => exact fun i j hi => absurd hi (Nat.not_lt_zero i)
    case titled => exact fun h => by rcases h with h | h <;> cases h
    case headed =>
      intro _
      rw [hw.log]
      obtain ⟨base, trans, hfits, hcommitted, hall, hlh⟩ := hstage.headed rfl
      have hnames := hlh rfl
      refine ⟨base, trans, hfits, ⟨?_, ?_, fun j hj hno => ?_⟩, hall, fun _ => hnames⟩
      · rw [hlogBlocks _ hfits.inLog_start]
        exact hcommitted.header
      · rw [logged_congr hfits.length_lt fun j _ hj => hlogBlocks j hj]
        exact hcommitted.log
      · rw [hroot, Function.update_of_ne]
        · exact hcommitted.home j hj hno
        · rintro rfl
          exact hno (hnames ▸ hmem)
    case emptied => exact hstage.emptied
    case installed =>
      rw [hw.log]
      intro i j c hi hj hc
      have hi : i < tail + 1 := hi
      by_cases hcb : c = b
      · rw [hcb, line, hw.buf]
        rfl
      · rw [htouches.key] at hc
        rw [htouches.line c hcb]
        refine hstage.installed i j c ?_ hj hc
        have hit : i ≠ tail := by
          rintro rfl
          rw [hk] at hj
          cases hj
          exact hcb (hs.coherent.unique c b (congrArg Prod.fst hc) (hc.trans hw.held.key.symm))
        have hlt : i < tail := by omega
        exact hlt

/-- The second `write_head` empties the log. -/
theorem Logged.bwrite_eraseHead (h : s.Logged g) (hs : s.Sound g) (hw : s.Written t p b k)
    (htouches : s.Touches t p b) (hframe : ∀ q, q ≠ p → t.frame q = s.frame q)
    (hpc : s.log.pc p = .eraseHead) (hdone : (s.frame p).done = 2) (hk : k = s.log.start) :
    t.Logged g := by
  subst hk
  have hstage := h.stage p
  rw [hpc, hdone] at hstage
  have hcommits : (s.log.pc p).commits = true := by
    rw [hpc]
    rfl
  have hlh : s.log.lh = [] := hs.log.erased p (by rw [hpc]; rfl)
  have hroom : s.Room := by
    rcases hstage.room rfl with hroom | ⟨hpc', -⟩
    · exact hroom
    · cases hpc'
  have hin : InLog s.log.start s.log.size s.log.start := by
    have hsize := hroom.1
    exact ⟨le_rfl, by omega⟩
  obtain ⟨header, htitled⟩ := hstage.titled (Or.inr rfl) rfl
  have hroot : t.root = Function.update s.root s.log.start (headerOf [] header) := by
    rw [hw.root, hw.data hs, htitled, hlh]
  refine h.written hs hw htouches hcommits hframe (Or.inl rfl) (fun hp => ?_) (fun _ => ?_)
    h.settled (fun j hj _ => ?_) (fun _ => ?_) ?_
  · rw [Installs, hpc] at hp
    cases hp
  · rw [hlh]
    exact List.not_mem_nil
  · rw [hroot, Function.update_of_ne]
    · refine h.kept j hj fun hmem => ?_
      rw [hlh] at hmem
      exact absurd hmem List.not_mem_nil
    · rintro rfl
      exact hj hin
  · rw [hroot, Function.update_self]
    exact headerOf_nil_zero header
  · rw [hpc, hdone]
    constructor
    case room =>
      rw [Room, hw.log]
      exact fun _ => Or.inl hroom
    case copied => exact fun i k hi => absurd hi (Nat.not_lt_zero i)
    case stored => exact fun i k hi => absurd hi (Nat.not_lt_zero i)
    case titled => exact fun _ h => by cases h
    case headed => exact fun h => by cases h
    case emptied => exact fun h => by cases h
    case installed => exact fun i k b hi => absurd hi (Nat.not_lt_zero i)

theorem Logged.bwrite (h : s.Logged g) (hs : s.Sound g) {u : Store P} (hidle : s.Idle p)
    (hinstr : s.instr p = some (.bwrite n)) (hb : (s.frame p).bufs[n]? = some b)
    (hu : s.bwrite p b = .next u) :
    (u.advance p).Logged (g.record s (.proceed p) (u.advance p)) := by
  obtain ⟨k, hk, hw, htouches, -⟩ := hs.bwrite hidle hinstr hb hu
  have hframe : ∀ q, q ≠ p → (u.advance p).frame q = s.frame q := fun q hq => by
    obtain ⟨-, hu'⟩ := bwrite_eq hu
    rw [advance_eq, setFrame_of_ne hq, hu']
    rfl
  rw [record_of_instr hidle hinstr]
  rcases bwrite_of_body hinstr with ⟨tail, j, hj, hdone, hpc⟩ | ⟨hdone, rfl, hpc⟩
  · rcases hpc with ⟨hpc, rfl⟩ | ⟨hpc, rfl⟩
    · rw [hpc, LogPc.reads, hj] at hk
      rw [hpc]
      exact h.bwrite_writeLog hs hw htouches hframe hpc hdone hj (Option.some.inj hk).symm
    · rw [hpc, LogPc.reads, hj] at hk
      rw [hpc]
      refine h.bwrite_installTrans hs hw htouches hframe hpc hdone ?_
      rw [hj]
      exact hk
  · rcases hpc with hpc | hpc
    · rw [hpc] at hk
      rw [hpc]
      exact h.bwrite_writeHead hs hw htouches hframe hpc hdone (Option.some.inj hk).symm
    · rw [hpc] at hk
      rw [hpc]
      exact h.bwrite_eraseHead hs hw htouches hframe hpc hdone (Option.some.inj hk).symm

/-! ## All steps -/

/-- As `Xv6.HasRoom`, for a step of the whole system. -/
def HasRoom {P : Type} (s : Store P) : StoreCall P → Prop
  | .proceed p => Xv6.HasRoom s.log (.proceed p)
  | _ => True

instance {P : Type} (s : Store P) : DecidablePred s.HasRoom
  | .proceed p => inferInstanceAs (Decidable (Xv6.HasRoom s.log (.proceed p)))
  | .bread _ _ _ | .logWrite _ _ _ | .brelse _ _ | .beginOp _ | .endOp _ | .kill _ => isTrue trivial

omit [DecidableEq P] [Fintype P] in
theorem Logged.redoes (h : s.Logged g) : s.Redoes g := by
  intro p tail k hpc hk
  have hcopied := (h.stage p).copied tail k
  rw [hpc] at hcopied
  exact hcopied (List.getElem?_eq_some_iff.mp hk).1 hk

theorem Logged.step (h : s.Logged g) (hs : s.Sound g)
    (hroom : NBUF ≤ s.log.size ∨ s.HasRoom a) (hstep : StoreStep s a t) :
    t.Logged (g.record s a t) := by
  cases hstep with
  | get _ p dev blockno bio hidle hdev ha hbio =>
      have hrecord : g.record s a { s with bio := bio } = g := by
        rcases ha with ⟨rfl, -⟩ | ⟨rfl, -, hinstr⟩
        · rfl
        · rw [record_of_instr hidle hinstr]
          rfl
      rw [hrecord]
      exact h.get hs hbio
  | lock p b bio hpc hbio =>
      rw [record_of_busy fun hidle => by rw [hidle.1] at hpc; cases hpc]
      exact h.lock hs hpc hbio
  | hit p b hpc hreading hvalid =>
      rw [record_of_busy fun hidle => by rw [hidle.2] at hreading; cases hreading]
      exact h.hit hs hreading
  | fetch p b u hpc hreading hvalid hu =>
      rw [record_of_busy fun hidle => by rw [hidle.2] at hreading; cases hreading]
      exact h.fetch hs hpc hreading hvalid hu
  | change p b data hfree hchanges hpc hfull => exact h.change hs hfree hchanges hpc hfull
  | release _ p b bio hidle ha hbio =>
      have hrecord : g.record s a { s with bio := bio } = g := by
        rcases ha with ⟨rfl, -⟩ | ⟨rfl, k, hinstr, -⟩
        · rfl
        · rw [record_of_instr hidle hinstr]
          rfl
      rw [hrecord]
      exact h.release hs hbio
  | unref p b bio hpc hbio =>
      rw [record_of_busy fun hidle => by rw [hidle.1] at hpc; cases hpc]
      exact h.unref hs hpc hbio
  | memmove p dst src d c hidle hinstr hd hc => exact h.memmove hs hidle hinstr hd hc rfl
  | header p k b hidle hinstr hb => exact h.header_filled hs hidle hinstr hb rfl
  | bwrite p k b u hidle hinstr hb hu => exact h.bwrite hs hidle hinstr hb hu
  | log _ c log hlog hc =>
      have hrecord : g.record s a { s with log := log } = g := by
        rcases hc with ⟨p, rfl, -⟩ | ⟨p, rfl, -⟩ | ⟨p, rfl, -⟩ | ⟨p, k, rfl, -, -, hpc⟩
        · rfl
        · rfl
        · rfl
        · exact record_of_none (instr_eq_none (by rw [hpc]; rfl))
      rw [hrecord]
      exact h.log_step hs hlog hc
  | absorb p k b hidle hpc hbufs =>
      rw [record_of_none (instr_eq_none (by rw [hpc]; rfl))]
      exact h.absorb hs hroom hidle hpc hbufs
  | commit p log hidle hinstr hcommits hlog =>
      rw [record_of_none hinstr]
      exact h.commit hs hinstr hcommits hlog

end Steps

/-! ## The start -/

section Boot

variable [Fintype P] {start size : ℕ} {disk : ℕ × ℕ → Block}

theorem sound_boot : (boot P start size disk).Sound (Contents.boot disk) where
  bio := ⟨_, _, BioInv.boot _⟩
  log := Logging.inv_boot P start size
  drive _ := Nat.zero_lt_two
  clean _ h := Bool.noConfusion h
  parts p :=
    { reading := fun b h => by cases h
      valid := fun b h => by cases h
      rest := fun _ _ => ⟨rfl, rfl⟩
      args := fun k h => by cases h
      vars := fun h => by cases h
      target := fun h => by cases h
      releasing := fun h => by cases h }
  coherent :=
    { unique := fun i j h => by cases h
      data := fun i h => by cases h
      stale := fun k hk hne => by
        have hroot : k = (ROOTDEV, k.2) := Prod.ext hk rfl
        exact absurd (congrArg disk hroot) hne }

omit [Fintype P] in
theorem logged_boot (hrecovered : disk (ROOTDEV, start) 0 = 0) :
    (boot P start size disk).Logged (Contents.boot disk) where
  fits := Or.inr fun h => absurd h (Nat.lt_irrefl 0)
  home _ h := absurd h List.not_mem_nil
  number _ h := Bool.noConfusion h
  marked _ h := Bool.noConfusion h
  pinned _ _ h := absurd h List.not_mem_nil
  pending _ h := absurd h (Finset.notMem_empty _)
  settled _ _ _ := rfl
  kept _ _ _ := rfl
  header _ := hrecovered
  stage _ := Stage.idle rfl

end Boot

/-! ## Every run -/

/-- The disk is what processes read, and it holds what has been committed. -/
structure Transparent (s : Store P) (g : Contents) : Prop where
  reads : ∀ p b, (s.buf b).lock = some p → (s.frame p).reading ≠ some b → (s.buf b).dev ≠ 0 →
    (s.buf b).valid = true ∧ (s.buf b).data = g.latest (s.buf b).blockno
  withheld : ∀ k ∈ g.pending, s.root k = g.committed k
  atRest : s.log.outstanding = 0 → s.log.committing = false →
    ∀ k, ¬ InLog s.log.start s.log.size k → s.root k = g.latest k

section Runs

variable [DecidableEq P] [Fintype P] {start size : ℕ} {disk : ℕ × ℕ → Block}

/-- The runs in which the log is not filled beyond its end: it has as many blocks as there are
buffers, or there is room for each block that is logged. -/
abbrev Runs (start size : ℕ) (disk : ℕ × ℕ → Block) (s : Store P × Contents) : Prop :=
  Run storeTrace (fun s a _ => NBUF ≤ s.1.log.size ∨ s.1.HasRoom a)
    (boot P start size disk, Contents.boot disk) s

theorem inv_of_runs {s : Store P × Contents} (hrecovered : disk (ROOTDEV, start) 0 = 0)
    (run : Runs start size disk s) : s.1.Sound s.2 ∧ s.1.Logged s.2 := by
  refine run.invariant (I := fun s => s.1.Sound s.2 ∧ s.1.Logged s.2)
    ⟨sound_boot, logged_boot hrecovered⟩ ?_
  rintro s a t hstep hroom ⟨hs, h⟩
  obtain ⟨hnext, hrecord⟩ := traced_eq_next.mp hstep
  rw [hrecord]
  exact ⟨hs.step h.redoes (storeStep hnext), h.step hs hroom (storeStep hnext)⟩

/-- `bread`, a change, `log_write` and `brelse`. -/
def changeBlock (p : P) (blockno : ℕ) (b : BufId) (data : Block) : List (StoreCall P) :=
  [.bread p ROOTDEV blockno, .proceed p, .proceed p, .logWrite p b data, .proceed p, .proceed p,
    .brelse p b, .proceed p]

/-- An operation that changes one block, up to `end_op`. -/
def oneWrite (p : P) (blockno : ℕ) (b : BufId) (data : Block) : List (StoreCall P) :=
  .beginOp p :: changeBlock p blockno b data ++ [.endOp p]

/-- For any number of processes and any interleaving of their calls, with commits and evictions:
what `bread` returns is what was written last, what has not been committed is not on the disk, and
when no operation is at work all is on the disk. -/
theorem transparent {s : Store P × Contents} (hrecovered : disk (ROOTDEV, start) 0 = 0)
    (run : Runs start size disk s) : Transparent s.1 s.2 := by
  obtain ⟨hs, h⟩ := inv_of_runs hrecovered run
  have hpending : ∀ k ∈ s.2.pending, ¬ InLog s.1.log.start s.1.log.size k := by
    intro k hk
    rcases h.pending k hk with hmem | ⟨p, hp⟩
    · exact (h.home k hmem).1
    · obtain ⟨-, _, -, -, hhome⟩ := (hs.parts p).args k hp
      exact hhome
  constructor
  case reads =>
    intro p b hlock hreading hdev
    have hvalid := (hs.parts p).valid b hlock hreading
    have hroot : (s.1.line b).key.1 = ROOTDEV := by
      have hlt := hs.drive b
      have hROOTDEV : ROOTDEV = 1 := rfl
      have hkey : (s.1.line b).key.1 = (s.1.buf b).dev := rfl
      omega
    exact ⟨hvalid, hs.coherent.data b hroot hvalid⟩
  case withheld =>
    intro k hk
    refine h.kept k (hpending k hk) fun _ p hp => ?_
    rw [(h.stage p).emptied hp] at hk
    exact absurd hk (Finset.notMem_empty k)
  case atRest =>
    intro hout hidle k hk
    have hlh := hs.log.empty hout hidle
    rw [h.kept k hk fun hmem => by rw [hlh] at hmem; exact absurd hmem List.not_mem_nil]
    refine h.settled k hk fun hmem => ?_
    rcases h.pending k hmem with hmem | ⟨p, hp⟩
    · rw [hlh] at hmem
      exact absurd hmem List.not_mem_nil
    · have hop : (s.1.log.pc p).operates = true := by
        by_contra hno
        rw [LogPc.block_of_not_operates (by simpa using hno)] at hp
        cases hp
      have hpos := hs.log.counted.pos hop
      omega

/-- The operation with its commit: block 40 is at home, and nothing is left in the log. -/
theorem transparent_oneWrite : ∃ s : Store Bool × Contents, Transparent s.1 s.2 ∧
    s.1.log.pc true = .outside ∧ s.1.root 40 0 = 7 := by
  have hrun : (Transition.exec
      (checked storeTrace fun s a _ => NBUF ≤ s.1.log.size ∨ s.1.HasRoom a)
      (boot Bool 2 30 fun _ _ => 0, Contents.boot fun _ _ => 0)
      (oneWrite true 40 0 (fun _ => 7) ++ List.replicate 47 (.proceed true))).test
        (fun s => decide (s.1.log.pc true = .outside ∧ s.1.root 40 0 = 7)) = true := by
    decide +kernel
  obtain ⟨s, run, hcheck⟩ := run_of_test hrun
  exact ⟨s, transparent rfl run, of_decide_eq_true hcheck⟩

/-- Five and four blocks are logged, then one more by each of the two processes. -/
def overflow : List (StoreCall Bool) :=
  [.beginOp false, .beginOp true] ++
    (List.range 5).flatMap (fun i => changeBlock false (13 + i) (Fin.ofNat NBUF i) fun _ => 1) ++
    (List.range 4).flatMap
      (fun i => changeBlock true (23 + i) (Fin.ofNat NBUF (5 + i)) fun _ => 2) ++
    [.bread false ROOTDEV 30, .proceed false, .proceed false, .bread true ROOTDEV 31,
      .proceed true, .proceed true, .logWrite false 9 (fun _ => 3), .logWrite true 10 (fun _ => 4),
      .proceed false, .proceed false, .proceed true, .proceed true, .brelse false 9,
      .proceed false, .brelse true 10, .proceed true, .endOp false, .endOp true] ++
    List.replicate 139 (.proceed true)

/-- As `overflows`, in a log of 11 blocks: two operations both find room for their last block.  The
last copy is written to the block after the log, which has been changed and is not committed. -/
theorem not_transparent : ∃ s : Store Bool × Contents,
    Reaches storeTrace (boot Bool 2 11 fun _ _ => 0, Contents.boot fun _ _ => 0) s ∧
      ¬ Transparent s.1 s.2 := by
  have hrun : (Transition.exec storeTrace
      (boot Bool 2 11 fun _ _ => 0, Contents.boot fun _ _ => 0) overflow).test
        (fun s => decide (13 ∈ s.2.pending ∧ s.1.root 13 0 ≠ s.2.committed 13 0)) = true := by
    decide +kernel
  obtain ⟨s, run, hcheck⟩ := reaches_of_test hrun
  obtain ⟨hmem, hne⟩ := of_decide_eq_true hcheck
  exact ⟨s, run, fun h => hne (congrFun (h.withheld 13 hmem) 0)⟩

/-- The machine may stop at any time, and any number of times again while it recovers; the recovery
that is not cut short makes the file system what it was at the last commit. -/
theorem durable {s : Store P × Contents} {disk' : Disk} (hsize : 0 < size)
    (hrecovered : disk (ROOTDEV, start) 0 = 0) (run : Runs start size disk s)
    (hcrashes : Relation.ReflTransGen (CrashesInRecovery start) s.1.root disk') :
    Clean start size s.2.committed (writeAll disk' (recoverWrites start disk')) := by
  obtain ⟨hs, h⟩ := inv_of_runs hrecovered run
  obtain ⟨hstart, hsize'⟩ : s.1.log.start = start ∧ s.1.log.size = size := by
    refine run.invariant (I := fun s => s.1.log.start = start ∧ s.1.log.size = size)
      ⟨rfl, rfl⟩ ?_
    rintro s a t hstep - ⟨hstart, hsize⟩
    obtain ⟨hnext, -⟩ := traced_eq_next.mp hstep
    obtain ⟨hstart', hsize'⟩ := layout (storeStep hnext)
    exact ⟨hstart'.trans hstart, hsize'.trans hsize⟩
  have hin : InLog start size start := ⟨le_rfl, by omega⟩
  rw [← hstart] at hcrashes hin ⊢
  rw [← hsize'] at hin ⊢
  by_cases hheaded : ∃ p, s.1.Headed p
  · obtain ⟨p, hp⟩ := hheaded
    obtain ⟨base, trans, hfits, hcommitted, hall, -⟩ := (h.stage p).headed hp
    have hdone : Clean s.1.log.start s.1.log.size (writeAll base trans)
        (writeAll disk' (recoverWrites s.1.log.start disk')) := by
      rcases recover_crashes hfits hcrashes (Or.inl hcommitted) with hc | hc
      · rw [recoverWrites_of_committed hc hfits]
        exact hc.erase hfits _
      · rw [recoverWrites_of_clean hc]
        exact hc.erase hfits.inLog_start _
    exact ⟨hdone.header, fun b hb => (hdone.home b hb).trans (hall b hb)⟩
  · rw [not_exists] at hheaded
    have hclean : Clean s.1.log.start s.1.log.size s.2.committed s.1.root :=
      ⟨h.header hheaded, fun b hb =>
        h.kept b hb fun _ p hp => hheaded p (headed_of_installs hp)⟩
    have hdone := hclean.crashes hin hcrashes
    rw [recoverWrites_of_clean hdone]
    exact hdone.erase hin _

/-- The machine stops when the header is written and block 40 is not home yet, and once more while
it recovers. -/
theorem durable_oneWrite : ∃ (s : Store Bool × Contents) (disk' : Disk),
    s.1.root 40 0 = 0 ∧ s.2.committed 40 0 = 7 ∧ CrashesInRecovery 2 s.1.root disk' ∧
      Clean 2 30 s.2.committed (writeAll disk' (recoverWrites 2 disk')) := by
  have hrun : (Transition.exec
      (checked storeTrace fun s a _ => NBUF ≤ s.1.log.size ∨ s.1.HasRoom a)
      (boot Bool 2 30 fun _ _ => 0, Contents.boot fun _ _ => 0)
      (oneWrite true 40 0 (fun _ => 7) ++ List.replicate 20 (.proceed true))).test
        (fun s => decide (s.1.root 40 0 = 0 ∧ s.2.committed 40 0 = 7)) = true := by
    decide +kernel
  obtain ⟨s, run, hcheck⟩ := run_of_test hrun
  obtain ⟨hroot, hcommitted⟩ := of_decide_eq_true hcheck
  have hcrash : CrashesInRecovery 2 s.1.root
      (writeAll s.1.root ((recoverWrites 2 s.1.root).take 1)) := ⟨1, rfl⟩
  exact ⟨s, _, hroot, hcommitted, hcrash, durable (by decide) rfl run (.single hcrash)⟩

end Runs

end Store

end Xv6
