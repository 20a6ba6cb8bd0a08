import Xv6.Store.Rules

/-!
# The buffers stay sound

`Sound.step` says that every step keeps `Sound`.  One kind of step needs more: `install_trans`
copies from the log to a buffer of a block that has been written already, so it must be the block's
last contents that it copies (`Redoes`).  That follows from the order of the steps of a commit,
which `Xv6.Store.Commit` looks at.
-/

namespace Xv6

open Transition WriteBack
open Files (ROOTDEV)

variable {P : Type} [DecidableEq P] {s t : Store P} {g g' : Contents} {p q : P} {b c : BufId}
variable {a : StoreCall P} {f : Frame} {k : ℕ}

namespace Store

/-! ## What a step does to the two parts -/

omit [DecidableEq P] in
theorem modify_congr {h h' : Buf P Block → Buf P Block} (heq : h (s.buf b) = h' (s.buf b)) :
    s.modify b h = s.modify b h' := by
  have hbuf : ∀ h : Buf P Block → Buf P Block, (s.bio.cache.modify b h).buf =
      Function.update s.bio.cache.buf b (h (s.buf b)) := fun _ => rfl
  rw [modify, modify, Bcache.modify, Bcache.modify]
  have heq' : h (s.bio.cache.buf b) = h' (s.bio.cache.buf b) := heq
  rw [heq']

/-- Whoever has locked a buffer may change its contents and its flags. -/
theorem modify_bio {h : Buf P Block → Buf P Block} (hpc : s.bio.pc p = .running)
    (hlock : (s.buf b).lock = some p) {valid dirty : Bool} {data : Block}
    (heq : h (s.buf b) = { s.buf b with valid, dirty, data }) :
    ∃ c : BioCall P Block, c.process = p ∧ s.bio.step c = .next (s.modify b h).bio := by
  refine ⟨.use p b valid dirty data, rfl, ?_⟩
  have hsame : s.modify b h = s.modify b (fun x => { x with valid, dirty, data }) :=
    modify_congr heq
  rw [hsame]
  exact Bio.use_eq valid dirty data hpc hlock

/-! ## `bread` and `brelse` -/

variable [Fintype P]

omit [DecidableEq P] in
/-- A buffer that is not in use is locked by nobody, so nobody works on it. -/
theorem Sound.not_writing_of_refcnt (hs : s.Sound g) (hzero : (s.buf b).refcnt = 0) :
    b ∉ {b | ∃ q, s.writing q = some b} := by
  rintro ⟨q, hq⟩
  obtain ⟨k, hheld⟩ := (hs.parts q).writing_held hq
  obtain ⟨_, _, hbio⟩ := hs.bio
  have hnone := hbio.lock_none hzero
  rw [show (s.bio.cache.buf b).lock = some q from hheld.lock] at hnone
  cases hnone

theorem Sound.get (hs : s.Sound g) {dev blockno : ℕ} {bio : Bio P Block} (hidle : s.Idle p)
    (hdev : dev < 2)
    (ha : a = .bread p dev blockno ∧ s.Free p ∨
      a = .proceed p ∧ dev = ROOTDEV ∧ s.instr p = some (.bread blockno))
    (hbio : s.bio.step (.bget p dev blockno) = .next bio) : Sound { s with bio := bio } g := by
  obtain ⟨_, _, hinv⟩ := hs.bio
  obtain ⟨-, b, hpc, hkey, hlock, hline, hcase⟩ := Bio.bget_cases hinv hbio
  have hrefines : s.Refines { s with bio := bio } p :=
    ⟨Or.inr ⟨_, rfl, hbio⟩, Or.inl rfl, fun _ _ => rfl⟩
  have hblock : (s.log.pc p).block = none := by
    rcases ha with ⟨-, hfree⟩ | ⟨-, -, hinstr⟩
    · exact (not_commits_of_free hfree).2
    · exact block_of_commits (Local.commits_of_instr hinstr)
  have hunused : (bio.cache.buf b).line = (s.buf b).line ∨ (s.buf b).refcnt = 0 :=
    hcase.imp_right fun hfresh => hfresh.1
  have hself : Local { s with bio := bio } p := by
    refine (hs.parts p).get hidle hblock rfl rfl (by rw [hpc, Function.update_self]) hlock
      (fun c hc => hs.line_eq_of_locked (t := { s with bio := bio }) hunused hline hc) ?_
    intro hcommits
    rcases ha with ⟨-, hfree⟩ | ⟨-, hroot, hinstr⟩
    · rw [(not_commits_of_free hfree).1] at hcommits
      cases hcommits
    · have hkey' : (Store.line { s with bio := bio } b).key = (dev, blockno) := hkey
      rw [hkey']
      exact ⟨hroot, hinstr⟩
  rcases hcase with hsame | ⟨hzero, hclean, hvalid', hclean', hfresh⟩
  · refine hrefines.sound_of_lines hs (fun c => ?_) rfl hself fun _ hc => hc
    by_cases hc : c = b
    · rw [hc]
      exact hsame
    · exact hline c hc
  · refine hrefines.sound hs (fun c => ?_) (fun c hc => ?_) hself ?_
    · by_cases hcb : c = b
      · rw [hcb]
        have hdev' : (bio.cache.buf b).dev = dev := congrArg Prod.fst hkey
        exact hdev'.trans_lt hdev
      · exact (congrArg (fun l => l.key.1) (hline c hcb)).trans_lt (hs.drive c)
    · have hcb : c ≠ b := by
        rintro rfl
        exact Bool.false_ne_true (hclean'.symm.trans hc)
      have hdirty := (congrArg Line.dirty (hline c hcb)).symm.trans hc
      exact (congrArg Line.valid (hline c hcb)).trans (hs.clean c hdirty)
    · refine hs.coherent.refill (i := b) hline hvalid' (fun _ c => ?_) hclean
        (hs.not_writing_of_refcnt hzero)
      rw [show (Store.line { s with bio := bio } b).key = (dev, blockno) from hkey]
      exact hfresh c

theorem Sound.lock (hs : s.Sound g) {bio : Bio P Block} (hpc : s.bio.pc p = .acquiring b)
    (hbio : s.bio.step (.acquiresleep p) = .next bio) :
    ({ s with bio := bio }.setFrame p { s.frame p with reading := some b }).Sound g := by
  obtain ⟨hpc', hnone, hself, hline, hlock⟩ := Bio.acquiresleep_cases hpc hbio
  have hbusy : ¬ s.Idle p := fun hidle => by
    rw [hidle.1] at hpc
    cases hpc
  have hrefines :
      s.Refines ({ s with bio := bio }.setFrame p { s.frame p with reading := some b }) p :=
    ⟨Or.inr ⟨_, rfl, hbio⟩, Or.inl rfl, fun q hq => setFrame_of_ne hq⟩
  refine hrefines.sound_of_lines hs hline rfl ?_ ?_
  · exact (hs.parts p).lock hpc rfl setFrame_self (by rw [setFrame_bio, hpc', Function.update_self])
      hnone hself hlock hline
  · intro c hc
    rw [(hs.parts p).writing_eq_none hbusy] at hc
    cases hc

theorem Sound.release (hs : s.Sound g) {bio : Bio P Block} (hidle : s.Idle p)
    (ha : a = .brelse p b ∧ s.Free p ∨
      a = .proceed p ∧ ∃ k, s.instr p = some (.brelse k) ∧ (s.frame p).bufs[k]? = some b)
    (hbio : s.bio.step (.brelse p b) = .next bio) : Sound { s with bio := bio } g := by
  obtain ⟨-, hpc, -, hnone, hline, hlock⟩ := Bio.brelse_cases hbio
  have hblock : (s.log.pc p).block = none := by
    rcases ha with ⟨-, hfree⟩ | ⟨-, k, hinstr, -⟩
    · exact (not_commits_of_free hfree).2
    · exact block_of_commits (Local.commits_of_instr hinstr)
  refine Refines.sound_of_lines ⟨Or.inr ⟨_, rfl, hbio⟩, Or.inl rfl, fun _ _ => rfl⟩ hs hline rfl ?_
    fun _ hc => hc
  refine (hs.parts p).release hidle hblock rfl rfl (by rw [hpc, Function.update_self]) hnone hlock
    hline fun hcommits => ?_
  rcases ha with ⟨-, hfree⟩ | ⟨-, k, hinstr, -⟩
  · rw [(not_commits_of_free hfree).1] at hcommits
    cases hcommits
  · exact ⟨k, hinstr⟩

theorem Sound.unref (hs : s.Sound g) {bio : Bio P Block} (hpc : s.bio.pc p = .releasing b)
    (hbio : s.bio.step (.unref p) = .next bio) :
    (Store.advance { s with bio := bio } p).Sound g := by
  obtain ⟨hpc', hline, hlock⟩ := Bio.unref_cases hpc hbio
  have hbusy : ¬ s.Idle p := fun hidle => by
    rw [hidle.1] at hpc
    cases hpc
  rw [advance_eq]
  have hrefines : s.Refines (Store.setFrame { s with bio := bio } p (s.stepped p)) p :=
    ⟨Or.inr ⟨_, rfl, hbio⟩, Or.inl rfl, fun q hq => setFrame_of_ne hq⟩
  refine hrefines.sound_of_lines hs hline rfl ?_ ?_
  · exact (hs.parts p).unref hpc rfl setFrame_self
      (by rw [setFrame_bio, hpc', Function.update_self]) hlock hline
  · intro c hc
    rw [(hs.parts p).writing_eq_none hbusy] at hc
    cases hc

theorem Sound.hit (hs : s.Sound g) (hreading : (s.frame p).reading = some b)
    (hvalid : (s.buf b).valid = true) : (s.returned p b).Sound g := by
  have hbusy : ¬ s.Idle p := fun hidle => by
    rw [hidle.2] at hreading
    cases hreading
  rw [returned_eq]
  have hrefines : s.Refines (s.setFrame p (s.given p b)) p :=
    ⟨Or.inl rfl, Or.inl rfl, fun q hq => setFrame_of_ne hq⟩
  refine hrefines.sound_of_lines hs (fun _ => rfl) rfl ?_ ?_
  · exact (hs.parts p).returned hreading rfl setFrame_self rfl (fun _ => rfl) (fun _ => rfl) hvalid
      fun _ hc => hc
  · intro c hc
    rw [(hs.parts p).writing_eq_none hbusy] at hc
    cases hc

/-! ## Changing a buffer -/

/-- The process changes the contents and the flags of `b`, and no other buffer. -/
structure Touches {P : Type} [DecidableEq P] (s t : Store P) (p : P) (b : BufId) : Prop where
  bio : ∃ c : BioCall P Block, c.process = p ∧ s.bio.step c = .next t.bio
  pc : t.bio.pc = s.bio.pc
  lock : ∀ c, (t.buf c).lock = (s.buf c).lock
  key : ∀ c, (t.line c).key = (s.line c).key
  line : ∀ c, c ≠ b → t.line c = s.line c

omit [DecidableEq P] [Fintype P] in
theorem buf_of_modify {h : Buf P Block → Buf P Block} (ht : t.bio = (s.modify b h).bio) :
    t.buf b = h (s.buf b) := by
  rw [buf, ht]
  exact modify_self

omit [Fintype P] in
theorem touches_of_modify {h : Buf P Block → Buf P Block} (hpc : s.bio.pc p = .running)
    (hlock : (s.buf b).lock = some p) (ht : t.bio = (s.modify b h).bio) {valid dirty : Bool}
    {data : Block} (hh : h (s.buf b) = { s.buf b with valid, dirty, data }) :
    s.Touches t p b := by
  have hself : t.buf b = { s.buf b with valid, dirty, data } := (buf_of_modify ht).trans hh
  have hother : ∀ c, c ≠ b → t.buf c = s.buf c := fun c hc => by
    rw [buf, ht]
    exact modify_of_ne hc
  refine ⟨?_, by rw [ht]; rfl, fun c => ?_, fun c => ?_, fun c hc => ?_⟩
  · rw [ht]
    exact modify_bio hpc hlock hh
  · by_cases hc : c = b
    · rw [hc, hself]
    · rw [hother c hc]
  · by_cases hc : c = b
    · rw [hc, line, hself]
      rfl
    · rw [line, line, hother c hc]
  · rw [line, line, hother c hc]

theorem Touches.sound (h : s.Touches t p b) (hs : s.Sound g)
    (hlog : t.log = s.log ∨ ∃ c : LogCall P, c.process = p ∧ LogStep s.log c t.log)
    (hframe : ∀ q, q ≠ p → t.frame q = s.frame q)
    (hclean : (t.buf b).dirty = true → (t.buf b).valid = true) (hself : t.Local p)
    (hcoherent : s.Others t p → Coherent {k | k.1 = ROOTDEV} t.line t.disk
      (fun k => g'.latest k.2) {b | ∃ q, t.writing q = some b}) : t.Sound g' := by
  have hrefines : s.Refines t p := ⟨Or.inr h.bio, hlog, hframe⟩
  refine hrefines.sound hs (fun c => ?_) (fun c hc => ?_) hself (hcoherent (hrefines.others hs))
  · exact (congrArg Prod.fst (h.key c)).trans_lt (hs.drive c)
  · by_cases hcb : c = b
    · rw [hcb] at hc ⊢
      exact hclean hc
    · have hline := h.line c hcb
      have hdirty := (congrArg Line.dirty hline).symm.trans hc
      exact (congrArg Line.valid hline).trans (hs.clean c hdirty)

omit [Fintype P] in
/-- A valid buffer stays so. -/
theorem Touches.valid (h : s.Touches t p b) (hb : (t.buf b).valid = true)
    (hc : (s.buf c).valid = true) : (t.buf c).valid = true := by
  by_cases hcb : c = b
  · rw [hcb, hb]
  · exact (congrArg Line.valid (h.line c hcb)).trans hc

theorem Sound.fetch (hs : s.Sound g) (hpc : s.bio.pc p = .running)
    (hreading : (s.frame p).reading = some b) (hvalid : (s.buf b).valid = false)
    (ht : s.iderw p b = .next t) : (t.returned p b).Sound g := by
  have hbusy : ¬ s.Idle p := fun hidle => by
    rw [hidle.2] at hreading
    cases hreading
  have hdirty : (s.buf b).dirty = false := by
    by_contra hno
    have hvalid' := hs.clean b (by simpa using hno)
    rw [hvalid] at hvalid'
    cases hvalid'
  obtain ⟨hlock, ht'⟩ := iderw_fetch hvalid hdirty ht
  have hgiven : t.given p b = s.given p b := by
    rw [ht']
    rfl
  have hlog : t.log = s.log := by rw [ht', modify_log]
  have hdisk : t.disk = s.disk := by rw [ht', modify_disk]
  have hframe : t.frame = s.frame := by rw [ht', modify_frame]
  have hread : t.buf b = { s.buf b with
      valid := true, data := s.disk ((s.buf b).dev % 2, (s.buf b).blockno) } := by
    rw [ht', modify_self]
  have hvalid' : (t.buf b).valid = true := by rw [hread]
  rw [returned_eq, hgiven]
  have hbio := congrArg Store.bio ht'
  have htouches : s.Touches (t.setFrame p (s.given p b)) p b :=
    touches_of_modify hpc hlock hbio rfl
  have hothers : ∀ q, q ≠ p → (t.setFrame p (s.given p b)).frame q = s.frame q := fun q hq => by
    rw [setFrame_of_ne hq, hframe]
  refine htouches.sound hs (Or.inl hlog) hothers (fun _ => hvalid') ?_ fun hothers => ?_
  · exact (hs.parts p).returned hreading hlog setFrame_self (congrFun htouches.pc p) htouches.lock
      htouches.key hvalid' fun c hc => htouches.valid hvalid' hc
  · have hcoherent := hs.coherent.mono (hothers.writing_subset fun c hc => ?_)
    · rw [setFrame_disk, hdisk]
      refine hcoherent.fetch htouches.line (htouches.key b) hvalid ?_
      have hdata : (t.buf b).data = s.disk ((s.buf b).dev % 2, (s.buf b).blockno) := by rw [hread]
      exact hdata.trans (congrArg s.disk (Prod.ext (Nat.mod_eq_of_lt (hs.drive b)) rfl))
    · rw [(hs.parts p).writing_eq_none hbusy] at hc
      cases hc

omit [DecidableEq P] in
/-- What is locked and not just being read is valid. -/
theorem Sound.valid_of_held (hs : s.Sound g) (hheld : s.Held p b k) : (s.buf b).valid = true :=
  (hs.parts p).valid b hheld.lock hheld.reading

omit [Fintype P] [DecidableEq P] in
/-- Only one block gets new contents. -/
theorem latest_of_ne {k : ℕ × ℕ} (hother : ∀ k, k ≠ (s.buf b).blockno → g'.latest k = g.latest k)
    (hroot : (s.buf b).dev = ROOTDEV) (hk : k.1 = ROOTDEV) (hne : k ≠ (s.line b).key) :
    g'.latest k.2 = g.latest k.2 :=
  hother k.2 fun heq => hne (Prod.ext (hk.trans hroot.symm) heq)

theorem Sound.change (hs : s.Sound g) {data : Block} (hfree : s.Free p) (hchanges : s.Changes p b)
    (hpc : s.log.pc p = .working) (hfull : s.log.full ≠ true)
    (hself : g'.latest (s.buf b).blockno = data)
    (hother : ∀ k, k ≠ (s.buf b).blockno → g'.latest k = g.latest k) :
    ({ s.modify b fun x => { x with data := data } with
      log := s.log.goto p (.tested (s.buf b).blockno) }.setFrame p ⟨none, 0, [b]⟩).Sound g' := by
  obtain ⟨hlock, hroot, hhome⟩ := hchanges
  have hidle := hfree.1
  have hvalid : (s.buf b).valid = true :=
    (hs.parts p).valid b hlock (by rw [hidle.2]; exact (Option.some_ne_none _).symm)
  generalize ht : Store.setFrame { s.modify b fun x => { x with data := data } with
    log := s.log.goto p (.tested (s.buf b).blockno) } p ⟨none, 0, [b]⟩ = t
  have hbio : t.bio = (s.modify b fun x => { x with data := data }).bio := by rw [← ht]; rfl
  have hlog : t.log = s.log.goto p (.tested (s.buf b).blockno) := by rw [← ht]; rfl
  have hframe : t.frame = Function.update s.frame p ⟨none, 0, [b]⟩ := by rw [← ht]; rfl
  have hdisk : t.disk = s.disk := by rw [← ht]; rfl
  have hbuf : t.buf b = { s.buf b with data := data } := buf_of_modify hbio
  have htouches : s.Touches t p b := touches_of_modify hidle.1 hlock hbio rfl
  have hpc' : t.log.pc p = .tested (s.buf b).blockno := by
    rw [hlog, Logging.goto_pc, Function.update_self]
  have hframe' : t.frame p = ⟨none, 0, [b]⟩ := by rw [hframe, Function.update_self]
  have hvalid' : (t.buf b).valid = true := by rw [hbuf, hvalid]
  refine htouches.sound hs (Or.inr ⟨.logWrite p (s.buf b).blockno, rfl, ?_⟩) (fun q hq => ?_)
    (fun _ => hvalid') ?_ fun hothers => ?_
  · rw [hlog]
    exact .call p _ hpc hfull
  · rw [hframe, Function.update_of_ne hq]
  · refine (hs.parts p).change hidle (by rw [hpc']; rfl) (by rw [hframe']) (by rw [hframe'])
      (congrFun htouches.pc p) htouches.lock hlock ?_ ?_ fun c hc => htouches.valid hvalid' hc
    · rw [htouches.key]
      exact Prod.ext hroot rfl
    · rw [hlog]
      exact hhome
  · rw [hdisk]
    have hquiet : s.writing p = none :=
      writing_of_quiet (not_commits_of_free hfree).2 fun k => by
        rw [instr_eq_none (not_commits_of_free hfree).1]
        exact (Option.some_ne_none _).symm
    have hnow : t.writing p = some b := by
      rw [writing, hpc', hframe']
      rfl
    refine hs.coherent.write htouches.line (htouches.key b) hvalid' ?_
      (fun k hk hne => latest_of_ne hother hroot hk hne) (hothers.writing_mono fun c hc => ?_)
      (Or.inr ⟨p, hnow⟩)
    · exact hself.trans (by rw [line, hbuf]; rfl)
    · rw [hquiet] at hc
      cases hc

theorem Sound.absorb (hs : s.Sound g) (hidle : s.Idle p) (hpc : s.log.pc p = .locking k)
    (hbufs : (s.frame p).bufs = [b]) :
    ({ s.modify b fun x => { x with dirty := true } with
      log := (s.log.absorb k).goto p .working }.setFrame p ⟨none, 0, []⟩).Sound g := by
  obtain ⟨-, b', hbufs', hheld, -⟩ := (hs.parts p).args k (by rw [hpc]; rfl)
  obtain rfl : b = b' := List.singleton_inj.mp (hbufs.symm.trans hbufs')
  have hvalid := hs.valid_of_held hheld
  generalize ht : Store.setFrame { s.modify b fun x => { x with dirty := true } with
    log := (s.log.absorb k).goto p .working } p ⟨none, 0, []⟩ = t
  have hbio : t.bio = (s.modify b fun x => { x with dirty := true }).bio := by rw [← ht]; rfl
  have hlog : t.log = (s.log.absorb k).goto p .working := by rw [← ht]; rfl
  have hframe : t.frame = Function.update s.frame p ⟨none, 0, []⟩ := by rw [← ht]; rfl
  have hdisk : t.disk = s.disk := by rw [← ht]; rfl
  have hbuf : t.buf b = { s.buf b with dirty := true } := buf_of_modify hbio
  have htouches : s.Touches t p b := touches_of_modify hidle.1 hheld.lock hbio rfl
  have hvalid' : (t.buf b).valid = true := by rw [hbuf, hvalid]
  refine htouches.sound hs (Or.inr ⟨.proceed p, rfl, ?_⟩) (fun q hq => ?_) (fun _ => hvalid') ?_
    fun hothers => ?_
  · rw [hlog]
    exact .absorb p k hpc
  · rw [hframe, Function.update_of_ne hq]
  · refine (hs.parts p).reset hidle ?_ (by rw [hframe, Function.update_self])
      (congrFun htouches.pc p) htouches.lock fun c hc => htouches.valid hvalid' hc
    rw [hlog, Logging.goto_pc, Function.update_self]
    rfl
  · rw [hdisk]
    refine hs.coherent.write htouches.line (htouches.key b) hvalid' ?_ (fun _ _ _ => rfl)
      (hothers.writing_mono fun c hc => ?_) (Or.inl (by rw [line, hbuf]; rfl))
    · have hdata := hs.coherent.data b (congrArg Prod.fst hheld.key) hvalid
      have hsame : (t.line b).data = (s.line b).data := by
        rw [line, hbuf]
        rfl
      exact (hsame.trans hdata).symm
    · rw [writing, hpc, hbufs] at hc
      exact Or.inl (Option.some.inj hc).symm

/-! ## The instructions of a commit -/

omit [Fintype P] in
omit [DecidableEq P] in
theorem stepped_of_commits (h : (s.log.pc p).commits = true) :
    s.stepped p = { s.frame p with done := (s.frame p).done + 1 } :=
  if_pos h

/-- A buffer is changed that is written next. -/
theorem Sound.store (hs : s.Sound g) {i : Instr} {data : Block} (hidle : s.Idle p)
    (hinstr : s.instr p = some i) (hi : ∀ k, i ≠ .bwrite k)
    (hreads : ((s.log.pc p).reads s.log.start s.log.lh).length ≤ (s.frame p).done)
    (hdone : (s.frame p).done < (s.log.pc p).writeAt)
    (hnext : ((s.log.pc p).body s.log.start s.log.lh)[(s.frame p).done + 1]? = some (.bwrite k))
    (hb : (s.frame p).bufs[k]? = some b) (hself : g'.latest (s.buf b).blockno = data)
    (hother : ∀ k, k ≠ (s.buf b).blockno → g'.latest k = g.latest k) :
    ((s.modify b fun x => { x with data := data }).advance p).Sound g' := by
  have hcommits := Local.commits_of_instr hinstr
  obtain ⟨blockno, -, hheld⟩ :=
    Local.held_of_bufs ((hs.parts p).bufs hinstr hreads hdone.le) hb
  have hvalid := hs.valid_of_held hheld
  rw [advance_eq]
  have hstepped : (s.modify b fun x => { x with data := data }).stepped p = s.stepped p := rfl
  rw [hstepped]
  generalize ht : (s.modify b fun x => { x with data := data }).setFrame p (s.stepped p) = t
  have hbio : t.bio = (s.modify b fun x => { x with data := data }).bio := by rw [← ht]; rfl
  have hlog : t.log = s.log := by rw [← ht]; rfl
  have hframe : t.frame = Function.update s.frame p (s.stepped p) := by rw [← ht]; rfl
  have hdisk : t.disk = s.disk := by rw [← ht]; rfl
  have hbuf : t.buf b = { s.buf b with data := data } := buf_of_modify hbio
  have htouches : s.Touches t p b := touches_of_modify hidle.1 hheld.lock hbio rfl
  have hvalid' : (t.buf b).valid = true := by rw [hbuf, hvalid]
  have hframe' : t.frame p = s.stepped p := by rw [hframe, Function.update_self]
  refine htouches.sound hs (Or.inl hlog) (fun q hq => ?_) (fun _ => hvalid') ?_ fun hothers => ?_
  · rw [hframe, Function.update_of_ne hq]
  · exact (hs.parts p).contents hidle hinstr (fun _ => hreads) hlog hframe'
      (congrFun htouches.pc p) htouches.lock htouches.key fun c hc => htouches.valid hvalid' hc
  · rw [hdisk]
    have hquiet : s.writing p = none := writing_of_quiet (block_of_commits hcommits) fun k hk => by
      rw [hinstr] at hk
      exact hi k (Option.some.inj hk)
    have hnow : t.instr p = some (.bwrite k) := by
      rw [instr, hlog, hframe', stepped_of_commits hcommits]
      exact hnext
    have hwriting : t.writing p = some b := by
      have hbufs : (t.frame p).bufs = (s.frame p).bufs := by
        rw [hframe', stepped_of_commits hcommits]
      rw [writing_of_bwrite hnow, hbufs, hb]
    refine hs.coherent.write htouches.line (htouches.key b) hvalid' ?_
      (fun k hk hne => latest_of_ne hother (congrArg Prod.fst hheld.key) hk hne)
      (hothers.writing_mono fun c hc => ?_) (Or.inr ⟨p, hwriting⟩)
    · exact hself.trans (by rw [line, hbuf]; rfl)
    · rw [hquiet] at hc
      cases hc

/-- What `bwrite` leaves of a commit: the buffer is written, and clean. -/
structure Written {P : Type} (s t : Store P) (p : P) (b : BufId) (k : ℕ) : Prop where
  held : s.Held p b k
  buf : t.buf b = { s.buf b with valid := true, dirty := false }
  disk : t.disk = Function.update s.disk (ROOTDEV, k) (s.buf b).data
  log : t.log = s.log
  frame : t.frame p = { s.frame p with done := (s.frame p).done + 1 }

theorem Sound.bwrite (hs : s.Sound g) {n : ℕ} (hidle : s.Idle p)
    (hinstr : s.instr p = some (.bwrite n)) (hb : (s.frame p).bufs[n]? = some b)
    (ht : s.bwrite p b = .next t) :
    ∃ k, ((s.log.pc p).reads s.log.start s.log.lh)[n]? = some k ∧ s.Written (t.advance p) p b k ∧
      s.Touches (t.advance p) p b ∧
      ∀ g', g'.latest = g.latest → (t.advance p).Sound g' := by
  have hcommits := Local.commits_of_instr hinstr
  obtain ⟨hreads, hdone⟩ := at_of_body hinstr
  obtain ⟨k, hk, hheld⟩ := Local.held_of_bufs ((hs.parts p).bufs hinstr hreads hdone.le) hb
  obtain ⟨hlock, ht'⟩ := bwrite_eq ht
  have hvalid := hs.valid_of_held hheld
  have hplace : ((s.buf b).dev % 2, (s.buf b).blockno) = (ROOTDEV, k) := by
    rw [Nat.mod_eq_of_lt (hs.drive b)]
    exact hheld.key
  have hstepped : t.stepped p = s.stepped p := by
    rw [ht']
    rfl
  rw [advance_eq, hstepped]
  generalize hu : t.setFrame p (s.stepped p) = u
  have hbio : u.bio = (s.modify b fun x => { x with valid := true, dirty := false }).bio := by
    rw [← hu, ht']
    rfl
  have hlog : u.log = s.log := by rw [← hu, ht']; rfl
  have hframe : u.frame = Function.update s.frame p (s.stepped p) := by rw [← hu, ht']; rfl
  have hdisk : u.disk = Function.update s.disk (ROOTDEV, k) (s.buf b).data := by
    rw [← hu, ht', ← hplace]
    rfl
  have hbuf : u.buf b = { s.buf b with valid := true, dirty := false } := buf_of_modify hbio
  have hframe' : u.frame p = s.stepped p := by rw [hframe, Function.update_self]
  have htouches : s.Touches u p b := touches_of_modify hidle.1 hlock hbio rfl
  have hvalid' : (u.buf b).valid = true := by rw [hbuf]
  refine ⟨k, hk, ⟨hheld, hbuf, hdisk, hlog, ?_⟩, htouches, fun g' hlatest => ?_⟩
  · rw [hframe', stepped_of_commits hcommits]
  refine htouches.sound hs (Or.inl hlog) (fun q hq => ?_) (fun _ => hvalid') ?_ fun hothers => ?_
  · rw [hframe, Function.update_of_ne hq]
  · exact (hs.parts p).contents hidle hinstr (fun _ => hreads) hlog hframe'
      (congrFun htouches.pc p) htouches.lock htouches.key fun c hc => htouches.valid hvalid' hc
  · rw [hdisk, hlatest]
    refine hs.coherent.sync htouches.line (htouches.key b) hvalid (by rw [line, hbuf]; rfl) ?_
      (fun k' _ hne => ?_) (hothers.writing_mono fun c hc => ?_)
    · rw [hheld.key, Function.update_self]
      rfl
    · rw [hheld.key] at hne
      rw [Function.update_of_ne hne]
    · rw [writing_of_bwrite hinstr, hb] at hc
      exact Or.inl (Option.some.inj hc).symm

/-! ## The log goes on -/

theorem Sound.log_step (hs : s.Sound g) {c : LogCall P} {log : Logging P}
    (hlog : LogStep s.log c log)
    (hc : (∃ p, a = .beginOp p ∧ c = .beginOp p ∧ s.Idle p) ∨
      (∃ p, a = .endOp p ∧ c = .endOp p ∧ s.Free p) ∨ (∃ p, a = .kill p ∧ c = .kill p) ∨
      ∃ p k, a = .proceed p ∧ c = .proceed p ∧ s.Idle p ∧ s.log.pc p = .tested k) :
    Sound { s with log := log } g := by
  have hrefines : ∀ p, c.process = p → s.Refines { s with log := log } p := fun p hp =>
    ⟨Or.inl rfl, Or.inr ⟨c, hp, hlog⟩, fun _ _ => rfl⟩
  -- a process that neither commits nor calls `log_write`, and does neither afterwards
  have hquiet : ∀ p, c.process = p →
      (s.log.pc p).commits = false ∧ (s.log.pc p).block = none →
      (log.pc p).commits = false ∧ (log.pc p).block = none → Sound { s with log := log } g := by
    intro p hp hbefore hafter
    refine (hrefines p hp).sound_of_lines hs (fun _ => rfl) rfl
      ((hs.parts p).quiet rfl rfl hbefore hafter) fun b hb => ?_
    rw [writing_of_quiet hbefore.2 fun k => by
      rw [instr_eq_none hbefore.1]
      exact (Option.some_ne_none _).symm] at hb
    cases hb
  cases hlog with
  | enter p hpc | sleep p hpc =>
      refine hquiet p rfl ?_ ?_
      · rcases hpc with hpc | hpc <;> rw [hpc] <;> exact ⟨rfl, rfl⟩
      · rw [Logging.goto_pc, Function.update_self]
        exact ⟨rfl, rfl⟩
  | leave p hpc =>
      refine hquiet p rfl ?_ ?_
      · rw [hpc]
        exact ⟨rfl, rfl⟩
      · rw [Logging.goto_pc, Function.update_self]
        exact ⟨rfl, rfl⟩
  | kill p hpc =>
      refine hquiet p rfl ?_ ?_
      · rw [hpc]
        exact ⟨rfl, rfl⟩
      · rw [Logging.goto_pc, Function.update_self]
        exact ⟨rfl, rfl⟩
  | last p hpc =>
      -- `end_op` begins to commit
      have hidle : s.Idle p := by
        rcases hc with ⟨q, -, hc, hq⟩ | ⟨q, -, hc, hq⟩ | ⟨q, -, hc⟩ | ⟨q, k, -, hc, hq, -⟩
        · cases hc
        · cases hc
          exact hq.1
        · cases hc
        · cases hc
      have hbefore : (s.log.pc p).commits = false ∧ (s.log.pc p).block = none := by
        rw [hpc]
        exact ⟨rfl, rfl⟩
      obtain ⟨hdone, hbufs⟩ := (hs.parts p).rest hbefore.1 hbefore.2
      refine (hrefines p rfl).sound_of_lines hs (fun _ => rfl) rfl
        ((hs.parts p).reset hidle ?_ ?_ rfl (fun _ => rfl) fun _ hc => hc) fun b hb => ?_
      · rw [Logging.goto_pc, Function.update_self]
        rfl
      · have hreading := hidle.2
        cases hframe : s.frame p with
        | mk reading done bufs =>
            rw [hframe] at hdone hbufs hreading
            rw [show reading = none from hreading, show done = 0 from hdone,
              show bufs = [] from hbufs]
      · rw [writing_of_quiet hbefore.2 fun k => by
          rw [instr_eq_none hbefore.1]
          exact (Option.some_ne_none _).symm] at hb
        cases hb
  | check p k hpc =>
      obtain ⟨hidle, b, hbufs, hheld, hhome⟩ := (hs.parts p).args k (by rw [hpc]; rfl)
      have hpc' : (s.log.goto p (.locking k)).pc p = .locking k := by
        rw [Logging.goto_pc, Function.update_self]
      refine (hrefines p rfl).sound_of_lines hs (fun _ => rfl) rfl
        ((hs.parts p).change hidle (by rw [hpc']; rfl) hidle.2 hbufs rfl (fun _ => rfl) hheld.lock
          hheld.key hhome fun _ hc => hc) fun c hc => ?_
      rw [writing, hpc] at hc
      rw [writing, hpc']
      exact hc
  | call p k hpc =>
      rcases hc with ⟨q, -, hc, -⟩ | ⟨q, -, hc, -⟩ | ⟨q, -, hc⟩ | ⟨q, k', -, hc, -⟩ <;> cases hc
  | absorb p k hpc | erase p hpc | advance p hpc | finish p hpc =>
      -- these are not among the steps with which the log goes on by itself
      rcases hc with ⟨q, -, hc, -⟩ | ⟨q, -, hc, -⟩ | ⟨q, -, hc⟩ | ⟨q, k', -, hc, -, hpc'⟩
      · cases hc
      · cases hc
      · cases hc
      · cases hc
        rw [hpc'] at hpc
        cases hpc

/-- The commit goes on to its next write. -/
theorem Sound.commit (hs : s.Sound g) {log : Logging P} (hidle : s.Idle p)
    (hinstr : s.instr p = none) (hcommits : (s.log.pc p).commits = true)
    (hlog : LogStep s.log (.proceed p) log) :
    (Store.setFrame { s with log := log } p ⟨none, 0, []⟩).Sound g := by
  have hblock : (log.pc p).block = none := by
    cases hlog with
    | check _ k hpc | absorb _ k hpc =>
        rw [hpc] at hcommits
        cases hcommits
    | erase _ hpc | finish _ hpc =>
        rw [Logging.goto_pc, Function.update_self]
        rfl
    | advance _ _ =>
        rw [Logging.goto_pc, Function.update_self]
        have hafter := LogPc.commits_advance hcommits s.log.lh.length
        exact LogPc.block_of_not_operates (LogPc.not_operates_of_commits hafter)
  have hrefines : s.Refines (Store.setFrame { s with log := log } p ⟨none, 0, []⟩) p :=
    ⟨Or.inl rfl, Or.inr ⟨_, rfl, hlog⟩, fun q hq => setFrame_of_ne hq⟩
  refine hrefines.sound_of_lines hs (fun _ => rfl) rfl ?_ fun b hb => ?_
  · exact (hs.parts p).reset hidle hblock setFrame_self rfl (fun _ => rfl) fun _ hc => hc
  · rw [writing_of_quiet (block_of_commits hcommits) fun k => by
      rw [hinstr]
      exact (Option.some_ne_none _).symm] at hb
    cases hb

/-! ## All steps -/

section Record

omit [Fintype P]

theorem record_of_busy (h : ¬ s.Idle p) : g.record s (.proceed p) t = g := if_neg h

theorem record_of_none (h : s.instr p = none) : g.record s (.proceed p) t = g := by
  rw [Contents.record, h, ite_self]

theorem record_of_instr {i : Instr} (hidle : s.Idle p) (hinstr : s.instr p = some i) :
    g.record s (.proceed p) t = g.exec (s.log.pc p) (s.frame p).bufs t i := by
  rw [Contents.record, if_pos hidle, hinstr]

theorem advance_buf : (s.advance p).buf b = s.buf b := by
  rw [advance_eq]
  rfl

omit [DecidableEq P] in
/-- `write_log` gives a block of the log new contents. -/
theorem exec_writeLog {tail dst src : ℕ} {bufs : List BufId} (hb : bufs[dst]? = some b) :
    g.exec (.writeLog tail) bufs t (.memmove dst src) =
      { g with latest := Function.update g.latest (t.buf b).blockno (t.buf b).data } := by
  simp only [Contents.exec, hb]

omit [DecidableEq P] in
theorem exec_bwrite_latest {pc : LogPc} {bufs : List BufId} {k : ℕ} :
    (g.exec pc bufs t (.bwrite k)).latest = g.latest := by
  cases pc <;> rfl

end Record

/-- `install_trans` copies what was last written. -/
def Redoes {P : Type} (s : Store P) (g : Contents) : Prop :=
  ∀ p tail k, s.log.pc p = .installTrans tail → s.log.lh[tail]? = some k →
    g.latest (s.log.start + tail + 1) = g.latest k

theorem Sound.memmove (hs : s.Sound g) (hredo : s.Redoes g) {dst src : ℕ} (hidle : s.Idle p)
    (hinstr : s.instr p = some (.memmove dst src)) (hb : (s.frame p).bufs[dst]? = some b)
    (hc : (s.frame p).bufs[src]? = some c)
    (ht : t = (s.modify b fun x => { x with data := (s.buf c).data }).advance p) :
    t.Sound (g.record s (.proceed p) t) := by
  obtain ⟨hreads, hdone, hnext⟩ := at_of_body hinstr
  obtain ⟨-, tail, k, hk, hpc⟩ := memmove_of_body hinstr
  have hbufs := (hs.parts p).bufs hinstr hreads hdone.le
  have hbuf : t.buf b = { s.buf b with data := (s.buf c).data } := by
    rw [ht, advance_buf, modify_self]
  rw [record_of_instr hidle hinstr, ht]
  refine hs.store hidle hinstr (fun _ => Instr.noConfusion) hreads hdone hnext hb ?_ ?_
  · rcases hpc with ⟨hpc, rfl, rfl⟩ | ⟨hpc, rfl, rfl⟩
    · rw [hpc, ← ht, exec_writeLog hb, hbuf]
      exact Function.update_self ..
    · -- the block of the log has the contents that the block itself got last
      rw [hpc, LogPc.reads, hk] at hbufs
      obtain ⟨_, hblog, hheld⟩ := Local.held_of_bufs hbufs hc
      obtain ⟨_, hbhome, hheld'⟩ := Local.held_of_bufs hbufs hb
      cases hblog
      cases hbhome
      have hdata := hs.coherent.data c (congrArg Prod.fst hheld.key) (hs.valid_of_held hheld)
      have hkey : (s.buf b).blockno = k := congrArg Prod.snd hheld'.key
      rw [hkey, hpc]
      have hkey' : (s.line c).key.2 = s.log.start + tail + 1 := congrArg Prod.snd hheld.key
      rw [hkey', hredo p tail k hpc hk] at hdata
      exact hdata.symm
  · intro k' hne
    rcases hpc with ⟨hpc, rfl, rfl⟩ | ⟨hpc, rfl, rfl⟩
    · rw [hpc, ← ht, exec_writeLog hb, hbuf]
      exact Function.update_of_ne hne ..
    · rw [hpc]
      rfl

theorem Sound.header (hs : s.Sound g) (hidle : s.Idle p) (hinstr : s.instr p = some (.header k))
    (hb : (s.frame p).bufs[k]? = some b)
    (ht : t = (s.modify b fun x => { x with data := headerOf s.log.lh x.data }).advance p) :
    t.Sound (g.record s (.proceed p) t) := by
  obtain ⟨hreads, hdone, hnext⟩ := at_of_body hinstr
  have hbuf : t.buf b = { s.buf b with data := headerOf s.log.lh (s.buf b).data } := by
    rw [ht, advance_buf, modify_self]
  have hlatest : (g.record s (.proceed p) t).latest =
      Function.update g.latest (s.buf b).blockno (headerOf s.log.lh (s.buf b).data) := by
    rw [record_of_instr hidle hinstr, Contents.exec, hb]
    dsimp only
    rw [hbuf]
  have hsame : s.modify b (fun x => { x with data := headerOf s.log.lh x.data }) =
      s.modify b fun x => { x with data := headerOf s.log.lh (s.buf b).data } := modify_congr rfl
  have hsound : ((s.modify b fun x =>
      { x with data := headerOf s.log.lh (s.buf b).data }).advance p).Sound
        (g.record s (.proceed p) t) := by
    refine hs.store hidle hinstr (fun _ => Instr.noConfusion) hreads hdone hnext hb ?_ ?_
    · rw [hlatest, Function.update_self]
    · intro k' hne
      rw [hlatest, Function.update_of_ne hne]
  rwa [← hsame, ← ht] at hsound

/-- Every step keeps the buffers sound. -/
theorem Sound.step (hs : s.Sound g) (hredo : s.Redoes g) (hstep : StoreStep s a t) :
    t.Sound (g.record s a t) := by
  cases hstep with
  | get _ p dev blockno bio hidle hdev ha hbio =>
      have hrecord : g.record s a { s with bio := bio } = g := by
        rcases ha with ⟨rfl, -⟩ | ⟨rfl, -, hinstr⟩
        · rfl
        · rw [record_of_instr hidle hinstr]
          rfl
      rw [hrecord]
      exact hs.get hidle hdev ha hbio
  | lock p b bio hpc hbio =>
      rw [record_of_busy fun hidle => by rw [hidle.1] at hpc; cases hpc]
      exact hs.lock hpc hbio
  | hit p b hpc hreading hvalid =>
      rw [record_of_busy fun hidle => by rw [hidle.2] at hreading; cases hreading]
      exact hs.hit hreading hvalid
  | fetch p b t' hpc hreading hvalid ht =>
      rw [record_of_busy fun hidle => by rw [hidle.2] at hreading; cases hreading]
      exact hs.fetch hpc hreading hvalid ht
  | change p b data hfree hchanges hpc hfull =>
      refine hs.change hfree hchanges hpc hfull ?_ ?_
      · exact Function.update_self ..
      · exact fun k hk => Function.update_of_ne hk ..
  | release _ p b bio hidle ha hbio =>
      have hrecord : g.record s a { s with bio := bio } = g := by
        rcases ha with ⟨rfl, -⟩ | ⟨rfl, k, hinstr, -⟩
        · rfl
        · rw [record_of_instr hidle hinstr]
          rfl
      rw [hrecord]
      exact hs.release hidle ha hbio
  | unref p b bio hpc hbio =>
      rw [record_of_busy fun hidle => by rw [hidle.1] at hpc; cases hpc]
      exact hs.unref hpc hbio
  | memmove p dst src d c hidle hinstr hd hc => exact hs.memmove hredo hidle hinstr hd hc rfl
  | header p k b hidle hinstr hb => exact hs.header hidle hinstr hb rfl
  | bwrite p k b t' hidle hinstr hb ht =>
      obtain ⟨_, -, -, -, hsound⟩ := hs.bwrite hidle hinstr hb ht
      refine hsound _ ?_
      rw [record_of_instr hidle hinstr, exec_bwrite_latest]
  | log _ c log hlog hc =>
      have hrecord : g.record s a { s with log := log } = g := by
        rcases hc with ⟨p, rfl, -⟩ | ⟨p, rfl, -⟩ | ⟨p, rfl, -⟩ | ⟨p, k, rfl, -, -, hpc⟩
        · rfl
        · rfl
        · rfl
        · exact record_of_none (instr_eq_none (by rw [hpc]; rfl))
      rw [hrecord]
      exact hs.log_step hlog hc
  | absorb p k b hidle hpc hbufs =>
      rw [record_of_none (instr_eq_none (by rw [hpc]; rfl))]
      exact hs.absorb hidle hpc hbufs
  | commit p log hidle hinstr hcommits hlog =>
      rw [record_of_none hinstr]
      exact hs.commit hidle hinstr hcommits hlog

end Store

end Xv6
