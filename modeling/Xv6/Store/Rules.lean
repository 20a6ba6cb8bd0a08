import Xv6.Store.Contents

/-!
# The steps keep the buffers sound

For each kind of step, what it does to the variables of the process that takes it, and which rule of
`WriteBack.Coherent` it is an instance of.
-/

namespace Xv6

open Transition WriteBack
open Files (ROOTDEV)

variable {P : Type} [DecidableEq P] {s t : Store P} {g g' : Contents} {p q : P} {b c : BufId}
variable {a : StoreCall P} {f : Frame} {k : ℕ}

namespace Store

/-! ## Updates -/

@[simp] theorem setFrame_bio : (s.setFrame p f).bio = s.bio := rfl

@[simp] theorem setFrame_log : (s.setFrame p f).log = s.log := rfl

@[simp] theorem setFrame_disk : (s.setFrame p f).disk = s.disk := rfl

@[simp] theorem setFrame_self : (s.setFrame p f).frame p = f := Function.update_self ..

theorem setFrame_of_ne (hq : q ≠ p) : (s.setFrame p f).frame q = s.frame q :=
  Function.update_of_ne hq ..

theorem setFrame_same : s.setFrame p (s.frame p) = s := by
  rw [setFrame, Function.update_eq_self]

section Modify

omit [DecidableEq P]

variable {h : Buf P Block → Buf P Block}

@[simp] theorem modify_log : (s.modify b h).log = s.log := rfl

@[simp] theorem modify_disk : (s.modify b h).disk = s.disk := rfl

@[simp] theorem modify_frame : (s.modify b h).frame = s.frame := rfl

@[simp] theorem modify_pc : (s.modify b h).bio.pc = s.bio.pc := rfl

@[simp] theorem modify_self : (s.modify b h).buf b = h (s.buf b) :=
  Bcache.modify_buf_self s.bio.cache b h

theorem modify_of_ne (hc : c ≠ b) : (s.modify b h).buf c = s.buf c :=
  Bcache.modify_buf_of_ne s.bio.cache h hc

/-- What does not change in a buffer when its contents and flags are changed. -/
theorem modify_keeps {γ : Type} (view : Buf P Block → γ) (hview : ∀ x, view (h x) = view x) :
    view ((s.modify b h).buf c) = view (s.buf c) := by
  by_cases hc : c = b
  · rw [hc, modify_self, hview]
  · rw [modify_of_ne hc]

end Modify

/-- The variables of the process when an instruction is done. -/
def stepped {P : Type} (s : Store P) (p : P) : Frame :=
  if (s.log.pc p).commits then { s.frame p with done := (s.frame p).done + 1 } else s.frame p

theorem advance_eq : s.advance p = s.setFrame p (s.stepped p) := by
  rw [advance, stepped]
  split
  · rfl
  · rw [setFrame_same]

/-- The same when `bread` has returned. -/
def given {P : Type} (s : Store P) (p : P) (b : BufId) : Frame :=
  if (s.log.pc p).commits then ⟨none, (s.frame p).done + 1, (s.frame p).bufs ++ [b]⟩
  else { s.frame p with reading := none }

theorem returned_eq : s.returned p b = s.setFrame p (s.given p b) := by
  rw [returned, given]
  split <;> rfl

omit [DecidableEq P] in
theorem given_reading : (s.given p b).reading = none := by
  rw [given]
  split <;> rfl

/-- A buffer that is neither valid nor dirty is read. -/
theorem iderw_fetch (hvalid : (s.buf b).valid = false) (hdirty : (s.buf b).dirty = false)
    (h : s.iderw p b = .next t) : (s.buf b).lock = some p ∧
      t = s.modify b fun x =>
        { x with valid := true, data := s.disk ((s.buf b).dev % 2, (s.buf b).blockno) } := by
  rw [iderw] at h
  dsimp only at h
  split at h
  · cases h
  · rename_i hlock
    rw [hvalid, hdirty] at h
    simp only [Bool.false_eq_true, false_and, if_false] at h
    split at h
    · cases h
    · cases h
      exact ⟨not_not.mp hlock, rfl⟩

theorem bwrite_eq (h : s.bwrite p b = .next t) : (s.buf b).lock = some p ∧
    t = { s.modify b fun x => { x with valid := true, dirty := false } with
      disk := Function.update s.disk ((s.buf b).dev % 2, (s.buf b).blockno) (s.buf b).data } := by
  rw [bwrite] at h
  split at h
  · cases h
  · rename_i hlock
    refine ⟨not_not.mp hlock, ?_⟩
    rw [iderw] at h
    dsimp only at h
    rw [modify_self] at h
    simp only [hlock, if_false, Bool.true_eq_false, and_false, if_true] at h
    split at h
    · cases h
    · cases h
      simp only [modify, Bcache.modify, Function.update_idem, Function.update_self]

theorem iderw_log (h : s.iderw p b = .next t) : t.log = s.log := by
  rw [iderw] at h
  dsimp only at h
  repeat' split at h
  all_goals cases h
  all_goals rfl

/-- The log stays where it is. -/
theorem layout (hstep : StoreStep s a t) :
    t.log.start = s.log.start ∧ t.log.size = s.log.size := by
  cases hstep with
  | hit p b =>
      rw [returned_eq]
      exact ⟨rfl, rfl⟩
  | fetch p b t' _ _ _ ht =>
      rw [returned_eq, setFrame_log, iderw_log ht]
      exact ⟨rfl, rfl⟩
  | unref p b bio =>
      rw [advance_eq]
      exact ⟨rfl, rfl⟩
  | memmove p dst src d c | header p k b =>
      rw [advance_eq]
      exact ⟨rfl, rfl⟩
  | bwrite p k b t' _ _ _ ht =>
      obtain ⟨-, ht⟩ := bwrite_eq ht
      rw [advance_eq, setFrame_log, ht]
      exact ⟨rfl, rfl⟩
  | log _ c log hlog | commit p log _ _ _ hlog => exact ⟨hlog.start_eq, hlog.size_eq⟩
  | _ => exact ⟨rfl, rfl⟩

/-! ## The two parts -/

/-- What a step of the process does to the buffer cache and to the log. -/
structure Refines (s t : Store P) (p : P) : Prop where
  bio : t.bio = s.bio ∨ ∃ c : BioCall P Block, c.process = p ∧ s.bio.step c = .next t.bio
  log : t.log = s.log ∨ ∃ c : LogCall P, c.process = p ∧ LogStep s.log c t.log
  frame : ∀ q, q ≠ p → t.frame q = s.frame q

theorem Refines.others [Fintype P] (h : s.Refines t p) (hs : s.Sound g) : s.Others t p where
  bio := by
    rcases h.bio with hsame | ⟨c, rfl, hstep⟩
    · rw [hsame]
      exact ⟨fun _ _ => rfl, fun _ _ _ hlock => ⟨rfl, hlock⟩, fun _ _ _ hlock => hlock,
        fun _ _ => rfl⟩
    · obtain ⟨_, _, hbio⟩ := hs.bio
      exact hbio.others hstep
  frame := h.frame
  start := by
    rcases h.log with hsame | ⟨c, -, hstep⟩
    · rw [hsame]
    · exact hstep.start_eq
  size := by
    rcases h.log with hsame | ⟨c, -, hstep⟩
    · rw [hsame]
    · exact hstep.size_eq
  log := by
    intro q hq
    rcases h.log with hsame | ⟨c, rfl, hstep⟩
    · rw [hsame]
      exact Or.inl ⟨rfl, Or.inl rfl⟩
    · exact hstep.others hs.log hq

/-- The buffer cache and the log are as they are in their own runs. -/
theorem Refines.invs [Fintype P] (h : s.Refines t p) (hs : s.Sound g) :
    (∃ h order, BioInv t.bio h order) ∧ t.log.Inv := by
  constructor
  · obtain ⟨history, order, hbio⟩ := hs.bio
    rcases h.bio with hsame | ⟨c, -, hstep⟩
    · rw [hsame]
      exact ⟨history, order, hbio⟩
    · obtain ⟨order', hbio'⟩ := hbio.step hstep
      exact ⟨_, order', hbio'⟩
  · rcases h.log with hsame | ⟨c, -, hstep⟩
    · rw [hsame]
      exact hs.log
    · exact hs.log.step hstep

/-- It remains to say what holds of the process itself and of the buffers. -/
theorem Refines.sound [Fintype P] (h : s.Refines t p) (hs : s.Sound g)
    (hdrive : ∀ b, (t.buf b).dev < 2)
    (hclean : ∀ b, (t.buf b).dirty = true → (t.buf b).valid = true) (hself : t.Local p)
    (hcoherent : Coherent {k | k.1 = ROOTDEV} t.line t.disk (fun k => g'.latest k.2)
      {b | ∃ q, t.writing q = some b}) : t.Sound g' := by
  have hothers := h.others hs
  obtain ⟨hbio, hlog⟩ := h.invs hs
  refine ⟨hbio, hlog, hdrive, hclean, fun q => ?_, hcoherent⟩
  by_cases hq : q = p
  · rw [hq]
    exact hself
  · exact (hs.parts q).other hs.bio hothers hq fun b hb => hothers.bio.lock q b hq hb

/-- The buffers on which others work. -/
theorem Others.writing_mono (h : s.Others t p)
    (hp : ∀ b, s.writing p = some b → b = c ∨ t.writing p = some b) :
    ∀ b ∈ {b | ∃ q, s.writing q = some b}, b ≠ c → b ∈ {b | ∃ q, t.writing q = some b} := by
  rintro b ⟨q, hq⟩ hbc
  by_cases hqp : q = p
  · subst hqp
    exact ⟨q, (hp b hq).resolve_left hbc⟩
  · exact ⟨q, (h.writing_eq hqp).trans hq⟩

theorem Others.writing_subset (h : s.Others t p)
    (hp : ∀ b, s.writing p = some b → t.writing p = some b) :
    {b | ∃ q, s.writing q = some b} ⊆ {b | ∃ q, t.writing q = some b} := by
  rintro b ⟨q, hq⟩
  by_cases hqp : q = p
  · subst hqp
    exact ⟨q, hp b hq⟩
  · exact ⟨q, (h.writing_eq hqp).trans hq⟩

/-- As `Refines.sound`, where no buffer changes but for its lock. -/
theorem Refines.sound_of_lines [Fintype P] (h : s.Refines t p) (hs : s.Sound g)
    (hlines : ∀ b, (t.buf b).line = (s.buf b).line) (hdisk : t.disk = s.disk) (hself : t.Local p)
    (hwriting : ∀ b, s.writing p = some b → t.writing p = some b) : t.Sound g := by
  refine h.sound hs (fun b => ?_) (fun b => ?_) hself ?_
  · have hdev := congrArg (fun l => l.key.1) (hlines b)
    exact lt_of_eq_of_lt hdev (hs.drive b)
  · have hdirty := congrArg Line.dirty (hlines b)
    have hvalid := congrArg Line.valid (hlines b)
    exact fun hb => hvalid.trans (hs.clean b (hdirty.symm.trans hb))
  · have hline : t.line = s.line := funext hlines
    rw [hline, hdisk]
    exact hs.coherent.mono ((h.others hs).writing_subset hwriting)

/-! ## The process that takes the step -/

omit [DecidableEq P] in
/-- What `instr` looks at. -/
theorem instr_congr (hlog : t.log = s.log) (hdone : (t.frame p).done = (s.frame p).done) :
    t.instr p = s.instr p := by
  rw [instr, instr, hlog, hdone]

omit [DecidableEq P] in
/-- A call of `log_write` is not in `bread` or `brelse`. -/
theorem Local.block_eq_none (h : s.Local p) (hbusy : ¬ s.Idle p) : (s.log.pc p).block = none := by
  cases hblock : (s.log.pc p).block with
  | none => rfl
  | some k => exact absurd (h.args k hblock).1 hbusy

omit [DecidableEq P] in
theorem not_commits_of_free (h : s.Free p) :
    (s.log.pc p).commits = false ∧ (s.log.pc p).block = none := by
  rcases h.2 with hpc | hpc <;> rw [hpc] <;> exact ⟨rfl, rfl⟩

omit [DecidableEq P] in
theorem block_of_commits (h : (s.log.pc p).commits = true) : (s.log.pc p).block = none := by
  cases hpc : s.log.pc p <;> rw [hpc] at h <;> first | rfl | cases h

omit [DecidableEq P] in
/-- A buffer that is locked is not used for another block. -/
theorem Sound.line_eq_of_locked [Fintype P] (hs : s.Sound g) {b c : BufId}
    (hcase : (t.buf b).line = (s.buf b).line ∨ (s.buf b).refcnt = 0)
    (hline : ∀ c, c ≠ b → (t.buf c).line = (s.buf c).line) (hlock : (s.buf c).lock = some p) :
    (t.buf c).line = (s.buf c).line := by
  by_cases hc : c = b
  · subst hc
    rcases hcase with hsame | hzero
    · exact hsame
    · obtain ⟨_, _, hbio⟩ := hs.bio
      have hnone := hbio.lock_none hzero
      rw [show (s.bio.cache.buf c).lock = some p from hlock] at hnone
      cases hnone
  · exact hline c hc

omit [DecidableEq P] in
/-- `bread` has got a buffer. -/
theorem Local.get (h : s.Local p) (hidle : s.Idle p) (hblock : (s.log.pc p).block = none)
    (hlog : t.log = s.log) (hframe : t.frame = s.frame) (hpc : t.bio.pc p = .acquiring b)
    (hlock : ∀ c, (t.buf c).lock = (s.buf c).lock)
    (hlines : ∀ c, (s.buf c).lock = some p → (t.buf c).line = (s.buf c).line)
    (htarget : (s.log.pc p).commits = true → (t.line b).key.1 = ROOTDEV ∧
      s.instr p = some (.bread (t.line b).key.2)) : t.Local p := by
  have hreading : (t.frame p).reading = none := hframe ▸ hidle.2
  constructor
  case reading =>
    intro c hc
    rw [hreading] at hc
    cases hc
  case valid =>
    intro c hc _
    rw [hlock] at hc
    have hvalid := h.valid c hc (by rw [hidle.2]; exact (Option.some_ne_none _).symm)
    exact (congrArg Line.valid (hlines c hc)).trans hvalid
  case rest =>
    rw [hlog, hframe]
    exact h.rest
  case args =>
    intro k hk
    rw [hlog, hblock] at hk
    cases hk
  case vars =>
    rw [hlog, hframe]
    refine fun hc hdone => (h.vars hc hdone).imp fun c k hheld => ⟨?_, ?_, ?_⟩
    · rw [hlock, hheld.lock]
    · exact (congrArg Line.key (hlines c hheld.lock)).trans hheld.key
    · rw [hreading]
      exact (Option.some_ne_none _).symm
  case target =>
    rw [hlog, instr_congr hlog (by rw [hframe])]
    intro hc c hcase
    rcases hcase with hacquiring | hc'
    · rw [hpc] at hacquiring
      cases hacquiring
      exact htarget hc
    · rw [hreading] at hc'
      cases hc'
  case releasing =>
    intro _ c hc
    rw [hpc] at hc
    cases hc

omit [DecidableEq P] in
/-- `bread` has locked it. -/
theorem Local.lock (h : s.Local p) (hbefore : s.bio.pc p = .acquiring b) (hlog : t.log = s.log)
    (hframe : t.frame p = { s.frame p with reading := some b }) (hpc : t.bio.pc p = .running)
    (hnone : (s.buf b).lock = none) (hself : (t.buf b).lock = some p)
    (hlock : ∀ c, c ≠ b → (t.buf c).lock = (s.buf c).lock)
    (hlines : ∀ c, (t.buf c).line = (s.buf c).line) : t.Local p := by
  have hbusy : ¬ s.Idle p := fun hidle => by
    rw [hidle.1] at hbefore
    cases hbefore
  have hreading : (s.frame p).reading = none := by
    cases hr : (s.frame p).reading with
    | none => rfl
    | some c =>
        have hrunning := (h.reading c hr).1
        rw [hbefore] at hrunning
        cases hrunning
  have hother : ∀ c, (s.buf c).lock = some p → c ≠ b := by
    rintro c hc rfl
    rw [hnone] at hc
    cases hc
  have hdone : (t.frame p).done = (s.frame p).done ∧ (t.frame p).bufs = (s.frame p).bufs := by
    rw [hframe]
    exact ⟨rfl, rfl⟩
  constructor
  case reading =>
    intro c hc
    rw [hframe] at hc
    cases hc
    exact ⟨hpc, hself⟩
  case valid =>
    intro c hc hne
    have hcb : c ≠ b := by
      rintro rfl
      exact hne (by rw [hframe])
    rw [hlock c hcb] at hc
    have hvalid := h.valid c hc (by rw [hreading]; exact (Option.some_ne_none _).symm)
    exact (congrArg Line.valid (hlines c)).trans hvalid
  case rest =>
    rw [hlog, hdone.1, hdone.2]
    exact h.rest
  case args =>
    intro k hk
    rw [hlog, h.block_eq_none hbusy] at hk
    cases hk
  case vars =>
    rw [hlog, hdone.1, hdone.2]
    refine fun hc hle => (h.vars hc hle).imp fun c k hheld => ⟨?_, ?_, ?_⟩
    · rw [hlock c (hother c hheld.lock), hheld.lock]
    · exact (congrArg Line.key (hlines c)).trans hheld.key
    · rw [hframe]
      exact fun heq => hother c hheld.lock (Option.some.inj heq).symm
  case target =>
    rw [hlog, instr_congr hlog hdone.1]
    intro hc c hcase
    have hcb : c = b := by
      rcases hcase with hacquiring | hreading'
      · rw [hpc] at hacquiring
        cases hacquiring
      · rw [hframe] at hreading'
        exact (Option.some.inj hreading').symm
    have htarget := h.target hc b (Or.inl hbefore)
    have hkey : (t.line c).key = (s.line b).key := by
      rw [hcb]
      exact congrArg Line.key (hlines b)
    rwa [hkey]
  case releasing =>
    intro _ c hc
    rw [hpc] at hc
    cases hc

omit [DecidableEq P] in
/-- `bread` returns it. -/
theorem Local.returned (h : s.Local p) (hbefore : (s.frame p).reading = some b)
    (hlog : t.log = s.log) (hframe : t.frame p = s.given p b) (hpc : t.bio.pc p = s.bio.pc p)
    (hlock : ∀ c, (t.buf c).lock = (s.buf c).lock)
    (hkeys : ∀ c, (t.line c).key = (s.line c).key) (hb : (t.buf b).valid = true)
    (hvalid : ∀ c, (s.buf c).valid = true → (t.buf c).valid = true) : t.Local p := by
  have hbusy : ¬ s.Idle p := fun hidle => by
    rw [hidle.2] at hbefore
    cases hbefore
  obtain ⟨hrunning, hself⟩ := h.reading b hbefore
  have hreading : (t.frame p).reading = none := by
    rw [hframe]
    exact given_reading
  have hheld : ∀ c k, s.Held p c k → t.Held p c k := fun c k hc => by
    refine ⟨(hlock c).trans hc.lock, (hkeys c).trans hc.key, ?_⟩
    rw [hreading]
    exact (Option.some_ne_none _).symm
  constructor
  case reading =>
    intro c hc
    rw [hreading] at hc
    cases hc
  case valid =>
    intro c hc _
    rw [hlock] at hc
    by_cases hcb : c = b
    · rw [hcb]
      exact hb
    · refine hvalid c (h.valid c hc ?_)
      rw [hbefore]
      exact fun heq => hcb (Option.some.inj heq).symm
  case rest =>
    rw [hlog]
    intro hcommits hblock
    rw [hframe, given, if_neg (by rw [hcommits]; exact Bool.false_ne_true)]
    exact h.rest hcommits hblock
  case args =>
    intro k hk
    rw [hlog, h.block_eq_none hbusy] at hk
    cases hk
  case vars =>
    rw [hlog]
    intro hcommits hdone
    obtain ⟨hdev, hinstr⟩ := h.target hcommits b (Or.inr hbefore)
    have hread : ((s.log.pc p).reads s.log.start s.log.lh)[(s.frame p).done]? =
        some (s.line b).key.2 := at_of_body hinstr
    rw [hframe, given, if_pos hcommits] at hdone ⊢
    have hvars := (h.vars hcommits (Nat.le_of_succ_le hdone)).imp hheld
    rw [List.take_add_one, hread]
    refine List.rel_append hvars (List.Forall₂.cons ⟨?_, ?_, ?_⟩ List.Forall₂.nil)
    · rw [hlock, hself]
    · rw [hkeys]
      exact Prod.ext hdev rfl
    · rw [hreading]
      exact (Option.some_ne_none _).symm
  case target =>
    intro _ c hc
    rw [hpc, hrunning, hreading] at hc
    rcases hc with hc | hc <;> cases hc
  case releasing =>
    intro _ c hc
    rw [hpc, hrunning] at hc
    cases hc

omit [DecidableEq P] in
/-- `brelse` has unlocked a buffer. -/
theorem Local.release (h : s.Local p) (hidle : s.Idle p) (hblock : (s.log.pc p).block = none)
    (hlog : t.log = s.log) (hframe : t.frame = s.frame) (hpc : t.bio.pc p = .releasing b)
    (hnone : (t.buf b).lock = none) (hlock : ∀ c, c ≠ b → (t.buf c).lock = (s.buf c).lock)
    (hlines : ∀ c, (t.buf c).line = (s.buf c).line)
    (hinstr : (s.log.pc p).commits = true → ∃ k, s.instr p = some (.brelse k)) : t.Local p := by
  have hreading : (t.frame p).reading = none := hframe ▸ hidle.2
  constructor
  case reading =>
    intro c hc
    rw [hreading] at hc
    cases hc
  case valid =>
    intro c hc _
    have hcb : c ≠ b := by
      rintro rfl
      rw [hnone] at hc
      cases hc
    rw [hlock c hcb] at hc
    have hvalid := h.valid c hc (by rw [hidle.2]; exact (Option.some_ne_none _).symm)
    exact (congrArg Line.valid (hlines c)).trans hvalid
  case rest =>
    rw [hlog, hframe]
    exact h.rest
  case args =>
    intro k hk
    rw [hlog, hblock] at hk
    cases hk
  case vars =>
    rw [hlog, hframe]
    intro hcommits hdone
    obtain ⟨k, hk⟩ := hinstr hcommits
    have hafter : (s.log.pc p).writeAt < (s.frame p).done := at_of_body hk
    omega
  case target =>
    intro _ c hc
    rw [hpc, hreading] at hc
    rcases hc with hc | hc <;> cases hc
  case releasing =>
    rw [hlog, instr_congr hlog (by rw [hframe])]
    exact fun hcommits _ _ => hinstr hcommits

omit [DecidableEq P] in
/-- `brelse` returns. -/
theorem Local.unref (h : s.Local p) (hbefore : s.bio.pc p = .releasing b) (hlog : t.log = s.log)
    (hframe : t.frame p = s.stepped p) (hpc : t.bio.pc p = .running)
    (hlock : ∀ c, (t.buf c).lock = (s.buf c).lock)
    (hlines : ∀ c, (t.buf c).line = (s.buf c).line) : t.Local p := by
  have hbusy : ¬ s.Idle p := fun hidle => by
    rw [hidle.1] at hbefore
    cases hbefore
  have hnone : (s.frame p).reading = none := by
    cases hr : (s.frame p).reading with
    | none => rfl
    | some c =>
        have hrunning := (h.reading c hr).1
        rw [hbefore] at hrunning
        cases hrunning
  have hreading : (t.frame p).reading = none := by
    rw [hframe, stepped]
    split <;> exact hnone
  constructor
  case reading =>
    intro c hc
    rw [hreading] at hc
    cases hc
  case valid =>
    intro c hc _
    rw [hlock] at hc
    have hvalid := h.valid c hc (by rw [hnone]; exact (Option.some_ne_none _).symm)
    exact (congrArg Line.valid (hlines c)).trans hvalid
  case rest =>
    rw [hlog]
    intro hcommits hblock
    rw [hframe, stepped, if_neg (by rw [hcommits]; exact Bool.false_ne_true)]
    exact h.rest hcommits hblock
  case args =>
    intro k hk
    rw [hlog, h.block_eq_none hbusy] at hk
    cases hk
  case vars =>
    rw [hlog]
    intro hcommits hdone
    obtain ⟨k, hk⟩ := h.releasing hcommits b hbefore
    have hafter : (s.log.pc p).writeAt < (s.frame p).done := at_of_body hk
    rw [hframe, stepped, if_pos hcommits] at hdone
    have hdone : (s.frame p).done + 1 ≤ (s.log.pc p).writeAt := hdone
    omega
  case target =>
    intro _ c hc
    rw [hpc, hreading] at hc
    rcases hc with hc | hc <;> cases hc
  case releasing =>
    intro _ c hc
    rw [hpc] at hc
    cases hc

omit [DecidableEq P] in
/-- A commit has changed or written a buffer. -/
theorem Local.contents (h : s.Local p) (hidle : s.Idle p) {i : Instr}
    (hinstr : s.instr p = some i) (hafter : (s.frame p).done + 1 ≤ (s.log.pc p).writeAt →
      ((s.log.pc p).reads s.log.start s.log.lh).length ≤ (s.frame p).done)
    (hlog : t.log = s.log) (hframe : t.frame p = s.stepped p) (hpc : t.bio.pc p = s.bio.pc p)
    (hlock : ∀ c, (t.buf c).lock = (s.buf c).lock)
    (hkeys : ∀ c, (t.line c).key = (s.line c).key)
    (hvalid : ∀ c, (s.buf c).valid = true → (t.buf c).valid = true) : t.Local p := by
  have hcommits := commits_of_instr hinstr
  have hstepped : t.frame p = { s.frame p with done := (s.frame p).done + 1 } := by
    rw [hframe, stepped, if_pos hcommits]
  have hreading : (t.frame p).reading = none := by
    rw [hstepped]
    exact hidle.2
  constructor
  case reading =>
    intro c hc
    rw [hreading] at hc
    cases hc
  case valid =>
    intro c hc _
    rw [hlock] at hc
    exact hvalid c (h.valid c hc (by rw [hidle.2]; exact (Option.some_ne_none _).symm))
  case rest =>
    intro hno
    rw [hlog, hcommits] at hno
    cases hno
  case args =>
    intro k hk
    rw [hlog, block_of_commits hcommits] at hk
    cases hk
  case vars =>
    rw [hlog, hstepped]
    intro _ hdone
    have hreads := hafter hdone
    have hvars := h.bufs hinstr hreads (Nat.le_of_succ_le hdone)
    rw [List.take_of_length_le (hreads.trans (Nat.le_succ _))]
    refine hvars.imp fun c k hheld => ⟨?_, ?_, ?_⟩
    · rw [hlock, hheld.lock]
    · rw [hkeys, hheld.key]
    · rw [hreading]
      exact (Option.some_ne_none _).symm
  case target =>
    intro _ c hc
    rw [hpc, hidle.1, hreading] at hc
    rcases hc with hc | hc <;> cases hc
  case releasing =>
    intro _ c hc
    rw [hpc, hidle.1] at hc
    cases hc

omit [DecidableEq P] in
/-- Between two calls, or between two bodies of a commit. -/
theorem Local.reset (h : s.Local p) (hidle : s.Idle p) (hblock : (t.log.pc p).block = none)
    (hframe : t.frame p = ⟨none, 0, []⟩) (hpc : t.bio.pc p = s.bio.pc p)
    (hlock : ∀ c, (t.buf c).lock = (s.buf c).lock)
    (hvalid : ∀ c, (s.buf c).valid = true → (t.buf c).valid = true) : t.Local p := by
  have hreading : (t.frame p).reading = none := by
    rw [hframe]
  constructor
  case reading =>
    intro c hc
    rw [hreading] at hc
    cases hc
  case valid =>
    intro c hc _
    rw [hlock] at hc
    exact hvalid c (h.valid c hc (by rw [hidle.2]; exact (Option.some_ne_none _).symm))
  case rest =>
    intro _ _
    rw [hframe]
    exact ⟨rfl, rfl⟩
  case args =>
    intro k hk
    rw [hblock] at hk
    cases hk
  case vars =>
    intro _ _
    rw [hframe]
    exact List.Forall₂.nil
  case target =>
    intro _ c hc
    rw [hpc, hidle.1, hreading] at hc
    rcases hc with hc | hc <;> cases hc
  case releasing =>
    intro _ c hc
    rw [hpc, hidle.1] at hc
    cases hc

omit [DecidableEq P] in
/-- `log_write` has been called for a buffer. -/
theorem Local.change (h : s.Local p) (hidle : s.Idle p) (hpc : (t.log.pc p).block = some k)
    (hreading : (t.frame p).reading = none) (hbufs : (t.frame p).bufs = [b])
    (hbio : t.bio.pc p = s.bio.pc p)
    (hlock : ∀ c, (t.buf c).lock = (s.buf c).lock) (hself : (s.buf b).lock = some p)
    (hkey : (t.line b).key = (ROOTDEV, k)) (hhome : ¬ InLog t.log.start t.log.size k)
    (hvalid : ∀ c, (s.buf c).valid = true → (t.buf c).valid = true) : t.Local p := by
  have hcommits : (t.log.pc p).commits = false := by
    by_contra hno
    rw [block_of_commits (by simpa using hno)] at hpc
    cases hpc
  constructor
  case reading =>
    intro c hc
    rw [hreading] at hc
    cases hc
  case valid =>
    intro c hc _
    rw [hlock] at hc
    exact hvalid c (h.valid c hc (by rw [hidle.2]; exact (Option.some_ne_none _).symm))
  case rest =>
    intro _ hno
    rw [hpc] at hno
    cases hno
  case args =>
    intro k' hk'
    rw [hpc] at hk'
    cases hk'
    refine ⟨⟨hbio.trans hidle.1, hreading⟩, b, hbufs, ⟨(hlock b).trans hself, hkey, ?_⟩, hhome⟩
    rw [hreading]
    exact (Option.some_ne_none _).symm
  case vars =>
    intro hno
    rw [hcommits] at hno
    cases hno
  case target =>
    intro hno
    rw [hcommits] at hno
    cases hno
  case releasing =>
    intro hno
    rw [hcommits] at hno
    cases hno

omit [DecidableEq P] in
/-- The process goes on in the log, and neither commits nor calls `log_write`. -/
theorem Local.quiet (h : s.Local p) (hbio : t.bio = s.bio) (hframe : t.frame = s.frame)
    (hs : (s.log.pc p).commits = false ∧ (s.log.pc p).block = none)
    (ht : (t.log.pc p).commits = false ∧ (t.log.pc p).block = none) : t.Local p := by
  constructor
  case reading =>
    rw [hframe, hbio]
    intro b hb
    have hbefore := h.reading b hb
    refine ⟨hbefore.1, ?_⟩
    rw [buf, hbio]
    exact hbefore.2
  case valid =>
    rw [hframe]
    intro b hlock hb
    rw [buf, hbio] at hlock ⊢
    exact h.valid b hlock hb
  case rest =>
    intro _ _
    rw [hframe]
    exact h.rest hs.1 hs.2
  case args =>
    intro k hk
    rw [ht.2] at hk
    cases hk
  case vars =>
    intro hno
    rw [ht.1] at hno
    cases hno
  case target =>
    intro hno
    rw [ht.1] at hno
    cases hno
  case releasing =>
    intro hno
    rw [ht.1] at hno
    cases hno

end Store

end Xv6
