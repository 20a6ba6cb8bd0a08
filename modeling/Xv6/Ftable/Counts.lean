import Xv6.Ftable.Steps

/-!
# Reference counts of files

The books are right in every state that can be reached.  Between calls all references are
in descriptors, and all ends of pipes belong to files: `file_reference_counts`.
-/

namespace Xv6.Ftable

open References Transition

variable {P A : Type} [DecidableEq P] [DecidableEq A] [Fintype P] {s t : Filing P A}
variable {initproc p : P} {f : FileId} {a : A}

/-! ## The invariant -/

structure FilingInv (s : Filing P A) : Prop where
  books : Books s
  lives : Lives s
  replayed : Replayed s

omit [DecidableEq A] [Fintype P] in
theorem holds_boot (q : P) : (Filing.boot initproc : Filing P A).holds q = 0 := by
  simp [Filing.holds, Filing.boot, FilePc.hand, FilePc.slot, visible, References.slots]

omit [DecidableEq A] [Fintype P] in
theorem ends_boot (e : FileId ⊕ P) : (Filing.boot initproc : Filing P A).ends e = none := by
  cases e <;> rfl

theorem FilingInv.boot : FilingInv (Filing.boot initproc : Filing P A) where
  books := by
    refine ⟨fun f => ?_, fun _ _ => rfl, fun _ => Multiset.zero_le _, fun p f hf => ?_,
      fun f hf => ?_, fun e e' x he => ?_, fun x => ?_, fun a ha => absurd rfl ha⟩
    · rw [total, Finset.sum_eq_zero fun e _ => holds_boot e]
      rfl
    · exact absurd hf (Multiset.notMem_zero f)
    · simp [Filing.boot] at hf
    · rw [ends_boot] at he
      simp at he
    · simp only [ends_boot]
      simp [Filing.opened, Filing.boot]
  lives := by
    refine ⟨fun _ _ => rfl, fun _ _ _ => rfl, fun p np hnp => ?_, fun p p' np hnp => ?_,
      fun _ => trivial⟩
    · simp [Filing.boot, FilePc.child] at hnp
    · simp [Filing.boot, FilePc.child] at hnp
  replayed := rfl

theorem FilingInv.step {action : FileAction P A} (h : FilingInv s)
    (hstep : Filing.step initproc s action = .next t) : FilingInv t := by
  obtain ⟨⟨p, heffect⟩, hlives⟩ := step_effect h.lives hstep
  exact ⟨h.books.effect heffect, hlives, h.replayed.effect h.books heffect⟩

theorem FilingInv.of_reaches (h : Reaches (Filing.step initproc) (Filing.boot initproc) s) :
    FilingInv s :=
  Run.invariant h FilingInv.boot fun _ _ _ hstep _ hinv => hinv.step hstep

/-! ## No call panics -/

omit [DecidableEq P] [DecidableEq A] [Fintype P] in
theorem filedup_safe (hpos : 0 < (s.ftable f).ref) : (s.filedup f).Safe := by
  unfold Filing.filedup
  rw [if_neg (by omega)]
  exact Outcome.safe_next _

omit [DecidableEq A] in
theorem fileclose_safe {next : Next} (hbooks : Books s) (hpos : 0 < (s.ftable f).ref) :
    (s.fileclose p f next).Safe := by
  unfold Filing.fileclose
  dsimp only
  rw [if_neg (by omega)]
  split
  · exact Outcome.safe_next _
  · split
    · exact Outcome.safe_next _
    · rename_i htype hpipe
      exact absurd hpipe (hbooks.pipes f htype).1
    · exact Outcome.safe_next _

theorem proceed_safe {found : Bool} {page : Option A} (h : FilingInv s) :
    (s.proceed p found page (s.pc p)).Safe := by
  have hpos : ∀ f, f ∈ s.holds p → 0 < (s.ftable f).ref := fun f hf => h.books.counted.pos hf
  have hknown := h.lives.known p
  cases hpc : s.pc p with
  | duping f fd =>
      rw [hpc] at hknown
      obtain ⟨-, fd', hne, hfd'⟩ := hknown
      refine Outcome.Safe.bind (filedup_safe (hpos f ?_)) fun _ _ => Outcome.safe_next _
      rw [Filing.holds, hpc]
      refine Multiset.mem_add.mpr (Or.inl (References.mem_slots.mpr ⟨fd', ?_⟩))
      rw [FilePc.slot, visible, Function.update_of_ne hne, hfd']
  | closing f next =>
      refine fileclose_safe h.books (hpos f ?_)
      rw [Filing.holds, hpc]
      exact Multiset.mem_add.mpr (Or.inr (Multiset.mem_cons_self f _))
  | copying np i =>
      simp only [Filing.proceed]
      split
      · split
        · exact Outcome.safe_next _
        · rename_i f hf
          refine Outcome.Safe.bind (filedup_safe (hpos f ?_)) fun _ _ => Outcome.safe_next _
          rw [Filing.holds, hpc]
          exact Multiset.mem_add.mpr (Or.inl (References.mem_slots.mpr ⟨_, hf⟩))
      · exact Outcome.safe_next _
  | _ =>
      simp only [Filing.proceed]
      (repeat' split) <;> simp

/-- The only fatal error is that the first process exits. -/
theorem FilingInv.panic_eq {action : FileAction P A} {message : String} (h : FilingInv s)
    (hpanic : Filing.step initproc s action = .panic message) : message = "init exiting" := by
  cases action with
  | proceed p found page => exact absurd hpanic (proceed_safe h message)
  | reap np =>
      simp only [Filing.step] at hpanic
      split at hpanic <;> simp at hpanic
  | call p c =>
      simp only [Filing.step] at hpanic
      split at hpanic
      · split at hpanic
        · cases c with
          | exit =>
              simp only [Filing.call] at hpanic
              split at hpanic
              · exact (Outcome.panic.inj hpanic).symm
              · simp at hpanic
          | _ =>
              simp only [Filing.call, Filing.allocproc] at hpanic
              (repeat' split at hpanic) <;> simp at hpanic
        · simp at hpanic
      · simp at hpanic

/-! ## Between calls -/

/-- Entry `f` is in use and refers to the pipe. -/
def Filing.Refers (s : Filing P A) (f : FileId) (a : A) : Prop :=
  0 < (s.ftable f).ref ∧ (s.ftable f).type = .pipe ∧ (s.ftable f).pipe = some a

/-- The file table agrees with the descriptors, and the pipes with the file table. -/
structure Filing.Accounted (s : Filing P A) : Prop where
  counted : ∀ f, (s.ftable f).ref =
    (Finset.univ.filter fun e : P × Fd => s.ofile e.1 e.2 = some f).card
  unused : ∀ f, (s.ftable f).ref = 0 → (s.ftable f).type = .none
  allocated : ∀ a, (s.pipes a).isSome = true ↔ ∃ f, s.Refers f a
  readopen : ∀ a flags, s.pipes a = some flags →
    (flags.readopen = true ↔ ∃ f, s.Refers f a ∧ (s.ftable f).readable = true)
  writeopen : ∀ a flags, s.pipes a = some flags →
    (flags.writeopen = true ↔ ∃ f, s.Refers f a ∧ (s.ftable f).writable = true)

omit [DecidableEq P] [DecidableEq A] in
theorem Books.pipeEnd_iff (h : Books s) {writable : Bool} :
    (s.ftable f).pipeEnd = some (a, writable) ↔
      s.Refers f a ∧ (s.ftable f).writable = writable := by
  rw [File.pipeEnd, Filing.Refers]
  by_cases htype : (s.ftable f).type = .pipe
  · have hpos : 0 < (s.ftable f).ref := by
      refine Nat.pos_of_ne_zero fun hzero => ?_
      rw [h.unused f hzero] at htype
      simp at htype
    simp [htype, hpos]
  · simp [htype]

omit [DecidableEq P] [DecidableEq A] in
/-- A pipe is there as long as somebody has one of its ends. -/
theorem Books.allocated_iff (h : Books s) :
    (s.pipes a).isSome = true ↔ ∃ e writable, s.ends e = some (a, writable) := by
  constructor
  · intro hsome
    obtain ⟨writable, hopened⟩ := h.alive a (Option.isSome_iff_ne_none.mp hsome)
    obtain ⟨e, he⟩ := (h.opened _).mp hopened
    exact ⟨e, writable, he⟩
  · intro ⟨e, writable, he⟩
    have hopened := (h.opened _).mpr ⟨e, he⟩
    cases hflags : s.pipes a with
    | none => simp [Filing.opened, hflags] at hopened
    | some flags => rfl

omit [DecidableEq P] [DecidableEq A] in
theorem Books.end_of_idle (h : Books s) (hidle : ∀ p, s.pc p = .idle) {writable : Bool} :
    (∃ e, s.ends e = some (a, writable)) ↔
      ∃ f, s.Refers f a ∧ (s.ftable f).writable = writable := by
  constructor
  · rintro ⟨e, he⟩
    cases e with
    | inl f => exact ⟨f, h.pipeEnd_iff.mp he⟩
    | inr p =>
        rw [Filing.ends, hidle] at he
        simp [FilePc.pipeEnd] at he
  · rintro ⟨f, hf⟩
    exact ⟨Sum.inl f, h.pipeEnd_iff.mpr hf⟩

omit [DecidableEq P] in
theorem FilingInv.accounted (h : FilingInv s) (hidle : ∀ p, s.pc p = .idle) : s.Accounted where
  counted f := by
    have hholds : total s.holds = total fun p => References.slots (s.ofile p) :=
      Finset.sum_congr rfl fun p _ => holds_idle (hidle p)
    have hcount : (s.ftable f).ref = (total s.holds).count f := h.books.counted f
    rw [hcount, hholds, count_total_slots]
  unused := h.books.unused
  allocated a := by
    rw [h.books.allocated_iff]
    constructor
    · intro ⟨e, writable, he⟩
      obtain ⟨f, hf, -⟩ := (h.books.end_of_idle hidle).mp ⟨e, he⟩
      exact ⟨f, hf⟩
    · intro ⟨f, hf⟩
      exact ⟨Sum.inl f, _, h.books.pipeEnd_iff.mpr ⟨hf, rfl⟩⟩
  readopen a flags hflags := by
    have hopened : flags.readopen = true ↔ s.opened (a, false) = true := by
      simp [Filing.opened, hflags, PipeFlags.opened]
    rw [hopened, h.books.opened, h.books.end_of_idle hidle]
    refine exists_congr fun f => and_congr_right fun hf => ?_
    rw [(h.books.pipes f hf.2.1).2]
    simp
  writeopen a flags hflags := by
    have hopened : flags.writeopen = true ↔ s.opened (a, true) = true := by
      simp [Filing.opened, hflags, PipeFlags.opened]
    rw [hopened, h.books.opened, h.books.end_of_idle hidle]

/-- The step that frees a pipe closes its last end: nobody else had one. -/
def Filing.FreedByLastClose (s t : Filing P A) (a : A) : Prop :=
  t.log = s.log ++ [PipeEvent.free a] ∧
    (∃ p writable next, s.pc p = .pipeClosing a writable next ∧
      ∀ e other, s.ends e = some (a, other) → e = Sum.inr p) ∧
    ∀ e other, t.ends e ≠ some (a, other)

omit [DecidableEq P] [Fintype P] in
theorem shutPipe_freed {b : A} {writable : Bool} (hs : s.pipes a ≠ none)
    (ht : (s.shutPipe b writable).pipes a = none) :
    b = a ∧ (s.shutPipe b writable).log = s.log ++ [PipeEvent.free a] := by
  have hab : a = b := by
    by_contra hab
    exact hs (by rwa [shutPipe_of_ne hab] at ht)
  subst hab
  refine ⟨rfl, ?_⟩
  unfold Filing.shutPipe at ht ⊢
  dsimp only at ht ⊢
  split
  · rfl
  · rename_i hopen
    rw [if_neg hopen] at ht
    simp only [Function.update_self, Option.map_eq_none_iff] at ht
    exact absurd ht hs

omit [DecidableEq P] [Fintype P] in
/-- Only `pipeclose` frees a pipe. -/
theorem Effect.freed (h : Effect s t p) (hs : s.pipes a ≠ none) (ht : t.pipes a = none) :
    t.log = s.log ++ [PipeEvent.free a] ∧
      (∃ writable next, s.pc p = .pipeClosing a writable next) ∧
      ∀ e, e ≠ Sum.inr p → t.ends e = s.ends e := by
  cases h with
  | move _ hpipes => exact absurd (hpipes ▸ ht) hs
  | take _ _ _ hpipes => exact absurd (hpipes ▸ ht) hs
  | share _ _ _ _ hpipes => exact absurd (hpipes ▸ ht) hs
  | drop _ _ _ hpipes => exact absurd (hpipes ▸ ht) hs
  | last _ _ _ hpipes => exact absurd (hpipes ▸ ht) hs
  | fill _ _ _ _ _ _ hpipes => exact absurd (hpipes ▸ ht) hs
  | make f0 f1 b hnew hfree hftable hpipes =>
      have hba : a ≠ b := by
        rintro rfl
        exact hs hfree
      have hsame : (s.fillPipe f0 f1 b).pipes a = s.pipes a := Function.update_of_ne hba _ _
      rw [hpipes, hsame] at ht
      exact absurd ht hs
  | shut b writable hftable hpipes hlog hholds hbefore hends hendsOthers =>
      rw [hpipes] at ht
      obtain ⟨rfl, hfree⟩ := shutPipe_freed hs ht
      refine ⟨hlog.trans hfree, ⟨writable, ?_⟩, fun e he => ?_⟩
      rotate_left
      · cases e with
        | inl f => exact congrArg (fun ftable => (ftable f).pipeEnd) hftable
        | inr q => exact hendsOthers q fun hq => he (by rw [hq])
      cases hpc : s.pc p with
      | pipeClosing a' writable' next =>
          rw [hpc] at hbefore
          obtain ⟨rfl, rfl⟩ : a' = b ∧ writable' = writable := by
            simpa [FilePc.pipeEnd] using hbefore
          exact ⟨next, rfl⟩
      | _ =>
          rw [hpc] at hbefore
          simp [FilePc.pipeEnd] at hbefore

theorem FilingInv.freed (h : FilingInv s) {action : FileAction P A}
    (hstep : Filing.step initproc s action = .next t) (hs : s.pipes a ≠ none)
    (ht : t.pipes a = none) : s.FreedByLastClose t a := by
  obtain ⟨⟨p, heffect⟩, -⟩ := step_effect h.lives hstep
  obtain ⟨hlog, ⟨writable, next, hpc⟩, hothers⟩ := heffect.freed hs ht
  have hnone : ∀ e other, t.ends e ≠ some (a, other) := by
    intro e other he
    have hsome := (h.step hstep).books.allocated_iff.mpr ⟨e, other, he⟩
    rw [ht] at hsome
    simp at hsome
  refine ⟨hlog, ⟨p, writable, next, hpc, fun e other he => ?_⟩, hnone⟩
  by_contra hep
  exact hnone e other (by rw [hothers e hep, he])

/-- In every state that can be reached, whatever the processes do: between calls the counts
are those of the descriptors and the flags of the pipes those of their files; pages are
allocated and freed in turn; a page is in use as long as a file or a process that is closing
it has one of its ends, and is freed when the last one is closed; no call panics but `exit`
of the first process. -/
theorem file_reference_counts
    (hrun : Reaches (Filing.step initproc) (Filing.boot initproc) s) :
    ((∀ p, s.pc p = .idle) → s.Accounted) ∧
      replay (fun _ => false) s.log = some (fun a => (s.pipes a).isSome) ∧
      (∀ a, (s.pipes a).isSome = true ↔ ∃ e writable, s.ends e = some (a, writable)) ∧
      (∀ action t a, Filing.step initproc s action = .next t → s.pipes a ≠ none →
        t.pipes a = none → s.FreedByLastClose t a) ∧
      ∀ action message, Filing.step initproc s action = .panic message →
        message = "init exiting" := by
  have h := FilingInv.of_reaches hrun
  exact ⟨h.accounted, h.replayed, fun _ => h.books.allocated_iff,
    fun _ _ _ hstep hs ht => h.freed hstep hs ht, fun _ _ hpanic => h.panic_eq hpanic⟩

/-- A child has inherited a pipe, and both processes have closed the write end. -/
theorem file_reference_counts_inherited : ∃ s : Filing Bool Unit,
    s.pipes () = some ⟨true, false⟩ ∧ s.Accounted := by
  let go (p : Bool) : FileAction Bool Unit := .proceed p true (some ())
  have htest : (exec (Filing.step true) (Filing.boot true : Filing Bool Unit)
      ([.call true .pipe] ++ List.replicate 3 (go true) ++ [.call true (.fork (some false))] ++
        List.replicate 18 (go true) ++ [.call false (.close ⟨1, by decide⟩), go false] ++
        [.call true (.close ⟨1, by decide⟩)] ++ List.replicate 2 (go true))).test
      (fun s => decide ((∀ p, s.pc p = .idle) ∧ s.pipes () = some ⟨true, false⟩)) = true := by
    decide +kernel
  obtain ⟨s, hrun, hcheck⟩ := reaches_of_test htest
  obtain ⟨hidle, hpipe⟩ := of_decide_eq_true hcheck
  exact ⟨s, hpipe, (file_reference_counts hrun).1 hidle⟩

end Xv6.Ftable
