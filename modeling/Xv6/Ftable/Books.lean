import Xv6.Ftable.Machine

/-!
# The books of the file table

A process has references to files in its descriptors and, in the middle of a call, in its
hands (`holds`).  A pipe has two ends, and each of them belongs to a file or to a process
that is about to close it (`ends`).

`Effect` lists what a step may do to all this, and `Books` is what every such step
preserves: the counts are those of the references, and the flags of a pipe those of its
ends.
-/

namespace Xv6.Ftable

open References

variable {P A : Type}

/-! ## References and ends -/

namespace Next

/-- The reference that is still to be given up. -/
def hand : Next → Multiset FileId
  | done | exit _ => 0
  | close f => {f}

/-- The descriptor that is still to be cleared. -/
def slot : Next → Option Fd
  | done | close _ => none
  | exit fd => some fd

end Next

namespace FilePc

variable (pc : FilePc P A)

/-- The references that are not in a descriptor. -/
def hand : FilePc P A → Multiset FileId
  | closing f next => f ::ₘ next.hand
  | pipeClosing _ _ next => next.hand
  | pipe1 f0 => {f0}
  | pipe2 f0 f1 => {f0, f1}
  | _ => 0

/-- The descriptor that does not count. -/
def slot : FilePc P A → Option Fd
  | closing _ next | pipeClosing _ _ next => next.slot
  | duping _ fd => some fd
  | _ => none

/-- The files that are not filled in yet. -/
def fresh : FilePc P A → Multiset FileId
  | filling _ f => {f}
  | pipe1 f0 => {f0}
  | pipe2 f0 f1 => {f0, f1}
  | _ => 0

/-- The end of a pipe that is being closed. -/
def pipeEnd : FilePc P A → Option (A × Bool)
  | pipeClosing a writable _ => some (a, writable)
  | _ => none

end FilePc

/-- The end of a pipe that the file stands for. -/
def File.pipeEnd (f : File A) : Option (A × Bool) :=
  if f.type = .pipe then f.pipe.map fun a => (a, f.writable) else none

/-- The flag of one end. -/
def PipeFlags.opened (flags : PipeFlags) (writable : Bool) : Bool :=
  if writable then flags.writeopen else flags.readopen

/-- The descriptors that count. -/
def visible (ofile : Fd → Option FileId) : Option Fd → Fd → Option FileId
  | none => ofile
  | some fd => Function.update ofile fd none

namespace Filing

variable (s t : Filing P A)

/-- The references that a process has. -/
def holds (p : P) : Multiset FileId :=
  References.slots (visible (s.ofile p) (s.pc p).slot) + (s.pc p).hand

/-- The end that a file or a process has. -/
def ends : FileId ⊕ P → Option (A × Bool)
  | .inl f => (s.ftable f).pipeEnd
  | .inr p => (s.pc p).pipeEnd

/-- The end is open. -/
def opened (x : A × Bool) : Bool := (s.pipes x.1).elim false fun flags => flags.opened x.2

end Filing

variable {s t : Filing P A} {p : P} {f f0 f1 : FileId} {a : A}

theorem ends_congr (hfile : ∀ g, (t.ftable g).pipeEnd = (s.ftable g).pipeEnd)
    (hpc : ∀ q, (t.pc q).pipeEnd = (s.pc q).pipeEnd) (e : FileId ⊕ P) : t.ends e = s.ends e := by
  cases e with
  | inl f => exact hfile f
  | inr q => exact hpc q

/-- The count of a file changes, and nothing else of it. -/
theorem ref_change {n : ℕ} (hftable : t.ftable = Function.update s.ftable f
    { s.ftable f with ref := n }) (g : FileId) :
    (t.ftable g).ref = (if g = f then n else (s.ftable g).ref) ∧
      (t.ftable g).type = (s.ftable g).type ∧ (t.ftable g).readable = (s.ftable g).readable ∧
      (t.ftable g).writable = (s.ftable g).writable ∧ (t.ftable g).pipe = (s.ftable g).pipe := by
  rw [hftable]
  by_cases hg : g = f
  · subst hg
    simp
  · simp [hg]

/-! ## The flags of a pipe -/

section Flags

variable [DecidableEq A] {writable : Bool}

/-- The rest does not change. -/
theorem shutPipe_rest (s : Filing P A) (a : A) (writable : Bool) :
    (s.shutPipe a writable).ftable = s.ftable ∧ (s.shutPipe a writable).ofile = s.ofile ∧
      (s.shutPipe a writable).life = s.life ∧ (s.shutPipe a writable).pc = s.pc := by
  unfold Filing.shutPipe
  dsimp only
  split <;> simp

theorem shutPipe_of_ne {b : A} (hb : b ≠ a) : (s.shutPipe a writable).pipes b = s.pipes b := by
  unfold Filing.shutPipe
  dsimp only
  split
  · exact Function.update_of_ne hb _ _
  · exact Function.update_of_ne hb _ _

/-- A pipe with one end closed stays while its other end is open. -/
theorem shutPipe_self {flags : PipeFlags} (hflags : s.pipes a = some flags) :
    (s.shutPipe a writable).pipes a =
      if flags.opened (!writable) then some (flags.shut writable) else none := by
  obtain ⟨readopen, writeopen⟩ := flags
  cases writable <;> cases readopen <;> cases writeopen <;>
    simp [Filing.shutPipe, hflags, PipeFlags.shut, PipeFlags.opened]

theorem opened_shutPipe (hopen : s.opened (a, writable) = true) (x : A × Bool) :
    (s.shutPipe a writable).opened x = (s.opened x && decide (x ≠ (a, writable))) := by
  obtain ⟨b, other⟩ := x
  by_cases hb : b = a
  · subst hb
    cases hflags : s.pipes b with
    | none => simp [Filing.opened, hflags] at hopen
    | some flags =>
        simp only [Filing.opened, hflags, shutPipe_self hflags] at hopen ⊢
        obtain ⟨readopen, writeopen⟩ := flags
        cases writable <;> cases other <;> cases readopen <;> cases writeopen <;>
          simp_all [PipeFlags.shut, PipeFlags.opened]
  · have hne : (b, other) ≠ (a, writable) := fun heq => hb (congrArg Prod.fst heq)
    simp [Filing.opened, shutPipe_of_ne hb, hne]

theorem opened_fillPipe (x : A × Bool) :
    (s.fillPipe f0 f1 a).opened x = (s.opened x || decide (x.1 = a)) := by
  obtain ⟨b, other⟩ := x
  by_cases hb : b = a
  · subst hb
    cases other <;> simp [Filing.opened, Filing.fillPipe, Filing.setFile, PipeFlags.opened]
  · simp [Filing.opened, Filing.fillPipe, Filing.setFile, hb]

end Flags

/-! ## What is preserved -/

variable [Fintype P]

structure Books (s : Filing P A) : Prop where
  counted : Counted (fun f => (s.ftable f).ref) s.holds
  unused : ∀ f, (s.ftable f).ref = 0 → (s.ftable f).type = .none
  freshHeld : ∀ p, (s.pc p).fresh ≤ s.holds p
  fresh : ∀ p, ∀ f ∈ (s.pc p).fresh, (s.ftable f).ref = 1 ∧ (s.ftable f).type = .none
  pipes : ∀ f, (s.ftable f).type = .pipe →
    (s.ftable f).pipe ≠ none ∧ (s.ftable f).readable = !(s.ftable f).writable
  unique : ∀ e e' x, s.ends e = some x → s.ends e' = some x → e = e'
  opened : ∀ x, s.opened x = true ↔ ∃ e, s.ends e = some x
  alive : ∀ a, s.pipes a ≠ none → ∃ writable, s.opened (a, writable) = true

/-- What a step of process `p` does.  References of others, and ends that others are about
to close, stay as they are, except that a new process gets references (`share`). -/
inductive Effect [DecidableEq A] (s t : Filing P A) (p : P) : Prop
  /-- References move within a process. -/
  | move (ftable : t.ftable = s.ftable) (pipes : t.pipes = s.pipes) (log : t.log = s.log)
      (holds : ∀ q, t.holds q = s.holds q) (ends : ∀ q, (t.pc q).pipeEnd = (s.pc q).pipeEnd)
      (fresh : ∀ q, (t.pc q).fresh ≤ (s.pc q).fresh)
  | take (f : FileId) (free : (s.ftable f).ref = 0)
      (ftable : t.ftable = Function.update s.ftable f { s.ftable f with ref := 1 })
      (pipes : t.pipes = s.pipes) (log : t.log = s.log)
      (holds : t.holds p = f ::ₘ s.holds p) (others : ∀ q, q ≠ p → t.holds q = s.holds q)
      (ends : ∀ q, (t.pc q).pipeEnd = (s.pc q).pipeEnd)
      (fresh : (t.pc p).fresh ≤ f ::ₘ (s.pc p).fresh)
      (freshOthers : ∀ q, q ≠ p → (t.pc q).fresh = (s.pc q).fresh)
  | share (e : P) (f : FileId) (held : f ∈ s.holds p)
      (ftable : t.ftable = Function.update s.ftable f
        { s.ftable f with ref := (s.ftable f).ref + 1 })
      (pipes : t.pipes = s.pipes) (log : t.log = s.log)
      (holds : t.holds e = f ::ₘ s.holds e) (others : ∀ q, q ≠ e → t.holds q = s.holds q)
      (ends : ∀ q, (t.pc q).pipeEnd = (s.pc q).pipeEnd)
      (fresh : (s.pc p).fresh = 0) (freshOthers : ∀ q, (t.pc q).fresh ≤ (s.pc q).fresh)
  | drop (f : FileId) (more : 1 < (s.ftable f).ref)
      (ftable : t.ftable = Function.update s.ftable f
        { s.ftable f with ref := (s.ftable f).ref - 1 })
      (pipes : t.pipes = s.pipes) (log : t.log = s.log)
      (holds : s.holds p = f ::ₘ t.holds p) (others : ∀ q, q ≠ p → t.holds q = s.holds q)
      (ends : ∀ q, (t.pc q).pipeEnd = (s.pc q).pipeEnd)
      (fresh : ∀ q, (t.pc q).fresh ≤ (s.pc q).fresh) (own : (t.pc p).fresh = 0)
  | last (f : FileId) (one : (s.ftable f).ref = 1)
      (ftable : t.ftable = Function.update s.ftable f
        { s.ftable f with ref := 0, type := .none })
      (pipes : t.pipes = s.pipes) (log : t.log = s.log)
      (holds : s.holds p = f ::ₘ t.holds p) (others : ∀ q, q ≠ p → t.holds q = s.holds q)
      (before : (s.pc p).pipeEnd = none) (ends : (t.pc p).pipeEnd = (s.ftable f).pipeEnd)
      (endsOthers : ∀ q, q ≠ p → (t.pc q).pipeEnd = (s.pc q).pipeEnd)
      (fresh : ∀ q, (t.pc q).fresh ≤ (s.pc q).fresh) (own : (t.pc p).fresh = 0)
  | shut (a : A) (writable : Bool) (ftable : t.ftable = s.ftable)
      (pipes : t.pipes = (s.shutPipe a writable).pipes)
      (log : t.log = (s.shutPipe a writable).log) (holds : ∀ q, t.holds q = s.holds q)
      (before : (s.pc p).pipeEnd = some (a, writable)) (ends : (t.pc p).pipeEnd = none)
      (endsOthers : ∀ q, q ≠ p → (t.pc q).pipeEnd = (s.pc q).pipeEnd)
      (fresh : ∀ q, (t.pc q).fresh ≤ (s.pc q).fresh)
  | fill (f : FileId) (isFresh : f ∈ (s.pc p).fresh) (file : File A)
      (ref : file.ref = (s.ftable f).ref) (type : file.type = .inode)
      (ftable : t.ftable = Function.update s.ftable f file)
      (pipes : t.pipes = s.pipes) (log : t.log = s.log)
      (holds : ∀ q, t.holds q = s.holds q) (ends : ∀ q, (t.pc q).pipeEnd = (s.pc q).pipeEnd)
      (own : (t.pc p).fresh = 0) (fresh : ∀ q, q ≠ p → (t.pc q).fresh = (s.pc q).fresh)
  | make (f0 f1 : FileId) (a : A) (isFresh : (s.pc p).fresh = {f0, f1})
      (free : s.pipes a = none)
      (ftable : t.ftable = (s.fillPipe f0 f1 a).ftable)
      (pipes : t.pipes = (s.fillPipe f0 f1 a).pipes) (log : t.log = (s.fillPipe f0 f1 a).log)
      (holds : ∀ q, t.holds q = s.holds q) (ends : ∀ q, (t.pc q).pipeEnd = (s.pc q).pipeEnd)
      (own : (t.pc p).fresh = 0) (fresh : ∀ q, q ≠ p → (t.pc q).fresh = (s.pc q).fresh)

/-- No end changes hands. -/
theorem Books.keep (h : Books s) (hcounted : Counted (fun f => (t.ftable f).ref) t.holds)
    (hunused : ∀ f, (t.ftable f).ref = 0 → (t.ftable f).type = .none)
    (hheld : ∀ p, (t.pc p).fresh ≤ t.holds p)
    (hfresh : ∀ p, ∀ f ∈ (t.pc p).fresh, (t.ftable f).ref = 1 ∧ (t.ftable f).type = .none)
    (hpipes : ∀ f, (t.ftable f).type = .pipe →
      (t.ftable f).pipe ≠ none ∧ (t.ftable f).readable = !(t.ftable f).writable)
    (hends : ∀ e, t.ends e = s.ends e) (hsame : t.pipes = s.pipes) : Books t where
  counted := hcounted
  unused := hunused
  freshHeld := hheld
  fresh := hfresh
  pipes := hpipes
  unique e e' x he he' := h.unique e e' x (by rwa [← hends]) (by rwa [← hends])
  opened x := by
    have hopened : t.opened x = s.opened x := by rw [Filing.opened, Filing.opened, hsame]
    rw [hopened, h.opened x]
    exact exists_congr fun e => by rw [hends]
  alive a ha := by
    rw [hsame] at ha
    obtain ⟨writable, hw⟩ := h.alive a ha
    refine ⟨writable, ?_⟩
    rwa [Filing.opened, hsame]

namespace Books

/-- A file that others have references to as well is not fresh. -/
theorem not_fresh (h : Books s) (hf : 1 < (s.ftable f).ref) (q : P) :
    f ∉ (s.pc q).fresh := fun hfresh => by
  have hone := (h.fresh q f hfresh).1
  omega

/-! ## One effect after the other -/

theorem move (h : Books s) (hftable : t.ftable = s.ftable) (hpipes : t.pipes = s.pipes)
    (hholds : ∀ q, t.holds q = s.holds q)
    (hends : ∀ q, (t.pc q).pipeEnd = (s.pc q).pipeEnd)
    (hfresh : ∀ q, (t.pc q).fresh ≤ (s.pc q).fresh) : Books t := by
  refine h.keep (h.counted.congr (fun f => by rw [hftable]) hholds) ?_ (fun q => ?_)
    (fun q f hf => ?_) ?_ (ends_congr (fun g => by rw [hftable]) hends) hpipes
  · rw [hftable]
    exact h.unused
  · rw [hholds]
    exact (hfresh q).trans (h.freshHeld q)
  · rw [hftable]
    exact h.fresh q f (Multiset.mem_of_le (hfresh q) hf)
  · rw [hftable]
    exact h.pipes

/-- Only a count has changed. -/
theorem recount (h : Books s) {n : ℕ} (hftable : t.ftable = Function.update s.ftable f
      { s.ftable f with ref := n })
    (hcounted : Counted (fun g => (t.ftable g).ref) t.holds)
    (hpos : 0 < n) (hpipes : t.pipes = s.pipes)
    (hends : ∀ q, (t.pc q).pipeEnd = (s.pc q).pipeEnd)
    (hheld : ∀ q, (t.pc q).fresh ≤ t.holds q)
    (hfresh : ∀ q, ∀ g ∈ (t.pc q).fresh, (t.ftable g).ref = 1 ∧ (s.ftable g).type = .none) :
    Books t := by
  have hchange := ref_change hftable
  refine h.keep hcounted (fun g hg => ?_) hheld (fun q g hg => ?_) (fun g hg => ?_)
    (ends_congr (fun g => ?_) hends) hpipes
  · obtain ⟨href, htype, -⟩ := hchange g
    rw [href] at hg
    split at hg
    · omega
    · rw [htype]
      exact h.unused g hg
  · obtain ⟨hone, htype⟩ := hfresh q g hg
    exact ⟨hone, by rw [(hchange g).2.1, htype]⟩
  · obtain ⟨-, htype, hread, hwrite, hpipe⟩ := hchange g
    rw [htype] at hg
    rw [hpipe, hread, hwrite]
    exact h.pipes g hg
  · obtain ⟨-, htype, -, hwrite, hpipe⟩ := hchange g
    rw [File.pipeEnd, File.pipeEnd, htype, hwrite, hpipe]

variable [DecidableEq P]

/-- The same for a file that somebody else has. -/
theorem not_fresh_of_held (h : Books s) {q : P} (hq : q ≠ p) (hf : f ∈ s.holds p) :
    f ∉ (s.pc q).fresh := fun hfresh => by
  obtain ⟨hone, -⟩ := h.fresh q f hfresh
  exact hq (h.counted.eq_of_one hone hf (Multiset.mem_of_le (h.freshHeld q) hfresh))

theorem take (h : Books s) (hfree : (s.ftable f).ref = 0)
    (hftable : t.ftable = Function.update s.ftable f { s.ftable f with ref := 1 })
    (hpipes : t.pipes = s.pipes) (hholds : t.holds p = f ::ₘ s.holds p)
    (hothers : ∀ q, q ≠ p → t.holds q = s.holds q)
    (hends : ∀ q, (t.pc q).pipeEnd = (s.pc q).pipeEnd)
    (hfresh : (t.pc p).fresh ≤ f ::ₘ (s.pc p).fresh)
    (hfreshOthers : ∀ q, q ≠ p → (t.pc q).fresh = (s.pc q).fresh) : Books t := by
  have href : ∀ g, (t.ftable g).ref = if g = f then (s.ftable f).ref + 1 else (s.ftable g).ref :=
    fun g => by rw [(ref_change hftable g).1, hfree]
  refine h.recount hftable (h.counted.gain hothers hholds href) Nat.one_pos hpipes hends
    (fun q => ?_) fun q g hg => ?_
  · by_cases hq : q = p
    · subst hq
      rw [hholds]
      exact hfresh.trans ((Multiset.cons_le_cons_iff f).mpr (h.freshHeld q))
    · rw [hfreshOthers q hq, hothers q hq]
      exact h.freshHeld q
  by_cases hgf : g = f
  · subst hgf
    exact ⟨by rw [href, if_pos rfl, hfree], h.unused g hfree⟩
  · have hgs : g ∈ (s.pc q).fresh := by
      by_cases hq : q = p
      · subst hq
        exact (Multiset.mem_cons.mp (Multiset.mem_of_le hfresh hg)).resolve_left hgf
      · rwa [hfreshOthers q hq] at hg
    rw [href, if_neg hgf]
    exact h.fresh q g hgs

theorem share {e : P} (h : Books s) (hheld : f ∈ s.holds p)
    (hftable : t.ftable = Function.update s.ftable f
      { s.ftable f with ref := (s.ftable f).ref + 1 })
    (hpipes : t.pipes = s.pipes) (hholds : t.holds e = f ::ₘ s.holds e)
    (hothers : ∀ q, q ≠ e → t.holds q = s.holds q)
    (hends : ∀ q, (t.pc q).pipeEnd = (s.pc q).pipeEnd) (hown : (s.pc p).fresh = 0)
    (hfresh : ∀ q, (t.pc q).fresh ≤ (s.pc q).fresh) : Books t := by
  have href : ∀ g, (t.ftable g).ref = if g = f then (s.ftable f).ref + 1 else (s.ftable g).ref :=
    fun g => (ref_change hftable g).1
  refine h.recount hftable (h.counted.gain hothers hholds href) (Nat.succ_pos _) hpipes hends
    (fun q => ?_) fun q g hg => ?_
  · refine ((hfresh q).trans (h.freshHeld q)).trans ?_
    by_cases hq : q = e
    · subst hq
      rw [hholds]
      exact Multiset.le_cons_self _ f
    · rw [hothers q hq]
  have hgs := Multiset.mem_of_le (hfresh q) hg
  have hgf : g ≠ f := by
    rintro rfl
    by_cases hq : q = p
    · rw [hq, hown] at hgs
      exact absurd hgs (Multiset.notMem_zero g)
    · exact h.not_fresh_of_held hq hheld hgs
  rw [href, if_neg hgf]
  exact h.fresh q g hgs

/-- What is fresh stays so where the reference of `p` goes, and `p` has nothing fresh. -/
theorem held_of_others (h : Books s) (hothers : ∀ q, q ≠ p → t.holds q = s.holds q)
    (hfresh : ∀ q, (t.pc q).fresh ≤ (s.pc q).fresh) (hown : (t.pc p).fresh = 0) (q : P) :
    (t.pc q).fresh ≤ t.holds q := by
  by_cases hq : q = p
  · rw [hq, hown]
    exact Multiset.zero_le _
  · rw [hothers q hq]
    exact (hfresh q).trans (h.freshHeld q)

theorem drop (h : Books s) (hmore : 1 < (s.ftable f).ref)
    (hftable : t.ftable = Function.update s.ftable f
      { s.ftable f with ref := (s.ftable f).ref - 1 })
    (hpipes : t.pipes = s.pipes) (hholds : s.holds p = f ::ₘ t.holds p)
    (hothers : ∀ q, q ≠ p → t.holds q = s.holds q)
    (hends : ∀ q, (t.pc q).pipeEnd = (s.pc q).pipeEnd)
    (hfresh : ∀ q, (t.pc q).fresh ≤ (s.pc q).fresh) (hown : (t.pc p).fresh = 0) : Books t := by
  have href : ∀ g, (t.ftable g).ref = if g = f then (s.ftable f).ref - 1 else (s.ftable g).ref :=
    fun g => (ref_change hftable g).1
  refine h.recount hftable (h.counted.drop hothers hholds href) (by omega) hpipes hends
    (h.held_of_others hothers hfresh hown) fun q g hg => ?_
  have hgs := Multiset.mem_of_le (hfresh q) hg
  have hgf : g ≠ f := by
    rintro rfl
    exact h.not_fresh hmore q hgs
  rw [href, if_neg hgf]
  exact h.fresh q g hgs

/-- The last reference goes, and the end of a pipe goes from the file to the process. -/
theorem last (h : Books s) (hone : (s.ftable f).ref = 1)
    (hftable : t.ftable = Function.update s.ftable f
      { s.ftable f with ref := 0, type := .none })
    (hpipes : t.pipes = s.pipes) (hholds : s.holds p = f ::ₘ t.holds p)
    (hothers : ∀ q, q ≠ p → t.holds q = s.holds q)
    (hbefore : (s.pc p).pipeEnd = none) (hends : (t.pc p).pipeEnd = (s.ftable f).pipeEnd)
    (hendsOthers : ∀ q, q ≠ p → (t.pc q).pipeEnd = (s.pc q).pipeEnd)
    (hfresh : ∀ q, (t.pc q).fresh ≤ (s.pc q).fresh) (hown : (t.pc p).fresh = 0) : Books t := by
  have hself : t.ftable f = { s.ftable f with ref := 0, type := .none } := by
    rw [hftable, Function.update_self]
  have hne : ∀ g, g ≠ f → t.ftable g = s.ftable g := fun g hg => by
    rw [hftable, Function.update_of_ne hg]
  have href : ∀ g, (t.ftable g).ref = if g = f then (s.ftable f).ref - 1 else (s.ftable g).ref := by
    intro g
    by_cases hg : g = f
    · rw [if_pos hg, hg, hself, hone]
    · rw [if_neg hg, hne g hg]
  have hswap : ∀ e, t.ends e = s.ends (Equiv.swap (Sum.inl f) (Sum.inr p) e) := by
    intro e
    by_cases hf : e = Sum.inl f
    · rw [hf, Equiv.swap_apply_left]
      show (t.ftable f).pipeEnd = (s.pc p).pipeEnd
      rw [hself, hbefore]
      rfl
    by_cases hp : e = Sum.inr p
    · rw [hp, Equiv.swap_apply_right]
      exact hends
    rw [Equiv.swap_apply_of_ne_of_ne hf hp]
    cases e with
    | inl g => exact congrArg File.pipeEnd (hne g fun hg => hf (by rw [hg]))
    | inr q => exact hendsOthers q fun hq => hp (by rw [hq])
  have hopened : ∀ x, t.opened x = s.opened x := fun x => by
    rw [Filing.opened, Filing.opened, hpipes]
  refine ⟨h.counted.drop hothers hholds href, fun g hg => ?_,
    h.held_of_others hothers hfresh hown, fun q g hg => ?_, fun g hg => ?_,
    fun e e' x he he' => ?_, fun x => ?_, fun a ha => ?_⟩
  · by_cases hgf : g = f
    · rw [hgf, hself]
    · rw [hne g hgf] at hg ⊢
      exact h.unused g hg
  · have hgs := Multiset.mem_of_le (hfresh q) hg
    have hq : q ≠ p := by
      rintro rfl
      rw [hown] at hg
      exact Multiset.notMem_zero g hg
    have hgf : g ≠ f := by
      rintro rfl
      refine h.not_fresh_of_held hq ?_ hgs
      rw [hholds]
      exact Multiset.mem_cons_self g _
    rw [hne g hgf]
    exact h.fresh q g hgs
  · have hgf : g ≠ f := by
      rintro rfl
      rw [hself] at hg
      simp at hg
    rw [hne g hgf] at hg ⊢
    exact h.pipes g hg
  · rw [hswap] at he he'
    exact (Equiv.swap _ _).injective (h.unique _ _ x he he')
  · rw [hopened, h.opened x, ← (Equiv.swap (Sum.inl f) (Sum.inr p)).exists_congr_right]
    exact exists_congr fun e => by rw [hswap]
  · rw [hpipes] at ha
    obtain ⟨writable, hw⟩ := h.alive a ha
    exact ⟨writable, by rw [hopened, hw]⟩

/-- A process closes the end that it has. -/
theorem shut [DecidableEq A] {writable : Bool} (h : Books s) (hftable : t.ftable = s.ftable)
    (hpipes : t.pipes = (s.shutPipe a writable).pipes)
    (hholds : ∀ q, t.holds q = s.holds q)
    (hbefore : (s.pc p).pipeEnd = some (a, writable)) (hends : (t.pc p).pipeEnd = none)
    (hendsOthers : ∀ q, q ≠ p → (t.pc q).pipeEnd = (s.pc q).pipeEnd)
    (hfresh : ∀ q, (t.pc q).fresh ≤ (s.pc q).fresh) : Books t := by
  have hopen : s.opened (a, writable) = true := (h.opened _).mpr ⟨Sum.inr p, hbefore⟩
  have hopened : ∀ x, t.opened x = (s.opened x && decide (x ≠ (a, writable))) := fun x => by
    rw [← opened_shutPipe hopen, Filing.opened, Filing.opened, hpipes]
  have hself : t.ends (Sum.inr p) = none := hends
  have hothers : ∀ e, e ≠ Sum.inr p → t.ends e = s.ends e := by
    intro e he
    cases e with
    | inl f => exact congrArg (fun ftable => (ftable f).pipeEnd) hftable
    | inr q => exact hendsOthers q fun hq => he (by rw [hq])
  have hsub : ∀ e x, t.ends e = some x → e ≠ Sum.inr p ∧ s.ends e = some x := by
    intro e x he
    by_cases hp : e = Sum.inr p
    · rw [hp, hself] at he
      simp at he
    · exact ⟨hp, by rwa [hothers e hp] at he⟩
  refine ⟨h.counted.congr (fun f => by rw [hftable]) hholds, ?_, fun q => ?_, fun q f hf => ?_, ?_,
    fun e e' x he he' => h.unique e e' x (hsub e x he).2 (hsub e' x he').2, fun x => ?_,
    fun b hb => ?_⟩
  · rw [hftable]
    exact h.unused
  · rw [hholds]
    exact (hfresh q).trans (h.freshHeld q)
  · rw [hftable]
    exact h.fresh q f (Multiset.mem_of_le (hfresh q) hf)
  · rw [hftable]
    exact h.pipes
  · rw [hopened]
    by_cases hx : x = (a, writable)
    · subst hx
      simp only [ne_eq, not_true_eq_false, decide_false, Bool.and_false, Bool.false_eq_true,
        false_iff, not_exists]
      intro e he
      obtain ⟨hp, he⟩ := hsub e _ he
      exact hp (h.unique e (Sum.inr p) _ he hbefore)
    · simp only [ne_eq, hx, not_false_eq_true, decide_true, Bool.and_true]
      rw [h.opened x]
      refine exists_congr fun e => ⟨fun he => ?_, fun he => (hsub e x he).2⟩
      have hp : e ≠ Sum.inr p := by
        rintro rfl
        exact hx (Option.some.inj (he.symm.trans hbefore))
      rw [hothers e hp, he]
  · by_cases hba : b = a
    · subst hba
      cases hflags : s.pipes b with
      | none => simp [Filing.opened, hflags] at hopen
      | some flags =>
          refine ⟨!writable, ?_⟩
          rw [hpipes, shutPipe_self hflags] at hb
          split at hb
          · rename_i hother
            rw [hopened, Filing.opened, hflags]
            simp [hother]
          · exact absurd rfl hb
    · rw [hpipes, shutPipe_of_ne hba] at hb
      obtain ⟨other, hother⟩ := h.alive b hb
      refine ⟨other, ?_⟩
      have hne : (b, other) ≠ (a, writable) := fun heq => hba (congrArg Prod.fst heq)
      rw [hopened, hother]
      simp [hne]

/-- A fresh file becomes one of an inode. -/
theorem fill (h : Books s) (hf : f ∈ (s.pc p).fresh) {file : File A}
    (href : file.ref = (s.ftable f).ref) (htype : file.type = .inode)
    (hftable : t.ftable = Function.update s.ftable f file) (hpipes : t.pipes = s.pipes)
    (hholds : ∀ q, t.holds q = s.holds q)
    (hends : ∀ q, (t.pc q).pipeEnd = (s.pc q).pipeEnd) (hown : (t.pc p).fresh = 0)
    (hfresh : ∀ q, q ≠ p → (t.pc q).fresh = (s.pc q).fresh) : Books t := by
  have hself : t.ftable f = file := by rw [hftable, Function.update_self]
  have hne : ∀ g, g ≠ f → t.ftable g = s.ftable g := fun g hg => by
    rw [hftable, Function.update_of_ne hg]
  obtain ⟨hone, hnone⟩ := h.fresh p f hf
  have hheld := Multiset.mem_of_le (h.freshHeld p) hf
  have hrefs : ∀ g, (t.ftable g).ref = (s.ftable g).ref := by
    intro g
    by_cases hg : g = f
    · rw [hg, hself, href]
    · rw [hne g hg]
  refine h.keep (h.counted.congr hrefs hholds) (fun g hg => ?_) (fun q => ?_) (fun q g hg => ?_)
    (fun g hg => ?_) (ends_congr (fun g => ?_) hends) hpipes
  · have hgf : g ≠ f := by
      rintro rfl
      rw [hself, href, hone] at hg
      omega
    rw [hne g hgf] at hg ⊢
    exact h.unused g hg
  · by_cases hq : q = p
    · rw [hq, hown]
      exact Multiset.zero_le _
    · rw [hfresh q hq, hholds]
      exact h.freshHeld q
  · have hq : q ≠ p := by
      rintro rfl
      rw [hown] at hg
      exact Multiset.notMem_zero g hg
    rw [hfresh q hq] at hg
    have hgf : g ≠ f := by
      rintro rfl
      exact h.not_fresh_of_held hq hheld hg
    rw [hne g hgf]
    exact h.fresh q g hg
  · have hgf : g ≠ f := by
      rintro rfl
      rw [hself, htype] at hg
      simp at hg
    rw [hne g hgf] at hg ⊢
    exact h.pipes g hg
  · by_cases hg : g = f
    · subst hg
      rw [hself, File.pipeEnd, File.pipeEnd, htype, hnone]
      rfl
    · rw [hne g hg]

/-- Two fresh files become the ends of a new pipe. -/
theorem make [DecidableEq A] (h : Books s) (hnew : (s.pc p).fresh = {f0, f1})
    (hfree : s.pipes a = none) (hftable : t.ftable = (s.fillPipe f0 f1 a).ftable)
    (hpipes : t.pipes = (s.fillPipe f0 f1 a).pipes)
    (hholds : ∀ q, t.holds q = s.holds q)
    (hends : ∀ q, (t.pc q).pipeEnd = (s.pc q).pipeEnd) (hown : (t.pc p).fresh = 0)
    (hfresh : ∀ q, q ≠ p → (t.pc q).fresh = (s.pc q).fresh) : Books t := by
  have hmem : ∀ g, g = f0 ∨ g = f1 → g ∈ (s.pc p).fresh := fun g hg => by
    rw [hnew]
    simpa using hg
  have hheld : ∀ g, g = f0 ∨ g = f1 → g ∈ s.holds p := fun g hg =>
    Multiset.mem_of_le (h.freshHeld p) (hmem g hg)
  -- there is only one reference to each
  have hdistinct : f0 ≠ f1 := by
    rintro rfl
    have hle := (Multiset.count_le_of_le f0 (h.freshHeld p)).trans (h.counted.count_le p f0)
    rw [hnew, (h.fresh p f0 (hmem f0 (Or.inl rfl))).1] at hle
    simp at hle
  have hfirst : t.ftable f0 = { s.ftable f0 with
      type := .pipe, readable := true, writable := false, pipe := some a } := by
    rw [hftable]
    simp [Filing.fillPipe, Filing.setFile, hdistinct]
  have hsecond : t.ftable f1 = { s.ftable f1 with
      type := .pipe, readable := false, writable := true, pipe := some a } := by
    rw [hftable]
    simp [Filing.fillPipe, Filing.setFile, hdistinct.symm]
  have hne : ∀ g, g ≠ f0 → g ≠ f1 → t.ftable g = s.ftable g := fun g h0 h1 => by
    rw [hftable]
    simp [Filing.fillPipe, Filing.setFile, h0, h1]
  have hrefs : ∀ g, (t.ftable g).ref = (s.ftable g).ref := by
    intro g
    by_cases h0 : g = f0
    · rw [h0, hfirst]
    by_cases h1 : g = f1
    · rw [h1, hsecond]
    · rw [hne g h0 h1]
  have hopened : ∀ x, t.opened x = (s.opened x || decide (x.1 = a)) := fun x => by
    rw [← opened_fillPipe, Filing.opened, Filing.opened, hpipes]
  -- the ends of the new pipe are those of the two files
  have hclosed : ∀ writable, s.opened (a, writable) = false := fun writable => by
    simp [Filing.opened, hfree]
  have hold : ∀ e x, s.ends e = some x → x.1 ≠ a := by
    rintro e ⟨b, writable⟩ he rfl
    have hopen := (h.opened _).mpr ⟨e, he⟩
    rw [hclosed writable] at hopen
    simp at hopen
  have hendsFirst : t.ends (Sum.inl f0) = some (a, false) := by
    show (t.ftable f0).pipeEnd = _
    rw [hfirst]
    rfl
  have hendsSecond : t.ends (Sum.inl f1) = some (a, true) := by
    show (t.ftable f1).pipeEnd = _
    rw [hsecond]
    rfl
  have hendsOthers : ∀ e, e ≠ Sum.inl f0 → e ≠ Sum.inl f1 → t.ends e = s.ends e := by
    intro e h0 h1
    cases e with
    | inl g =>
        exact congrArg File.pipeEnd
          (hne g (fun heq => h0 (by rw [heq])) fun heq => h1 (by rw [heq]))
    | inr q => exact hends q
  have hendsNone : ∀ g, g = f0 ∨ g = f1 → s.ends (Sum.inl g) = none := by
    intro g hg
    show (s.ftable g).pipeEnd = none
    rw [File.pipeEnd, (h.fresh p g (hmem g hg)).2]
    rfl
  have hcases : ∀ e x, t.ends e = some x →
      e = Sum.inl f0 ∧ x = (a, false) ∨ e = Sum.inl f1 ∧ x = (a, true) ∨
        s.ends e = some x ∧ x.1 ≠ a := by
    intro e x he
    by_cases h0 : e = Sum.inl f0
    · rw [h0, hendsFirst] at he
      exact Or.inl ⟨h0, (Option.some.inj he).symm⟩
    by_cases h1 : e = Sum.inl f1
    · rw [h1, hendsSecond] at he
      exact Or.inr (Or.inl ⟨h1, (Option.some.inj he).symm⟩)
    · rw [hendsOthers e h0 h1] at he
      exact Or.inr (Or.inr ⟨he, hold e x he⟩)
  refine ⟨h.counted.congr hrefs hholds, fun g hg => ?_, fun q => ?_, fun q g hg => ?_,
    fun g hg => ?_, fun e e' x he he' => ?_, fun x => ?_, fun b hb => ?_⟩
  · rw [hrefs] at hg
    have hg0 : g ≠ f0 := by
      rintro rfl
      have hone := (h.fresh p g (hmem g (Or.inl rfl))).1
      omega
    have hg1 : g ≠ f1 := by
      rintro rfl
      have hone := (h.fresh p g (hmem g (Or.inr rfl))).1
      omega
    rw [hne g hg0 hg1]
    exact h.unused g hg
  · by_cases hq : q = p
    · rw [hq, hown]
      exact Multiset.zero_le _
    · rw [hfresh q hq, hholds]
      exact h.freshHeld q
  · have hq : q ≠ p := by
      rintro rfl
      rw [hown] at hg
      exact Multiset.notMem_zero g hg
    rw [hfresh q hq] at hg
    have hgf : ∀ f, f = f0 ∨ f = f1 → g ≠ f := by
      rintro f hf rfl
      exact h.not_fresh_of_held hq (hheld g hf) hg
    rw [hne g (hgf f0 (Or.inl rfl)) (hgf f1 (Or.inr rfl))]
    exact h.fresh q g hg
  · by_cases h0 : g = f0
    · rw [h0, hfirst]
      simp
    by_cases h1 : g = f1
    · rw [h1, hsecond]
      simp
    rw [hne g h0 h1] at hg ⊢
    exact h.pipes g hg
  · rcases hcases e x he with ⟨rfl, rfl⟩ | ⟨rfl, rfl⟩ | ⟨he, hx⟩ <;>
      rcases hcases e' _ he' with ⟨rfl, hx'⟩ | ⟨rfl, hx'⟩ | ⟨he', hx'⟩ <;> simp_all
    exact h.unique e e' x he he'
  · obtain ⟨b, writable⟩ := x
    rw [hopened]
    by_cases hb : b = a
    · subst hb
      simp only [decide_true, Bool.or_true, true_iff]
      cases writable with
      | false => exact ⟨_, hendsFirst⟩
      | true => exact ⟨_, hendsSecond⟩
    · simp only [hb, decide_false, Bool.or_false]
      rw [h.opened]
      refine exists_congr fun e => ⟨fun he => ?_, fun he => ?_⟩
      · have hg : ∀ g, g = f0 ∨ g = f1 → e ≠ Sum.inl g := by
          rintro g hg rfl
          rw [hendsNone g hg] at he
          simp at he
        rwa [hendsOthers e (hg f0 (Or.inl rfl)) (hg f1 (Or.inr rfl))]
      · rcases hcases e _ he with ⟨-, heq⟩ | ⟨-, heq⟩ | ⟨he, -⟩
        · exact absurd (congrArg Prod.fst heq) hb
        · exact absurd (congrArg Prod.fst heq) hb
        · exact he
  · by_cases hba : b = a
    · refine ⟨true, ?_⟩
      rw [hopened]
      simp [hba]
    · have hsame : (s.fillPipe f0 f1 a).pipes b = s.pipes b := Function.update_of_ne hba _ _
      rw [hpipes, hsame] at hb
      obtain ⟨writable, hw⟩ := h.alive b hb
      exact ⟨writable, by rw [hopened, hw, Bool.true_or]⟩

theorem effect [DecidableEq A] (h : Books s) (he : Effect s t p) : Books t := by
  cases he with
  | move hftable hpipes hlog hholds hends hfresh => exact h.move hftable hpipes hholds hends hfresh
  | take f hfree hftable hpipes hlog hholds hothers hends hfresh hfreshOthers =>
      exact h.take hfree hftable hpipes hholds hothers hends hfresh hfreshOthers
  | share e f hheld hftable hpipes hlog hholds hothers hends hown hfresh =>
      exact h.share hheld hftable hpipes hholds hothers hends hown hfresh
  | drop f hmore hftable hpipes hlog hholds hothers hends hfresh hown =>
      exact h.drop hmore hftable hpipes hholds hothers hends hfresh hown
  | last f hone hftable hpipes hlog hholds hothers hbefore hends hendsOthers hfresh hown =>
      exact h.last hone hftable hpipes hholds hothers hbefore hends hendsOthers hfresh hown
  | shut a writable hftable hpipes hlog hholds hbefore hends hendsOthers hfresh =>
      exact h.shut hftable hpipes hholds hbefore hends hendsOthers hfresh
  | fill f hf file href htype hftable hpipes hlog hholds hends hown hfresh =>
      exact h.fill hf href htype hftable hpipes hholds hends hown hfresh
  | make f0 f1 a hnew hfree hftable hpipes hlog hholds hends hown hfresh =>
      exact h.make hnew hfree hftable hpipes hholds hends hown hfresh

end Books

/-! ## Every page is freed once -/

/-- The pages in use after some calls of `kalloc` and `kfree`, and `none` if a page has been
allocated that was in use, or freed that was not. -/
def replay [DecidableEq A] (live : A → Bool) : List (PipeEvent A) → Option (A → Bool)
  | [] => some live
  | .alloc a :: rest =>
      if live a then none else replay (Function.update live a true) rest
  | .free a :: rest =>
      if live a then replay (Function.update live a false) rest else none

theorem replay_append [DecidableEq A] (live : A → Bool) (log : List (PipeEvent A))
    (event : PipeEvent A) :
    replay live (log ++ [event]) = (replay live log).bind fun live => replay live [event] := by
  induction log generalizing live with
  | nil => rfl
  | cons first rest ih =>
      cases first with
      | alloc a =>
          rw [List.cons_append, replay, replay]
          split
          · rfl
          · exact ih _
      | free a =>
          rw [List.cons_append, replay, replay]
          split
          · exact ih _
          · rfl

/-- What has been allocated and not freed are the pipes that there are. -/
def Replayed [DecidableEq A] (s : Filing P A) : Prop :=
  replay (fun _ => false) s.log = some fun a => (s.pipes a).isSome

omit [Fintype P] in
theorem Replayed.congr [DecidableEq A] (h : Replayed s) (hpipes : t.pipes = s.pipes)
    (hlog : t.log = s.log) : Replayed t := by
  rw [Replayed, hlog, hpipes]
  exact h

omit [Fintype P] in
theorem Replayed.shutPipe [DecidableEq A] {writable : Bool} (h : Replayed s)
    (hopen : s.opened (a, writable) = true) : Replayed (s.shutPipe a writable) := by
  have hsome : (s.pipes a).isSome = true := by
    cases hflags : s.pipes a with
    | none => simp [Filing.opened, hflags] at hopen
    | some flags => rfl
  unfold Replayed at h ⊢
  unfold Filing.shutPipe
  dsimp only
  split
  · rw [replay_append, h]
    simp only [Option.bind_some, replay, hsome, if_true]
    congr 1
    funext b
    by_cases hb : b = a
    · simp [hb]
    · simp [hb]
  · rw [h]
    congr 1
    funext b
    by_cases hb : b = a
    · simp [hb]
    · simp [hb]

omit [Fintype P] in
theorem Replayed.fillPipe [DecidableEq A] (h : Replayed s) (hfree : s.pipes a = none) :
    Replayed (s.fillPipe f0 f1 a) := by
  unfold Replayed at h ⊢
  have hlog : (s.fillPipe f0 f1 a).log = s.log ++ [PipeEvent.alloc a] := rfl
  have hpipes : (s.fillPipe f0 f1 a).pipes = Function.update s.pipes a (some ⟨true, true⟩) := rfl
  rw [hlog, hpipes, replay_append, h]
  simp only [Option.bind_some, replay, hfree, Option.isSome_none, Bool.false_eq_true, if_false]
  congr 1
  funext b
  by_cases hb : b = a
  · simp [hb]
  · simp [hb]

theorem Replayed.effect [DecidableEq A] (h : Replayed s) (hbooks : Books s)
    (he : Effect s t p) : Replayed t := by
  cases he with
  | move _ hpipes hlog => exact h.congr hpipes hlog
  | take _ _ _ hpipes hlog => exact h.congr hpipes hlog
  | share _ _ _ _ hpipes hlog => exact h.congr hpipes hlog
  | drop _ _ _ hpipes hlog => exact h.congr hpipes hlog
  | last _ _ _ hpipes hlog => exact h.congr hpipes hlog
  | fill _ _ _ _ _ _ hpipes hlog => exact h.congr hpipes hlog
  | shut a writable hftable hpipes hlog hholds hbefore =>
      exact Replayed.congr (h.shutPipe ((hbooks.opened _).mpr ⟨Sum.inr p, hbefore⟩)) hpipes hlog
  | make f0 f1 a hnew hfree hftable hpipes hlog =>
      exact Replayed.congr (h.fillPipe hfree) hpipes hlog

end Xv6.Ftable
