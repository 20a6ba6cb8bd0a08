import Xv6.Bio.Lru
import Xv6.Lib.WriteBack
import Xv6.Store.Machine

/-!
# The steps of buffers, log and disk

`StoreStep` lists what a step can do.  As far as the buffer cache is concerned a step is one of its
own, and as far as the log is concerned one of the log, so what holds of each of them in all runs
holds here, too.
-/

namespace Xv6

open Transition
open Files (ROOTDEV)

variable {P : Type} [DecidableEq P]

/-- What a step does. -/
inductive StoreStep (s : Store P) : StoreCall P → Store P → Prop
  | get (a : StoreCall P) (p : P) (dev blockno : ℕ) (bio : Bio P Block) (hidle : s.Idle p)
      (hdev : dev < 2)
      (ha : a = .bread p dev blockno ∧ s.Free p ∨
        a = .proceed p ∧ dev = ROOTDEV ∧ s.instr p = some (.bread blockno))
      (hbio : s.bio.step (.bget p dev blockno) = .next bio) : StoreStep s a { s with bio := bio }
  | lock (p : P) (b : BufId) (bio : Bio P Block) (hpc : s.bio.pc p = .acquiring b)
      (hbio : s.bio.step (.acquiresleep p) = .next bio) :
      StoreStep s (.proceed p)
        ({ s with bio := bio }.setFrame p { s.frame p with reading := some b })
  | hit (p : P) (b : BufId) (hpc : s.bio.pc p = .running)
      (hreading : (s.frame p).reading = some b) (hvalid : (s.buf b).valid = true) :
      StoreStep s (.proceed p) (s.returned p b)
  | fetch (p : P) (b : BufId) (t : Store P) (hpc : s.bio.pc p = .running)
      (hreading : (s.frame p).reading = some b) (hvalid : (s.buf b).valid = false)
      (ht : s.iderw p b = .next t) : StoreStep s (.proceed p) (t.returned p b)
  | change (p : P) (b : BufId) (data : Block) (hfree : s.Free p) (hchanges : s.Changes p b)
      (hpc : s.log.pc p = .working) (hfull : s.log.full ≠ true) :
      StoreStep s (.logWrite p b data)
        ({ s.modify b fun x => { x with data := data } with
          log := s.log.goto p (.tested (s.buf b).blockno) }.setFrame p ⟨none, 0, [b]⟩)
  | release (a : StoreCall P) (p : P) (b : BufId) (bio : Bio P Block) (hidle : s.Idle p)
      (ha : a = .brelse p b ∧ s.Free p ∨
        a = .proceed p ∧ ∃ k, s.instr p = some (.brelse k) ∧ (s.frame p).bufs[k]? = some b)
      (hbio : s.bio.step (.brelse p b) = .next bio) : StoreStep s a { s with bio := bio }
  | unref (p : P) (b : BufId) (bio : Bio P Block) (hpc : s.bio.pc p = .releasing b)
      (hbio : s.bio.step (.unref p) = .next bio) :
      StoreStep s (.proceed p) ({ s with bio := bio }.advance p)
  | memmove (p : P) (dst src : ℕ) (d c : BufId) (hidle : s.Idle p)
      (hinstr : s.instr p = some (.memmove dst src)) (hd : (s.frame p).bufs[dst]? = some d)
      (hc : (s.frame p).bufs[src]? = some c) :
      StoreStep s (.proceed p)
        ((s.modify d fun x => { x with data := (s.buf c).data }).advance p)
  | header (p : P) (k : ℕ) (b : BufId) (hidle : s.Idle p)
      (hinstr : s.instr p = some (.header k)) (hb : (s.frame p).bufs[k]? = some b) :
      StoreStep s (.proceed p)
        ((s.modify b fun x => { x with data := headerOf s.log.lh x.data }).advance p)
  | bwrite (p : P) (k : ℕ) (b : BufId) (t : Store P) (hidle : s.Idle p)
      (hinstr : s.instr p = some (.bwrite k)) (hb : (s.frame p).bufs[k]? = some b)
      (ht : s.bwrite p b = .next t) : StoreStep s (.proceed p) (t.advance p)
  | log (a : StoreCall P) (c : LogCall P) (log : Logging P) (hlog : LogStep s.log c log)
      (hc : (∃ p, a = .beginOp p ∧ c = .beginOp p ∧ s.Idle p) ∨
        (∃ p, a = .endOp p ∧ c = .endOp p ∧ s.Free p) ∨ (∃ p, a = .kill p ∧ c = .kill p) ∨
        ∃ p k, a = .proceed p ∧ c = .proceed p ∧ s.Idle p ∧ s.log.pc p = .tested k) :
      StoreStep s a { s with log := log }
  | absorb (p : P) (k : ℕ) (b : BufId) (hidle : s.Idle p) (hpc : s.log.pc p = .locking k)
      (hbufs : (s.frame p).bufs = [b]) :
      StoreStep s (.proceed p)
        ({ s.modify b fun x => { x with dirty := true } with
          log := (s.log.absorb k).goto p .working }.setFrame p ⟨none, 0, []⟩)
  | commit (p : P) (log : Logging P) (hidle : s.Idle p) (hinstr : s.instr p = none)
      (hcommits : (s.log.pc p).commits = true) (hlog : LogStep s.log (.proceed p) log) :
      StoreStep s (.proceed p) ({ s with log := log }.setFrame p ⟨none, 0, []⟩)

namespace Store

variable {s t : Store P} {p : P} {a : StoreCall P}

theorem cacheStep_eq_next {c : BioCall P Block} :
    s.cacheStep c = .next t ↔ ∃ bio, s.bio.step c = .next bio ∧ t = { s with bio := bio } := by
  rw [cacheStep, Outcome.bind_eq_next]
  exact exists_congr fun bio => and_congr_right fun _ =>
    ⟨fun h => by cases h; rfl, fun h => by rw [h]⟩

theorem logStep_eq_next {c : LogCall P} :
    s.logStep c = .next t ↔ ∃ log, s.log.step c = .next log ∧ t = { s with log := log } := by
  rw [logStep, Outcome.bind_eq_next]
  exact exists_congr fun log => and_congr_right fun _ =>
    ⟨fun h => by cases h; rfl, fun h => by rw [h]⟩

theorem exec_storeStep (hidle : s.Idle p) {i : Instr} (hinstr : s.instr p = some i)
    (hstep : s.exec p i = .next t) : StoreStep s (.proceed p) t := by
  cases i with
  | bread blockno =>
      obtain ⟨bio, hbio, rfl⟩ := cacheStep_eq_next.mp hstep
      exact .get _ p ROOTDEV blockno bio hidle (by decide) (Or.inr ⟨rfl, rfl, hinstr⟩) hbio
  | memmove dst src =>
      rw [exec] at hstep
      split at hstep
      · rename_i d c hd hc
        cases hstep
        exact .memmove p dst src d c hidle hinstr hd hc
      · cases hstep
  | header k =>
      rw [exec] at hstep
      split at hstep
      · rename_i b hb
        cases hstep
        exact .header p k b hidle hinstr hb
      · cases hstep
  | bwrite k =>
      rw [exec] at hstep
      split at hstep
      · rename_i b hb
        obtain ⟨t', ht', hnext⟩ := Outcome.bind_eq_next.mp hstep
        cases hnext
        exact .bwrite p k b t' hidle hinstr hb ht'
      · cases hstep
  | brelse k =>
      rw [exec] at hstep
      split at hstep
      · rename_i b hb
        obtain ⟨bio, hbio, rfl⟩ := cacheStep_eq_next.mp hstep
        exact .release _ p b bio hidle (Or.inr ⟨rfl, k, hinstr, hb⟩) hbio
      · cases hstep

theorem logProceed_storeStep (hidle : s.Idle p) (hinstr : s.instr p = none)
    (hstep : s.logProceed p = .next t) : StoreStep s (.proceed p) t := by
  cases hpc : s.log.pc p with
  | tested k =>
      rw [logProceed, hpc] at hstep
      obtain ⟨log, hlog, rfl⟩ := logStep_eq_next.mp hstep
      exact .log _ _ log (Logging.logStep hlog)
        (Or.inr (Or.inr (Or.inr ⟨p, k, rfl, rfl, hidle, hpc⟩)))
  | locking k =>
      rw [logProceed, hpc] at hstep
      dsimp only at hstep
      split at hstep
      · rename_i b hbufs
        obtain ⟨t', ht', hnext⟩ := Outcome.bind_eq_next.mp hstep
        obtain ⟨log, hlog, rfl⟩ := logStep_eq_next.mp ht'
        cases hnext
        have hlog' : s.log.step (.proceed p) = .next log := hlog
        rw [Logging.step, Logging.proceed, hpc] at hlog'
        cases hlog'
        exact .absorb p k b hidle hpc hbufs
      · cases hstep
  | _ =>
      rw [logProceed, hpc] at hstep
      obtain ⟨t', ht', hnext⟩ := Outcome.bind_eq_next.mp hstep
      obtain ⟨log, hlog, rfl⟩ := logStep_eq_next.mp ht'
      cases hnext
      refine .commit p log hidle hinstr ?_ (Logging.logStep hlog)
      first
        | (rw [hpc]; rfl)
        | (rw [Logging.step, Logging.proceed, hpc] at hlog; cases hlog)

theorem storeStep (hstep : s.step a = .next t) : StoreStep s a t := by
  cases a with
  | bread p dev blockno =>
      rw [step] at hstep
      split at hstep
      · rename_i hfree
        obtain ⟨bio, hbio, rfl⟩ := cacheStep_eq_next.mp hstep
        exact .get _ p dev blockno bio hfree.1.1 hfree.2 (Or.inl ⟨rfl, hfree.1⟩) hbio
      · cases hstep
  | logWrite p b data =>
      rw [step] at hstep
      split at hstep
      · rename_i hfree
        obtain ⟨t', ht', hnext⟩ := Outcome.bind_eq_next.mp hstep
        obtain ⟨log, hlog, rfl⟩ := logStep_eq_next.mp ht'
        cases hnext
        have hlog' : s.log.step (.logWrite p (s.buf b).blockno) = .next log := hlog
        cases Logging.logStep hlog' with
        | call _ _ hpc hfull => exact .change p b data hfree.1 hfree.2 hpc hfull
      · cases hstep
  | brelse p b =>
      rw [step] at hstep
      split at hstep
      · rename_i hfree
        obtain ⟨bio, hbio, rfl⟩ := cacheStep_eq_next.mp hstep
        exact .release _ p b bio hfree.1 (Or.inl ⟨rfl, hfree⟩) hbio
      · cases hstep
  | beginOp p =>
      rw [step] at hstep
      split at hstep
      · rename_i hidle
        obtain ⟨log, hlog, rfl⟩ := logStep_eq_next.mp hstep
        exact .log _ _ log (Logging.logStep hlog) (Or.inl ⟨p, rfl, rfl, hidle⟩)
      · cases hstep
  | endOp p =>
      rw [step] at hstep
      split at hstep
      · rename_i hfree
        obtain ⟨log, hlog, rfl⟩ := logStep_eq_next.mp hstep
        exact .log _ _ log (Logging.logStep hlog) (Or.inr (Or.inl ⟨p, rfl, rfl, hfree⟩))
      · cases hstep
  | kill p =>
      obtain ⟨log, hlog, rfl⟩ := logStep_eq_next.mp hstep
      exact .log _ _ log (Logging.logStep hlog) (Or.inr (Or.inr (Or.inl ⟨p, rfl, rfl⟩)))
  | proceed p =>
      rw [step, proceed] at hstep
      split at hstep
      · rename_i b hpc
        obtain ⟨t', ht', hnext⟩ := Outcome.bind_eq_next.mp hstep
        obtain ⟨bio, hbio, rfl⟩ := cacheStep_eq_next.mp ht'
        cases hnext
        exact .lock p b bio hpc hbio
      · rename_i b hpc
        obtain ⟨t', ht', hnext⟩ := Outcome.bind_eq_next.mp hstep
        obtain ⟨bio, hbio, rfl⟩ := cacheStep_eq_next.mp ht'
        cases hnext
        exact .unref p b bio hpc hbio
      · rename_i hpc
        split at hstep
        · rename_i b hreading
          obtain ⟨t', ht', hnext⟩ := Outcome.bind_eq_next.mp hstep
          cases hnext
          split at ht'
          · rename_i hvalid
            cases ht'
            exact .hit p b hpc hreading hvalid
          · rename_i hvalid
            exact .fetch p b t' hpc hreading (by simpa using hvalid) ht'
        · rename_i hreading
          have hidle : s.Idle p := ⟨hpc, hreading⟩
          split at hstep
          · rename_i i hinstr
            exact exec_storeStep hidle hinstr hstep
          · rename_i hinstr
            exact logProceed_storeStep hidle hinstr hstep

end Store

/-! ## The buffer cache alone -/

open WriteBack

/-- The buffer as a line of a cache. -/
def Buf.line {P β : Type} (x : Buf P β) : Line (ℕ × ℕ) β :=
  ⟨(x.dev, x.blockno), x.valid, x.dirty, x.data⟩

section Bio

variable {β : Type} {s t : Bio P β} {p : P} {b c : BufId} {dev blockno : ℕ}

/-- `bget` finds the buffer of the block, or it uses an unused buffer for a block that has none. -/
theorem Bio.bget_cases [Fintype P] {h : BioHistory} {order : List BufId} (hinv : BioInv s h order)
    (hstep : s.step (.bget p dev blockno) = .next t) :
    s.pc p = .running ∧ ∃ b, t.pc = Function.update s.pc p (.acquiring b) ∧
      (t.cache.buf b).line.key = (dev, blockno) ∧
      (∀ c, (t.cache.buf c).lock = (s.cache.buf c).lock) ∧
      (∀ c, c ≠ b → (t.cache.buf c).line = (s.cache.buf c).line) ∧
      ((t.cache.buf b).line = (s.cache.buf b).line ∨
        (s.cache.buf b).refcnt = 0 ∧ (s.cache.buf b).dirty = false ∧
          (t.cache.buf b).valid = false ∧ (t.cache.buf b).dirty = false ∧
          ∀ c, (s.cache.buf c).line.key ≠ (dev, blockno)) := by
  simp only [Bio.step] at hstep
  split at hstep
  case isFalse => cases hstep
  case isTrue hrunning =>
    obtain ⟨⟨b, cache⟩, hget, ht⟩ := Outcome.bind_eq_next.mp hstep
    obtain rfl := Outcome.next.inj ht
    have hself : ∀ f : Buf P β → Buf P β, (s.cache.modify b f).buf b = f (s.cache.buf b) :=
      fun f => Bcache.modify_buf_self s.cache b f
    have hother : ∀ (f : Buf P β → Buf P β) (c : BufId), c ≠ b →
        (s.cache.modify b f).buf c = s.cache.buf c :=
      fun f c hc => Bcache.modify_buf_of_ne s.cache f hc
    refine ⟨hrunning, b, rfl, ?_⟩
    rcases hinv.listed.bget_cases hget with ⟨hcached, rfl⟩ | ⟨hfresh, hunused, rfl, -⟩
    · have hkey := Bcache.caches_iff.mp hcached
      have hline : ∀ c, ((s.cache.hit b).buf c).line = (s.cache.buf c).line ∧
          ((s.cache.hit b).buf c).lock = (s.cache.buf c).lock := fun c => by
        rw [Bcache.hit]
        by_cases hc : c = b
        · rw [hc, hself]
          exact ⟨rfl, rfl⟩
        · rw [hother _ c hc]
          exact ⟨rfl, rfl⟩
      refine ⟨?_, fun c => (hline c).2, fun c _ => (hline c).1, Or.inl (hline b).1⟩
      rw [Bio.goto_cache, (hline b).1]
      exact Prod.ext hkey.1 hkey.2
    · obtain ⟨hzero, hclean⟩ := Bcache.unused_iff.mp hunused
      refine ⟨?_, fun c => ?_, fun c hc => ?_, Or.inr ⟨hzero, hclean, ?_, ?_, fun c hc => ?_⟩⟩
      · rw [Bio.goto_cache, Bcache.recycle, hself]
        rfl
      · rw [Bio.goto_cache, Bcache.recycle]
        by_cases hc : c = b
        · rw [hc, hself]
        · rw [hother _ c hc]
      · rw [Bio.goto_cache, Bcache.recycle, hother _ c hc]
      · rw [Bio.goto_cache, Bcache.recycle, hself]
      · rw [Bio.goto_cache, Bcache.recycle, hself]
      · have hcaches : s.cache.caches c dev blockno = true :=
          Bcache.caches_iff.mpr ⟨congrArg Prod.fst hc, congrArg Prod.snd hc⟩
        rw [hfresh c] at hcaches
        cases hcaches

theorem Bio.acquiresleep_cases (hpc : s.pc p = .acquiring b)
    (hstep : s.step (.acquiresleep p) = .next t) :
    t.pc = Function.update s.pc p .running ∧ (s.cache.buf b).lock = none ∧
      (t.cache.buf b).lock = some p ∧ (∀ c, (t.cache.buf c).line = (s.cache.buf c).line) ∧
      ∀ c, c ≠ b → (t.cache.buf c).lock = (s.cache.buf c).lock := by
  simp only [Bio.step, hpc] at hstep
  split at hstep
  · rename_i hlock
    cases hstep
    refine ⟨rfl, hlock, ?_, fun c => ?_, fun c hc => ?_⟩
    · rw [Bio.goto_cache, Bcache.modify_buf_self]
    · rw [Bio.goto_cache]
      by_cases hc : c = b
      · rw [hc, Bcache.modify_buf_self]
        rfl
      · rw [Bcache.modify_buf_of_ne _ _ hc]
    · rw [Bio.goto_cache, Bcache.modify_buf_of_ne _ _ hc]
  · cases hstep

theorem Bio.brelse_cases (hstep : s.step (.brelse p b) = .next t) :
    s.pc p = .running ∧ t.pc = Function.update s.pc p (.releasing b) ∧
      (s.cache.buf b).lock = some p ∧ (t.cache.buf b).lock = none ∧
      (∀ c, (t.cache.buf c).line = (s.cache.buf c).line) ∧
      ∀ c, c ≠ b → (t.cache.buf c).lock = (s.cache.buf c).lock := by
  simp only [Bio.step] at hstep
  split at hstep
  · rename_i hrunning
    split at hstep
    · rename_i hlock
      cases hstep
      refine ⟨hrunning, rfl, hlock, ?_, fun c => ?_, fun c hc => ?_⟩
      · rw [Bio.goto_cache, Bcache.modify_buf_self]
      · rw [Bio.goto_cache]
        by_cases hc : c = b
        · rw [hc, Bcache.modify_buf_self]
          rfl
        · rw [Bcache.modify_buf_of_ne _ _ hc]
      · rw [Bio.goto_cache, Bcache.modify_buf_of_ne _ _ hc]
    · cases hstep
  · cases hstep

theorem Bio.unref_cases (hpc : s.pc p = .releasing b) (hstep : s.step (.unref p) = .next t) :
    t.pc = Function.update s.pc p .running ∧
      (∀ c, (t.cache.buf c).line = (s.cache.buf c).line) ∧
      ∀ c, (t.cache.buf c).lock = (s.cache.buf c).lock := by
  simp only [Bio.step, hpc] at hstep
  cases hstep
  refine ⟨rfl, fun c => ?_, fun c => ?_⟩
  · rw [Bio.goto_cache, Bcache.unref_buf]
    by_cases hc : c = b
    · rw [hc, Bcache.modify_buf_self]
      rfl
    · rw [Bcache.modify_buf_of_ne _ _ hc]
  · rw [Bio.goto_cache, Bcache.unref_lock]

theorem Bio.use_eq (valid dirty : Bool) (data : β) (hpc : s.pc p = .running)
    (hlock : (s.cache.buf b).lock = some p) : s.step (.use p b valid dirty data) =
      .next { s with cache := s.cache.modify b fun x => { x with valid, dirty, data } } :=
  if_pos ⟨hpc, hlock⟩

/-- Who takes the step. -/
def BioCall.process {P β : Type} : BioCall P β → P
  | .bget p _ _ | .acquiresleep p | .use p _ _ _ _ | .brelse p _ | .unref p => p

/-- A process leaves alone what the others have locked, and the blocks of the buffers that are in
use. -/
structure Bio.Others {P β : Type} (s t : Bio P β) (p : P) : Prop where
  pc : ∀ q, q ≠ p → t.pc q = s.pc q
  locked : ∀ q b, q ≠ p → (s.cache.buf b).lock = some q →
    (t.cache.buf b).line = (s.cache.buf b).line ∧ (t.cache.buf b).lock = some q
  lock : ∀ q b, q ≠ p → (t.cache.buf b).lock = some q → (s.cache.buf b).lock = some q
  key : ∀ b, (s.cache.buf b).refcnt ≠ 0 → (t.cache.buf b).line.key = (s.cache.buf b).line.key

omit [DecidableEq P] in
theorem BioInv.lock_none [Fintype P] {h : BioHistory} {order : List BufId}
    (hinv : BioInv s h order) (hzero : (s.cache.buf b).refcnt = 0) :
    (s.cache.buf b).lock = none := by
  have hcounted := hinv.counted b
  cases hlock : (s.cache.buf b).lock with
  | none => rfl
  | some q =>
      rw [hlock] at hcounted
      simp only [Option.isSome_some, Bool.toNat_true] at hcounted
      omega

theorem BioInv.others [Fintype P] {h : BioHistory} {order : List BufId} (hinv : BioInv s h order)
    {a : BioCall P β} (hstep : s.step a = .next t) : s.Others t a.process := by
  have hupdate : ∀ {p : P} {pc : BioPc}, t.pc = Function.update s.pc p pc →
      ∀ q, q ≠ p → t.pc q = s.pc q := fun hpc q hq => by
    rw [hpc, Function.update_of_ne hq]
  cases a with
  | bget p dev blockno =>
      obtain ⟨-, b, hpc, -, hlock, hline, hcase⟩ := Bio.bget_cases hinv hstep
      refine ⟨hupdate hpc, fun q c _ hc => ⟨?_, (hlock c).trans hc⟩,
        fun q c _ hc => (hlock c).symm.trans hc, fun c hc => ?_⟩
      · by_cases hcb : c = b
        · subst hcb
          rcases hcase with hsame | ⟨hzero, -⟩
          · exact hsame
          · rw [hinv.lock_none hzero] at hc
            cases hc
        · exact hline c hcb
      · by_cases hcb : c = b
        · subst hcb
          rcases hcase with hsame | ⟨hzero, -⟩
          · rw [hsame]
          · exact absurd hzero hc
        · rw [hline c hcb]
  | acquiresleep p =>
      cases hpc : s.pc p with
      | acquiring b =>
          obtain ⟨hpc', hnone, hself, hline, hlock⟩ := Bio.acquiresleep_cases hpc hstep
          refine ⟨hupdate hpc', fun q c _ hc => ⟨hline c, ?_⟩, fun q c hq hc => ?_,
            fun c _ => by rw [hline c]⟩
          · have hcb : c ≠ b := by
              rintro rfl
              rw [hnone] at hc
              cases hc
            rw [hlock c hcb, hc]
          · have hcb : c ≠ b := by
              rintro rfl
              exact hq (Option.some.inj (hc.symm.trans hself))
            rw [← hlock c hcb, hc]
      | running | releasing b =>
          simp only [Bio.step, hpc] at hstep
          cases hstep
  | use p b valid dirty data =>
      simp only [Bio.step] at hstep
      split at hstep
      · rename_i hheld
        cases hstep
        have hlock : ∀ c, ((s.cache.modify b fun x => { x with valid, dirty, data }).buf c).lock =
            (s.cache.buf c).lock := fun c => by
          by_cases hcb : c = b
          · rw [hcb, Bcache.modify_buf_self]
          · rw [Bcache.modify_buf_of_ne _ _ hcb]
        refine ⟨fun q _ => rfl, fun q c hq hc => ?_, fun q c _ hc => (hlock c).symm.trans hc,
          fun c _ => ?_⟩
        · have hcb : c ≠ b := by
            rintro rfl
            exact hq (Option.some.inj (hc.symm.trans hheld.2))
          rw [Bcache.modify_buf_of_ne _ _ hcb]
          exact ⟨rfl, hc⟩
        · by_cases hcb : c = b
          · rw [hcb, Bcache.modify_buf_self]
            rfl
          · rw [Bcache.modify_buf_of_ne _ _ hcb]
      · cases hstep
  | brelse p b =>
      obtain ⟨-, hpc, hself, hnone, hline, hlock⟩ := Bio.brelse_cases hstep
      refine ⟨hupdate hpc, fun q c hq hc => ⟨hline c, ?_⟩, fun q c _ hc => ?_,
        fun c _ => by rw [hline c]⟩
      · have hcb : c ≠ b := by
          rintro rfl
          exact hq (Option.some.inj (hc.symm.trans hself))
        rw [hlock c hcb, hc]
      · have hcb : c ≠ b := by
          rintro rfl
          rw [hnone] at hc
          cases hc
        rw [← hlock c hcb, hc]
  | unref p =>
      cases hpc : s.pc p with
      | releasing b =>
          obtain ⟨hpc', hline, hlock⟩ := Bio.unref_cases hpc hstep
          exact ⟨hupdate hpc', fun q c _ hc => ⟨hline c, by rw [hlock c, hc]⟩,
            fun q c _ hc => (hlock c).symm.trans hc, fun c _ => by rw [hline c]⟩
      | running | acquiring b =>
          simp only [Bio.step, hpc] at hstep
          cases hstep

end Bio

/-! ## The log alone -/

section Log

variable {s t : Logging P} {c : LogCall P} {p q : P}

def LogCall.process {P : Type} : LogCall P → P
  | .beginOp p | .logWrite p _ | .endOp p | .proceed p | .kill p => p

/-- For the others, a step of the log only wakes up sleepers; the log does not change while
somebody else commits. -/
theorem LogStep.others (hinv : s.Inv) (hstep : LogStep s c t) (hq : q ≠ c.process) :
    t.pc q = s.pc q ∧ (t.lh = s.lh ∨ (s.pc q).commits = false) ∨
      s.pc q = .asleep ∧ t.pc q = .woken := by
  have hmoved : ∀ {p : P} {pc : LogPc}, q ≠ p → t.pc = Function.update s.pc p pc →
      t.lh = s.lh → t.pc q = s.pc q ∧ (t.lh = s.lh ∨ (s.pc q).commits = false) ∨
        s.pc q = .asleep ∧ t.pc q = .woken := fun hne hpc hlh =>
    Or.inl ⟨by rw [hpc, Function.update_of_ne hne], Or.inl hlh⟩
  cases hstep with
  | leave p hpc | finish p hpc =>
      have hqp : q ≠ p := hq
      rw [Logging.goto_pc, Function.update_of_ne hqp]
      rcases Logging.wakeup_pc _ q with hsame | ⟨hasleep, hwoken⟩
      · exact Or.inl ⟨hsame, Or.inl rfl⟩
      · exact Or.inr ⟨hasleep, hwoken⟩
  | absorb p b hpc =>
      have hqp : q ≠ p := hq
      refine Or.inl ⟨by rw [Logging.goto_pc, Function.update_of_ne hqp, Logging.absorb_pc],
        Or.inr ?_⟩
      have hidle := hinv.not_committing (p := p) (by rw [hpc]; rfl)
      by_contra hcommits
      rw [hinv.committing q (by simpa using hcommits)] at hidle
      cases hidle
  | erase p hpc =>
      have hqp : q ≠ p := hq
      refine Or.inl ⟨by rw [Logging.goto_pc, Function.update_of_ne hqp], Or.inr ?_⟩
      exact hinv.others (p := p) (by rw [hpc]; rfl) q hqp
  | _ => exact hmoved hq rfl rfl

end Log

end Xv6
