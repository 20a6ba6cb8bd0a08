import Xv6.Ide.Machine

/-!
# The queue of disk requests

In every run the head of the queue is the buffer that the disk is working for, and the
others wait behind it in the order in which they were queued (`Inv.order`, `Inv.started`).
A buffer of a call is in the queue as it was queued, or it has been served: then it agrees
with its block on the disk, and no process sleeps on it (`Inv.done`, `Inv.sleeping`).

Other requests that are served before the call returns do not touch the block, because
they are for other blocks.
-/

namespace Xv6.Ide

open Transition

variable {P B D : Type} {s t : Driver P B D} {h : Requests B D}
variable {a : Action P B D} {p q : P} {b b' : B} {rest : List B} {c : Command B D} {data : D}
variable {havedisk1 : Bool}

/-- The disk works for the head of the queue. -/
def Driver.Serves (s : Driver P B D) : Prop :=
  match s.device with
  | .idle => s.queue = []
  | .busy c => (∃ rest, s.queue = c.buf :: rest) ∧ c = (s.buf c.buf).command c.buf
  | .raised c data => (∃ rest, s.queue = c.buf :: rest) ∧ c = (s.buf c.buf).command c.buf ∧
      s.disk c.place = data ∧ ((s.buf c.buf).dirty = true → data = (s.buf c.buf).data)

theorem Driver.serves_busy (hserves : s.Serves) (hdevice : s.device = .busy c) :
    (∃ rest, s.queue = c.buf :: rest) ∧ c = (s.buf c.buf).command c.buf := by
  unfold Driver.Serves at hserves
  rwa [hdevice] at hserves

theorem Driver.serves_raised (hserves : s.Serves) (hdevice : s.device = .raised c data) :
    (∃ rest, s.queue = c.buf :: rest) ∧ c = (s.buf c.buf).command c.buf ∧
      s.disk c.place = data ∧ ((s.buf c.buf).dirty = true → data = (s.buf c.buf).data) := by
  unfold Driver.Serves at hserves
  rwa [hdevice] at hserves

/-- The request for `b` has been carried out. -/
structure Done (s : Driver P B D) (h : Requests B D) (b : B) : Prop where
  synced : (s.buf b).synced = true
  disk : s.disk (s.buf b).place = (s.buf b).data
  place : (s.buf b).place = (h.entry b).place
  data : (h.entry b).dirty = true → (s.buf b).data = (h.entry b).data

structure Inv (s : Driver P B D) (h : Requests B D) : Prop where
  order : h.queued = h.served ++ s.queue
  started : h.started = h.served ++ s.queue.take 1
  nodup : s.queue.Nodup
  serves : s.Serves
  waiting : ∀ b ∈ s.queue, s.buf b = h.entry b ∧ (s.buf b).synced = false ∧
    ∃ p, (s.stage p).on = some b
  holders : ∀ p b, (s.stage p).on = some b → s.holder b = some p
  sleeping : ∀ p b, s.stage p = .dozing b ∨ s.stage p = .asleep b → b ∈ s.queue
  done : ∀ p b, (s.stage p).on = some b → b ∉ s.queue → Done s h b
  places : ∀ b b', b ≠ b' → s.holder b ≠ none → s.holder b' ≠ none →
    (s.buf b).place ≠ (s.buf b').place
  ptable : ∀ p b, s.stage p = .dozing b → s.ptable = some p

theorem Inv.boot (disk : ℕ × ℕ → D) (buf : B → Buf D) :
    Inv (Driver.boot P disk buf) (Requests.empty buf) where
  order := rfl
  started := rfl
  nodup := List.nodup_nil
  serves := rfl
  waiting b hb := absurd hb List.not_mem_nil
  holders p b hon := by cases hon
  sleeping p b hsleep := by rcases hsleep with hsleep | hsleep <;> cases hsleep
  done p b hon := by cases hon
  places b b' _ hheld := absurd rfl hheld
  ptable p b hdozing := by cases hdozing

/-- A buffer whose holder is not in `iderw` is not in the queue. -/
theorem Inv.not_queued (hinv : Inv s h) (hfree : ∀ q, (s.stage q).on ≠ some b) : b ∉ s.queue := by
  intro hmem
  obtain ⟨-, -, q, hon⟩ := hinv.waiting b hmem
  exact hfree q hon

theorem Inv.free_of_idle (hinv : Inv s h) (hstage : s.stage p = .idle)
    (hheld : s.holder b = some p) : ∀ q, (s.stage q).on ≠ some b := by
  intro q hon
  rw [hinv.holders q b hon] at hheld
  obtain rfl := Option.some.inj hheld
  rw [hstage] at hon
  cases hon

theorem Inv.free_of_unlocked (hinv : Inv s h) (hheld : s.holder b = none) :
    ∀ q, (s.stage q).on ≠ some b := by
  intro q hon
  rw [hinv.holders q b hon] at hheld
  cases hheld

theorem Inv.not_synced (hinv : Inv s h) (hmem : b ∈ s.queue) : (s.buf b).synced = false :=
  (hinv.waiting b hmem).2.1

/-- While a process holds `ptable.lock` for `sleep`, it is the only one that falls asleep. -/
theorem Inv.dozing (hinv : Inv s h) (hptable : s.ptable = none) : s.stage q ≠ .dozing b := by
  intro hdozing
  rw [hinv.ptable q b hdozing] at hptable
  cases hptable

/-- A step that does not give the disk a command starts nothing. -/
theorem record_started (hdevice : t.device = s.device) :
    h.started ++ (if s.device.busyWith = none then t.device.busyWith.toList else []) =
      h.started := by
  rw [hdevice]
  split
  · rename_i hnone
    rw [hnone]
    exact List.append_nil _
  · exact List.append_nil _

/-! ## What the owner of a buffer does -/

section Owner

variable [DecidableEq B]

/-- A step that changes a buffer that is in no call, and who holds it. -/
theorem Inv.owner (hinv : Inv s h) (hfree : ∀ q, (s.stage q).on ≠ some b)
    (buf : Buf D) (holder : Option P)
    (hplaces : holder ≠ none → ∀ b', b' ≠ b → s.holder b' ≠ none → (s.buf b').place ≠ buf.place) :
    Inv { s with holder := Function.update s.holder b holder, buf := Function.update s.buf b buf }
      h := by
  have hqueue := hinv.not_queued hfree
  have hbuf : ∀ b' ∈ s.queue, Function.update s.buf b buf b' = s.buf b' := fun b' hb' => by
    refine Function.update_of_ne (fun heq => hqueue ?_) _ _
    rwa [heq] at hb'
  have hon : ∀ q b', (s.stage q).on = some b' → b' ≠ b := fun q b' hon heq => by
    rw [heq] at hon
    exact hfree q hon
  refine
    { order := hinv.order
      started := hinv.started
      nodup := hinv.nodup
      serves := ?_
      waiting := fun b' hb' => ?_
      holders := fun q b' hq => ?_
      sleeping := hinv.sleeping
      done := fun q b' hq hb' => ?_
      places := fun b₁ b₂ hne h₁ h₂ => ?_
      ptable := hinv.ptable }
  · have hserves := hinv.serves
    unfold Driver.Serves at hserves ⊢
    dsimp only
    cases hdevice : s.device with
    | idle => rwa [hdevice] at hserves
    | busy c =>
        rw [hdevice] at hserves
        obtain ⟨⟨rest, hrest⟩, hc⟩ := hserves
        have hmem : c.buf ∈ s.queue := hrest ▸ List.mem_cons_self
        refine ⟨⟨rest, hrest⟩, ?_⟩
        rw [hbuf _ hmem]
        exact hc
    | raised c data =>
        rw [hdevice] at hserves
        obtain ⟨⟨rest, hrest⟩, hc, hdisk, hdirty⟩ := hserves
        have hmem : c.buf ∈ s.queue := hrest ▸ List.mem_cons_self
        refine ⟨⟨rest, hrest⟩, ?_⟩
        rw [hbuf _ hmem]
        exact ⟨hc, hdisk, hdirty⟩
  · dsimp only
    rw [hbuf b' hb']
    exact hinv.waiting b' hb'
  · dsimp only
    rw [Function.update_of_ne (hon q b' hq)]
    exact hinv.holders q b' hq
  · have hold := hinv.done q b' hq hb'
    have heq : Function.update s.buf b buf b' = s.buf b' := Function.update_of_ne (hon q b' hq) _ _
    refine ⟨?_, ?_, ?_, ?_⟩ <;> dsimp only <;> rw [heq]
    · exact hold.synced
    · exact hold.disk
    · exact hold.place
    · exact hold.data
  · dsimp only at h₁ h₂ ⊢
    by_cases hb₁ : b₁ = b
    · subst hb₁
      rw [Function.update_self] at h₁
      rw [Function.update_of_ne hne.symm] at h₂
      rw [Function.update_self, Function.update_of_ne hne.symm]
      exact (hplaces h₁ b₂ hne.symm h₂).symm
    · rw [Function.update_of_ne hb₁] at h₁ ⊢
      by_cases hb₂ : b₂ = b
      · subst hb₂
        rw [Function.update_self] at h₂ ⊢
        exact hplaces h₂ b₁ hb₁ h₁
      · rw [Function.update_of_ne hb₂] at h₂ ⊢
        exact hinv.places b₁ b₂ hne h₁ h₂

end Owner

/-! ## Falling asleep, waking up and returning -/

section Stage

variable [DecidableEq P]

/-- A step that changes where one process is, in the call in which it was. -/
theorem Inv.stage (hinv : Inv s h) (hon : (s.stage p).on = some b) (stage : Stage B)
    (ptable : Option P) (hstage : stage.on = some b ∨ stage.on = none ∧ b ∉ s.queue)
    (hsleeping : stage = .dozing b ∨ stage = .asleep b → b ∈ s.queue)
    (hptable : stage = .dozing b → ptable = some p)
    (hothers : ∀ q b', q ≠ p → s.stage q = .dozing b' → ptable = some q) :
    Inv { s with ptable := ptable, stage := Function.update s.stage p stage } h := by
  have hstage' : ∀ b', stage.on = some b' → b' = b := fun b' hb' => by
    rcases hstage with hst | ⟨hst, -⟩
    · exact Option.some.inj (hb'.symm.trans hst)
    · rw [hst] at hb'
      cases hb'
  have hback : ∀ q b', (Function.update s.stage p stage q).on = some b' →
      (s.stage q).on = some b' := fun q b' hq => by
    by_cases hqp : q = p
    · subst hqp
      rw [Function.update_self] at hq
      rw [hstage' b' hq]
      exact hon
    · rwa [Function.update_of_ne hqp] at hq
  refine
    { order := hinv.order
      started := hinv.started
      nodup := hinv.nodup
      serves := hinv.serves
      waiting := fun b' hb' => ?_
      holders := fun q b' hq => hinv.holders q b' (hback q b' hq)
      sleeping := fun q b' hq => ?_
      done := fun q b' hq hb' => ?_
      places := hinv.places
      ptable := fun q b' hq => ?_ }
  · obtain ⟨hentry, hsynced, q, hq⟩ := hinv.waiting b' hb'
    refine ⟨hentry, hsynced, q, ?_⟩
    by_cases hqp : q = p
    · subst hqp
      obtain rfl := Option.some.inj (hon.symm.trans hq)
      dsimp only
      rw [Function.update_self]
      exact hstage.resolve_right fun hnone => hnone.2 hb'
    · dsimp only
      rwa [Function.update_of_ne hqp]
  · dsimp only at hq ⊢
    by_cases hqp : q = p
    · subst hqp
      rw [Function.update_self] at hq
      have hb' : b' = b := hstage' b' (by rcases hq with rfl | rfl <;> rfl)
      subst hb'
      exact hsleeping hq
    · rw [Function.update_of_ne hqp] at hq
      exact hinv.sleeping q b' hq
  · have hold := hinv.done q b' (hback q b' hq) hb'
    exact ⟨hold.synced, hold.disk, hold.place, hold.data⟩
  · dsimp only at hq ⊢
    by_cases hqp : q = p
    · subst hqp
      rw [Function.update_self] at hq
      have hb' : b' = b := hstage' b' (by rw [hq]; rfl)
      subst hb'
      exact hptable hq
    · rw [Function.update_of_ne hqp] at hq
      exact hothers q b' hqp hq

end Stage

end Xv6.Ide
