import Xv6.Ide.Queue
import Mathlib.Data.Fintype.Basic

/-!
# Every request is served once

A request is put behind the others and starts the disk if there are none (`Inv.enqueue`),
the disk carries out its command (`Inv.write`, `Inv.read`), and the interrupt takes the
head out, wakes up its process and starts the next one (`Inv.finish`).  So requests are
started in the order in which they were queued, each once, and when `iderw` returns, its
buffer agrees with the disk (`disk_queue`).
-/

namespace Xv6.Ide

open Transition

variable {P B D : Type} {s t : Driver P B D} {h : Requests B D}
variable {a : Action P B D} {p q : P} {b b' : B} {rest : List B} {c : Command B D} {data : D}
variable {havedisk1 : Bool}

/-! ## The disk works -/

/-- The disk has carried out its command, and other blocks are as before. -/
theorem Inv.carryOut (hinv : Inv s h) (hdevice : s.device = .busy c) (disk : ℕ × ℕ → D)
    (hdisk : ∀ place, place ≠ c.place → disk place = s.disk place)
    (hdirty : (s.buf c.buf).dirty = true → disk c.place = (s.buf c.buf).data) :
    Inv { s with disk := disk, device := .raised c (disk c.place) } h := by
  obtain ⟨⟨rest, hrest⟩, hc⟩ := Driver.serves_busy hinv.serves hdevice
  refine
    { order := hinv.order
      started := hinv.started
      nodup := hinv.nodup
      serves := ⟨⟨rest, hrest⟩, hc, rfl, hdirty⟩
      waiting := hinv.waiting
      holders := hinv.holders
      sleeping := hinv.sleeping
      done := fun q b' hq hb' => ?_
      places := hinv.places
      ptable := hinv.ptable }
  have hold := hinv.done q b' hq hb'
  refine ⟨hold.synced, ?_, hold.place, hold.data⟩
  have hmem : c.buf ∈ s.queue := hrest ▸ List.mem_cons_self
  obtain ⟨-, -, q', hq'⟩ := hinv.waiting c.buf hmem
  have hplace : (s.buf b').place ≠ c.place := by
    rw [hc]
    refine hinv.places b' c.buf ?_ ?_ ?_
    · rintro rfl
      exact hb' hmem
    · rw [hinv.holders q b' hq]
      exact Option.some_ne_none q
    · rw [hinv.holders q' c.buf hq']
      exact Option.some_ne_none q'
  exact (hdisk _ hplace).trans hold.disk

theorem Inv.write (hinv : Inv s h) (hdevice : s.device = .busy c) (hwrite : c.write = some data) :
    Inv { s with disk := Function.update s.disk c.place data, device := .raised c data } h := by
  obtain ⟨-, hc⟩ := Driver.serves_busy hinv.serves hdevice
  have hself : Function.update s.disk c.place data c.place = data := Function.update_self _ _ _
  have hdirty : (s.buf c.buf).dirty = true →
      Function.update s.disk c.place data c.place = (s.buf c.buf).data := fun hdirty => by
    rw [hc, Buf.command, if_pos hdirty] at hwrite
    rw [hself]
    exact (Option.some.inj hwrite).symm
  have hcarry := hinv.carryOut hdevice (Function.update s.disk c.place data)
    (fun place hne => Function.update_of_ne hne _ _) hdirty
  rwa [hself] at hcarry

theorem Inv.read (hinv : Inv s h) (hdevice : s.device = .busy c) (hwrite : c.write = none) :
    Inv { s with device := .raised c (s.disk c.place) } h := by
  obtain ⟨-, hc⟩ := Driver.serves_busy hinv.serves hdevice
  refine hinv.carryOut hdevice s.disk (fun _ _ => rfl) fun hdirty => ?_
  rw [hc, Buf.command, if_pos hdirty] at hwrite
  cases hwrite

/-! ## The interrupt -/

variable [DecidableEq B]

/-- The head of the queue has been served. -/
def Requests.serve (h : Requests B D) (b : B) (started : List B) : Requests B D :=
  { h with started := h.started ++ started, served := h.served ++ [b] }

/-- What `ideintr` makes of the buffer. -/
theorem finish_buf_self : (s.finish b rest data).buf b =
    { s.buf b with
      data := if (s.buf b).dirty then (s.buf b).data else data
      valid := true
      dirty := false } := Function.update_self _ _ _

theorem finish_buf_of_ne (hne : b' ≠ b) : (s.finish b rest data).buf b' = s.buf b' :=
  Function.update_of_ne hne _ _

theorem finish_place : ((s.finish b rest data).buf b').place = (s.buf b').place := by
  by_cases hb' : b' = b
  · rw [hb', finish_buf_self]
    rfl
  · rw [finish_buf_of_ne hb']

/-- Nobody sleeps on the buffer any more, and everybody is in the call in which it was. -/
theorem finish_stage (q : P) : (s.finish b rest data).stage q =
    if s.stage q = .asleep b then .woken b else s.stage q := rfl

theorem finish_on (q : P) : ((s.finish b rest data).stage q).on = (s.stage q).on := by
  rw [finish_stage]
  split
  · rename_i hasleep
    rw [hasleep]
    rfl
  · rfl

variable [DecidableEq P]

omit [DecidableEq P] in
/-- The head of the queue is done, and the disk works for the next one. -/
theorem Inv.finish (hinv : Inv s h) (hdevice : s.device = .raised c data)
    (hqueue : s.queue = b :: rest) (hptable : s.ptable = none) (device : Device B D)
    (hnext : rest = [] ∧ device = .idle ∨
      ∃ b' more, rest = b' :: more ∧ device = .busy ((s.buf b').command b')) :
    Inv { s.finish b rest data with device := device } (h.serve b (rest.take 1)) := by
  obtain ⟨⟨rest', hrest'⟩, hc, hdisk, hdirty⟩ := Driver.serves_raised hinv.serves hdevice
  rw [hqueue] at hrest'
  obtain ⟨hb, rfl⟩ := List.cons.inj hrest'
  rw [← hb] at hc hdirty
  have hnodup := hinv.nodup
  rw [hqueue, List.nodup_cons] at hnodup
  have hne : ∀ b' ∈ rest, b' ≠ b := fun b' hb' heq => hnodup.1 (heq ▸ hb')
  have hmem : ∀ b', b' ∈ s.queue ↔ b' = b ∨ b' ∈ rest := fun b' => by
    rw [hqueue, List.mem_cons]
  obtain ⟨hentry, -, -⟩ := hinv.waiting b ((hmem b).mpr (Or.inl rfl))
  refine
    { order := ?_
      started := ?_
      nodup := hnodup.2
      serves := ?_
      waiting := fun b' hb' => ?_
      holders := fun q b' hq => hinv.holders q b' (by rwa [finish_on] at hq)
      sleeping := fun q b' hq => ?_
      done := fun q b' hq hb' => ?_
      places := fun b₁ b₂ hne h₁ h₂ => ?_
      ptable := fun q b' hq => ?_ }
  · show h.queued = h.served ++ [b] ++ rest
    rw [hinv.order, hqueue, List.append_assoc, List.singleton_append]
  · show h.started ++ rest.take 1 = h.served ++ [b] ++ rest.take 1
    rw [hinv.started, hqueue]
    rfl
  · rcases hnext with ⟨rfl, rfl⟩ | ⟨b', more, rfl, rfl⟩
    · rfl
    · refine ⟨⟨more, rfl⟩, ?_⟩
      show _ = ((s.finish b (b' :: more) data).buf b').command b'
      rw [finish_buf_of_ne (hne b' List.mem_cons_self)]
  · obtain ⟨heq, hsynced, q, hq⟩ := hinv.waiting b' ((hmem b').mpr (Or.inr hb'))
    dsimp only
    rw [finish_buf_of_ne (hne b' hb')]
    exact ⟨heq, hsynced, q, by rwa [finish_on]⟩
  · dsimp only at hq ⊢
    rw [finish_stage] at hq
    split at hq
    · rcases hq with hq | hq <;> cases hq
    · rename_i hawake
      refine ((hmem b').mp (hinv.sleeping q b' hq)).resolve_left ?_
      rintro rfl
      rcases hq with hdozing | hasleep
      · exact hinv.dozing hptable hdozing
      · exact hawake hasleep
  · dsimp only at hq hb' ⊢
    rw [finish_on] at hq
    by_cases hbb : b' = b
    · subst hbb
      refine ⟨?_, ?_, ?_, ?_⟩
      · rw [finish_buf_self]
        rfl
      · rw [finish_place, finish_buf_self]
        show s.disk _ = if (s.buf b').dirty then (s.buf b').data else data
        rw [← show c.place = (s.buf b').place by rw [hc]; rfl, hdisk]
        split
        · rename_i hwrite
          exact hdirty hwrite
        · rfl
      · rw [finish_place, hentry]
        rfl
      · intro hwrite
        rw [finish_buf_self]
        rw [show (h.serve b' (rest.take 1)).entry b' = h.entry b' from rfl, ← hentry] at hwrite ⊢
        exact if_pos hwrite
    · have hold := hinv.done q b' hq fun hin => ((hmem b').mp hin).elim hbb hb'
      refine ⟨?_, ?_, ?_, ?_⟩
      · rw [finish_buf_of_ne hbb]
        exact hold.synced
      · rw [finish_buf_of_ne hbb]
        exact hold.disk
      · rw [finish_buf_of_ne hbb]
        exact hold.place
      · rw [finish_buf_of_ne hbb]
        exact hold.data
  · dsimp only
    rw [finish_place, finish_place]
    exact hinv.places b₁ b₂ hne h₁ h₂
  · dsimp only at hq
    rw [finish_stage] at hq
    split at hq
    · cases hq
    · exact absurd hq (hinv.dozing hptable)

/-! ## A new request -/

/-- What `iderw` does to the record. -/
def Requests.enqueue (h : Requests B D) (b : B) (buf : Buf D) (started : List B) :
    Requests B D :=
  { h with
    queued := h.queued ++ [b]
    started := h.started ++ started
    entry := Function.update h.entry b buf }

/-- A request behind the others, whose process goes to sleep.  If it is the only one, the disk
gets a command for it. -/
theorem Inv.enqueue (hinv : Inv s h) (hstage : s.stage p = .idle) (hheld : s.holder b = some p)
    (hsynced : (s.buf b).synced = false) (hptable : s.ptable = none) (device : Device B D)
    (hdevice : s.queue = [] ∧ device = .busy ((s.buf b).command b) ∨
      s.queue ≠ [] ∧ device = s.device) :
    Inv ({ s with queue := s.queue ++ [b], device := device }.sleep p b)
      (h.enqueue b (s.buf b) (if s.queue = [] then [b] else [])) := by
  have hfree := hinv.free_of_idle hstage hheld
  have hqueue := hinv.not_queued hfree
  have hentry : ∀ b', b' ≠ b → Function.update h.entry b (s.buf b) b' = h.entry b' :=
    fun b' hne => Function.update_of_ne hne _ _
  have hback : ∀ q b', (Function.update s.stage p (.dozing b) q).on = some b' →
      q = p ∧ b' = b ∨ q ≠ p ∧ (s.stage q).on = some b' ∧ b' ≠ b := fun q b' hq => by
    by_cases hqp : q = p
    · subst hqp
      rw [Function.update_self] at hq
      exact Or.inl ⟨rfl, (Option.some.inj hq).symm⟩
    · rw [Function.update_of_ne hqp] at hq
      refine Or.inr ⟨hqp, hq, fun heq => ?_⟩
      rw [heq] at hq
      exact hfree q hq
  refine
    { order := ?_
      started := ?_
      nodup := ?_
      serves := ?_
      waiting := fun b' hb' => ?_
      holders := fun q b' hq => ?_
      sleeping := fun q b' hq => ?_
      done := fun q b' hq hb' => ?_
      places := hinv.places
      ptable := fun q b' hq => ?_ }
  · show h.queued ++ [b] = h.served ++ (s.queue ++ [b])
    rw [hinv.order, List.append_assoc]
  · show h.started ++ _ = h.served ++ (s.queue ++ [b]).take 1
    rw [hinv.started]
    cases hq : s.queue with
    | nil => simp
    | cons x rest => simp
  · exact List.nodup_append.mpr ⟨hinv.nodup, List.pairwise_singleton _ b, fun x hx y hy heq =>
      hqueue ((List.mem_singleton.mp hy) ▸ heq ▸ hx)⟩
  · have hserves := hinv.serves
    rcases hdevice with ⟨hnil, rfl⟩ | ⟨hne, rfl⟩
    · exact ⟨⟨[], by simp [Driver.sleep, hnil, Buf.command]⟩, rfl⟩
    · unfold Driver.Serves at hserves ⊢
      simp only [Driver.sleep]
      cases hdev : s.device with
      | idle => rw [hdev] at hserves; exact absurd hserves hne
      | busy c =>
          rw [hdev] at hserves
          obtain ⟨⟨rest, hrest⟩, hc⟩ := hserves
          exact ⟨⟨rest ++ [b], by rw [hrest, List.cons_append]⟩, hc⟩
      | raised c data =>
          rw [hdev] at hserves
          obtain ⟨⟨rest, hrest⟩, hc⟩ := hserves
          exact ⟨⟨rest ++ [b], by rw [hrest, List.cons_append]⟩, hc⟩
  · simp only [Driver.sleep, Requests.enqueue] at hb' ⊢
    by_cases hbb : b' = b
    · subst hbb
      exact ⟨(Function.update_self b' (s.buf b') h.entry).symm, hsynced, p,
        by rw [Function.update_self]; rfl⟩
    · have hmem : b' ∈ s.queue := by simpa [hbb] using hb'
      obtain ⟨heq, hold, q, hq⟩ := hinv.waiting b' hmem
      refine ⟨by rw [hentry b' hbb]; exact heq, hold, q, ?_⟩
      have hqp : q ≠ p := fun hqp => by
        rw [hqp, hstage] at hq
        cases hq
      rwa [Function.update_of_ne hqp]
  · simp only [Driver.sleep] at hq ⊢
    rcases hback q b' hq with ⟨rfl, rfl⟩ | ⟨-, hq', -⟩
    · exact hheld
    · exact hinv.holders q b' hq'
  · simp only [Driver.sleep] at hq ⊢
    rw [List.mem_append, List.mem_singleton]
    by_cases hqp : q = p
    · subst hqp
      rw [Function.update_self] at hq
      rcases hq with hq | hq
      · exact Or.inr (Stage.dozing.inj hq).symm
      · cases hq
    · rw [Function.update_of_ne hqp] at hq
      exact Or.inl (hinv.sleeping q b' hq)
  · simp only [Driver.sleep] at hq hb'
    rw [List.mem_append, List.mem_singleton, not_or] at hb'
    rcases hback q b' hq with ⟨-, rfl⟩ | ⟨-, hq', hne⟩
    · exact absurd rfl hb'.2
    · have hold := hinv.done q b' hq' hb'.1
      refine ⟨hold.synced, hold.disk, ?_, ?_⟩
      · show _ = (Function.update h.entry b (s.buf b) b').place
        rw [hentry b' hne]
        exact hold.place
      · show (Function.update h.entry b (s.buf b) b').dirty = true →
          _ = (Function.update h.entry b (s.buf b) b').data
        rw [hentry b' hne]
        exact hold.data
  · simp only [Driver.sleep] at hq ⊢
    by_cases hqp : q = p
    · rw [hqp]
    · rw [Function.update_of_ne hqp] at hq
      exact absurd hq (hinv.dozing hptable)

/-! ## Runs -/

/-- The steps that do not change the queue. -/
def Action.Quiet : Action P B D → Prop
  | .iderw _ _ | .ideintr => False
  | _ => True

theorem record_quiet (hstep : Step s a t) (hquiet : a.Quiet) : h.record s a t = h := by
  cases hstep with
  | write hdevice hwrite =>
      unfold Requests.record
      simp only [Device.busyWith, hdevice, reduceCtorEq, if_false, List.append_nil]
  | read hdevice hwrite =>
      unfold Requests.record
      simp only [Device.busyWith, hdevice, reduceCtorEq, if_false, List.append_nil]
  | @again p b hstage hsynced hptable =>
      unfold Requests.record
      dsimp only
      rw [show (s.sleep p b).device = s.device from rfl, record_started rfl]
  | queueStart => exact hquiet.elim
  | queueBehind => exact hquiet.elim
  | spurious => exact hquiet.elim
  | last => exact hquiet.elim
  | next => exact hquiet.elim
  | _ =>
      unfold Requests.record
      dsimp only
      rw [record_started rfl]

theorem Inv.quiet (hinv : Inv s h) (hstep : Step s a t) (hquiet : a.Quiet)
    (hpromise : Promised s a t) : Inv t h := by
  cases hstep with
  | acquire dev blockno hstage hfree =>
      refine hinv.owner (hinv.free_of_unlocked hfree) _ _ fun _ b' hne hheld => ?_
      have hplace := hpromise b' hne hheld
      dsimp only at hplace
      rwa [Function.update_self] at hplace
  | @modify p b valid dirty data hstage hheld =>
      have howner := hinv.owner (hinv.free_of_idle hstage hheld)
        { s.buf b with valid, dirty, data } (some p) fun _ b' hne hheld' =>
          hinv.places b' b hne hheld' (by rw [hheld]; exact Option.some_ne_none p)
      rwa [← hheld, Function.update_eq_self] at howner
  | @release p b hstage hheld =>
      have howner := hinv.owner (hinv.free_of_idle hstage hheld) (s.buf b) none
        fun hnone => absurd rfl hnone
      rwa [Function.update_eq_self] at howner
  | @ret p b hstage hsynced =>
      have hout : b ∉ s.queue := fun hmem => by
        rw [hinv.not_synced hmem] at hsynced
        cases hsynced
      exact hinv.stage (by rw [hstage]; rfl) .idle s.ptable (Or.inr ⟨rfl, hout⟩)
        (by rintro (hst | hst) <;> cases hst) nofun fun q b' _ hq => hinv.ptable q b' hq
  | @again p b hstage hsynced hptable =>
      have hon : (s.stage p).on = some b := by rw [hstage]; rfl
      have hin : b ∈ s.queue := by
        by_contra hout
        rw [(hinv.done p b hon hout).synced] at hsynced
        cases hsynced
      exact hinv.stage hon (.dozing b) (some p) (Or.inl rfl) (fun _ => hin) (fun _ => rfl)
        fun q b' _ hq => absurd hq (hinv.dozing hptable)
  | @doze p b hstage =>
      have hlock := hinv.ptable p b hstage
      refine hinv.stage (by rw [hstage]; rfl) (.asleep b) none (Or.inl rfl)
        (fun _ => hinv.sleeping p b (Or.inl hstage)) nofun fun q b' hqp hq => ?_
      rw [hinv.ptable q b' hq] at hlock
      exact absurd (Option.some.inj hlock) hqp
  | write hdevice hwrite => exact hinv.write hdevice hwrite
  | read hdevice hwrite => exact hinv.read hdevice hwrite
  | @killSleeper p b hstage hptable =>
      exact hinv.stage (by rw [hstage]; rfl) (.woken b) s.ptable (Or.inl rfl)
        (by rintro (hst | hst) <;> cases hst) nofun fun q b' _ hq => hinv.ptable q b' hq
  | kill hptable => exact hinv
  | queueStart => exact hquiet.elim
  | queueBehind => exact hquiet.elim
  | spurious => exact hquiet.elim
  | last => exact hquiet.elim
  | next => exact hquiet.elim

theorem Inv.step (hinv : Inv s h) (hstep : Step s a t) (hpromise : Promised s a t) :
    Inv t (h.record s a t) := by
  have hstep' := hstep
  cases hstep with
  | @queueStart p b hstage hheld hsynced hhead hdevice hptable =>
      have hnil : s.queue = [] := by
        have hserves := hinv.serves
        unfold Driver.Serves at hserves
        rwa [hdevice] at hserves
      have hqueued := hinv.enqueue hstage hheld hsynced hptable
        (.busy ((s.buf b).command b)) (Or.inl ⟨hnil, rfl⟩)
      rw [if_pos hnil] at hqueued
      have hrecord : h.record s (.iderw p b)
          (({ s with queue := s.queue ++ [b] }.start b).sleep p b) =
            h.enqueue b (s.buf b) [b] := by
        unfold Requests.record Requests.enqueue
        rw [hdevice]
        rfl
      rw [hrecord]
      exact hqueued
  | @queueBehind p b hstage hheld hsynced hhead hptable =>
      have hne : s.queue ≠ [] := fun hnil => hhead (by rw [hnil]; rfl)
      have hqueued := hinv.enqueue hstage hheld hsynced hptable s.device (Or.inr ⟨hne, rfl⟩)
      rw [if_neg hne] at hqueued
      have hrecord : h.record s (.iderw p b) ({ s with queue := s.queue ++ [b] }.sleep p b) =
          h.enqueue b (s.buf b) [] := by
        have hstarted := record_started (h := h) (s := s)
          (t := { s with queue := s.queue ++ [b] }.sleep p b) rfl
        unfold Requests.record Requests.enqueue
        dsimp only
        rw [hstarted, List.append_nil]
      rw [hrecord]
      exact hqueued
  | spurious hdevice hqueue =>
      obtain ⟨⟨rest, hrest⟩, -⟩ := Driver.serves_raised hinv.serves hdevice
      rw [hqueue] at hrest
      cases hrest
  | @last c data b hdevice hqueue hptable =>
      have hinv' := hinv.finish hdevice hqueue hptable .idle (Or.inl ⟨rfl, rfl⟩)
      have hrecord : h.record s .ideintr (s.finish b [] data) = h.serve b [] := by
        unfold Requests.record Requests.serve
        rw [hdevice, hqueue]
        rfl
      rw [hrecord]
      exact hinv'
  | @next c data b b' rest hdevice hqueue hptable =>
      have hnodup := hinv.nodup
      rw [hqueue, List.nodup_cons] at hnodup
      have hne : b' ≠ b := fun heq => hnodup.1 (heq ▸ List.mem_cons_self)
      have hinv' := hinv.finish hdevice hqueue hptable (.busy ((s.buf b').command b'))
        (Or.inr ⟨b', rest, rfl, rfl⟩)
      have hrecord : h.record s .ideintr ((s.finish b (b' :: rest) data).start b') =
          h.serve b [b'] := by
        unfold Requests.record Requests.serve
        rw [hdevice, hqueue]
        rfl
      rw [hrecord, Driver.start, finish_buf_of_ne hne]
      exact hinv'
  | _ =>
      rw [record_quiet hstep' trivial]
      exact hinv.quiet hstep' trivial hpromise

variable {disk : ℕ × ℕ → D} {buf : B → Buf D} {state : Driver P B D × Requests B D}

theorem Inv.of_run (hrun : Run (traced (Driver.step havedisk1) Requests.record)
    (fun s a t => Promised s.1 a t.1) (Driver.boot P disk buf, Requests.empty buf) state) :
    Inv state.1 state.2 := by
  refine Run.invariant (I := fun s => Inv s.1 s.2) hrun (Inv.boot disk buf)
    fun s a t hstep hpromise hinv => ?_
  obtain ⟨ha, ht⟩ := traced_eq_next.mp hstep
  rw [ht]
  exact hinv.step (step_cases ha) hpromise

/-- A process stays in its call, goes to sleep in it, or returns from the loop that waits. -/
theorem stage_cases (hstep : Step s a t) (q : P) :
    (t.stage q).on = (s.stage q).on ∧ (∀ b, a ≠ .iderw q b) ∨ (∃ b, t.stage q = .dozing b) ∨
      ∃ b, s.stage q = .woken b ∧ (s.buf b).synced = true ∧
        t = { s with stage := Function.update s.stage q .idle } := by
  have hmove : ∀ {p : P} {stage : Stage B}, stage.on = (s.stage p).on →
      (Function.update s.stage p stage q).on = (s.stage q).on := fun {p stage} hon => by
    by_cases hq : q = p
    · rw [hq, Function.update_self, hon]
    · rw [Function.update_of_ne hq]
  have hqueue : ∀ {p : P} {b : B}, Function.update s.stage p (.dozing b) q = .dozing b ∨
      q ≠ p ∧ Function.update s.stage p (.dozing b) q = s.stage q := fun {p b} => by
    by_cases hq : q = p
    · exact Or.inl (by rw [hq, Function.update_self])
    · exact Or.inr ⟨hq, Function.update_of_ne hq _ _⟩
  cases hstep with
  | acquire => exact Or.inl ⟨rfl, fun b => nofun⟩
  | modify => exact Or.inl ⟨rfl, fun b => nofun⟩
  | release => exact Or.inl ⟨rfl, fun b => nofun⟩
  | @queueStart p b hstage =>
      rcases hqueue (p := p) (b := b) with hdozing | ⟨hq, hsame⟩
      · exact Or.inr (Or.inl ⟨b, hdozing⟩)
      · exact Or.inl ⟨congrArg Stage.on hsame, fun b' heq => hq (Action.iderw.inj heq).1.symm⟩
  | @queueBehind p b hstage =>
      rcases hqueue (p := p) (b := b) with hdozing | ⟨hq, hsame⟩
      · exact Or.inr (Or.inl ⟨b, hdozing⟩)
      · exact Or.inl ⟨congrArg Stage.on hsame, fun b' heq => hq (Action.iderw.inj heq).1.symm⟩
  | @ret p b hstage hsynced =>
      by_cases hq : q = p
      · subst hq
        exact Or.inr (Or.inr ⟨b, hstage, hsynced, rfl⟩)
      · exact Or.inl ⟨congrArg Stage.on (Function.update_of_ne hq _ _), fun b' => nofun⟩
  | @again p b hstage =>
      rcases hqueue (p := p) (b := b) with hdozing | ⟨hq, hsame⟩
      · exact Or.inr (Or.inl ⟨b, hdozing⟩)
      · exact Or.inl ⟨congrArg Stage.on hsame, fun b' => nofun⟩
  | @doze p b hstage => exact Or.inl ⟨hmove (by rw [hstage]; rfl), fun b' => nofun⟩
  | write => exact Or.inl ⟨rfl, fun b => nofun⟩
  | read => exact Or.inl ⟨rfl, fun b => nofun⟩
  | spurious => exact Or.inl ⟨rfl, fun b => nofun⟩
  | last => exact Or.inl ⟨finish_on q, fun b => nofun⟩
  | next => exact Or.inl ⟨finish_on q, fun b => nofun⟩
  | @killSleeper p b hstage => exact Or.inl ⟨hmove (by rw [hstage]; rfl), fun b' => nofun⟩
  | kill => exact Or.inl ⟨rfl, fun b => nofun⟩

theorem idle_of_iderw (hstep : Step s (.iderw p b) t) : s.stage p = .idle := by
  cases hstep with
  | queueStart hstage => exact hstage
  | queueBehind hstage => exact hstage

/-- When a call of `iderw` returns, its request has been carried out. -/
theorem Inv.returned (hinv : Inv s h) (hstep : Step s a t)
    (hcall : (s.stage p).on = some b ∨ a = .iderw p b) (hidle : t.stage p = .idle) :
    b ∉ t.queue ∧ Done t h b := by
  rcases stage_cases hstep p with ⟨hon, hother⟩ | ⟨b', hdozing⟩ | ⟨b', hwoken, hsynced, rfl⟩
  · rw [hidle] at hon
    rcases hcall with hcall | hcall
    · rw [hcall] at hon
      cases hon
    · exact absurd hcall (hother b)
  · rw [hidle] at hdozing
    cases hdozing
  · have hb : b' = b := by
      rcases hcall with hcall | rfl
      · rw [hwoken] at hcall
        exact Option.some.inj hcall
      · -- a process that is in a call makes no other one
        rw [idle_of_iderw hstep] at hwoken
        cases hwoken
    subst hb
    have hout : b' ∉ s.queue := fun hmem => by
      rw [hinv.not_synced hmem] at hsynced
      cases hsynced
    have hdone := hinv.done p b' (by rw [hwoken]; rfl) hout
    exact ⟨hout, hdone.synced, hdone.disk, hdone.place, hdone.data⟩

/-- In every run the requests are served in the order in which they have been queued, a command
is started once for each, when it is the head of the queue, and the disk is idle only if there is
none.  No process sleeps on a buffer that is not in the queue.  When `iderw` returns, its buffer
is valid and clean, in no queue, and as its block on the disk; if it was dirty, with the data
with which it was queued. -/
theorem disk_queue (hrun : Run (traced (Driver.step havedisk1) Requests.record)
    (fun s a t => Promised s.1 a t.1) (Driver.boot P disk buf, Requests.empty buf) state) :
    state.2.queued = state.2.served ++ state.1.queue ∧
      state.2.started = state.2.served ++ state.1.queue.take 1 ∧
      state.1.queue.Nodup ∧
      (∀ c, state.1.device = .busy c → state.1.queue.head? = some c.buf) ∧
      (state.1.device = .idle → state.1.queue = []) ∧
      (∀ p b, state.1.stage p = .dozing b ∨ state.1.stage p = .asleep b →
        b ∈ state.1.queue) ∧
      ∀ a t p b, state.1.step havedisk1 a = .next t →
        (state.1.stage p).on = some b ∨ a = .iderw p b → t.stage p = .idle →
        b ∉ t.queue ∧ (t.buf b).valid = true ∧ (t.buf b).dirty = false ∧
          t.disk (t.buf b).place = (t.buf b).data ∧
          (t.buf b).place = (state.2.entry b).place ∧
          ((state.2.entry b).dirty = true → (t.buf b).data = (state.2.entry b).data) := by
  have hinv := Inv.of_run hrun
  refine ⟨hinv.order, hinv.started, hinv.nodup, fun c hdevice => ?_, fun hdevice => ?_,
    hinv.sleeping, fun a t p b hstep hcall hidle => ?_⟩
  · obtain ⟨⟨rest, hrest⟩, -⟩ := Driver.serves_busy hinv.serves hdevice
    rw [hrest]
    rfl
  · have hserves := hinv.serves
    unfold Driver.Serves at hserves
    rwa [hdevice] at hserves
  · obtain ⟨hout, hdone⟩ := hinv.returned (step_cases hstep) hcall hidle
    have hsynced := hdone.synced
    simp only [Buf.synced, Bool.and_eq_true, Bool.not_eq_true'] at hsynced
    exact ⟨hout, hsynced.1, hsynced.2, hdone.disk, hdone.place, hdone.data⟩

instance [Fintype B] (s : Driver P B D) (a : Action P B D) (t : Driver P B D) :
    Decidable (Promised s a t) :=
  match a with
  | .acquire _ b _ _ => inferInstanceAs (Decidable
      (∀ b', b' ≠ b → s.holder b' ≠ none → (s.buf b').place ≠ (t.buf b).place))
  | .modify .. | .release .. | .iderw .. | .resume .. | .doze .. | .complete | .ideintr
  | .kill .. => isTrue trivial

/-- A block is read, and behind it another one is written. -/
theorem disk_queue_two : ∃ state : Driver Bool Bool ℕ × Requests Bool ℕ,
    state.1.disk (1, 6) = 9 ∧ state.2.served = [false, true] ∧
      state.2.queued = state.2.served ++ state.1.queue := by
  have htest : (exec (checked (traced (Driver.step true) Requests.record)
      fun s a t => Promised s.1 a t.1)
      (Driver.boot Bool (fun _ => 0) fun _ => ⟨false, false, 0, 0, 0⟩,
        Requests.empty fun _ => ⟨false, false, 0, 0, 0⟩)
      [.acquire false false 1 5, .acquire true true 1 6, .modify true true true true 9,
        .iderw false false, .doze false, .iderw true true, .complete, .doze true, .ideintr,
        .complete, .resume false, .ideintr, .resume true]).test (fun state =>
        state.1.disk (1, 6) = 9 ∧ state.2.served = [false, true]) = true := by
    decide +kernel
  obtain ⟨state, hrun, hcheck⟩ := run_of_test htest
  obtain ⟨hdisk, hserved⟩ := of_decide_eq_true hcheck
  exact ⟨state, hdisk, hserved, (disk_queue hrun).1⟩

end Xv6.Ide
