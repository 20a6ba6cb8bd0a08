import Mathlib.Algebra.BigOperators.Group.Finset.Basic
import Mathlib.Data.Fintype.BigOperators
import Mathlib.Data.List.Perm.Subperm
import Xv6.Bio.Cache
import Xv6.Lib.Scan

/-!
# The list of buffers and the buffer that is used least recently

The links of the buffer cache always form a ring through the head and all `NBUF`
buffers (`Bcache.Order`).  A buffer whose `refcnt` becomes 0 is moved to the front,
and nothing else moves, so the unused buffers stand in the order in which they
were given back: `BioHistory` keeps the times, and `BioInv.sorted` states the
order.  `bget` looks from the back and so takes the buffer that has been unused for
the longest time (`buffer_list_lru`).

`refcnt` counts the holder of the sleep-lock and the processes that are on their
way to it or away from it (`BioInv.counted`), so a buffer that `brelse` gives back is
counted.
-/

namespace Xv6

open Transition

variable {P β : Type}

/-! ## The order of the list -/

/-- From the head on, `next` meets the buffers in this order. -/
structure Bcache.Order (s : Bcache P β) (order : List BufId) : Prop where
  ring : Linked.Ring s.links none (order.map some)
  all : ∀ b, b ∈ order

namespace Bcache

variable {s t : Bcache P β} {order : List BufId} {b c : BufId} {dev blockno : ℕ}

@[simp] theorem modify_links (s : Bcache P β) (b : BufId) (f : Buf P β → Buf P β) :
    (s.modify b f).links = s.links := rfl

@[simp] theorem modify_buf_self (s : Bcache P β) (b : BufId) (f : Buf P β → Buf P β) :
    (s.modify b f).buf b = f (s.buf b) := by simp [modify]

theorem modify_buf_of_ne (s : Bcache P β) (f : Buf P β → Buf P β) (h : c ≠ b) :
    (s.modify b f).buf c = s.buf c := by simp [modify, h]

namespace Order

theorem nodup (h : s.Order order) : order.Nodup :=
  (List.nodup_map_iff (Option.some_injective BufId)).mp (List.nodup_cons.mp h.ring.nodup).2

theorem perm (h : s.Order order) : order.Perm (List.finRange NBUF) :=
  (List.perm_ext_iff_of_nodup h.nodup (List.nodup_finRange NBUF)).mpr (by simp [h.all])

theorem length (h : s.Order order) : order.length = NBUF := by
  simpa using h.perm.length_eq

/-- The two loops of `bget` meet all buffers. -/
theorem bget (h : s.Order order) (dev blockno : ℕ) :
    s.bget dev blockno =
      match order.find? (s.caches · dev blockno) with
      | some b => .next (b, s.hit b)
      | none =>
          match order.reverse.find? s.unused with
          | some b => .next (b, s.recycle b dev blockno)
          | none => .panic "bget: no buffers" := by
  have hlength : (order.map some).length < NBUF + 1 := by simp [h.length]
  unfold Bcache.bget
  rw [h.ring.search_next hlength, h.ring.search_prev hlength, ← List.map_reverse]
  simp only [Linked.Search.of, List.find?_map]
  have hcaches : (Option.any (s.caches · dev blockno)) ∘ some = (s.caches · dev blockno) := rfl
  have hunused : (Option.any s.unused) ∘ some = s.unused := rfl
  rw [hcaches, hunused]
  cases order.find? (s.caches · dev blockno) with
  | some b => rfl
  | none => cases order.reverse.find? s.unused <;> rfl

/-- What `bget` gives: the buffer of the block, or the last one that is unused. -/
theorem bget_cases (h : s.Order order) (hget : s.bget dev blockno = .next (b, t)) :
    s.caches b dev blockno = true ∧ t = s.hit b ∨
      (∀ c, s.caches c dev blockno = false) ∧ s.unused b = true ∧
        t = s.recycle b dev blockno ∧
          ∃ before after, order = before ++ b :: after ∧ ∀ c ∈ after, s.unused c = false := by
  rw [h.bget] at hget
  cases hfind : order.find? (s.caches · dev blockno) with
  | some found =>
      simp only [hfind, Outcome.next.injEq, Prod.mk.injEq] at hget
      obtain ⟨rfl, rfl⟩ := hget
      have hcached := List.find?_some hfind
      exact Or.inl ⟨hcached, rfl⟩
  | none =>
      have habsent : ∀ c, s.caches c dev blockno = false := by
        intro c
        simpa using List.find?_eq_none.mp hfind c (h.all c)
      cases hlast : order.reverse.find? s.unused with
      | none => simp [hfind, hlast] at hget
      | some found =>
          simp only [hfind, hlast, Outcome.next.injEq, Prod.mk.injEq] at hget
          obtain ⟨rfl, rfl⟩ := hget
          obtain ⟨hunused, after, before, horder, hnone⟩ := List.find?_eq_some_iff_append.mp hlast
          refine Or.inr ⟨habsent, hunused, rfl, before.reverse, after.reverse, ?_, ?_⟩
          · rw [← List.reverse_reverse order, horder]
            simp
          · intro c hc
            simpa using hnone c (List.mem_reverse.mp hc)

theorem bget_ne_blocked (h : s.Order order) : s.bget dev blockno ≠ .blocked := by
  rw [h.bget]
  cases order.find? (s.caches · dev blockno) with
  | some b => simp
  | none => cases order.reverse.find? s.unused <;> simp

theorem congr (h : s.Order order) (hlinks : t.links = s.links) : t.Order order :=
  ⟨hlinks ▸ h.ring, h.all⟩

theorem next_prev (h : s.Order order) (x : BufPtr) :
    s.links.prev (s.links.next x) = x ∧ s.links.next (s.links.prev x) = x := by
  have hx : x ∈ none :: order.map some := by
    cases x with
    | none => simp
    | some b => simp [h.all b]
  exact ⟨h.ring.prev_next hx, h.ring.next_prev hx⟩

end Order

theorem order_binit (data : β) :
    (binit (zero data : Bcache P β)).Order (List.finRange NBUF).reverse where
  ring := by
    have hring : Linked.Ring (zero data : Bcache P β).links none [] := Linked.Ring.empty _ rfl rfl
    have hnodup : ((List.finRange NBUF).map some).Nodup :=
      (List.nodup_map_iff (Option.some_injective BufId)).mpr (List.nodup_finRange NBUF)
    have hbuilt := hring.foldl_insert ((List.finRange NBUF).map some) (by simpa using hnodup)
      (by simp)
    rw [List.append_nil, List.foldl_map, ← List.map_reverse] at hbuilt
    exact hbuilt
  all b := by simp

end Bcache

/-! ## What a step does to the cache -/

/-- The steps change the flags and the data of a buffer, or they are parts of `bget` or
`brelse`. -/
inductive Bcache.Change (s t : Bcache P β) : Prop
  | keep (links_eq : t.links = s.links)
      (same : ∀ c, (t.buf c).dev = (s.buf c).dev ∧ (t.buf c).blockno = (s.buf c).blockno ∧
        (t.buf c).refcnt = (s.buf c).refcnt)
  | hit (b : BufId) (eq : t = s.hit b)
  | recycle {b : BufId} (dev blockno : ℕ)
      (fresh : ∀ c, s.caches c dev blockno = false) (unused : s.unused b = true)
      (eq : t = s.recycle b dev blockno)
  | unref {b : BufId} (counted : (s.buf b).refcnt ≠ 0) (eq : t = s.unref b)

namespace Bcache

variable {s t : Bcache P β} {order : List BufId} {b c : BufId} {dev blockno : ℕ}

theorem unused_iff : s.unused b = true ↔ (s.buf b).refcnt = 0 ∧ (s.buf b).dirty = false := by
  simp [unused]

theorem caches_iff :
    s.caches b dev blockno = true ↔ (s.buf b).dev = dev ∧ (s.buf b).blockno = blockno := by
  simp [caches]

theorem change_modify (s : Bcache P β) (b : BufId) (f : Buf P β → Buf P β)
    (hf : ∀ x, (f x).dev = x.dev ∧ (f x).blockno = x.blockno ∧ (f x).refcnt = x.refcnt) :
    s.Change (s.modify b f) := by
  refine .keep rfl fun c => ?_
  by_cases hc : c = b
  · subst hc
    simpa using hf (s.buf c)
  · simp [modify_buf_of_ne s f hc]

theorem unref_buf (s : Bcache P β) (b c : BufId) :
    (s.unref b).buf c = (s.modify b fun x => { x with refcnt := x.refcnt - 1 }).buf c := by
  unfold unref
  dsimp only
  split <;> rfl

/-- The count of a buffer after one reference to `b` is dropped. -/
theorem unref_refcnt (s : Bcache P β) (b c : BufId) :
    ((s.unref b).buf c).refcnt = if c = b then (s.buf b).refcnt - 1 else (s.buf c).refcnt := by
  rw [unref_buf]
  by_cases hc : c = b
  · subst hc
    simp
  · simp [modify_buf_of_ne s _ hc, hc]

theorem unref_identity (s : Bcache P β) (b c : BufId) :
    ((s.unref b).buf c).dev = (s.buf c).dev ∧
      ((s.unref b).buf c).blockno = (s.buf c).blockno := by
  rw [unref_buf]
  by_cases hc : c = b
  · subst hc
    simp
  · simp [modify_buf_of_ne s _ hc]

theorem unref_lock (s : Bcache P β) (b c : BufId) :
    ((s.unref b).buf c).lock = (s.buf c).lock := by
  rw [unref_buf]
  by_cases hc : c = b
  · subst hc
    simp
  · simp [modify_buf_of_ne s _ hc]

/-- A buffer whose last reference is dropped comes to the front. -/
theorem Order.unref_of_one (h : s.Order order) (hone : (s.buf b).refcnt = 1) :
    (s.unref b).Order (b :: order.erase b) := by
  obtain ⟨before, after, hnot, rfl, herase⟩ := List.exists_erase_eq (h.all b)
  rw [herase]
  have hring := h.ring
  rw [List.map_append, List.map_cons] at hring
  have hout := hring.unlink
  have hlinks : (s.unref b).links = (s.links.unlink (some b)).insert none (some b) := by
    simp [unref, hone]
  have hafter : b ∉ after := by
    have hnodup := h.nodup
    rw [List.nodup_append] at hnodup
    exact (List.nodup_cons.mp hnodup.2.1).1
  refine ⟨?_, fun c => ?_⟩
  · rw [hlinks, List.map_cons, List.map_append]
    exact hout.insert (by simp [hnot, hafter])
  · have hc := h.all c
    simp only [List.mem_append, List.mem_cons] at hc ⊢
    tauto

theorem unref_links_of_ne_one (hcounted : (s.buf b).refcnt ≠ 0) (hone : (s.buf b).refcnt ≠ 1) :
    (s.unref b).links = s.links := by
  have hleft : (s.buf b).refcnt - 1 ≠ 0 := by omega
  simp [unref, hleft]

end Bcache

/-! ## The history of a run -/

/-- The number of steps so far, and for each buffer the step in which its `refcnt`
became 0; before `binit` all are 0. -/
structure BioHistory where
  clock : ℕ
  zeroed : BufId → ℕ

namespace BioHistory

def boot : BioHistory where
  clock := 0
  zeroed _ := 0

def record (h : BioHistory) (s t : Bio P β) : BioHistory where
  clock := h.clock + 1
  zeroed b :=
    if (s.cache.buf b).refcnt ≠ 0 ∧ (t.cache.buf b).refcnt = 0 then h.clock + 1 else h.zeroed b

/-- The buffer `b` has been unused for longer than `c`.  Those that have never been used
are taken in the order in which `binit` has met them. -/
def Before (h : BioHistory) (b c : BufId) : Prop :=
  h.zeroed b < h.zeroed c ∨ h.zeroed b = h.zeroed c ∧ b < c

end BioHistory

/-- The number of processes in `bget` or `brelse` that have a reference to `b`. -/
def Bio.pending [Fintype P] (s : Bio P β) (b : BufId) : ℕ :=
  (Finset.univ.filter fun p => (s.pc p).buf = some b).card

structure BioInv [Fintype P] (s : Bio P β) (h : BioHistory) (order : List BufId) : Prop where
  listed : s.cache.Order order
  sorted : order.Pairwise fun b c =>
    (s.cache.buf b).refcnt = 0 → (s.cache.buf c).refcnt = 0 → h.Before c b
  past : ∀ b, h.zeroed b ≤ h.clock
  unique : ∀ b c, (s.cache.buf b).dev ≠ 0 → (s.cache.buf b).dev = (s.cache.buf c).dev →
    (s.cache.buf b).blockno = (s.cache.buf c).blockno → b = c
  counted : ∀ b, (s.cache.buf b).refcnt = (s.cache.buf b).lock.isSome.toNat + s.pending b

section Invariant

variable [Fintype P] {s t : Bio P β} {h : BioHistory} {order : List BufId} {b c : BufId}

/-! ### References -/

/-- What a process that goes on adds to the references, and what it takes away. -/
theorem Bio.pending_goto [DecidableEq P] (s : Bio P β) (p : P) (pc : BioPc) (b : BufId) :
    (s.goto p pc).pending b + (if (s.pc p).buf = some b then 1 else 0) =
      s.pending b + if pc.buf = some b then 1 else 0 := by
  have hsum : ∀ f : P → BioPc, (Finset.univ.filter fun q => (f q).buf = some b).card =
      (if (f p).buf = some b then 1 else 0) +
        ∑ q ∈ Finset.univ.erase p, if (f q).buf = some b then 1 else 0 := by
    intro f
    rw [Finset.card_filter, ← Finset.add_sum_erase _ _ (Finset.mem_univ p)]
  have hrest : (∑ q ∈ Finset.univ.erase p, if ((s.goto p pc).pc q).buf = some b then 1 else 0) =
      ∑ q ∈ Finset.univ.erase p, if (s.pc q).buf = some b then 1 else 0 := by
    refine Finset.sum_congr rfl fun q hq => ?_
    simp [goto, Finset.ne_of_mem_erase hq]
  have hself : (s.goto p pc).pc p = pc := by simp [goto]
  have hbefore := hsum s.pc
  have hafter := hsum (s.goto p pc).pc
  rw [hrest, hself] at hafter
  unfold pending
  omega

/-! ### The order -/

/-- Where no buffer becomes unused, the order stays. -/
theorem BioInv.sorted_of_kept (hinv : BioInv s h order)
    (hkept : ∀ c, (t.cache.buf c).refcnt = 0 → (s.cache.buf c).refcnt = 0) :
    order.Pairwise fun b c => (t.cache.buf b).refcnt = 0 → (t.cache.buf c).refcnt = 0 →
      (h.record s t).Before c b := by
  refine hinv.sorted.imp fun {b c} hbc hb hc => ?_
  have hsame : ∀ c, (t.cache.buf c).refcnt = 0 → (h.record s t).zeroed c = h.zeroed c := by
    intro c hc
    simp [BioHistory.record, hkept c hc]
  unfold BioHistory.Before
  rw [hsame b hb, hsame c hc]
  exact hbc (hkept b hb) (hkept c hc)

theorem BioInv.past_record (hinv : BioInv s h order) (b : BufId) :
    (h.record s t).zeroed b ≤ (h.record s t).clock := by
  have hpast := hinv.past b
  simp only [BioHistory.record]
  split <;> omega

/-- A buffer that becomes unused comes to the front, because it is the last to do so. -/
theorem BioInv.sorted_unref (hinv : BioInv s h order) (ht : t.cache = s.cache.unref b)
    (hone : (s.cache.buf b).refcnt = 1) :
    (b :: order.erase b).Pairwise fun b c =>
      (t.cache.buf b).refcnt = 0 → (t.cache.buf c).refcnt = 0 → (h.record s t).Before c b := by
  have hrefcnt : ∀ c ≠ b, (t.cache.buf c).refcnt = (s.cache.buf c).refcnt := by
    intro c hc
    rw [ht, Bcache.unref_refcnt, if_neg hc]
  have hzeroed : ∀ c ≠ b, (h.record s t).zeroed c = h.zeroed c := by
    intro c hc
    simp only [BioHistory.record, hrefcnt c hc]
    exact if_neg fun hboth => hboth.1 hboth.2
  have hnow : (h.record s t).zeroed b = h.clock + 1 := by
    simp [BioHistory.record, ht, Bcache.unref_refcnt, hone]
  have hne : ∀ c ∈ order.erase b, c ≠ b := fun c hc =>
    ((hinv.listed.nodup.mem_erase_iff).mp hc).1
  refine List.pairwise_cons.mpr ⟨fun c hc _ _ => ?_, ?_⟩
  · have hpast := hinv.past c
    unfold BioHistory.Before
    rw [hnow, hzeroed c (hne c hc)]
    exact Or.inl (by omega)
  · refine (hinv.sorted.sublist List.erase_sublist).imp_of_mem fun {c d} hc hd hcd hc0 hd0 => ?_
    have hcb := hne c hc
    have hdb := hne d hd
    unfold BioHistory.Before
    rw [hzeroed c hcb, hzeroed d hdb]
    exact hcd (hrefcnt c hcb ▸ hc0) (hrefcnt d hdb ▸ hd0)

theorem BioInv.order_step (hinv : BioInv s h order) (hchange : s.cache.Change t.cache) :
    ∃ order', t.cache.Order order' ∧ order'.Pairwise fun b c =>
      (t.cache.buf b).refcnt = 0 → (t.cache.buf c).refcnt = 0 → (h.record s t).Before c b := by
  cases hchange with
  | keep links_eq same =>
      refine ⟨order, hinv.listed.congr links_eq, hinv.sorted_of_kept fun c hc => ?_⟩
      rw [← (same c).2.2, hc]
  | hit b eq =>
      refine ⟨order, hinv.listed.congr (by rw [eq]; rfl), hinv.sorted_of_kept fun c hc => ?_⟩
      rw [eq, Bcache.hit] at hc
      by_cases hcb : c = b
      · subst hcb
        simp at hc
      · rwa [Bcache.modify_buf_of_ne _ _ hcb] at hc
  | @recycle b dev blockno fresh unused eq =>
      refine ⟨order, hinv.listed.congr (by rw [eq]; rfl), hinv.sorted_of_kept fun c hc => ?_⟩
      rw [eq, Bcache.recycle] at hc
      by_cases hcb : c = b
      · subst hcb
        simp at hc
      · rwa [Bcache.modify_buf_of_ne _ _ hcb] at hc
  | @unref b counted eq =>
      by_cases hone : (s.cache.buf b).refcnt = 1
      · exact ⟨_, eq ▸ hinv.listed.unref_of_one hone, hinv.sorted_unref eq hone⟩
      · refine ⟨order, hinv.listed.congr ?_, hinv.sorted_of_kept fun c hc => ?_⟩
        · rw [eq, Bcache.unref_links_of_ne_one counted hone]
        · rw [eq, Bcache.unref_refcnt] at hc
          split at hc
          · omega
          · exact hc

/-! ### Blocks -/

theorem BioInv.unique_step (hinv : BioInv s h order) (hchange : s.cache.Change t.cache)
    (hdev : (t.cache.buf b).dev ≠ 0) (heq : (t.cache.buf b).dev = (t.cache.buf c).dev)
    (hno : (t.cache.buf b).blockno = (t.cache.buf c).blockno) : b = c := by
  cases hchange with
  | keep links_eq same =>
      rw [(same b).1, (same c).1] at heq
      rw [(same b).2.1, (same c).2.1] at hno
      exact hinv.unique b c ((same b).1 ▸ hdev) heq hno
  | hit d eq =>
      have hsame : ∀ c, (t.cache.buf c).dev = (s.cache.buf c).dev ∧
          (t.cache.buf c).blockno = (s.cache.buf c).blockno := by
        intro c
        rw [eq, Bcache.hit]
        by_cases hc : c = d
        · subst hc
          simp
        · simp [Bcache.modify_buf_of_ne _ _ hc]
      rw [(hsame b).1, (hsame c).1] at heq
      rw [(hsame b).2, (hsame c).2] at hno
      exact hinv.unique b c ((hsame b).1 ▸ hdev) heq hno
  | @recycle d dev blockno fresh unused eq =>
      -- no other buffer holds the block for which `d` is used now
      have hself : (t.cache.buf d).dev = dev ∧ (t.cache.buf d).blockno = blockno := by
        simp [eq, Bcache.recycle]
      have hother : ∀ c ≠ d, t.cache.buf c = s.cache.buf c := by
        intro c hc
        rw [eq, Bcache.recycle, Bcache.modify_buf_of_ne _ _ hc]
      have habsent : ∀ c, ¬ ((s.cache.buf c).dev = dev ∧ (s.cache.buf c).blockno = blockno) := by
        intro c hc
        rw [← Bcache.caches_iff, fresh c] at hc
        simp at hc
      by_cases hb : b = d <;> by_cases hc : c = d
      · rw [hb, hc]
      · subst hb
        rw [hother c hc, hself.1] at heq
        rw [hother c hc, hself.2] at hno
        exact absurd ⟨heq.symm, hno.symm⟩ (habsent c)
      · subst hc
        rw [hother b hb, hself.1] at heq
        rw [hother b hb, hself.2] at hno
        exact absurd ⟨heq, hno⟩ (habsent b)
      · rw [hother b hb] at hdev heq hno
        rw [hother c hc] at heq hno
        exact hinv.unique b c hdev heq hno
  | @unref d counted eq =>
      have hsame := s.cache.unref_identity d
      rw [eq, (hsame b).1, (hsame c).1] at heq
      rw [eq, (hsame b).2, (hsame c).2] at hno
      exact hinv.unique b c (by rwa [eq, (hsame b).1] at hdev) heq hno

/-! ### The steps -/

variable [DecidableEq P] {a : BioCall P β} {dev blockno : ℕ}

/-- The references stay counted when `refcnt` changes with the lock and with what the
process that goes on refers to. -/
theorem BioInv.counted_goto (hinv : BioInv s h order) {p : P} {pc : BioPc} {cache : Bcache P β}
    (hbuf : ∀ c, (cache.buf c).refcnt + (s.cache.buf c).lock.isSome.toNat +
        (if (s.pc p).buf = some c then 1 else 0) =
      (s.cache.buf c).refcnt + (cache.buf c).lock.isSome.toNat +
        if pc.buf = some c then 1 else 0) (c : BufId) :
    (cache.buf c).refcnt = (cache.buf c).lock.isSome.toNat +
      ({ s with cache := cache }.goto p pc).pending c := by
  have hpending : ({ s with cache := cache }.goto p pc).pending c +
      (if (s.pc p).buf = some c then 1 else 0) =
        s.pending c + if pc.buf = some c then 1 else 0 := s.pending_goto p pc c
  have hcounted := hinv.counted c
  have hc := hbuf c
  omega

/-- As `counted_goto`, where one buffer changes. -/
theorem BioInv.counted_modify (hinv : BioInv s h order) (p : P) (pc : BioPc) (b : BufId)
    (f : Buf P β → Buf P β) (hpc : ∀ c, c ≠ b → (s.pc p).buf ≠ some c ∧ pc.buf ≠ some c)
    (hf : (f (s.cache.buf b)).refcnt + (s.cache.buf b).lock.isSome.toNat +
        (if (s.pc p).buf = some b then 1 else 0) =
      (s.cache.buf b).refcnt + (f (s.cache.buf b)).lock.isSome.toNat +
        if pc.buf = some b then 1 else 0) (c : BufId) :
    ((s.cache.modify b f).buf c).refcnt = ((s.cache.modify b f).buf c).lock.isSome.toNat +
      ({ s with cache := s.cache.modify b f }.goto p pc).pending c := by
  refine hinv.counted_goto (fun c => ?_) c
  by_cases hc : c = b
  · subst hc
    simpa using hf
  · rw [Bcache.modify_buf_of_ne _ _ hc, if_neg (hpc c hc).1, if_neg (hpc c hc).2]

/-- What each step does to the cache, and that the references stay counted. -/
theorem BioInv.change (hinv : BioInv s h order) (hstep : Bio.step s a = .next t) :
    s.cache.Change t.cache ∧
      ∀ c, (t.cache.buf c).refcnt = (t.cache.buf c).lock.isSome.toNat + t.pending c := by
  cases a with
  | bget p dev blockno =>
      simp only [Bio.step] at hstep
      split at hstep
      case isFalse => simp at hstep
      case isTrue hrunning =>
        obtain ⟨⟨b, cache⟩, hget, ht⟩ := Outcome.bind_eq_next.mp hstep
        obtain rfl := Outcome.next.inj ht
        have hpc : ∀ c, c ≠ b → (s.pc p).buf ≠ some c ∧ (BioPc.acquiring b).buf ≠ some c :=
          fun c hc => by simp [hrunning, BioPc.buf, Ne.symm hc]
        rcases hinv.listed.bget_cases hget with ⟨-, rfl⟩ | ⟨hfresh, hunused, rfl, -⟩
        · refine ⟨.hit b rfl, hinv.counted_modify p (.acquiring b) b
            (fun x => { x with refcnt := x.refcnt + 1 }) hpc ?_⟩
          simp [hrunning, BioPc.buf]
          omega
        · have hzero := (Bcache.unused_iff.mp hunused).1
          refine ⟨.recycle dev blockno hfresh hunused rfl, hinv.counted_modify p (.acquiring b) b
            (fun x => { x with
              dev := dev, blockno := blockno, valid := false, dirty := false, refcnt := 1 }) hpc ?_⟩
          simp [hrunning, BioPc.buf, hzero]
          omega
  | acquiresleep p =>
      simp only [Bio.step] at hstep
      split at hstep
      case h_1 b hpc =>
        split at hstep
        case isFalse => simp at hstep
        case isTrue hfree =>
          obtain rfl := Outcome.next.inj hstep
          have hchange := s.cache.change_modify b (fun x => { x with lock := some p })
            fun _ => ⟨rfl, rfl, rfl⟩
          refine ⟨hchange, hinv.counted_modify p .running b
            (fun x => { x with lock := some p }) (fun c hc => ?_) ?_⟩
          · simp [hpc, BioPc.buf, Ne.symm hc]
          · simp [hpc, BioPc.buf, hfree]
      case h_2 => simp at hstep
  | use p b valid dirty data =>
      simp only [Bio.step] at hstep
      split at hstep
      case isFalse => simp at hstep
      case isTrue hheld =>
        obtain rfl := Outcome.next.inj hstep
        have hchange := s.cache.change_modify b
          (fun x => { x with valid := valid, dirty := dirty, data := data })
          fun _ => ⟨rfl, rfl, rfl⟩
        refine ⟨hchange, fun c => ?_⟩
        have hcounted := hinv.counted c
        rw [Bio.pending] at hcounted ⊢
        by_cases hc : c = b
        · subst hc
          simpa using hcounted
        · simpa [Bcache.modify_buf_of_ne _ _ hc] using hcounted
  | brelse p b =>
      simp only [Bio.step] at hstep
      split at hstep
      case isFalse => simp at hstep
      case isTrue hrunning =>
        split at hstep
        case isFalse => simp at hstep
        case isTrue hheld =>
          obtain rfl := Outcome.next.inj hstep
          have hchange := s.cache.change_modify b (fun x => { x with lock := none })
            fun _ => ⟨rfl, rfl, rfl⟩
          refine ⟨hchange, hinv.counted_modify p (.releasing b) b
            (fun x => { x with lock := none }) (fun c hc => ?_) ?_⟩
          · simp [hrunning, BioPc.buf, Ne.symm hc]
          · simp [hrunning, BioPc.buf, hheld]
  | unref p =>
      simp only [Bio.step] at hstep
      split at hstep
      case h_1 b hpc =>
        obtain rfl := Outcome.next.inj hstep
        have hpending := s.pending_goto p .running b
        simp only [hpc, BioPc.buf, if_true, reduceCtorEq, if_false] at hpending
        have hcounted := hinv.counted b
        refine ⟨.unref (b := b) (by omega) rfl, hinv.counted_goto fun c => ?_⟩
        rw [Bio.goto_cache, s.cache.unref_lock, s.cache.unref_refcnt]
        by_cases hc : c = b
        · subst hc
          simp [hpc, BioPc.buf]
          omega
        · simp [hpc, BioPc.buf, hc, Ne.symm hc]
      case h_2 => simp at hstep

theorem BioInv.step (hinv : BioInv s h order) (hstep : Bio.step s a = .next t) :
    ∃ order', BioInv t (h.record s t) order' := by
  obtain ⟨hchange, hcounted⟩ := hinv.change hstep
  obtain ⟨order', hlisted, hsorted⟩ := hinv.order_step hchange
  exact ⟨order', hlisted, hsorted, hinv.past_record,
    fun _ _ hdev heq hno => hinv.unique_step hchange hdev heq hno, hcounted⟩

omit [DecidableEq P] in
theorem BioInv.boot (data : β) :
    BioInv (Bio.boot P data) BioHistory.boot (List.finRange NBUF).reverse where
  listed := Bcache.order_binit data
  sorted := by
    rw [List.pairwise_reverse]
    refine (Scan.finRange_sorted NBUF).imp fun {b c} hbc _ _ => ?_
    exact Or.inr ⟨rfl, hbc⟩
  past _ := Nat.le_refl 0
  unique b c hdev := absurd rfl hdev
  counted b := by
    simp [Bio.boot, Bio.pending, Bcache.binit, Bcache.zero, BioPc.buf]

end Invariant

/-! ## Every run -/

/-- The links are those of a circular list of all buffers. -/
structure Bcache.Circular (s : Bcache P β) : Prop where
  visits : ((List.range NBUF).map fun k => s.links.next^[k + 1] none).Perm
    ((List.finRange NBUF).map some)
  returns : s.links.next^[NBUF + 1] none = none
  prev_next : ∀ x, s.links.prev (s.links.next x) = x
  next_prev : ∀ x, s.links.next (s.links.prev x) = x

/-- A buffer that is recycled is unused, and it has been so for longer than all others. -/
def Bcache.RecyclesOldest (s : Bcache P β) (h : BioHistory) : Prop :=
  ∀ dev blockno b t, s.bget dev blockno = .next (b, t) → (∀ c, s.caches c dev blockno = false) →
    s.unused b = true ∧ t = s.recycle b dev blockno ∧
      ∀ c, s.unused c = true → c ≠ b → h.Before b c

section Runs

variable {s t : Bcache P β} {order : List BufId}

theorem Bcache.Order.circular (h : s.Order order) : s.Circular where
  visits := by
    have hround := h.ring.round.1
    rw [List.length_map, h.length] at hround
    rw [hround]
    exact h.perm.map some
  returns := by
    have hround := h.ring.round.2
    rwa [List.length_map, h.length] at hround
  prev_next x := (h.next_prev x).1
  next_prev x := (h.next_prev x).2

/-- `refcnt` cannot exceed the number of processes by more than one. -/
theorem BioInv.refcnt_le [Fintype P] {s : Bio P β} {h : BioHistory} (hinv : BioInv s h order)
    (b : BufId) : (s.cache.buf b).refcnt ≤ Fintype.card P + 1 := by
  have hpending : s.pending b ≤ Fintype.card P := Finset.card_filter_le _ _
  have hholder := Bool.toNat_le (s.cache.buf b).lock.isSome
  have hcounted := hinv.counted b
  omega

/-- Only `recycle` uses a buffer for another block. -/
theorem Bcache.Change.unused_of_reassigned (h : s.Change t) {b : BufId}
    (hne : ¬ ((t.buf b).dev = (s.buf b).dev ∧ (t.buf b).blockno = (s.buf b).blockno)) :
    (s.buf b).refcnt = 0 ∧ (s.buf b).dirty = false := by
  cases h with
  | keep links_eq same => exact absurd ⟨(same b).1, (same b).2.1⟩ hne
  | hit c eq =>
      refine absurd ?_ hne
      rw [eq, Bcache.hit]
      by_cases hb : b = c
      · subst hb
        simp
      · simp [modify_buf_of_ne _ _ hb]
  | @recycle c dev blockno fresh unused eq =>
      by_cases hb : b = c
      · exact hb ▸ unused_iff.mp unused
      · exact absurd (by simp [eq, Bcache.recycle, modify_buf_of_ne _ _ hb]) hne
  | @unref c counted eq => exact absurd (eq ▸ s.unref_identity c b) hne

theorem BioInv.recyclesOldest [Fintype P] {s : Bio P β} {h : BioHistory}
    (hinv : BioInv s h order) : s.cache.RecyclesOldest h := by
  intro dev blockno b t hget habsent
  rcases hinv.listed.bget_cases hget with ⟨hcached, -⟩ | ⟨-, hunused, ht, before, after, rfl, hlast⟩
  · simp [habsent b] at hcached
  · refine ⟨hunused, ht, fun c hc hne => ?_⟩
    -- an unused buffer is not behind `b`, so it stands before it
    have hmem : c ∈ before := by
      have hc' := hinv.listed.all c
      simp only [List.mem_append, List.mem_cons] at hc'
      rcases hc' with hc' | hc' | hc'
      · exact hc'
      · exact absurd hc' hne
      · simp [hlast c hc'] at hc
    have hsorted := (List.pairwise_append.mp hinv.sorted).2.2 c hmem b (by simp)
    exact hsorted (Bcache.unused_iff.mp hc).1 (Bcache.unused_iff.mp hunused).1

theorem BioInv.of_reaches [Fintype P] [DecidableEq P] {data : β} {s : Bio P β × BioHistory}
    (run : Reaches (recorded Bio.step BioHistory.record) (Bio.boot P data, BioHistory.boot) s) :
    ∃ order, BioInv s.1 s.2 order := by
  refine run.invariant (I := fun s => ∃ order, BioInv s.1 s.2 order) ⟨_, BioInv.boot data⟩ ?_
  rintro s a t hstep - ⟨order, hinv⟩
  obtain ⟨hstep, hrecord⟩ := recorded_eq_next.mp hstep
  rw [hrecord]
  exact hinv.step hstep

/-- The list of buffers in every run of any number of processes. -/
theorem buffer_list_lru [Fintype P] [DecidableEq P] {data : β} {s : Bio P β × BioHistory}
    (run : Reaches (recorded Bio.step BioHistory.record) (Bio.boot P data, BioHistory.boot) s) :
    s.1.cache.Circular ∧
      (∀ b c, (s.1.cache.buf b).dev ≠ 0 → (s.1.cache.buf b).dev = (s.1.cache.buf c).dev →
        (s.1.cache.buf b).blockno = (s.1.cache.buf c).blockno → b = c) ∧
      (∀ a t b, Bio.step s.1 a = .next t →
        ¬ ((t.cache.buf b).dev = (s.1.cache.buf b).dev ∧
          (t.cache.buf b).blockno = (s.1.cache.buf b).blockno) →
        (s.1.cache.buf b).refcnt = 0 ∧ (s.1.cache.buf b).dirty = false) ∧
      (∀ dev blockno, s.1.cache.bget dev blockno ≠ .blocked) ∧
      s.1.cache.RecyclesOldest s.2 := by
  obtain ⟨order, hinv⟩ := BioInv.of_reaches run
  refine ⟨hinv.listed.circular, hinv.unique, fun a t b hstep hne => ?_, fun dev blockno => ?_,
    hinv.recyclesOldest⟩
  · exact (hinv.change hstep).1.unused_of_reassigned hne
  · exact hinv.listed.bget_ne_blocked

/-- One process reads block 7 and gives its buffer back, and another reads block 8. -/
def lruCalls : List (BioCall Bool Unit) :=
  [.bget false 1 7, .acquiresleep false, .use false 0 true false (), .brelse false 0, .unref false,
    .bget true 1 8]

theorem buffer_list_lru_sample : ∃ s : Bio Bool Unit × BioHistory,
    ((s.1.cache.buf 0).blockno = 7 ∧ (s.1.cache.buf 1).blockno = 8 ∧ s.2.zeroed 0 = 5) ∧
      s.1.cache.Circular ∧ s.1.cache.RecyclesOldest s.2 := by
  have htest : (exec (recorded Bio.step BioHistory.record) (Bio.boot Bool (), BioHistory.boot)
      lruCalls).test (fun s => decide ((s.1.cache.buf 0).blockno = 7 ∧
        (s.1.cache.buf 1).blockno = 8 ∧ s.2.zeroed 0 = 5)) = true := by decide +kernel
  obtain ⟨s, hrun, hcheck⟩ := reaches_of_test htest
  obtain ⟨hcircular, -, -, -, holdest⟩ := buffer_list_lru hrun
  exact ⟨s, of_decide_eq_true hcheck, hcircular, holdest⟩

end Runs

end Xv6
