import Mathlib.Data.Fin.Basic
import Mathlib.Data.Nat.ModEq
import Mathlib.Logic.Function.Basic

/-!
# Ring buffers with counters that wrap

A ring buffer has `cap` cells and two 32-bit counters that only go up: how much has
been taken out (`head`) and how much has been put in (`tail`).  A counter stands for
the cell `counter % cap`, which is right also after a counter has wrapped if `cap`
divides `2 ^ 32`.

`content` is the queue that the cells hold from `head` on.  Putting an element in
appends it (`content_push`) and taking one out removes the first (`content_pop`).
-/

namespace RingBuffer

variable {cap n k : ℕ} [NeZero cap] {β : Type*} {data : Fin cap → β} {head tail : UInt32}

/-- The number of elements in the buffer. -/
def filled (head tail : UInt32) : ℕ :=
  (tail - head).toNat

/-- The cell for which a counter stands. -/
def slot (cap : ℕ) [NeZero cap] (counter : UInt32) : Fin cap :=
  Fin.ofNat cap counter.toNat

/-- The first `n` elements from `head` on. -/
def content (data : Fin cap → β) (head : UInt32) (n : ℕ) : List β :=
  (List.range n).map fun k => data (slot cap (head + UInt32.ofNat k))

/-! ## The counters -/

theorem filled_lt (head tail : UInt32) : filled head tail < 2 ^ 32 :=
  (tail - head).toNat_lt

theorem add_filled (head tail : UInt32) : head + UInt32.ofNat (filled head tail) = tail := by
  unfold filled
  rw [UInt32.ofNat_toNat, UInt32.add_comm, UInt32.sub_add_cancel]

theorem filled_eq_iff (hn : n < 2 ^ 32) : filled head tail = n ↔ tail = head + UInt32.ofNat n := by
  constructor
  · rintro rfl
    exact (add_filled head tail).symm
  · rintro rfl
    rw [filled, UInt32.add_comm, UInt32.add_sub_cancel, UInt32.toNat_ofNat']
    exact Nat.mod_eq_of_lt hn

theorem filled_eq_zero_iff : filled head tail = 0 ↔ head = tail := by
  rw [filled_eq_iff (by decide)]
  simp [eq_comm]

theorem filled_push (h : filled head tail = n) (hn : n + 1 < 2 ^ 32) :
    filled head (tail + 1) = n + 1 := by
  rw [filled_eq_iff hn, UInt32.ofNat_add, ← UInt32.add_assoc,
    ← (filled_eq_iff (by omega)).mp h]
  rfl

theorem filled_pop (h : filled head tail = n + 1) : filled (head + 1) tail = n := by
  have hn : n + 1 < 2 ^ 32 := h ▸ filled_lt head tail
  rw [filled_eq_iff (by omega), (filled_eq_iff hn).mp h, UInt32.ofNat_add, UInt32.add_assoc,
    UInt32.add_comm (UInt32.ofNat n)]
  rfl

/-! ## The cells -/

theorem val_slot_add (hcap : cap ∣ 2 ^ 32) (head : UInt32) (k : ℕ) :
    (slot cap (head + UInt32.ofNat k)).val = (head.toNat + k) % cap := by
  have hsum : (head + UInt32.ofNat k).toNat = (head.toNat + k) % 2 ^ 32 := by
    rw [UInt32.toNat_add, UInt32.toNat_ofNat', Nat.add_mod_mod]
  show (head + UInt32.ofNat k).toNat % cap = _
  rw [hsum, Nat.mod_mod_of_dvd _ hcap]

/-- The cells of a queue that fits are different. -/
theorem slot_ne (hcap : cap ∣ 2 ^ 32) (head : UInt32) (hk : k < n) (hn : n < cap) :
    slot cap (head + UInt32.ofNat k) ≠ slot cap (head + UInt32.ofNat n) := by
  intro heq
  have hval := congrArg Fin.val heq
  rw [val_slot_add hcap, val_slot_add hcap] at hval
  have hmod : k % cap = n % cap := Nat.ModEq.add_left_cancel' head.toNat hval
  rw [Nat.mod_eq_of_lt (by omega), Nat.mod_eq_of_lt hn] at hmod
  omega

@[simp] theorem content_zero (data : Fin cap → β) (head : UInt32) : content data head 0 = [] := rfl

@[simp] theorem length_content (data : Fin cap → β) (head : UInt32) (n : ℕ) :
    (content data head n).length = n := by
  simp [content]

theorem content_succ (data : Fin cap → β) (head : UInt32) (n : ℕ) :
    content data head (n + 1) =
      content data head n ++ [data (slot cap (head + UInt32.ofNat n))] := by
  unfold content
  rw [List.range_succ, List.map_append, List.map_singleton]

theorem content_take (data : Fin cap → β) (head : UInt32) (hk : k ≤ n) :
    (content data head n).take k = content data head k := by
  unfold content
  rw [← List.map_take, List.take_range, Nat.min_eq_left hk]

theorem content_push (hcap : cap ∣ 2 ^ 32) (hn : filled head tail = n) (hlt : n < cap) (x : β) :
    content (Function.update data (slot cap tail) x) head (n + 1) = content data head n ++ [x] := by
  have htail : tail = head + UInt32.ofNat n := by
    rw [← hn, add_filled]
  unfold content
  rw [List.range_succ, List.map_append, List.map_singleton, htail, Function.update_self]
  congr 1
  refine List.map_congr_left fun k hk => ?_
  exact Function.update_of_ne (slot_ne hcap head (List.mem_range.mp hk) hlt) _ _

theorem content_pop (data : Fin cap → β) (head : UInt32) (n : ℕ) :
    content data head (n + 1) = data (slot cap head) :: content data (head + 1) n := by
  unfold content
  rw [List.range_succ_eq_map, List.map_cons, List.map_map]
  congr 1
  · simp
  · refine List.map_congr_left fun k _ => ?_
    have hnext : head + UInt32.ofNat (k + 1) = head + 1 + UInt32.ofNat k := by
      rw [UInt32.ofNat_add, UInt32.add_assoc, UInt32.add_comm (UInt32.ofNat k)]
      rfl
    show data (slot cap (head + UInt32.ofNat (k + 1))) = _
    rw [hnext]

end RingBuffer
