import Mathlib.Algebra.Order.Ring.Nat
import Mathlib.Logic.Function.Iterate
import Xv6.Lib.Fuel

/-!
# The MP configuration table

`mpinit` finds the table that the firmware has left and goes through its entries.  The `break` at
an entry of unknown type leaves the `switch` but not the loop, so the loop does not go on from
there (`Unknown.scan`).

`mem a` is the byte at `P2V(a)`.  Pointers into the table do not wrap around.
-/

namespace Xv6.Mp

open Fuel

abbrev Byte := UInt8

abbrev Memory := ℕ → Byte

def NCPU : ℕ := 8

/-! ## The code -/

/-- `*(ushort*)p` -/
def ushort (mem : Memory) (p : ℕ) : ℕ := (mem p).toNat + (mem (p + 1)).toNat * 256

/-- `*(uint*)p` -/
def uint (mem : Memory) (p : ℕ) : ℕ := ushort mem p + ushort mem (p + 2) * 65536

def sum (mem : Memory) (addr len : ℕ) : Byte :=
  (List.range len).foldl (fun sum i => sum + mem (addr + i)) 0

/-- `memcmp(p, signature, 4) == 0` -/
def signed (mem : Memory) (p : ℕ) (signature : String) : Bool :=
  (List.range 4).map (fun i => mem (p + i)) = signature.toList.map Char.toUInt8

/-- `sizeof(struct mp)` -/
def mpSize : ℕ := 16

/-- `sizeof(struct mpconf)` -/
def mpconfSize : ℕ := 44

def mpsearch1 (mem : Memory) (a len : ℕ) : Option ℕ :=
  ((List.range ((len + mpSize - 1) / mpSize)).map fun i => a + mpSize * i).find? fun p =>
    signed mem p "_MP_" && sum mem p mpSize == 0

def mpsearch (mem : Memory) : Option ℕ :=
  let p := ushort mem 0x40E * 16
  let found :=
    if p ≠ 0 then mpsearch1 mem p 1024
    else mpsearch1 mem ((ushort mem 0x413 * 1024 + 2 ^ 32 - 1024) % 2 ^ 32) 1024
  found <|> mpsearch1 mem 0xF0000 0x10000

/-- `conf->length` -/
def length (mem : Memory) (conf : ℕ) : ℕ := ushort mem (conf + 4)

/-- The `struct mp` and the table. -/
def mpconfig (mem : Memory) : Option (ℕ × ℕ) :=
  match mpsearch mem with
  | none => none
  | some mp =>
      let conf := uint mem (mp + 4)
      if conf = 0 then none
      else if !signed mem conf "PCMP" then none
      else if mem (conf + 6) ≠ 1 ∧ mem (conf + 6) ≠ 4 then none
      else if sum mem conf (length mem conf) ≠ 0 then none
      else some (mp, conf)

/-- What the loop changes.  `cpus` has the values of `apicid` in the first `ncpu` elements. -/
structure Scan where
  p : ℕ
  ismp : Bool
  cpus : List Byte
  ioapicid : Byte

/-- The body of the loop. -/
def Scan.turn (mem : Memory) (s : Scan) : Scan :=
  if mem s.p = 0 then
    { s with
      cpus := if s.cpus.length < NCPU then s.cpus ++ [mem (s.p + 1)] else s.cpus
      p := s.p + 20 }
  else if mem s.p = 2 then { s with ioapicid := mem (s.p + 1), p := s.p + 8 }
  else if mem s.p = 1 ∨ mem s.p = 3 ∨ mem s.p = 4 then { s with p := s.p + 8 }
  else { s with ismp := false }

/-- The loop ends at `e`. -/
def scan (mem : Memory) (e : ℕ) : ℕ → Scan → Option Scan
  | 0, _ => none
  | fuel + 1, s => if s.p < e then scan mem e fuel (s.turn mem) else some s

/-- `lapic` is an address, and `outb` has the calls of `outb`. -/
inductive Outcome where
  | panic (message : String)
  | found (lapic : ℕ) (cpus : List Byte) (ioapicid : Byte) (outb : List (ℕ × Byte))

/-- `ismp` is 1 first, and no processor has been recorded. -/
def start (conf : ℕ) : Scan where
  p := conf + mpconfSize
  ismp := true
  cpus := []
  ioapicid := 0

/-- `inb` gives what is read from a port. -/
def mpinit (mem : Memory) (inb : ℕ → Byte) (fuel : ℕ) : Option Outcome :=
  match mpconfig mem with
  | none => some (.panic "Expect to run on an SMP")
  | some (mp, conf) =>
      (scan mem (conf + length mem conf) fuel (start conf)).map fun s =>
        if !s.ismp then .panic "Didn't find a suitable machine"
        else
          .found (uint mem (conf + 36)) s.cpus s.ioapicid
            (if mem (mp + 12) ≠ 0 then [(0x22, 0x70), (0x23, inb 0x23 ||| 1)] else [])

/-! ## The entries of a table -/

/-- The size of an entry, for the types that there are. -/
def entrySize (type : Byte) : Option ℕ :=
  if type = 0 then some 20
  else if type = 1 ∨ type = 2 ∨ type = 3 ∨ type = 4 then some 8
  else none

/-- Where the entries of the table are, as far as their types are known. -/
inductive Entry (mem : Memory) (conf : ℕ) : ℕ → Prop
  | first (h : conf + mpconfSize < conf + length mem conf) : Entry mem conf (conf + mpconfSize)
  | next {p size : ℕ} (hp : Entry mem conf p) (hsize : entrySize (mem p) = some size)
      (h : p + size < conf + length mem conf) : Entry mem conf (p + size)

/-- There is an entry of unknown type. -/
def Unknown (mem : Memory) (conf : ℕ) : Prop := ∃ p, Entry mem conf p ∧ entrySize (mem p) = none

variable {mem : Memory} {mp conf p size e : ℕ} {s : Scan} {inb : ℕ → Byte}

theorem entrySize_pos (h : entrySize (mem p) = some size) : 8 ≤ size := by
  rw [entrySize] at h
  split at h
  · cases h
    decide
  split at h
  · cases h
    decide
  · cases h

/-! ## One turn of the loop -/

/-- An entry of known type is passed. -/
theorem turn_known (h : entrySize (mem s.p) = some size) :
    (s.turn mem).p = s.p + size ∧ (s.turn mem).ismp = s.ismp := by
  rw [entrySize] at h
  rw [Scan.turn]
  by_cases hproc : mem s.p = 0
  · rw [if_pos hproc] at h ⊢
    cases h
    exact ⟨rfl, rfl⟩
  rw [if_neg hproc] at h ⊢
  by_cases hioapic : mem s.p = 2
  · rw [if_pos (Or.inr (Or.inl hioapic))] at h
    rw [if_pos hioapic]
    cases h
    exact ⟨rfl, rfl⟩
  rw [if_neg hioapic]
  by_cases hother : mem s.p = 1 ∨ mem s.p = 3 ∨ mem s.p = 4
  · rw [if_pos (by tauto)] at h
    rw [if_pos hother]
    cases h
    exact ⟨rfl, rfl⟩
  · rw [if_neg (by tauto)] at h
    cases h

/-- At an entry of unknown type the loop stays where it is. -/
theorem turn_unknown (h : entrySize (mem s.p) = none) : (s.turn mem).p = s.p := by
  rw [entrySize] at h
  split at h
  · cases h
  rename_i hproc
  split at h
  · cases h
  rename_i hother
  rw [Scan.turn, if_neg hproc, if_neg (by tauto), if_neg (by tauto)]

/-- There is never one processor too many. -/
theorem length_turn (h : s.cpus.length ≤ NCPU) : (s.turn mem).cpus.length ≤ NCPU := by
  rw [Scan.turn]
  split
  · dsimp only
    split
    · rw [List.length_append, List.length_singleton]
      omega
    · exact h
  split
  · exact h
  split
  · exact h
  · exact h

/-! ## The loop -/

theorem length_iterate (h : s.cpus.length ≤ NCPU) (k : ℕ) :
    ((Scan.turn mem)^[k] s).cpus.length ≤ NCPU := by
  induction k with
  | zero => exact h
  | succ k ih =>
      rw [Function.iterate_succ_apply']
      exact length_turn ih

/-- From an entry of unknown type on, the loop does not end. -/
theorem scan_unknown (hlt : s.p < e) (h : entrySize (mem s.p) = none) (fuel : ℕ) :
    scan mem e fuel s = none := by
  induction fuel generalizing s with
  | zero => rfl
  | succ fuel ih =>
      have hp := turn_unknown h
      rw [scan, if_pos hlt]
      exact ih (by rwa [hp]) (by rwa [hp])

/-- More fuel does not change where the loop ends. -/
theorem scan_add {fuel : ℕ} {r : Scan} (h : scan mem e fuel s = some r) (k : ℕ) :
    scan mem e (fuel + k) s = some r := by
  induction fuel generalizing s with
  | zero => cases h
  | succ fuel ih =>
      rw [Nat.succ_add, scan]
      rw [scan] at h
      split
      · rename_i hlt
        rw [if_pos hlt] at h
        exact ih h
      · rename_i hle
        rwa [if_neg hle] at h

/-- The loop comes to each entry. -/
theorem Entry.scan (h : Entry mem conf p) : ∃ (k : ℕ) (s : Scan), s.p = p ∧
    p < conf + length mem conf ∧ ∀ fuel,
      Mp.scan mem (conf + length mem conf) (fuel + k) (start conf) =
        Mp.scan mem (conf + length mem conf) fuel s := by
  induction h with
  | first h => exact ⟨0, start conf, rfl, h, fun _ => rfl⟩
  | @next p size hp hsize h ih =>
      obtain ⟨k, s, rfl, hlt, hscan⟩ := ih
      refine ⟨k + 1, s.turn mem, (turn_known hsize).1, h, fun fuel => ?_⟩
      rw [← Nat.add_assoc, Nat.add_right_comm, hscan, Mp.scan, if_pos hlt]

/-- The `break` leaves the `switch` only. -/
theorem Unknown.scan (h : Unknown mem conf) (fuel : ℕ) :
    Mp.scan mem (conf + length mem conf) fuel (start conf) = none := by
  obtain ⟨p, hp, htype⟩ := h
  obtain ⟨k, s, rfl, hlt, hscan⟩ := hp.scan
  cases hr : Mp.scan mem (conf + length mem conf) fuel (start conf) with
  | none => rfl
  | some r =>
      have hmore := scan_add hr k
      rw [hscan, scan_unknown hlt htype] at hmore
      cases hmore

/-- What the loop keeps when the type of each entry is known. -/
structure Known (mem : Memory) (conf : ℕ) (s : Scan) : Prop where
  ismp : s.ismp = true
  entry : s.p < conf + length mem conf → Entry mem conf s.p

theorem known_start : Known mem conf (start conf) where
  ismp := rfl
  entry h := .first h

theorem Known.turn (hall : ¬ Unknown mem conf) (hs : Known mem conf s)
    (hlt : s.p < conf + length mem conf) :
    Known mem conf (s.turn mem) ∧ s.p + 8 ≤ (s.turn mem).p := by
  have hentry := hs.entry hlt
  cases hsize : entrySize (mem s.p) with
  | none => exact absurd ⟨s.p, hentry, hsize⟩ hall
  | some size =>
      have hpos := entrySize_pos hsize
      obtain ⟨hp, hismp⟩ := turn_known hsize
      refine ⟨⟨hismp.trans hs.ismp, ?_⟩, by omega⟩
      rw [hp]
      exact hentry.next hsize

/-- Each turn comes nearer to the end of the table. -/
theorem Known.scan (hall : ¬ Unknown mem conf) {n : ℕ} (hs : Known mem conf s)
    (hn : conf + length mem conf - s.p ≤ n) :
    ∃ r : Scan, r.ismp = true ∧ ∀ fuel, n + 1 ≤ fuel →
      Mp.scan mem (conf + length mem conf) fuel s = some r := by
  induction n generalizing s with
  | zero =>
      refine ⟨s, hs.ismp, fun fuel hfuel => ?_⟩
      obtain ⟨fuel, rfl⟩ := Nat.exists_eq_add_of_le' hfuel
      rw [Mp.scan, if_neg (by omega)]
  | succ n ih =>
      by_cases hlt : s.p < conf + length mem conf
      · obtain ⟨hturn, hfar⟩ := hs.turn hall hlt
        obtain ⟨r, hr, hscan⟩ := ih hturn (by omega)
        refine ⟨r, hr, fun fuel hfuel => ?_⟩
        obtain ⟨fuel, rfl⟩ := Nat.exists_eq_add_of_le' (Nat.one_le_of_lt hfuel)
        rw [Mp.scan, if_pos hlt]
        exact hscan fuel (by omega)
      · refine ⟨s, hs.ismp, fun fuel hfuel => ?_⟩
        obtain ⟨fuel, rfl⟩ := Nat.exists_eq_add_of_le' (Nat.one_le_of_lt hfuel)
        rw [Mp.scan, if_neg hlt]

/-! ## The call -/

/-- With an entry of unknown type, `mpinit` does not come to its end. -/
theorem Unknown.mpinit (hconf : mpconfig mem = some (mp, conf)) (h : Unknown mem conf) (fuel : ℕ) :
    mpinit mem inb fuel = none := by
  rw [Mp.mpinit, hconf]
  dsimp only
  rw [h.scan]
  rfl

/-- Otherwise the machine is found. -/
theorem returns_mpinit (hconf : mpconfig mem = some (mp, conf)) (hall : ¬ Unknown mem conf) :
    ∃ r : Scan, Returns (mpinit mem inb)
      (.found (uint mem (conf + 36)) r.cpus r.ioapicid
        (if mem (mp + 12) ≠ 0 then [(0x22, 0x70), (0x23, inb 0x23 ||| 1)] else [])) := by
  obtain ⟨r, hr, hscan⟩ :=
    known_start.scan hall (le_refl (conf + length mem conf - (start conf).p))
  refine ⟨r, conf + length mem conf - (start conf).p + 1, fun fuel hfuel => ?_⟩
  rw [mpinit, hconf]
  dsimp only
  rw [hscan fuel hfuel, Option.map_some, hr]
  rfl

/-- The loop ends, with the processors recorded that there is room for and a panic at an entry of
unknown type, if and only if there is no such entry. -/
theorem mpinit_scans (hconf : mpconfig mem = some (mp, conf)) :
    ((∃ r, Returns (mpinit mem inb) r ∧
          (Unknown mem conf → r = .panic "Didn't find a suitable machine")) ∧
        ∀ k, ((Scan.turn mem)^[k] (start conf)).cpus.length ≤ NCPU) ↔
      ¬ Unknown mem conf := by
  constructor
  · rintro ⟨⟨r, ⟨n, hr⟩, -⟩, -⟩ hunknown
    have hsome := hr n le_rfl
    rw [hunknown.mpinit hconf] at hsome
    cases hsome
  · intro hall
    obtain ⟨r, hr⟩ : ∃ r : Scan, Returns (mpinit mem inb) _ := returns_mpinit hconf hall
    exact ⟨⟨_, hr, fun hunknown => absurd hunknown hall⟩, length_iterate (Nat.zero_le NCPU)⟩

/-! ## A table with one entry -/

/-- A memory with a table at 0x20000 that has one entry, of the given type. -/
def table (type : Byte) : Memory := fun a =>
  let bytes : List (ℕ × Byte) :=
    [(0x40F, 0x10), (0x10000, 95), (0x10001, 77), (0x10002, 80), (0x10003, 95), (0x10006, 2),
      (0x10008, 1), (0x1000A, 162), (0x20000, 80), (0x20001, 67), (0x20002, 77), (0x20003, 80),
      (0x20004, 52), (0x20006, 1), (0x20007, 155 - type), (0x2002C, type)]
  (bytes.lookup a).getD 0

theorem table_sample :
    ((∃ r, Returns (mpinit (table 1) fun _ => 0) r ∧
          (Unknown (table 1) 0x20000 → r = .panic "Didn't find a suitable machine")) ∧
        ∀ k, ((Scan.turn (table 1))^[k] (start 0x20000)).cpus.length ≤ NCPU) ↔
      ¬ Unknown (table 1) 0x20000 := by
  have hconf : mpconfig (table 1) = some (0x10000, 0x20000) := by decide +kernel
  exact mpinit_scans hconf

/-- At an entry of type 5 there is no panic. -/
theorem unknown_type_no_panic :
    mpconfig (table 5) = some (0x10000, 0x20000) ∧ Unknown (table 5) 0x20000 ∧
      ∀ inb, ¬ ∃ r, Returns (mpinit (table 5) inb) r := by
  have hconf : mpconfig (table 5) = some (0x10000, 0x20000) := by decide +kernel
  have hunknown : Unknown (table 5) 0x20000 :=
    ⟨0x2002C, .first (by decide +kernel), by decide +kernel⟩
  refine ⟨hconf, hunknown, fun inb => ?_⟩
  rintro ⟨r, n, hr⟩
  have hsome := hr n le_rfl
  rw [hunknown.mpinit hconf] at hsome
  cases hsome

end Xv6.Mp
