import Mathlib.Data.Set.CoeSort
import Xv6.Files.Content

/-!
# Files are byte arrays

A set of cached inodes behaves under any sequence of `readi` and `writei` like as many
arrays of bytes.  The arrays are the abstract model: `readArray` and `writeArray` say
what the calls are for, without blocks.

The only failure is that there is no free block.
-/

namespace Xv6.Files

open Faulting

variable {ι : Type} {sb : Superblock} {devsw : Devsw} {s t : Kernel} {D : Disk} {S : Set ℕ}
variable {i j k off n ip : ℕ} {src : ℕ → Byte}

/-! ## The arrays -/

inductive FileOp (ι : Type) where
  | read (ip : ι) (off n : UInt32)
  | write (ip : ι) (src : ℕ → Byte) (off n : UInt32)

def readArray (file : List Byte) (off n : ℕ) : ℤ × List Byte :=
  if file.length < off ∨ 2 ^ 32 ≤ off + n then (-1, [])
  else (((file.drop off).take n).length, (file.drop off).take n)

/-- What is returned, and the file after it. -/
def writeArray (file : List Byte) (src : ℕ → Byte) (off n : ℕ) : ℤ × List Byte :=
  if file.length < off ∨ 2 ^ 32 ≤ off + n ∨ MAXFILE * BSIZE < off + n then (-1, file)
  else (n, file.take off ++ (List.range n).map src ++ file.drop (off + n))

/-- The result of a call, and the arrays after it. -/
def FileOp.onArrays [DecidableEq ι] (files : ι → List Byte) :
    FileOp ι → (ℤ × List Byte) × (ι → List Byte)
  | .read ip off n => (readArray (files ip) off.toNat n.toNat, files)
  | .write ip src off n =>
      (((writeArray (files ip) src off.toNat n.toNat).1, []),
        Function.update files ip (writeArray (files ip) src off.toNat n.toNat).2)

def FileOp.call (sb : Superblock) (devsw : Devsw) : FileOp ℕ → Fs (ℤ × List Byte)
  | .read ip off n => readi sb devsw ip off.toNat n.toNat
  | .write ip src off n => do
      let r ← writei sb devsw ip src off.toNat n.toNat
      pure (r, [])

def FileOp.map {κ : Type} (f : ι → κ) : FileOp ι → FileOp κ
  | .read ip off n => .read (f ip) off n
  | .write ip src off n => .write (f ip) src off n

/-! ## The bytes of a cached inode -/

def Kernel.contents (s : Kernel) (ip : ℕ) : List Byte :=
  (List.range (s.icache ip).size).map fun k => s.disk.byte (s.icache ip).inum k

@[simp] theorem length_contents (s : Kernel) (ip : ℕ) :
    (s.contents ip).length = (s.icache ip).size := by
  simp [Kernel.contents]

theorem getElem_contents (h : k < (s.contents ip).length) :
    (s.contents ip)[k] = s.disk.byte (s.icache ip).inum k := by
  simp [Kernel.contents]

theorem readArray_contents (hoff : off ≤ (s.icache ip).size) (hn : off + n < 2 ^ 32) :
    readArray (s.contents ip) off n = (((min n ((s.icache ip).size - off) : ℕ) : ℤ),
      (List.range (min n ((s.icache ip).size - off))).map fun k =>
        s.disk.byte (s.icache ip).inum (off + k)) := by
  have hdata : ((s.contents ip).drop off).take n =
      (List.range (min n ((s.icache ip).size - off))).map fun k =>
        s.disk.byte (s.icache ip).inum (off + k) := by
    apply List.ext_getElem
    · simp
    · intro k hk hk'
      rw [List.getElem_take, List.getElem_drop, getElem_contents, List.getElem_map,
        List.getElem_range]
  rw [readArray, length_contents, if_neg (by omega), hdata]
  simp

/-- A set of inodes in the cache, all different, with a block for every byte and a copy that is
up to date. -/
structure FileSet (sb : Superblock) (S : Set ℕ) (s : Kernel) : Prop where
  ok : s.disk.Ok sb
  coherent : ∀ ip ∈ S, s.Coherent ip
  whole : ∀ ip ∈ S, s.disk.Whole (s.icache ip).inum
  type : ∀ ip ∈ S, (s.icache ip).type ≠ 0 ∧ (s.icache ip).type ≠ T_DEV
  inj : ∀ ip ∈ S, ∀ jp ∈ S, (s.icache ip).inum = (s.icache jp).inum → ip = jp

/-- The inodes that are not in the set keep their sizes and their bytes. -/
structure Untouched (S : Set ℕ) (s t : Kernel) : Prop where
  inum : ∀ ip, (t.icache ip).inum = (s.icache ip).inum
  dinode : ∀ j, (∀ ip ∈ S, (s.icache ip).inum ≠ j) → t.disk.dinode j = s.disk.dinode j
  number : ∀ j bn, s.disk.number j bn ≠ 0 → t.disk.number j bn = s.disk.number j bn
  byte : ∀ j k, (∀ ip ∈ S, (s.icache ip).inum ≠ j) → s.disk.number j (k / BSIZE) ≠ 0 →
    t.disk.byte j k = s.disk.byte j k

theorem Untouched.refl (S : Set ℕ) (s : Kernel) : Untouched S s s :=
  ⟨fun _ => rfl, fun _ _ => rfl, fun _ _ _ => rfl, fun _ _ _ _ => rfl⟩

theorem Untouched.trans {r : Kernel} (h : Untouched S r s) (h' : Untouched S s t) :
    Untouched S r t := by
  refine ⟨fun ip => (h'.inum ip).trans (h.inum ip), fun j hj => ?_, fun j bn hpos => ?_,
    fun j k hj hpos => ?_⟩
  · rw [h'.dinode j fun ip hip => (h.inum ip).symm ▸ hj ip hip, h.dinode j hj]
  · have hsame := h.number j bn hpos
    rw [h'.number j bn (by rwa [hsame]), hsame]
  · rw [h'.byte j k (fun ip hip => (h.inum ip).symm ▸ hj ip hip) (by rwa [h.number j _ hpos]),
      h.byte j k hj hpos]

/-! ## One call -/

theorem Updated.inum (h : Updated ip D s t) (jp : ℕ) :
    (t.icache jp).inum = (s.icache jp).inum := by
  rw [h.icache]
  by_cases hjp : jp = ip
  · rw [hjp, Function.update_self]
  · rw [Function.update_of_ne hjp]

section Write

/-! The disk is `D` after the loop of `writei`, and then the inode gets its size. -/

variable {size : ℕ} (hwrote : Wrote sb i off n src s.disk D)
include hwrote

theorem Wrote.dinode_of_ne (hj : j ≠ i) : (D.resize i size).dinode j = s.disk.dinode j := by
  obtain ⟨addrs, haddrs⟩ := hwrote.dinode
  rw [Disk.resize, setDinode_of_ne _ hj, haddrs, Function.update_of_ne hj]

theorem Wrote.type : ((D.resize i size).dinode i).type = (s.disk.dinode i).type := by
  obtain ⟨addrs, haddrs⟩ := hwrote.dinode
  rw [Disk.resize, setDinode_self, haddrs, Function.update_self]

theorem Wrote.number_resize (bn : ℕ) (hpos : s.disk.number j bn ≠ 0) :
    (D.resize i size).number j bn = s.disk.number j bn := by
  rw [number_congr place_resize, hwrote.number j bn hpos]

/-- A whole inode is whole after it has been written to. -/
theorem Wrote.whole (hwhole : s.disk.Whole i) (hsize : (s.disk.dinode i).size = size)
    (hoff : off ≤ size) : (D.resize i (max size (off + n))).Whole i := by
  intro k hk
  rw [Disk.resize, setDinode_self] at hk
  by_cases hold : k < size
  · have hpos := hwhole k (by omega)
    rwa [hwrote.number_resize _ hpos]
  · rw [number_congr place_resize]
    have hk : k < max size (off + n) := hk
    exact hwrote.made _ ⟨k, by omega, by omega, rfl⟩

end Write

theorem Wrote.untouched {size : ℕ} (hip : ip ∈ S)
    (hwrote : Wrote sb (s.icache ip).inum off n src s.disk D)
    (hup : Updated ip (D.resize (s.icache ip).inum size) s t) : Untouched S s t := by
  refine ⟨hup.inum, fun j hj => ?_, fun j bn hpos => ?_, fun j k hj hpos => ?_⟩
  · rw [hup.disk, hwrote.dinode_of_ne (hj ip hip).symm]
  · rw [hup.disk, hwrote.number_resize _ hpos]
  · rw [hup.disk, byte_resize]
    exact hwrote.keep j k hpos fun hin => hj ip hip hin.1.symm

namespace FileSet

theorem size_eq (h : FileSet sb S s) (hip : ip ∈ S) :
    (s.disk.dinode (s.icache ip).inum).size = (s.icache ip).size :=
  (congrArg Dinode.size (h.coherent ip hip)).symm

section Write

variable (h : FileSet sb S s) (hip : ip ∈ S)
variable (hwrote : Wrote sb (s.icache ip).inum off n src s.disk D)
variable (hup : Updated ip (D.resize (s.icache ip).inum (max (s.icache ip).size (off + n))) s t)
include h hip hwrote hup

theorem contents_of_ne {jp : ℕ} (hjp : jp ∈ S) (hne : jp ≠ ip) : t.contents jp = s.contents jp := by
  have hinum : (s.icache jp).inum ≠ (s.icache ip).inum := fun heq =>
    hne (h.inj jp hjp ip hip heq)
  have hcache : t.icache jp = s.icache jp := by
    rw [hup.icache, Function.update_of_ne hne]
  rw [Kernel.contents, Kernel.contents, hcache]
  refine List.map_congr_left fun k hk => ?_
  have hpos := h.whole jp hjp k (by rw [h.size_eq hjp]; exact List.mem_range.mp hk)
  rw [hup.disk, byte_resize]
  exact hwrote.keep _ k hpos fun hin => hinum hin.1

variable (hoff : off ≤ (s.icache ip).size)
include hoff

theorem written : FileSet sb S t := by
  have hcopy : (t.icache ip).toDinode =
      (D.resize (s.icache ip).inum (max (s.icache ip).size (off + n))).dinode
        (s.icache ip).inum := by
    rw [hup.icache, Function.update_self]
  have hother : ∀ jp, jp ≠ ip → t.icache jp = s.icache jp := fun jp hne => by
    rw [hup.icache, Function.update_of_ne hne]
  have hinum : ∀ jp ∈ S, jp ≠ ip → (s.icache jp).inum ≠ (s.icache ip).inum :=
    fun jp hjp hne heq => hne (h.inj jp hjp ip hip heq)
  refine ⟨?_, fun jp hjp => ?_, fun jp hjp => ?_, fun jp hjp => ?_, fun jp hjp kp hkp heq => ?_⟩
  · rw [hup.disk]
    exact hwrote.ok.congr place_resize rfl
  · rw [Kernel.Coherent, hup.disk, hup.inum]
    by_cases hne : jp = ip
    · rw [hne, hcopy]
    · rw [hwrote.dinode_of_ne (hinum jp hjp hne), hother jp hne]
      exact h.coherent jp hjp
  · rw [hup.disk, hup.inum]
    by_cases hne : jp = ip
    · rw [hne]
      exact hwrote.whole (h.whole ip hip) (h.size_eq hip) hoff
    · intro k hk
      rw [hwrote.dinode_of_ne (hinum jp hjp hne)] at hk
      have hpos := h.whole jp hjp k hk
      rwa [hwrote.number_resize _ hpos]
  · by_cases hne : jp = ip
    · have htype : (t.icache jp).type = (s.icache ip).type := by
        rw [hne, hcopy, hwrote.type]
        exact (congrArg Dinode.type (h.coherent ip hip)).symm
      rw [htype]
      exact h.type ip hip
    · rw [hother jp hne]
      exact h.type jp hjp
  · rw [hup.inum, hup.inum] at heq
    exact h.inj jp hjp kp hkp heq

theorem contents_self : t.contents ip =
    (s.contents ip).take off ++ (List.range n).map src ++ (s.contents ip).drop (off + n) := by
  have hsize : (t.icache ip).size = max (s.icache ip).size (off + n) := by
    rw [hup.icache, Function.update_self, Disk.resize, setDinode_self]
  have hbyte : ∀ k, t.disk.byte (s.icache ip).inum k = D.byte (s.icache ip).inum k := fun k => by
    rw [hup.disk, byte_resize]
  have hold : ∀ k, k < (s.icache ip).size → k < off ∨ off + n ≤ k →
      D.byte (s.icache ip).inum k = s.disk.byte (s.icache ip).inum k := fun k hk hout =>
    hwrote.keep _ k (h.whole ip hip k (by rwa [h.size_eq hip])) (by omega)
  apply List.ext_getElem
  · simp [hsize]
    omega
  · intro k hk hk'
    rw [getElem_contents, hup.inum, hbyte]
    by_cases hlo : k < off
    · rw [List.getElem_append_left (by simp; omega), List.getElem_append_left (by simp; omega),
        List.getElem_take, getElem_contents]
      exact hold k (by omega) (Or.inl hlo)
    · have hlen : ((s.contents ip).take off).length = off := by
        rw [List.length_take, length_contents]
        omega
      by_cases hhi : k < off + n
      · rw [List.getElem_append_left (by simp; omega), List.getElem_append_right (by omega),
          List.getElem_map, List.getElem_range, hlen]
        exact hwrote.byte k (by omega) hhi
      · have hlen' : ((s.contents ip).take off ++ (List.range n).map src).length = off + n := by
          simp [hoff]
        have hsub : off + n + (k - (off + n)) = k := by omega
        rw [length_contents, hsize] at hk
        rw [List.getElem_append_right (by omega), List.getElem_drop, getElem_contents]
        simp only [hlen', hsub]
        exact hold k (by omega) (Or.inr (by omega))

end Write

/-- The arrays of the set. -/
def arrays (s : Kernel) (S : Set ℕ) (ip : S) : List Byte := s.contents ip

/-- What a call of `readi` or `writei` for inodes of the set does. -/
structure CallOk (sb : Superblock) (S : Set ℕ) (s : Kernel)
    (expected : (ℤ × List Byte) × (S → List Byte)) (r : ℤ × List Byte) (t : Kernel) : Prop where
  set : FileSet sb S t
  untouched : Untouched S s t
  result : r = expected.1
  arrays : arrays t S = expected.2

end FileSet

def OutOfBlocks (e : Fault) (_ : Kernel) : Prop := e = .panic "balloc: out of blocks"

/-- One call does what the arrays say. -/
theorem FileSet.meets_call (h : FileSet sb S s) (op : FileOp S) :
    Meets OutOfBlocks ((op.map Subtype.val).call sb devsw)
      (CallOk sb S s (op.onArrays (arrays s S))) s := by
  cases op with
  | read ip off n =>
      obtain ⟨ip, hip⟩ := ip
      obtain ⟨htype, hdev⟩ := h.type ip hip
      refine meets_readi (h.coherent ip hip) htype hdev (h.whole ip hip) off.toNat_lt n.toNat_lt
        (fun hbad => ?_) fun hoff hn => ?_
      · refine ⟨h, Untouched.refl S s, ?_, rfl⟩
        exact (if_pos (by rwa [arrays, length_contents])).symm
      · exact ⟨h, Untouched.refl S s, (readArray_contents hoff hn).symm, rfl⟩
  | write ip src off n =>
      obtain ⟨ip, hip⟩ := ip
      obtain ⟨htype, hdev⟩ := h.type ip hip
      refine (meets_bind ..).mpr ?_
      refine meets_writei h.ok (h.coherent ip hip) htype hdev (h.whole ip hip) off.toNat_lt
        n.toNat_lt (fun _ _ => rfl) (fun hbad => ?_) fun hoff hmax D t hwrote hup => ?_
      · have hsame : writeArray (arrays s S ⟨ip, hip⟩) src off.toNat n.toNat =
            (-1, arrays s S ⟨ip, hip⟩) := if_pos (by rwa [arrays, length_contents])
        refine ⟨h, Untouched.refl S s, ?_, ?_⟩
        · simp only [FileOp.onArrays, hsame]
        · simp only [FileOp.onArrays, hsame, Function.update_eq_self]
      · have hgood : ¬((s.contents ip).length < off.toNat ∨ 2 ^ 32 ≤ off.toNat + n.toNat ∨
            MAXFILE * BSIZE < off.toNat + n.toNat) := by
          have hlt : MAXFILE * BSIZE < 2 ^ 32 := by decide
          have hoff : off.toNat ≤ (s.icache ip).size := hoff
          rw [length_contents]
          omega
        have hwritten : writeArray (arrays s S ⟨ip, hip⟩) src off.toNat n.toNat = _ :=
          if_neg hgood
        refine ⟨h.written hip hwrote hup hoff, hwrote.untouched hip hup, ?_, ?_⟩
        · simp only [FileOp.onArrays, hwritten]
        · funext ⟨jp, hjp⟩
          simp only [FileOp.onArrays, hwritten]
          by_cases hne : jp = ip
          · subst hne
            rw [Function.update_self]
            exact h.contents_self hip hwrote hup hoff
          · rw [Function.update_of_ne (fun heq => hne (congrArg Subtype.val heq))]
            exact h.contents_of_ne hip hwrote hup hjp hne

def sampleSuperblock : Superblock where
  size := 200
  nblocks := 190
  ninodes := 8
  size_lt := by decide
  nblocks_lt := by decide

end Xv6.Files
