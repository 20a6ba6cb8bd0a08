import Mathlib.Algebra.BigOperators.Intervals
import Mathlib.Algebra.Order.BigOperators.Group.Finset
import Mathlib.Data.List.GetD
import Xv6.Mkfs.Append

/-!
# What the inodes hold

`Laid content s`: each inode that `ialloc` returned so far holds the bytes `content` of it,
in as many blocks as it needs, and the blocks below `freeblock` are those that the inodes
need, after the metadata blocks.  `ialloc` adds an inode without bytes, and `iappend` adds
bytes to one inode.  Both succeed as long as there is room for the result.
-/

namespace Xv6.Mkfs

open Files Faulting

variable {s t : State} {E : Fault → State → Prop} {din : Dinode} {D D' : Disk}
variable {i j k n m : ℕ} {p l : List Byte} {content content' : ℕ → List Byte}

/-! ## Blocks in use -/

/-- The blocks that the inodes below `n` need. -/
def used (content : ℕ → List Byte) (n : ℕ) : ℕ :=
  ∑ i ∈ Finset.Ico 1 n, need (content i).length

theorem used_nil (n : ℕ) : used (fun _ => []) n = 0 :=
  Finset.sum_eq_zero fun _ _ => show need 0 = 0 by decide

theorem used_succ (hn : 0 < n) :
    used content (n + 1) = used content n + need (content n).length :=
  Finset.sum_Ico_succ_top hn _

theorem used_mono (hlen : ∀ i, (content i).length ≤ (content' i).length) (hn : n ≤ m) :
    used content n ≤ used content' m := by
  calc used content n
      ≤ ∑ i ∈ Finset.Ico 1 n, need (content' i).length :=
        Finset.sum_le_sum fun i _ => need_mono (hlen i)
    _ ≤ used content' m :=
        Finset.sum_le_sum_of_subset (Finset.Ico_subset_Ico_right hn)

variable (content) in
theorem used_update (hi : 0 < i ∧ i < n) (l : List Byte) :
    used (Function.update content i l) n + need (content i).length =
      used content n + need l.length := by
  have hmem : i ∈ Finset.Ico 1 n := Finset.mem_Ico.mpr hi
  have hsame : ∑ j ∈ (Finset.Ico 1 n).erase i, need (Function.update content i l j).length =
      ∑ j ∈ (Finset.Ico 1 n).erase i, need (content j).length :=
    Finset.sum_congr rfl fun j hj => by rw [Function.update_of_ne (Finset.ne_of_mem_erase hj)]
  rw [used, used, ← Finset.add_sum_erase _ _ hmem, ← Finset.add_sum_erase (Finset.Ico 1 n) _ hmem,
    hsame, Function.update_self]
  omega

/-- There is room for these bytes, in each inode and in the image. -/
structure Room (content : ℕ → List Byte) (n : ℕ) : Prop where
  inode : ∀ i, 0 < i → i < n → (content i).length ≤ MAXFILE * BSIZE
  image : nmeta + used content n ≤ FSSIZE

theorem Room.mono (h : Room content' m) (hlen : ∀ i, (content i).length ≤ (content' i).length)
    (hn : n ≤ m) : Room content n where
  inode i hpos hi := (hlen i).trans (h.inode i hpos (hi.trans_le hn))
  image := by
    have := used_mono hlen hn
    have := h.image
    omega

/-! ## The bytes of the inodes -/

/-- Inode `i` holds these bytes. -/
structure Holds (D : Disk) (i : ℕ) (l : List Byte) : Prop where
  type : (D.dinode i).type ≠ 0 ∧ (D.dinode i).type ≠ T_DEV
  size : (D.dinode i).size = l.length
  tight : Tight D i l.length
  byte : ∀ k < l.length, D.byte i k = l.getD k 0

structure Laid (content : ℕ → List Byte) (s : State) : Prop where
  ready : Ready s
  first : 0 < s.freeinode
  ok : s.disk.Ok sb
  holds : ∀ i, 0 < i → i < s.freeinode → Holds s.disk i (content i)
  blocks : s.freeblock = nmeta + used content s.freeinode
  rest : ∀ i, s.freeinode ≤ i → content i = []

theorem Holds.number_ne (h : Holds D i l) (hk : k < l.length) : D.number i (k / BSIZE) ≠ 0 :=
  (h.tight.data _).mpr ((Nat.div_mul_le_self k BSIZE).trans_lt hk)

theorem Holds.congr (h : Holds D i l) (hdinode : D'.dinode i = D.dinode i)
    (hnumber : ∀ bn, D'.number i bn = D.number i bn)
    (hbyte : ∀ k < l.length, D'.byte i k = D.byte i k) : Holds D' i l where
  type := by rw [hdinode]; exact h.type
  size := by rw [hdinode]; exact h.size
  tight := ⟨fun bn => by rw [hnumber]; exact h.tight.data bn, by rw [hdinode]; exact h.tight.table⟩
  byte k hk := (hbyte k hk).trans (h.byte k hk)

/-- Bytes have been appended, and the inode gets its size. -/
theorem Holds.append (h : Holds D i l)
    (hwrote : Wrote sb i l.length p.length (fun k => p.getD k 0) D D')
    (htight : Tight D' i (l.length + p.length)) :
    Holds (D'.resize i (l.length + p.length)) i (l ++ p) := by
  obtain ⟨addrs, haddrs⟩ := hwrote.dinode
  have hdinode : (D'.resize i (l.length + p.length)).dinode i =
      { D.dinode i with addrs := addrs, size := l.length + p.length } := by
    rw [Disk.resize, setDinode_self, haddrs, Function.update_self]
  have hsame : (D'.dinode i).addrs = addrs := by
    rw [haddrs, Function.update_self]
  have htable := htight.table
  rw [hsame] at htable
  refine ⟨?_, ?_, ⟨fun bn => ?_, ?_⟩, fun k hk => ?_⟩
  · rw [hdinode]
    exact h.type
  · rw [hdinode, List.length_append]
  · rw [number_congr place_resize, List.length_append]
    exact htight.data bn
  · rw [hdinode, List.length_append]
    exact htable
  · rw [byte_resize]
    rw [List.length_append] at hk
    by_cases hlt : k < l.length
    · rw [hwrote.keep i k (h.number_ne hlt) (by omega), h.byte k hlt, List.getD_append _ _ _ _ hlt]
    · rw [hwrote.byte k (by omega) (by omega), List.getD_append_right _ _ _ _ (by omega)]

/-- Bytes have been appended to another inode. -/
theorem Holds.other {off size : ℕ} {src : ℕ → Byte} (h : Holds D j l) (hne : j ≠ i)
    (hwrote : Wrote sb i off m src D D') : Holds (D'.resize i size) j l := by
  obtain ⟨addrs, haddrs⟩ := hwrote.dinode
  refine h.congr ?_ (fun bn => ?_) fun k hk => ?_
  · rw [Disk.resize, setDinode_of_ne _ hne, haddrs, Function.update_of_ne hne]
  · rw [number_congr place_resize, hwrote.other j bn fun hand => hne hand.1]
  · rw [byte_resize]
    exact hwrote.keep j k (h.number_ne hk) fun hand => hne hand.1

/-! ## `ialloc` -/

/-- A new inode has no blocks. -/
theorem place_setDinode_zero (htype : (D.dinode i).type = 0) (haddrs : ∀ k, din.addrs k = 0) :
    (D.setDinode i din).place = D.place := by
  funext ⟨j, slot⟩
  by_cases hj : j = i
  · subst hj
    rw [place_of_free htype]
    by_cases htype' : ((D.setDinode j din).dinode j).type = 0
    · exact place_of_free htype'
    · rw [place_of_type htype', setDinode_self]
      cases slot with
      | table => exact haddrs _
      | data bn => simp [Dinode.slot, Dinode.addr, haddrs]
  · exact place_congr (setDinode_of_ne _ hj) fun _ _ => rfl

theorem number_zero {i bn : ℕ} (htype : (D.dinode i).type ≠ 0)
    (haddrs : ∀ k, (D.dinode i).addrs k = 0) : D.number i bn = 0 := by
  unfold Disk.number
  split
  · rw [place_data htype]
    simp [Dinode.addr, haddrs]
  · rfl

theorem fits_zero (type : Int16) : Fits { zeroDinode with type := type, nlink := 1, size := 0 } :=
  ⟨show 0 < 2 ^ 32 by decide, fun _ => show 0 < 2 ^ 32 by decide, fun _ _ => rfl⟩

theorem Laid.meets_ialloc {type : Int16} {Q : ℕ → State → Prop} (h : Laid content s)
    (hslots : s.freeinode < slots) (htype : type ≠ 0 ∧ type ≠ T_DEV)
    (hQ : ∀ t, Laid content t → t.freeinode = s.freeinode + 1 → Q s.freeinode t) :
    Meets E (ialloc type) Q s := by
  have hfirst := h.first
  let s₁ : State := { s with freeinode := s.freeinode + 1 }
  have hready : Ready s₁ := ⟨h.ready.sectors, hslots, h.ready.nmeta_le, h.ready.le_FSSIZE,
    h.ready.zero, h.ready.separate⟩
  have hdisk₁ : ∀ din, s₁.disk.setDinode s.freeinode din = s.disk.setDinode s.freeinode din := by
    intro din
    have hdinode : (s₁.disk.setDinode s.freeinode din).dinode =
        (s.disk.setDinode s.freeinode din).dinode := by
      funext j
      by_cases hj : j = s.freeinode
      · rw [hj, setDinode_self, setDinode_self]
      · rw [setDinode_of_ne _ hj, setDinode_of_ne _ hj]
        refine if_congr ?_ rfl rfl
        show 0 < j ∧ j < s.freeinode + 1 ↔ 0 < j ∧ j < s.freeinode
        omega
    exact congrArg (Disk.mk _ · _) hdinode
  rw [ialloc, meets_bind]
  show Meets E (winode s.freeinode _ >>= fun _ => pure s.freeinode) Q s₁
  rw [meets_bind]
  generalize hdin : ({ zeroDinode with type := type, nlink := 1, size := 0 } : Dinode) = din
  have hzero : ∀ k, din.addrs k = 0 := fun k => by rw [← hdin]; rfl
  have hfits : Fits din := hdin ▸ fits_zero type
  refine meets_winode hready ⟨hfirst, Nat.lt_succ_self _⟩ hfits fun t ht hdisk hfree hblocks => ?_
  rw [hdisk₁] at hdisk
  have hfree : t.freeinode = s.freeinode + 1 := hfree
  have hnone : (s.disk.dinode s.freeinode).type = 0 := by
    have hnot : ¬(0 < s.freeinode ∧ s.freeinode < s.freeinode) := by omega
    exact (congrArg Dinode.type (if_neg hnot)).trans rfl
  have hplace : t.disk.place = s.disk.place := by
    rw [hdisk]
    exact place_setDinode_zero hnone hzero
  have hnew : t.disk.dinode s.freeinode = din := by rw [hdisk, setDinode_self]
  have hdintype : din.type = type := by rw [← hdin]
  refine hQ t ⟨ht, by omega, ?_, fun i hpos hi => ?_, ?_, fun i hi => h.rest i (by omega)⟩ hfree
  · refine h.ok.congr hplace ?_
    rw [hdisk]
    rfl
  · by_cases heq : i = s.freeinode
    · subst heq
      have hempty := h.rest _ le_rfl
      refine ⟨by rw [hnew, hdintype]; exact htype, ?_, ⟨fun bn => ?_, ?_⟩, fun k hk => ?_⟩
      · rw [hnew, hempty, ← hdin]
        rfl
      · rw [hempty, number_zero (by rw [hnew, hdintype]; exact htype.1) (by rw [hnew]; exact hzero)]
        simp
      · rw [hnew, hzero, hempty]
        simp
      · rw [hempty] at hk
        exact absurd hk (Nat.not_lt_zero k)
    · refine (h.holds i hpos (by omega)).congr ?_ (number_congr hplace i) fun k _ => ?_
      · rw [hdisk, setDinode_of_ne _ heq]
      · rw [Disk.byte, number_congr hplace, hdisk]
        rfl
  · have hempty := h.rest _ le_rfl
    rw [hblocks, hfree, used_succ hfirst, hempty]
    exact h.blocks

/-! ## `iappend` -/

/-- The inode that is written back fits into its slot. -/
theorem Appended.fits {off : ℕ} (h : Appended i off p s din t din') (hfits : Fits din)
    (htype : din.type ≠ 0) : Fits { din' with size := off + p.length } := by
  have hself : (t.disk.setDinode i din').dinode i = din' := setDinode_self _
  have hold : (s.disk.setDinode i din).dinode i = din := setDinode_self _
  obtain ⟨addrs, haddrs⟩ := h.wrote.dinode
  have htype' : ((t.disk.setDinode i din').dinode i).type ≠ 0 := by
    rw [haddrs, Function.update_self, hold]
    exact htype
  have hmax : MAXFILE * BSIZE < 2 ^ 32 := by decide
  have hFSSIZE : sb.size < 2 ^ 32 := sb.size_lt
  refine ⟨h.tight.size_le.trans_lt hmax, fun k => ?_, fun k hk => ?_⟩
  · show din'.addrs k < 2 ^ 32
    by_cases hzero : din'.addrs k = 0
    · rw [hzero]
      decide
    · -- it is in a place
      have hplace : ∃ slot, (t.disk.setDinode i din').place (i, slot) = din'.addrs k := by
        rcases lt_trichotomy k NDIRECT with hlt | heq | hgt
        · refine ⟨.data ⟨k, hlt.trans (by decide)⟩, ?_⟩
          rw [place_data htype', addr_direct hlt, hself]
        · refine ⟨.table, ?_⟩
          rw [place_table htype', hself, heq]
        · exact absurd ((h.rest k hgt).trans (hfits.rest k hgt)) hzero
      obtain ⟨slot, hslot⟩ := hplace
      have hrange := h.wrote.ok.marked.range (i, slot) (by rw [hslot]; exact hzero)
      rw [hslot] at hrange
      exact hrange.2.trans hFSSIZE
  · exact (h.rest k hk).trans (hfits.rest k hk)

theorem disk_fits (h : 0 < i ∧ i < s.freeinode) : Fits (s.disk.dinode i) := by
  have hdinode : s.disk.dinode i = dinodeAt s.image i := if_pos h
  rw [hdinode]
  exact getDinode_fits ..

theorem Laid.meets_iappend {Q : PUnit → State → Prop} (h : Laid content s)
    (hi : 0 < i ∧ i < s.freeinode)
    (hout : ¬Room (Function.update content i (content i ++ p)) s.freeinode → ∀ e t, E e t)
    (hQ : ∀ t, Laid (Function.update content i (content i ++ p)) t →
      t.freeinode = s.freeinode → Q ⟨⟩ t) :
    Meets E (iappend i p) Q s := by
  have hholds := h.holds i hi.1 hi.2
  have hsame : s.disk.setDinode i (s.disk.dinode i) = s.disk := setDinode_same
  have hblocks := h.blocks
  have hused := used_update content hi (content i ++ p)
  rw [List.length_append] at hused
  rw [iappend, meets_bind]
  refine meets_rinode h.ready hi ?_
  rw [meets_bind, hholds.size]
  refine meets_appendFrom (i := i) h.ready (by rw [hsame]; exact h.ok) hholds.type.1
    (by rw [hsame]; exact hholds.tight) (fun hbad => hout fun hroom => ?_) fun t din' happ => ?_
  · have hinode := hroom.inode i hi.1 hi.2
    have himage := hroom.image
    rw [Function.update_self, List.length_append] at hinode
    omega
  have hwrote := happ.wrote
  rw [hsame] at hwrote
  refine meets_winode happ.ready (by rw [happ.freeinode]; exact hi)
    (happ.fits (disk_fits hi) hholds.type.1) fun t' ht' hdisk hfree hblocks' => ?_
  have hdisk' : t'.disk =
      (t.disk.setDinode i din').resize i ((content i).length + p.length) := by
    rw [hdisk, Disk.resize, setDinode_setDinode, setDinode_self]
  have hfreeinode : t'.freeinode = s.freeinode := hfree.trans happ.freeinode
  refine hQ t' ⟨ht', by rw [hfreeinode]; exact h.first, ?_, fun j hpos hj => ?_, ?_, fun j hj => ?_⟩
    hfreeinode
  · rw [hdisk']
    exact hwrote.ok.congr place_resize rfl
  · rw [hdisk']
    by_cases hne : j = i
    · subst hne
      rw [Function.update_self]
      exact hholds.append hwrote happ.tight
    · rw [Function.update_of_ne hne]
      exact (h.holds j hpos (by omega)).other hne hwrote
  · have := happ.blocks
    rw [hfreeinode]
    omega
  · rw [Function.update_of_ne (by omega)]
    exact h.rest j (by omega)

/-! ## Calls -/

inductive Call where
  | ialloc (type : Int16)
  | iappend (inum : ℕ) (p : List Byte)

namespace Call

def run : Call → Program PUnit
  | ialloc type => do
      let _ ← Mkfs.ialloc type
      pure ⟨⟩
  | iappend inum p => Mkfs.iappend inum p

/-- What the call appends to inode `i`. -/
def bytes (i : ℕ) : Call → List Byte
  | ialloc _ => []
  | iappend inum p => if inum = i then p else []

def inodes : Call → ℕ
  | ialloc _ => 1
  | iappend _ _ => 0

end Call

def inodes (calls : List Call) : ℕ := (calls.map Call.inodes).sum

/-- What the calls append to inode `i`, one after another. -/
def appended (calls : List Call) (i : ℕ) : List Byte := (calls.map (Call.bytes i)).flatten

/-- The calls append only to inodes that were allocated before, when the next one is `n`. -/
def Named : ℕ → List Call → Prop
  | _, [] => True
  | n, .ialloc type :: calls => (type ≠ 0 ∧ type ≠ T_DEV) ∧ Named (n + 1) calls
  | n, .iappend inum _ :: calls => (0 < inum ∧ inum < n) ∧ Named n calls

theorem appended_cons (call : Call) (calls : List Call) (i : ℕ) :
    appended (call :: calls) i = call.bytes i ++ appended calls i := by
  rw [appended, List.map_cons, List.flatten_cons, appended]

theorem inodes_cons (call : Call) (calls : List Call) :
    inodes (call :: calls) = call.inodes + inodes calls := by
  rw [inodes, List.map_cons, List.sum_cons, inodes]

theorem appended_append (calls calls' : List Call) (i : ℕ) :
    appended (calls ++ calls') i = appended calls i ++ appended calls' i := by
  rw [appended, List.map_append, List.flatten_append, appended, appended]

theorem inodes_append (calls calls' : List Call) :
    inodes (calls ++ calls') = inodes calls + inodes calls' := by
  rw [inodes, List.map_append, List.sum_append, inodes, inodes]

theorem named_append {calls calls' : List Call} (h : Named n calls)
    (h' : Named (n + inodes calls) calls') : Named n (calls ++ calls') := by
  induction calls generalizing n with
  | nil => exact h'
  | cons call calls ih =>
      rw [inodes_cons, ← Nat.add_assoc] at h'
      cases call with
      | ialloc type => exact ⟨h.1, ih h.2 h'⟩
      | iappend inum p => exact ⟨h.1, ih h.2 h'⟩

theorem Laid.meets_calls (calls : List Call) (h : Laid content s)
    (hnamed : Named s.freeinode calls)
    (hslots : s.freeinode + inodes calls ≤ slots)
    (hout : ¬Room (fun i => content i ++ appended calls i) (s.freeinode + inodes calls) →
      ∀ e t, E e t) :
    Meets E (calls.forM Call.run)
      (fun _ t => Laid (fun i => content i ++ appended calls i) t ∧
        t.freeinode = s.freeinode + inodes calls) s := by
  induction calls generalizing s content with
  | nil =>
      have hnil : (fun i => content i ++ appended [] i) = content := by
        funext i
        exact List.append_nil _
      rw [hnil]
      exact ⟨h, rfl⟩
  | cons call calls ih =>
      simp only [inodes_cons, appended_cons, ← List.append_assoc] at hslots hout ⊢
      show Meets E (call.run >>= fun _ => calls.forM Call.run) _ s
      rw [meets_bind]
      cases call with
      | ialloc type =>
          simp only [Call.bytes, Call.inodes, List.append_nil, ← Nat.add_assoc] at hslots hout ⊢
          rw [Call.run, meets_bind]
          refine h.meets_ialloc (by omega) hnamed.1 fun t ht hfree => ?_
          rw [meets_pure, ← hfree]
          rw [← hfree] at hslots hout
          exact ih ht (by rw [hfree]; exact hnamed.2) hslots hout
      | iappend inum p =>
          have hupdate : (fun i => content i ++ Call.bytes i (.iappend inum p)) =
              Function.update content inum (content inum ++ p) := by
            funext i
            by_cases hi : i = inum
            · rw [hi, Function.update_self, Call.bytes, if_pos rfl]
            · rw [Function.update_of_ne hi, Call.bytes, if_neg (Ne.symm hi), List.append_nil]
          have hsplit : (fun i => content i ++ Call.bytes i (.iappend inum p) ++ appended calls i) =
              fun i => Function.update content inum (content inum ++ p) i ++ appended calls i := by
            funext i
            rw [← hupdate]
          simp only [Call.inodes, Nat.zero_add, hsplit] at hslots hout ⊢
          refine h.meets_iappend hnamed.1 (fun hroom => hout fun hall => ?_) fun t ht hfree => ?_
          · exact hroom (hall.mono (fun i => by rw [List.length_append]; omega) (by omega))
          · rw [← hfree] at hslots hout ⊢
            exact ih ht (by rw [hfree]; exact hnamed.2) hslots hout

end Xv6.Mkfs
