import Xv6.Files.SharedFile

/-!
# Shared offsets

The lock of the inode is held from the point where the offset is read to the point where
it has been advanced.  So the pieces that calls read and write follow each other in the
file in the order in which the lock has been taken (`SharedInv.consecutive`), whoever
takes it, and none of them overwrites another one.  What a call has read or written is
the sequence of its pieces (`Progress`).
-/

namespace Xv6.Files

open Faulting Transition

variable {P : Type} {sb : Superblock} {devsw : Devsw} {io : Io} {file : File}
variable {off off₀ ip i : ℕ} {r : ℤ} {data bytes : List Byte} {k k' : Kernel}

/-! ## One access to the file -/

/-- What `readi` and `writei` do at offset `off` of the file: `bytes` are those that have been
moved, and what is before them stays. -/
structure Accessed (sb : Superblock) (ip off : ℕ) (io : Io) (i : ℕ) (r : ℤ) (bytes : List Byte)
    (k k' : Kernel) : Prop where
  set : FileSet sb {ip} k'
  count : r = bytes.length ∨ r = -1 ∧ bytes = []
  fits : bytes ≠ [] → off + bytes.length < 2 ^ 32
  moved : ∀ j, j < bytes.length → (k'.contents ip)[off + j]? = bytes[j]?
  before : ∀ j, j < off → (k'.contents ip)[j]? = (k.contents ip)[j]?
  chunk : ∀ src n, io = .write src n → r = -1 ∨ r = chunk n i

theorem readArray_accessed {n : ℕ} (hset : FileSet sb {ip} k)
    (hread : (r, data) = readArray (k.contents ip) off n) (m : Int32) :
    Accessed sb ip off (.read m) i r data k k := by
  unfold readArray at hread
  split at hread
  · obtain ⟨rfl, rfl⟩ := Prod.mk.inj hread
    exact ⟨hset, Or.inr ⟨rfl, rfl⟩, fun hne => absurd rfl hne, fun j hj => absurd hj (by simp),
      fun _ _ => rfl, fun _ _ => nofun⟩
  · rename_i hgood
    obtain ⟨rfl, rfl⟩ := Prod.mk.inj hread
    have hlength : (((k.contents ip).drop off).take n).length ≤ n := by simp
    refine ⟨hset, Or.inl rfl, fun _ => by omega, fun j hj => ?_, fun _ _ => rfl, fun _ _ => nofun⟩
    rw [List.getElem?_take_of_lt (lt_of_lt_of_le hj hlength), List.getElem?_drop]

theorem writeArray_accessed {src : ℕ → Byte} {n : Int32} (hset : FileSet sb {ip} k')
    (hwrite : (r, k'.contents ip) =
      writeArray (k.contents ip) (fun j => src (i + j)) off (chunk n i)) :
    Accessed sb ip off (.write src n) i r (Pieces.moved (.write src n) i r data) k k' := by
  unfold writeArray at hwrite
  split at hwrite
  · obtain ⟨rfl, hsame⟩ := Prod.mk.inj hwrite
    rw [show Pieces.moved (.write src n) i (-1) data = [] from rfl]
    refine ⟨hset, Or.inr ⟨rfl, rfl⟩, fun hne => absurd rfl hne, fun j hj => absurd hj (by simp),
      fun j _ => by rw [hsame], ?_⟩
    rintro _ _ ⟨rfl, rfl⟩
    exact Or.inl rfl
  · rename_i hgood
    obtain ⟨rfl, hcontents⟩ := Prod.mk.inj hwrite
    rw [show Pieces.moved (.write src n) i (chunk n i) data =
      (List.range (chunk n i)).map fun j => src (i + j) from rfl]
    generalize hbytes : ((List.range (chunk n i)).map fun j => src (i + j)) = bytes
    have hlength : bytes.length = chunk n i := by rw [← hbytes]; simp
    rw [hbytes, List.append_assoc] at hcontents
    have htake : ((k.contents ip).take off).length = off := by
      rw [List.length_take]
      omega
    refine ⟨hset, Or.inl (by rw [hlength]), fun _ => by omega, fun j hj => ?_, fun j hj => ?_, ?_⟩
    · rw [hcontents, List.getElem?_append_right (by omega), htake, Nat.add_sub_cancel_left,
        List.getElem?_append_left hj]
    · rw [hcontents, List.getElem?_append_left (by omega), List.getElem?_take_of_lt hj]
    · rintro _ _ ⟨rfl, rfl⟩
      exact Or.inr rfl

/-- `readi` and `writei` treat the file as an array of bytes. -/
theorem accessed_of_run (hset : FileSet sb {file.ip} k) (hoff : file.off < 2 ^ 32)
    (hrun : (Sharing.access sb devsw file io i).run k = (.ok (r, data), k')) :
    Accessed sb file.ip file.off io i r (Pieces.moved io i r data) k k' := by
  have hoff' : (UInt32.ofNat file.off).toNat = file.off := by
    rw [UInt32.toNat_ofNat']
    exact Nat.mod_eq_of_lt hoff
  let ip : ({file.ip} : Set ℕ) := ⟨file.ip, rfl⟩
  cases io with
  | read n =>
      let op := FileOp.read ip (UInt32.ofNat file.off) n.toUInt32
      have hrun' : ((op.map Subtype.val).call sb devsw).run k = (.ok (r, data), k') := by
        rw [← hrun]
        simp only [op, ip, FileOp.map, FileOp.call, Sharing.access, hoff']
      have hmeets : Meets OutOfBlocks ((op.map Subtype.val).call sb devsw)
          (FileSet.CallOk sb {file.ip} k (op.onArrays (FileSet.arrays k _))) k := hset.meets_call op
      have hcall := hmeets.of_run hrun'
      have hsame : k'.contents file.ip = k.contents file.ip := congrFun hcall.arrays ip
      have hread : (r, data) = readArray (k.contents file.ip) file.off n.toUInt32.toNat := by
        have hresult := hcall.result
        simp only [op, FileOp.onArrays, FileSet.arrays, hoff'] at hresult
        exact hresult
      have haccessed := readArray_accessed (i := i) hset hread n
      refine ⟨hcall.set, haccessed.count, haccessed.fits, fun j hj => ?_, fun j hj => ?_,
        fun _ _ hwrite => by cases hwrite⟩
      · rw [hsame]
        exact haccessed.moved j hj
      · rw [hsame]
  | write src n =>
      have hchunk : (UInt32.ofNat (chunk n i)).toNat = chunk n i := by
        rw [UInt32.toNat_ofNat']
        refine Nat.mod_eq_of_lt (lt_of_le_of_lt (min_le_right _ _) (by decide))
      let op := FileOp.write ip (fun j => src (i + j)) (UInt32.ofNat file.off)
        (UInt32.ofNat (chunk n i))
      have hrun' : ((op.map Subtype.val).call sb devsw).run k = (.ok (r, data), k') := by
        rw [← hrun]
        simp only [op, ip, FileOp.map, FileOp.call, Sharing.access, hoff', hchunk]
      have hmeets : Meets OutOfBlocks ((op.map Subtype.val).call sb devsw)
          (FileSet.CallOk sb {file.ip} k (op.onArrays (FileSet.arrays k _))) k := hset.meets_call op
      have hcall := hmeets.of_run hrun'
      refine writeArray_accessed hcall.set ?_
      have hresult := hcall.result
      have harrays := congrFun hcall.arrays ip
      simp only [op, ip, FileOp.onArrays, FileSet.arrays, hoff', hchunk, Function.update_self]
        at hresult harrays
      rw [harrays]
      exact congrArg (·, _) (Prod.mk.inj hresult).1

/-! ## The pieces -/

/-- The pieces follow each other from `off` on. -/
def Consecutive : ℕ → List (Piece P) → Prop
  | _, [] => True
  | off, piece :: rest => piece.start = off ∧ Consecutive (off + piece.bytes.length) rest

variable {pieces : List (Piece P)} {piece : Piece P}

/-- The bytes of some pieces. -/
def span (pieces : List (Piece P)) : ℕ := (pieces.map fun piece => piece.bytes.length).sum

theorem span_append (l l' : List (Piece P)) : span (l ++ l') = span l + span l' := by
  simp [span]

theorem Consecutive.concat (h : Consecutive off pieces) (hstart : piece.start = off + span pieces) :
    Consecutive off (pieces ++ [piece]) := by
  induction pieces generalizing off with
  | nil => exact ⟨by simpa [span] using hstart, trivial⟩
  | cons first rest ih =>
      refine ⟨h.1, ih h.2 ?_⟩
      rw [hstart, ← List.singleton_append, span_append]
      simp [span, Nat.add_assoc]

/-- Every piece lies in the range that they all make up. -/
theorem Consecutive.within (h : Consecutive off pieces) (hmem : piece ∈ pieces) :
    off ≤ piece.start ∧ piece.start + piece.bytes.length ≤ off + span pieces := by
  induction pieces generalizing off with
  | nil => exact absurd hmem List.not_mem_nil
  | cons first rest ih =>
      have hspan : span (first :: rest) = first.bytes.length + span rest := by simp [span]
      obtain ⟨hstart, hrest⟩ := h
      rcases List.mem_cons.mp hmem with rfl | hmem
      · omega
      · have := ih hrest hmem
        omega

variable [DecidableEq P]

/-- What a call has read or written so far: the first bytes that it was given, or the data that it
returns. -/
def Progress : Io → List Byte → IoStage → Prop
  | .read _, bytes, .moved _ r data => bytes = data ∧ (r = data.length ∨ r = -1 ∧ data = [])
  | .read _, bytes, .advanced _ r data => bytes = data ∧ (r = data.length ∨ r = -1 ∧ data = [])
  | .read _, bytes, .returned r data => bytes = data ∧ (r = data.length ∨ r = -1 ∧ data = [])
  | .read _, bytes, _ => bytes = []
  | .write _ _, bytes, .idle => bytes = []
  | .write src _, bytes, .ready i => bytes = (List.range i).map src
  | .write src _, bytes, .locked i => bytes = (List.range i).map src
  | .write src n, bytes, .moved i r _ =>
      bytes = (List.range (i + r.toNat)).map src ∧ (r = -1 ∨ r = chunk n i)
  | .write src n, bytes, .advanced i r _ =>
      bytes = (List.range (i + r.toNat)).map src ∧ (r = -1 ∨ r = chunk n i)
  | .write src n, bytes, .returned r _ =>
      ∃ i, bytes = (List.range i).map src ∧ (r = -1 ∨ r = i ∧ r = n.toInt)

structure SharedInv (sb : Superblock) (ip off₀ : ℕ) (io : P → Io) (s : Sharing P) (h : Pieces P) :
    Prop where
  set : FileSet sb {ip} s.kernel
  file : s.file.ip = ip
  holder : ∀ p, (s.stage p).locks = true ↔ s.holder = some p
  pending : ∀ p i r data, s.stage p = .moved i r data →
    s.file.off + r.toNat = off₀ + span h.pieces
  offset : (∀ p i r data, s.stage p ≠ .moved i r data) → s.file.off = off₀ + span h.pieces
  bound : off₀ + span h.pieces < 2 ^ 32
  locked : ∀ p i, s.stage p = .locked i → h.taken = h.pieces.map Piece.owner ++ [p]
  taken : (∀ p i, s.stage p ≠ .locked i) → h.taken = h.pieces.map Piece.owner
  consecutive : Consecutive off₀ h.pieces
  short : ∀ piece ∈ h.pieces, ∀ src n, io piece.owner = .write src n →
    piece.bytes.length ≤ writeMax
  content : ∀ piece ∈ h.pieces, ∀ j < piece.bytes.length,
    (s.kernel.contents ip)[piece.start + j]? = piece.bytes[j]?
  calls : ∀ p, Progress (io p) (h.of p) (s.stage p)

variable {s t : Sharing P} {h : Pieces P} {a : IoAction P} {p q : P} {stage : IoStage}
variable {ios : P → Io}

theorem SharedInv.start (hset : FileSet sb {file.ip} k) (hoff : file.off < 2 ^ 32) :
    SharedInv sb file.ip file.off ios (Sharing.start P file k) (Pieces.empty P) where
  set := hset
  file := rfl
  holder p := ⟨nofun, nofun⟩
  pending p i r data hstage := by cases hstage
  offset _ := rfl
  bound := hoff
  locked p i hstage := by cases hstage
  taken _ := rfl
  consecutive := trivial
  short piece hmem := absurd hmem List.not_mem_nil
  content piece hmem := absurd hmem List.not_mem_nil
  calls p := by
    show Progress (ios p) [] .idle
    cases ios p <;> rfl

/-- Only one call has the lock. -/
theorem SharedInv.others (hinv : SharedInv sb ip off₀ ios s h) (hp : (s.stage p).locks = true)
    (hq : q ≠ p) : (s.stage q).locks = false := by
  have hholder := (hinv.holder p).mp hp
  by_contra hlocks
  rw [Bool.not_eq_false] at hlocks
  rw [(hinv.holder q).mp hlocks] at hholder
  exact hq (Option.some.inj hholder)

theorem SharedInv.unlocked (hinv : SharedInv sb ip off₀ ios s h) (hfree : s.holder = none)
    (q : P) : (s.stage q).locks = false := by
  by_contra hlocks
  rw [Bool.not_eq_false] at hlocks
  rw [(hinv.holder q).mp hlocks] at hfree
  cases hfree

theorem progress_update {io : P → Io} (h : Pieces P)
    (hcalls : ∀ q, Progress (io q) (h.of q) (s.stage q))
    (hstage : Progress (io p) (h.of p) stage) (q : P) :
    Progress (io q) (h.of q) (Function.update s.stage p stage q) := by
  by_cases hq : q = p
  · rw [hq, Function.update_self]
    exact hstage
  · rw [Function.update_of_ne hq]
    exact hcalls q

/-- A call without the lock goes on without it. -/
theorem SharedInv.quiet (hinv : SharedInv sb ip off₀ ios s h) (hold : (s.stage p).locks = false)
    (hnew : stage.locks = false) (hstage : Progress (ios p) (h.of p) stage) :
    SharedInv sb ip off₀ ios (s.goto p stage) h := by
  have hsame : ∀ {q : P} {new : IoStage}, new.locks = true →
      (Function.update s.stage p stage q = new ↔ s.stage q = new) := fun {q new} hlocks => by
    by_cases hq : q = p
    · subst hq
      rw [Function.update_self]
      constructor
      · rintro rfl
        rw [hnew] at hlocks
        cases hlocks
      · rintro rfl
        rw [hold] at hlocks
        cases hlocks
    · rw [Function.update_of_ne hq]
  refine
    { set := hinv.set
      file := hinv.file
      holder := fun q => ?_
      pending := fun q i r data hq => hinv.pending q i r data ((hsame rfl).mp hq)
      offset := fun hno => hinv.offset fun q i r data hq => hno q i r data ((hsame rfl).mpr hq)
      bound := hinv.bound
      locked := fun q i hq => hinv.locked q i ((hsame rfl).mp hq)
      taken := fun hno => hinv.taken fun q i hq => hno q i ((hsame rfl).mpr hq)
      consecutive := hinv.consecutive
      short := hinv.short
      content := hinv.content
      calls := progress_update h hinv.calls hstage }
  show (Function.update s.stage p stage q).locks = true ↔ s.holder = some q
  by_cases hq : q = p
  · subst hq
    rw [Function.update_self, hnew, ← hinv.holder q, hold]
  · rw [Function.update_of_ne hq]
    exact hinv.holder q

theorem SharedInv.lock (hinv : SharedInv sb ip off₀ ios s h) (hstage : s.stage p = .ready i)
    (hfree : s.holder = none) :
    SharedInv sb ip off₀ ios ({ s with holder := some p }.goto p (.locked i))
      { h with taken := h.taken ++ [p] } := by
  have hnone : ∀ q, (s.stage q).locks = false := hinv.unlocked hfree
  have hready := hinv.calls p
  rw [hstage] at hready
  have hprogress : Progress (ios p) (h.of p) (.locked i) := by
    cases hio : ios p <;> rw [hio] at hready <;> exact hready
  have hother : ∀ {q : P} {new : IoStage}, new.locks = true →
      Function.update s.stage p (.locked i) q = new → q = p ∧ new = .locked i := fun hlocks hq => by
    rename_i q new
    by_cases hqp : q = p
    · subst hqp
      rw [Function.update_self] at hq
      exact ⟨rfl, hq.symm⟩
    · rw [Function.update_of_ne hqp] at hq
      have := hnone q
      rw [hq, hlocks] at this
      cases this
  refine
    { set := hinv.set
      file := hinv.file
      holder := fun q => ?_
      pending := fun q j r data hq => ?_
      offset := fun _ => hinv.offset fun q j r data hq => ?_
      bound := hinv.bound
      locked := fun q j hq => ?_
      taken := fun hno => absurd (Function.update_self _ _ _) (hno p i)
      consecutive := hinv.consecutive
      short := hinv.short
      content := hinv.content
      calls := progress_update h hinv.calls hprogress }
  · show (Function.update s.stage p (.locked i) q).locks = true ↔ some p = some q
    by_cases hq : q = p
    · subst hq
      rw [Function.update_self]
      exact iff_of_true rfl rfl
    · rw [Function.update_of_ne hq, hnone q]
      exact iff_of_false nofun fun heq => hq (Option.some.inj heq).symm
  · obtain ⟨-, hnew⟩ := hother rfl hq
    cases hnew
  · have := hnone q
    rw [hq] at this
    cases this
  · obtain ⟨rfl, -⟩ := hother rfl hq
    show h.taken ++ [q] = h.pieces.map Piece.owner ++ [q]
    rw [hinv.taken fun q' j hq' => ?_]
    have := hnone q'
    rw [hq'] at this
    cases this

/-- A step of the call that has the lock, which it keeps. -/
theorem SharedInv.holder_update (hinv : SharedInv sb ip off₀ ios s h)
    (hold : (s.stage p).locks = true) (hnew : stage.locks = true) (q : P) :
    (Function.update s.stage p stage q).locks = true ↔ s.holder = some q := by
  by_cases hq : q = p
  · subst hq
    rw [Function.update_self, ← hinv.holder q, hold, hnew]
  · rw [Function.update_of_ne hq]
    exact hinv.holder q

/-- The stages of the others, seen from the call that has the lock. -/
theorem SharedInv.update_eq (hinv : SharedInv sb ip off₀ ios s h)
    (hold : (s.stage p).locks = true) {new : IoStage} (hlocks : new.locks = true)
    (hq : Function.update s.stage p stage q = new) : q = p ∧ new = stage := by
  by_cases hqp : q = p
  · subst hqp
    rw [Function.update_self] at hq
    exact ⟨rfl, hq.symm⟩
  · rw [Function.update_of_ne hqp] at hq
    have := hinv.others hold hqp
    rw [hq, hlocks] at this
    cases this

theorem of_append (piece : Piece P) :
    ({ h with pieces := h.pieces ++ [piece] } : Pieces P).of p =
      h.of p ++ if piece.owner = p then piece.bytes else [] := by
  simp only [Pieces.of, List.filter_append, List.flatMap_append]
  by_cases hp : piece.owner = p
  · simp [hp]
  · simp [hp]

theorem moved_length (haccessed : Accessed sb ip off io i r (Pieces.moved io i r data) k k') :
    (Pieces.moved io i r data).length = r.toNat := by
  have hcount := haccessed.count
  generalize Pieces.moved io i r data = bytes at hcount
  rcases hcount with rfl | ⟨rfl, rfl⟩
  · exact (Int.toNat_natCast _).symm
  · rfl

/-- A piece is read or written at the offset of the file. -/
theorem SharedInv.transfer (hinv : SharedInv sb ip off₀ ios s h) (hstage : s.stage p = .locked i)
    (hrun : (Sharing.access sb devsw s.file (ios p) i).run s.kernel = (.ok (r, data), k)) :
    SharedInv sb ip off₀ ios ({ s with kernel := k }.goto p (.moved i r data))
      { h with pieces := h.pieces ++ [⟨p, s.file.off, Pieces.moved (ios p) i r data⟩] } := by
  have hlocks : (s.stage p).locks = true := by rw [hstage]; rfl
  have hoff : s.file.off = off₀ + span h.pieces := hinv.offset fun q j r' data' hq => by
    by_cases hqp : q = p
    · rw [hqp, hstage] at hq
      cases hq
    · have := hinv.others hlocks hqp
      rw [hq] at this
      cases this
  have hbound := hinv.bound
  have hset := hinv.set
  rw [← hinv.file] at hset
  have haccessed := accessed_of_run hset (by omega) hrun
  rw [hinv.file] at haccessed
  have hlength := moved_length haccessed
  have hspan : span (h.pieces ++ [⟨p, s.file.off, Pieces.moved (ios p) i r data⟩]) =
      span h.pieces + r.toNat := by
    rw [span_append]
    simp [span, hlength]
  have hprogress := hinv.calls p
  rw [hstage] at hprogress
  refine
    { set := haccessed.set
      file := hinv.file
      holder := hinv.holder_update hlocks rfl
      pending := fun q j r' data' hq => ?_
      offset := fun hno => absurd (Function.update_self _ _ _) (hno p i r data)
      bound := ?_
      locked := fun q j hq => ?_
      taken := fun _ => ?_
      consecutive := hinv.consecutive.concat hoff
      short := fun piece hmem src n hio => ?_
      content := fun piece hmem j hj => ?_
      calls := fun q => ?_ }
  · obtain ⟨rfl, hnew⟩ := hinv.update_eq hlocks rfl hq
    obtain ⟨-, rfl, -⟩ := IoStage.moved.inj hnew
    show s.file.off + _ = off₀ + span _
    rw [hspan, hoff, Nat.add_assoc]
  · show off₀ + span _ < _
    rw [hspan]
    by_cases hnil : Pieces.moved (ios p) i r data = []
    · rw [hnil, List.length_nil] at hlength
      omega
    · have := haccessed.fits hnil
      omega
  · obtain ⟨-, hnew⟩ := hinv.update_eq hlocks rfl hq
    cases hnew
  · show h.taken = (h.pieces ++ _).map _
    rw [hinv.locked p i hstage, List.map_append]
    rfl
  · rcases List.mem_append.mp hmem with hmem | hmem
    · exact hinv.short piece hmem src n hio
    · obtain rfl := List.mem_singleton.mp hmem
      dsimp only at hio ⊢
      rw [hlength]
      rcases haccessed.chunk src n hio with rfl | rfl
      · exact Nat.zero_le _
      · exact min_le_right _ _
  · rcases List.mem_append.mp hmem with hmem | hmem
    · show (k.contents ip)[_]? = _
      have hin := (hinv.consecutive.within hmem).2
      rw [haccessed.before _ (by omega)]
      exact hinv.content piece hmem j hj
    · obtain rfl := List.mem_singleton.mp hmem
      exact haccessed.moved j hj
  · rw [of_append]
    by_cases hq : q = p
    · subst hq
      show Progress _ _ (Function.update s.stage q (.moved i r data) q)
      rw [Function.update_self, if_pos rfl]
      dsimp only
      have hcount := haccessed.count
      have hchunk := haccessed.chunk
      cases hio : ios q with
      | read n =>
          rw [hio] at hprogress hcount
          have hnil : h.of q = [] := hprogress
          exact ⟨by rw [hnil]; rfl, hcount⟩
      | write src n =>
          rw [hio] at hprogress
          have hwritten : h.of q = (List.range i).map src := hprogress
          refine ⟨?_, hchunk src n hio⟩
          rw [hwritten, List.range_add, List.map_append, List.map_map]
          rfl
    · show Progress _ _ (Function.update s.stage p (.moved i r data) q)
      rw [Function.update_of_ne hq, if_neg (Ne.symm hq), List.append_nil]
      exact hinv.calls q

/-- The offset is advanced by what has been read or written. -/
theorem SharedInv.advance (hinv : SharedInv sb ip off₀ ios s h)
    (hstage : s.stage p = .moved i r data) :
    SharedInv sb ip off₀ ios
      ({ s with file.off := if r > 0 then uint (s.file.off + r.toNat) else s.file.off }.goto p
        (.advanced i r data)) h := by
  have hlocks : (s.stage p).locks = true := by rw [hstage]; rfl
  have hpending := hinv.pending p i r data hstage
  have hbound := hinv.bound
  have hprogress := hinv.calls p
  rw [hstage] at hprogress
  refine
    { set := hinv.set
      file := hinv.file
      holder := hinv.holder_update hlocks rfl
      pending := fun q j r' data' hq => ?_
      offset := fun _ => ?_
      bound := hinv.bound
      locked := fun q j hq => ?_
      taken := fun _ => hinv.taken fun q j hq => ?_
      consecutive := hinv.consecutive
      short := hinv.short
      content := hinv.content
      calls := progress_update h hinv.calls ?_ }
  · obtain ⟨-, hnew⟩ := hinv.update_eq hlocks rfl hq
    cases hnew
  · show (if r > 0 then uint (s.file.off + r.toNat) else s.file.off) = _
    split
    · rw [hpending]
      exact Nat.mod_eq_of_lt hbound
    · rename_i hr
      rwa [Int.toNat_of_nonpos (not_lt.mp hr)] at hpending
  · obtain ⟨-, hnew⟩ := hinv.update_eq hlocks rfl hq
    cases hnew
  · by_cases hqp : q = p
    · rw [hqp, hstage] at hq
      cases hq
    · have := hinv.others hlocks hqp
      rw [hq] at this
      cases this
  · cases hio : ios p <;> rw [hio] at hprogress <;> exact hprogress

/-- The lock is given up. -/
theorem SharedInv.unlock (hinv : SharedInv sb ip off₀ ios s h)
    (hstage : s.stage p = .advanced i r data) (hnew : stage.locks = false)
    (hprogress : Progress (ios p) (h.of p) stage) :
    SharedInv sb ip off₀ ios ({ s with holder := none }.goto p stage) h := by
  have hlocks : (s.stage p).locks = true := by rw [hstage]; rfl
  have hnone : ∀ q, (Function.update s.stage p stage q).locks = false := fun q => by
    by_cases hq : q = p
    · rw [hq, Function.update_self]
      exact hnew
    · rw [Function.update_of_ne hq]
      exact hinv.others hlocks hq
  have hold : ∀ {q : P} {new : IoStage}, new.locks = true → s.stage q = new →
      new = .advanced i r data := fun {q new} hl hq => by
    by_cases hqp : q = p
    · rw [← hq, hqp, hstage]
    · have := hinv.others hlocks hqp
      rw [hq, hl] at this
      cases this
  refine
    { set := hinv.set
      file := hinv.file
      holder := fun q => ?_
      pending := fun q j r' data' hq => ?_
      offset := fun _ => hinv.offset fun q j r' data' hq => ?_
      bound := hinv.bound
      locked := fun q j hq => ?_
      taken := fun _ => hinv.taken fun q j hq => ?_
      consecutive := hinv.consecutive
      short := hinv.short
      content := hinv.content
      calls := progress_update h hinv.calls hprogress }
  · show (Function.update s.stage p stage q).locks = true ↔ none = some q
    rw [hnone q]
    exact iff_of_false nofun nofun
  · have := hnone q
    rw [show Function.update s.stage p stage q = .moved j r' data' from hq] at this
    cases this
  · cases hold rfl hq
  · have := hnone q
    rw [show Function.update s.stage p stage q = .locked j from hq] at this
    cases this
  · cases hold rfl hq

/-! ## Runs -/

theorem progress_writeResult {src : ℕ → Byte} {n : Int32}
    (hbytes : bytes = (List.range i).map src) :
    Progress (.write src n) bytes (.returned (Sharing.writeResult n i) data) := by
  refine ⟨i, hbytes, ?_⟩
  unfold Sharing.writeResult
  split
  · rename_i heq
    exact Or.inr ⟨heq.symm, rfl⟩
  · exact Or.inl rfl

theorem SharedInv.step (hinv : SharedInv sb ip off₀ ios s h)
    (hstep : SharingStep sb devsw ios s a t) :
    SharedInv sb ip off₀ ios t (h.record ios s a t) := by
  cases hstep with
  | @refused p hstage =>
      have hprogress := hinv.calls p
      rw [hstage] at hprogress
      refine hinv.quiet (by rw [hstage]; rfl) rfl ?_
      cases hio : ios p <;> rw [hio] at hprogress
      · exact ⟨hprogress, Or.inr ⟨rfl, rfl⟩⟩
      · exact ⟨0, hprogress, Or.inl rfl⟩
  | @enter p hstage =>
      have hprogress := hinv.calls p
      rw [hstage] at hprogress
      refine hinv.quiet (by rw [hstage]; rfl) rfl ?_
      cases hio : ios p <;> rw [hio] at hprogress <;> exact hprogress
  | lock hstage hgo hfree => exact hinv.lock hstage hfree
  | @transfer p i r data kernel hstage hrun =>
      have htransfer := hinv.transfer hstage hrun
      unfold Pieces.record
      simp only [Sharing.goto, Function.update_self]
      exact htransfer
  | advance hstage => exact hinv.advance hstage
  | @read p i r data n hstage hio =>
      have hprogress := hinv.calls p
      rw [hstage, hio] at hprogress
      refine hinv.unlock hstage rfl ?_
      rw [hio]
      exact hprogress
  | @failed p i r data src n hstage hio hr =>
      have hprogress := hinv.calls p
      rw [hstage, hio] at hprogress
      refine hinv.unlock hstage rfl ?_
      rw [hio]
      refine progress_writeResult ?_
      rw [hprogress.1, Int.toNat_of_nonpos hr.le, Nat.add_zero]
  | @written p i r data src n hstage hio hr =>
      have hprogress := hinv.calls p
      rw [hstage, hio] at hprogress
      refine hinv.unlock hstage rfl ?_
      rw [hio]
      exact hprogress.1
  | @finish p i src n hstage hio hgo =>
      have hprogress := hinv.calls p
      rw [hstage, hio] at hprogress
      refine hinv.quiet (by rw [hstage]; rfl) rfl ?_
      rw [hio]
      exact progress_writeResult hprogress

theorem SharedInv.of_reaches {state : Sharing P × Pieces P} (hset : FileSet sb {file.ip} k)
    (hoff : file.off < 2 ^ 32)
    (hrun : Reaches (traced (Sharing.step sb devsw ios) (Pieces.record ios))
      (Sharing.start P file k, Pieces.empty P) state) :
    SharedInv sb file.ip file.off ios state.1 state.2 := by
  refine Run.invariant (I := fun s => SharedInv sb file.ip file.off ios s.1 s.2) hrun
    (SharedInv.start hset hoff) fun s a t hstep _ hinv => ?_
  obtain ⟨ha, ht⟩ := traced_eq_next.mp hstep
  rw [ht]
  exact hinv.step (Sharing.step_cases ha)

end Xv6.Files
