import Xv6.Volume.Lookup

/-!
# Open files, interleaved

A process that has a reference to a file, `l.hold f`, may use the inode of the file.  When the last
reference is given up, the reference to the inode goes to the process, which gives it up by `iput`;
when a file is opened, it goes the other way.
-/

namespace Xv6

open Files Interleaving References
open Inodes (Ptr)
open Ftable (FileId Fd)

namespace Volume

namespace Local

variable {l : Local} {f : FileId} {fd : Fd}

def hold (l : Local) (f : FileId) : Local := { l with fvars := f ::ₘ l.fvars }

/-- The file is new, and it has no inode yet. -/
def create (l : Local) (f : FileId) : Local := { l.hold f with ips := Function.update l.ips f none }

def setOfile (l : Local) (fd : Fd) (r : Option FileId) : Local :=
  { l with ofile := Function.update l.ofile fd r }

end Local

variable {P : Type} [Fintype P] [DecidableEq P] {s t : Volume P × Ghost P} {p q : P}
variable {i n : ℕ} {j k : Ptr} {f g : FileId} {fd : Fd} {sb : Superblock} {devsw : Devsw}
variable {l : Local}
variable {vars V : Multiset Ptr} {F : Multiset FileId} {file : FileId → OpenFile}
variable {ofile : P → Fd → Option FileId} {ips : FileId → Option Ptr} {src : ℕ → Byte}

/-! ## A step on the tables of files -/

/-- The open files and the descriptors change, and the process has other references. -/
def refile (s : Volume P × Ghost P) (p : P) (V : Multiset Ptr) (F : Multiset FileId)
    (file : FileId → OpenFile) (ofile : P → Fd → Option FileId) : Volume P × Ghost P :=
  ({ s.1 with file := file, ofile := ofile },
    { s.2 with vars := Function.update s.2.vars p V, fvars := Function.update s.2.fvars p F })

omit [Fintype P] in
theorem refile_vars_of_ne (hne : q ≠ p) : (refile s p V F file ofile).2.vars q = s.2.vars q :=
  Function.update_of_ne hne ..

omit [Fintype P] in
theorem refile_fvars_of_ne (hne : q ≠ p) : (refile s p V F file ofile).2.fvars q = s.2.fvars q :=
  Function.update_of_ne hne ..

omit [Fintype P] in
@[simp] theorem refile_vars_self : (refile s p V F file ofile).2.vars p = V :=
  Function.update_self ..

omit [Fintype P] in
@[simp] theorem refile_fvars_self : (refile s p V F file ofile).2.fvars p = F :=
  Function.update_self ..

variable (p V F file ofile) in
/-- What such a step needs. -/
structure Refiles (s : Volume P × Ghost P) : Prop where
  used : s.1.used p = true
  others : ∀ q, q ≠ p → ofile q = s.1.ofile q
  kept : ∀ q, q ≠ p → ∀ f ∈ s.2.fvars q, SameFile f s (refile s p V F file ofile)
  mine : ∀ j, (s.1.entry j).lock = some p → Uses p j (refile s p V F file ofile)
  counted : Counted (fun j => (s.1.entry j).ref) (holds (refile s p V F file ofile))
  files : Counted (fun f => (file f).ref) (refile s p V F file ofile).2.fvars
  closed : ∀ f, (file f).ref = 0 → (file f).ip = none
  fresh : ∀ f, (file f).ip = none → f ∈ F → ∀ q, q ≠ p → f ∉ s.2.fvars q

theorem Refiles.table (h : Refiles p V F file ofile s) (hs : Inv sb s) :
    Table p s (refile s p V F file ofile) where
  disk := rfl
  place := rfl
  hand := rfl
  entry j := ⟨_, rfl⟩
  pos _ hj := hj
  same q hne _ := ⟨rfl, rfl, h.others q hne, refile_vars_of_ne hne, refile_fvars_of_ne hne⟩
  born q hne hunused hidle :=
    ⟨hidle.hand, hidle.lock, fun hused => absurd (hused.symm.trans hunused) (by simp)⟩
  uses q hne j huses := by
    rcases huses with hvar | ⟨f, hf, hip⟩
    · exact Or.inl (by rwa [refile_vars_of_ne hne])
    · refine Or.inr ⟨f, by rwa [refile_fvars_of_ne hne], ?_⟩
      rw [(h.kept q hne f hf).1, hip]
  file := h.kept
  mine := h.mine
  counted := h.counted
  files := h.files
  closed := h.closed
  fresh f q q' hip hq hq' := by
    have hcases : ∀ r, f ∈ (refile s p V F file ofile).2.fvars r →
        r = p ∧ f ∈ F ∨ r ≠ p ∧ f ∈ s.2.fvars r := fun r hr => by
      by_cases hne : r = p
      · subst hne
        rw [refile_fvars_self] at hr
        exact Or.inl ⟨rfl, hr⟩
      · rw [refile_fvars_of_ne hne] at hr
        exact Or.inr ⟨hne, hr⟩
    rcases hcases q hq with ⟨rfl, hF⟩ | ⟨hne, hold⟩ <;>
      rcases hcases q' hq' with ⟨heq, hF'⟩ | ⟨hne', hold'⟩
    · exact heq.symm
    · exact absurd hold' (h.fresh f hip hF q' hne')
    · subst heq
      exact absurd hold (h.fresh f hip hF' q hne)
    · rw [(h.kept q hne f hold).1] at hip
      exact hs.fresh f q q' hip hold hold'
  unused q hunused := by
    have hne : q ≠ p := by
      rintro rfl
      exact absurd (h.used.symm.trans hunused) (by simp)
    rw [refile_vars_of_ne hne, refile_fvars_of_ne hne]
    exact hs.unused q hunused

/-- What the process knows afterwards. -/
theorem Has.refile (h : Has p l s) (ht : Table p s (Volume.refile s p V F file ofile))
    (hip : ∀ f ∈ F, (file f).ip = ips f) :
    Has p { l with vars := V, fvars := F, ips := ips, ofile := ofile p }
      (Volume.refile s p V F file ofile) where
  core := ⟨h.core.used, h.core.cwd, rfl, refile_vars_self, refile_fvars_self, hip, h.core.lock⟩
  hand := h.hand
  sound k hk := ht.sound (h.sound k hk)

/-- One step on these tables. -/
theorem does_refile (ips : FileId → Option Ptr) {α : Type} {c : Volume P → Transition.Outcome (α × Volume P)} {a : α}
    {Q : α → Volume P × Ghost P → Prop} (h : Has p l s) (hs : Inv sb s)
    (hc : c s.1 = .next (a, { s.1 with file := file, ofile := ofile }))
    (hstep : Refiles p V F file ofile s) (hip : ∀ f ∈ F, (file f).ip = ips f)
    (hQ : ∀ t, Has p { l with vars := V, fvars := F, ips := ips, ofile := ofile p } t → Q a t) :
    (logic P sb).Does p c Q s := by
  have htable := hstep.table hs
  exact Logic.does_next hc (htable.inv hs) htable.frame (hQ _ (h.refile htable hip))

/-! ## References to files -/

omit [Fintype P] in
theorem Uses.refile (h : Uses p k s)
    (hsame : ∀ f, SameFile f s (Volume.refile s p (s.2.vars p) F file ofile))
    (hsub : ∀ f ∈ s.2.fvars p, f ∈ F) : Uses p k (Volume.refile s p (s.2.vars p) F file ofile) := by
  rcases h with hvar | ⟨f, hf, hip⟩
  · exact Or.inl (by rwa [refile_vars_self])
  · refine Or.inr ⟨f, ?_, (hsame f).1.trans hip⟩
    rw [refile_fvars_self]
    exact hsub f hf

/-- All files keep their inodes. -/
theorem Refiles.of_same (hs : Inv sb s) (hused : s.1.used p = true)
    (hofile : ∀ q, q ≠ p → ofile q = s.1.ofile q)
    (hsame : ∀ f, SameFile f s (refile s p (s.2.vars p) F file ofile))
    (hmine : ∀ j, (s.1.entry j).lock = some p → Uses p j (refile s p (s.2.vars p) F file ofile))
    (hfiles : Counted (fun f => (file f).ref) (refile s p (s.2.vars p) F file ofile).2.fvars)
    (hclosed : ∀ f, (file f).ref = 0 → (s.1.file f).ref = 0)
    (hfresh : ∀ f ∈ F, f ∈ s.2.fvars p ∨ (s.1.file f).ref = 0) :
    Refiles p (s.2.vars p) F file ofile s where
  used := hused
  others := hofile
  kept _ _ f _ := hsame f
  mine := hmine
  counted := by
    refine hs.counted.congr (fun _ => rfl) fun e => ?_
    cases e with
    | inl q =>
        show Function.update s.2.vars p (s.2.vars p) q = s.2.vars q
        rw [Function.update_eq_self]
    | inr f => exact congrArg References.place (hsame f).1
  files := hfiles
  closed f hf := (hsame f).1.trans (hs.closed f (hclosed f hf))
  fresh f hip hF q hne hq := by
    rcases hfresh f hF with hmem | hzero
    · exact hne (hs.fresh f q p ((hsame f).1.symm.trans hip) hq hmem)
    · exact hs.files.notMem hzero q hq

def setRef (file : FileId → OpenFile) (f : FileId) (r : ℕ) : FileId → OpenFile :=
  Function.update file f { file f with ref := r }

theorem update_same {x : OpenFile} (hx : x.ip = (file f).ip ∧ x.readable = (file f).readable ∧
    x.writable = (file f).writable) (g : FileId) :
    (Function.update file f x g).ip = (file g).ip ∧
      (Function.update file f x g).readable = (file g).readable ∧
      (Function.update file f x g).writable = (file g).writable := by
  by_cases hg : g = f
  · subst hg
    rw [Function.update_self]
    exact hx
  · rw [Function.update_of_ne hg]
    exact ⟨rfl, rfl, rfl⟩

theorem setRef_same (file : FileId → OpenFile) (f g : FileId) (r : ℕ) :
    (setRef file f r g).ip = (file g).ip ∧ (setRef file f r g).readable = (file g).readable ∧
      (setRef file f r g).writable = (file g).writable :=
  update_same (x := { file f with ref := r }) ⟨rfl, rfl, rfl⟩ g

theorem setRef_ref (file : FileId → OpenFile) (f g : FileId) (r : ℕ) :
    (setRef file f r g).ref = if g = f then r else (file g).ref := by
  by_cases hg : g = f
  · subst hg
    rw [setRef, Function.update_self, if_pos rfl]
  · rw [setRef, Function.update_of_ne hg, if_neg hg]

/-- One takes a reference to a file that one has already, or that nobody has. -/
theorem Refiles.gain (hs : Inv sb s) (hused : s.1.used p = true)
    (hf : f ∈ s.2.fvars p ∨ (s.1.file f).ref = 0) :
    Refiles p (s.2.vars p) (f ::ₘ s.2.fvars p) (setRef s.1.file f ((s.1.file f).ref + 1)) s.1.ofile
      s := by
  have hsame := fun g => setRef_same s.1.file f g ((s.1.file f).ref + 1)
  refine Refiles.of_same hs hused (fun _ _ => rfl) hsame (fun k hk => ?_) ?_ (fun g hg => ?_)
    fun g hg => ?_
  · exact (hs.locked k p hk).refile hsame fun g hg => Multiset.mem_cons_of_mem hg
  · exact hs.files.gain (fun q hq => refile_fvars_of_ne hq) refile_fvars_self fun g =>
      setRef_ref s.1.file f g _
  · rw [setRef_ref] at hg
    split at hg
    · omega
    · exact hg
  · rcases Multiset.mem_cons.mp hg with rfl | hg
    · exact hf
    · exact Or.inl hg

theorem spec_filealloc :
    Spec P sb p (Has p l) filealloc fun r s =>
      r.elim (Has p l s) fun f => f ∉ l.fvars ∧ Has p (l.create f) s := by
  refine Logic.meets_atomic stable_has fun s hs h => ?_
  cases hfind : (List.finRange Ftable.NFILE).find? fun f => (s.1.file f).ref = 0 with
  | none =>
      refine Logic.does_next (a := none) (u := s.1) (g := s.2) ?_ hs (Frame.refl p s) h
      simp only [hfind]
  | some f =>
      have hzero : (s.1.file f).ref = 0 := by simpa using List.find?_some hfind
      have hgain := Refiles.gain hs h.core.used (Or.inr hzero)
      rw [hzero, zero_add, h.core.fvars] at hgain
      have hnot : f ∉ l.fvars := by
        rw [← h.core.fvars]
        exact hs.files.notMem hzero p
      refine does_refile (Function.update l.ips f none) (a := some f) h hs ?_ hgain
        (fun g hg => ?_) fun t ht => ?_
      · simp only [hfind]
        rfl
      · rw [(setRef_same ..).1]
        by_cases hgf : g = f
        · rw [hgf, Function.update_self, hs.closed f hzero]
        · rw [Function.update_of_ne hgf]
          exact h.core.ip g ((Multiset.mem_cons.mp hg).resolve_left hgf)
      · rw [h.core.vars, h.core.ofile] at ht
        exact ⟨hnot, ht⟩

theorem spec_filedup (hf : f ∈ l.fvars) :
    Spec P sb p (Has p l) (filedup f) fun _ => Has p (l.hold f) := by
  refine Logic.meets_atomic stable_has fun s hs h => ?_
  have hmem : f ∈ s.2.fvars p := by rwa [h.core.fvars]
  have hpos := hs.file_pos hmem
  have hgain := Refiles.gain hs h.core.used (Or.inl hmem)
  rw [h.core.fvars] at hgain
  refine does_refile l.ips (a := ⟨⟩) h hs ?_ hgain (fun g hg => ?_) fun t ht => ?_
  · rw [if_neg (by omega)]
    rfl
  · rw [(setRef_same ..).1]
    refine h.core.ip g ((Multiset.mem_cons.mp hg).elim (fun hgf => ?_) id)
    rwa [hgf]
  · rw [h.core.vars, h.core.ofile] at ht
    exact ht

/-! ## `fileclose` -/

/-- One gives up a reference that is not the last one. -/
theorem Refiles.drop (hs : Inv sb s) (hused : s.1.used p = true) (hF : s.2.fvars p = f ::ₘ F)
    (hmany : 1 < (s.1.file f).ref)
    (hmine : ∀ k, (s.1.entry k).lock = some p → k ∈ s.2.vars p) :
    Refiles p (s.2.vars p) F (setRef s.1.file f ((s.1.file f).ref - 1)) s.1.ofile s := by
  have hsame := fun g => setRef_same s.1.file f g ((s.1.file f).ref - 1)
  refine Refiles.of_same hs hused (fun _ _ => rfl) hsame (fun k hk => Or.inl ?_) ?_
    (fun g hg => ?_) fun g hg => Or.inl ?_
  · rw [refile_vars_self]
    exact hmine k hk
  · refine hs.files.drop (x := f) (fun q hq => refile_fvars_of_ne hq) ?_ fun g =>
      setRef_ref s.1.file f g _
    rw [refile_fvars_self, hF]
  · rw [setRef_ref] at hg
    split at hg
    · omega
    · exact hg
  · rw [hF]
    exact Multiset.mem_cons_of_mem hg

/-- The file is not open any longer. -/
def shut (file : FileId → OpenFile) (f : FileId) : FileId → OpenFile :=
  Function.update file f { file f with ref := 0, ip := none }

theorem shut_self (file : FileId → OpenFile) (f : FileId) :
    shut file f f = { file f with ref := 0, ip := none } := Function.update_self ..

theorem shut_of_ne (file : FileId → OpenFile) (hg : g ≠ f) : shut file f g = file g :=
  Function.update_of_ne hg ..

/-- Who has the only reference is the only one who has the file. -/
theorem Inv.only (hs : Inv sb s) (hone : (s.1.file f).ref = 1) (hF : s.2.fvars p = f ::ₘ F) :
    f ∉ F ∧ ∀ q, q ≠ p → f ∉ s.2.fvars q := by
  have hmem : f ∈ s.2.fvars p := by
    rw [hF]
    exact Multiset.mem_cons_self f F
  refine ⟨fun hf => ?_, fun q hne hq => hne (hs.files.eq_of_one hone hmem hq)⟩
  have hle := hs.files.count_le p f
  have hpos := Multiset.count_pos.mpr hf
  rw [hF, Multiset.count_cons_self] at hle
  have hone' : (fun f => (s.1.file f).ref) f = 1 := hone
  omega

omit [Fintype P] in
theorem holds_refile_of_ne (hne : q ≠ p) :
    holds (refile s p V F file ofile) (.inl q) = holds s (.inl q) := refile_vars_of_ne hne

omit [Fintype P] in
theorem holds_refile_self : holds (refile s p V F file ofile) (.inl p) = V := refile_vars_self

/-- The reference of the file to its inode is handed on to the process. -/
theorem counted_shut (hs : Inv sb s) :
    Counted (fun j => (s.1.entry j).ref) (holds (refile s p
      (References.place (s.1.file f).ip + s.2.vars p) F (shut s.1.file f) s.1.ofile)) := by
  have hfile : ∀ g, g ≠ f → holds (refile s p (References.place (s.1.file f).ip + s.2.vars p) F
      (shut s.1.file f) s.1.ofile) (.inr g) = holds s (.inr g) := fun g hg =>
    congrArg (fun file => References.place (OpenFile.ip file)) (shut_of_ne _ hg)
  cases hip : (s.1.file f).ip with
  | none =>
      refine hs.counted.congr (fun _ => rfl) fun e => ?_
      cases e with
      | inl q =>
          by_cases hq : q = p
          · rw [hq, holds_refile_self, References.place_none, zero_add]
            rfl
          · exact holds_refile_of_ne hq
      | inr g =>
          by_cases hg : g = f
          · show References.place (shut s.1.file f g).ip = References.place (s.1.file g).ip
            rw [hg, shut_self, hip]
          · rw [hip] at hfile
            exact hfile g hg
  | some j =>
      rw [hip] at hfile
      have hne : (Sum.inr f : P ⊕ FileId) ≠ .inl p := Sum.inr_ne_inl
      refine hs.counted.pass (x := j) hne (fun e hef hep => ?_) ?_ ?_
      · cases e with
        | inl q => exact holds_refile_of_ne fun heq => hep (by rw [heq])
        | inr g => exact hfile g fun heq => hef (by rw [heq])
      · show References.place (s.1.file f).ip = j ::ₘ References.place (shut s.1.file f f).ip
        rw [shut_self, hip]
        rfl
      · rw [holds_refile_self, References.place_some, Multiset.singleton_add]
        rfl

/-- The last reference is given up, and the reference to the inode goes to the process. -/
theorem Refiles.shut (hs : Inv sb s) (hused : s.1.used p = true) (hF : s.2.fvars p = f ::ₘ F)
    (hone : (s.1.file f).ref = 1)
    (hmine : ∀ k, (s.1.entry k).lock = some p → k ∈ s.2.vars p) :
    Refiles p (References.place (s.1.file f).ip + s.2.vars p) F (Volume.shut s.1.file f) s.1.ofile
      s := by
  obtain ⟨hnot, hothers⟩ := hs.only hone hF
  have hne : ∀ q, q ≠ p → ∀ g ∈ s.2.fvars q, g ≠ f := fun q hq g hg heq =>
    hothers q hq (by rwa [← heq])
  refine ⟨hused, fun _ _ => rfl, fun q hq g hg => ?_, fun k hk => Or.inl ?_, ?_, ?_, fun g hg => ?_,
    fun g hip hg q hq hmem => ?_⟩
  · show (Volume.shut s.1.file f g).ip = _ ∧ (Volume.shut s.1.file f g).readable = _ ∧
      (Volume.shut s.1.file f g).writable = _
    rw [shut_of_ne _ (hne q hq g hg)]
    exact ⟨rfl, rfl, rfl⟩
  · rw [refile_vars_self]
    exact Multiset.mem_add.mpr (Or.inr (hmine k hk))
  · exact counted_shut hs
  · refine hs.files.drop (x := f) (fun q hq => refile_fvars_of_ne hq) ?_ fun g => ?_
    · rw [refile_fvars_self, hF]
    · by_cases hg : g = f
      · rw [hg, if_pos rfl, shut_self, hone]
      · rw [if_neg hg, shut_of_ne _ hg]
  · by_cases hgf : g = f
    · rw [hgf, shut_self]
    · rw [shut_of_ne _ hgf] at hg ⊢
      exact hs.closed g hg
  · have hgf : g ≠ f := fun heq => hnot (by rwa [← heq])
    rw [shut_of_ne _ hgf] at hip
    have hmine : g ∈ s.2.fvars p := by
      rw [hF]
      exact Multiset.mem_cons_of_mem hg
    exact hq (hs.fresh g q p hip hmem hmine)

theorem Local.given_eq (l : Local) (r : Option Ptr) :
    l.given r = { l with vars := References.place r + l.vars } := by
  cases r with
  | none =>
      rw [References.place_none, zero_add]
      rfl
  | some j =>
      rw [References.place_some, Multiset.singleton_add]
      rfl

theorem spec_unref (hlocks : ∀ k ∈ l.locks, k ∈ l.vars) :
    Spec P sb p (Has p (l.hold f)) (unref f) fun r => Has p (l.given r) := by
  refine Logic.meets_atomic stable_has fun s hs h => ?_
  have hF : s.2.fvars p = f ::ₘ l.fvars := h.core.fvars
  have hmine : ∀ k, (s.1.entry k).lock = some p → k ∈ s.2.vars p := fun k hk => by
    rw [h.core.vars]
    exact hlocks k ((h.core.lock k).mp hk)
  have hpos : 0 < (s.1.file f).ref := hs.file_pos (p := p) (by
    rw [hF]
    exact Multiset.mem_cons_self f _)
  have hip : ∀ g ∈ l.fvars, (s.1.file g).ip = l.ips g := fun g hg =>
    h.core.ip g (Multiset.mem_cons_of_mem hg)
  by_cases hmany : 1 < (s.1.file f).ref
  · refine does_refile l.ips (a := none) h hs ?_
      (Refiles.drop hs h.core.used hF hmany hmine) (fun g hg => ?_) fun t ht => ?_
    · rw [if_neg (by omega), if_pos hmany]
      rfl
    · rw [(setRef_same ..).1, hip g hg]
    · rw [h.core.vars, h.core.ofile] at ht
      exact ht
  · have hone : (s.1.file f).ref = 1 := by omega
    refine does_refile l.ips (a := (s.1.file f).ip) h hs ?_
      (Refiles.shut hs h.core.used hF hone hmine) (fun g hg => ?_) fun t ht => ?_
    · rw [if_neg (by omega), if_neg hmany]
      rfl
    · have hgf : g ≠ f := fun heq => (hs.only hone hF).1 (by rwa [← heq])
      rw [shut_of_ne _ hgf, hip g hg]
    · rw [h.core.vars, h.core.ofile] at ht
      rw [Local.given_eq]
      exact ht

theorem spec_fileclose (hlocks : ∀ k ∈ l.locks, k ∈ l.vars) :
    Spec P sb p (Has p (l.hold f)) (fileclose p f) fun _ => Has p l := by
  refine (spec_unref hlocks).bind fun r => ?_
  cases r with
  | some ip => exact spec_iput
  | none => exact Logic.meets_pure (Q := fun _ => Has p l)

/-! ## Other fields -/

/-- No reference changes. -/
theorem Refiles.still (hs : Inv sb s) (hused : s.1.used p = true)
    (hofile : ∀ q, q ≠ p → ofile q = s.1.ofile q)
    (hsame : ∀ f, SameFile f s (refile s p (s.2.vars p) (s.2.fvars p) file ofile))
    (href : ∀ f, (file f).ref = (s.1.file f).ref) :
    Refiles p (s.2.vars p) (s.2.fvars p) file ofile s := by
  refine Refiles.of_same hs hused hofile hsame
    (fun k hk => (hs.locked k p hk).refile hsame fun _ hf => hf) ?_ (fun f hf => ?_)
    fun f hf => Or.inl hf
  · refine hs.files.congr href fun q => ?_
    show Function.update s.2.fvars p (s.2.fvars p) q = s.2.fvars q
    rw [Function.update_eq_self]
  · rwa [href f] at hf

theorem Refiles.setOfile (hs : Inv sb s) (hused : s.1.used p = true) (fd : Fd) (r : Option FileId) :
    Refiles p (s.2.vars p) (s.2.fvars p) s.1.file
      (Function.update s.1.ofile p (Function.update (s.1.ofile p) fd r)) s :=
  Refiles.still hs hused (fun _ hq => Function.update_of_ne hq ..) (fun _ => ⟨rfl, rfl, rfl⟩)
    fun _ => rfl

theorem does_setOfile {α : Type} {c : Volume P → Transition.Outcome (α × Volume P)} {a : α}
    {r : Option FileId} {Q : α → Volume P × Ghost P → Prop} (h : Has p l s) (hs : Inv sb s)
    (hc : c s.1 = .next (a, s.1.setOfile p fd r))
    (hQ : ∀ t, Has p (l.setOfile fd r) t → Q a t) : (logic P sb).Does p c Q s := by
  refine does_refile l.ips h hs hc (Refiles.setOfile hs h.core.used fd r)
    (fun g hg => h.core.ip g (by rwa [← h.core.fvars])) fun t ht => hQ t ?_
  rw [h.core.vars, h.core.fvars, h.core.ofile, Function.update_self] at ht
  exact ht

theorem spec_setOfile {r : Option FileId} :
    Spec P sb p (Has p l) (Code.modify fun v => v.setOfile p fd r)
      fun _ => Has p (l.setOfile fd r) :=
  Logic.meets_atomic stable_has fun _ hs h => does_setOfile (a := ⟨⟩) h hs rfl fun _ ht => ht

theorem spec_fdalloc :
    Spec P sb p (Has p l) (fdalloc p f) fun r s =>
      r.elim (Has p l s) fun fd => l.ofile fd = none ∧ Has p (l.setOfile fd (some f)) s := by
  refine Logic.meets_atomic stable_has fun s hs h => ?_
  cases hfind : (List.finRange NOFILE).find? fun fd => (s.1.ofile p fd).isNone with
  | none =>
      refine Logic.does_next (a := none) (u := s.1) (g := s.2) ?_ hs (Frame.refl p s) h
      simp only [hfind]
  | some fd =>
      have hnone : s.1.ofile p fd = none := by simpa using List.find?_some hfind
      rw [h.core.ofile] at hnone
      refine does_setOfile (a := some fd) h hs ?_ fun t ht => ⟨hnone, ht⟩
      simp only [hfind]

theorem spec_advance (r : ℤ) : Spec P sb p (Has p l) (advance f r) fun _ => Has p l := by
  rw [advance]
  split
  · refine Logic.meets_atomic stable_has fun s hs h => ?_
    generalize hfile : Function.update s.1.file f
      { s.1.file f with off := (s.1.file f).off + .ofNat r.toNat } = file
    have hsame : ∀ g, SameFile g s (refile s p (s.2.vars p) (s.2.fvars p) file s.1.ofile) :=
      fun g => by
        rw [← hfile]
        exact update_same (x := { s.1.file f with off := (s.1.file f).off + .ofNat r.toNat })
          ⟨rfl, rfl, rfl⟩ g
    have href : ∀ g, (file g).ref = (s.1.file g).ref := fun g => by
      rw [← hfile]
      by_cases hg : g = f
      · rw [hg, Function.update_self]
      · rw [Function.update_of_ne hg]
    refine does_refile l.ips (a := ⟨⟩) h hs ?_
      (Refiles.still hs h.core.used (fun _ _ => rfl) hsame href) (fun g hg => ?_) fun t ht => ?_
    · rw [← hfile]
      rfl
    · rw [h.core.fvars] at hg
      exact (hsame g).1.trans (h.core.ip g hg)
    · rw [h.core.vars, h.core.fvars, h.core.ofile] at ht
      exact ht
  · exact Logic.meets_pure (Q := fun _ => Has p l)

/-- The fields of file `f` once it is open, with its inode. -/
def opened (file : FileId → OpenFile) (f : FileId) (x : OpenFile) (j : Ptr) : FileId → OpenFile :=
  Function.update file f { x with ref := (file f).ref, ip := some j }

/-- The reference to the inode is handed on to a file that nobody else has yet. -/
theorem Refiles.opened {x : OpenFile} (hs : Inv sb s) (hused : s.1.used p = true)
    (hf : f ∈ s.2.fvars p) (hip : (s.1.file f).ip = none) (hV : s.2.vars p = j ::ₘ V)
    (hmine : ∀ k, (s.1.entry k).lock = some p → k ∈ V) :
    Refiles p V (s.2.fvars p) (Volume.opened s.1.file f x j) s.1.ofile s := by
  have hself : Volume.opened s.1.file f x j f = { x with ref := (s.1.file f).ref, ip := some j } :=
    Function.update_self ..
  have hother : ∀ g, g ≠ f → Volume.opened s.1.file f x j g = s.1.file g := fun g hg =>
    Function.update_of_ne hg ..
  refine ⟨hused, fun _ _ => rfl, fun q hq g hg => ?_, fun k hk => Or.inl ?_, ?_, ?_, fun g hg => ?_,
    fun g hnone hg q hq hmem => ?_⟩
  · have hgf : g ≠ f := fun heq => hq (hs.fresh f q p hip (by rwa [← heq]) hf)
    show (Volume.opened s.1.file f x j g).ip = _ ∧ (Volume.opened s.1.file f x j g).readable = _ ∧
      (Volume.opened s.1.file f x j g).writable = _
    rw [hother g hgf]
    exact ⟨rfl, rfl, rfl⟩
  · rw [refile_vars_self]
    exact hmine k hk
  · have hne : (Sum.inl p : P ⊕ FileId) ≠ .inr f := Sum.inl_ne_inr
    refine hs.counted.pass (x := j) hne (fun e hep hef => ?_) ?_ ?_
    · cases e with
      | inl q => exact holds_refile_of_ne fun heq => hep (by rw [heq])
      | inr g =>
          exact congrArg (fun file => References.place (OpenFile.ip file))
            (hother g fun heq => hef (by rw [heq]))
    · rw [holds_refile_self]
      exact hV
    · show References.place (Volume.opened s.1.file f x j f).ip =
        j ::ₘ References.place (s.1.file f).ip
      rw [hself, hip]
      rfl
  · refine hs.files.congr (fun g => ?_) fun q => ?_
    · by_cases hg : g = f
      · rw [hg, hself]
      · rw [hother g hg]
    · show Function.update s.2.fvars p (s.2.fvars p) q = s.2.fvars q
      rw [Function.update_eq_self]
  · by_cases hgf : g = f
    · rw [hgf, hself] at hg
      have hpos := hs.file_pos hf
      have hzero : (s.1.file f).ref = 0 := hg
      omega
    · rw [hother g hgf] at hg ⊢
      exact hs.closed g hg
  · have hgf : g ≠ f := fun heq => by
      rw [heq, hself] at hnone
      cases hnone
    rw [hother g hgf] at hnone
    exact hq (hs.fresh g q p hnone hmem hg)

theorem spec_openFile {omode : UInt32} (hf : f ∈ l.fvars) (hip : l.ips f = none)
    (hlocks : ∀ k ∈ l.locks, k ∈ l.vars) :
    Spec P sb p (Has p (l.keep j)) (openFile f j omode)
      fun _ => Has p { l with ips := Function.update l.ips f (some j) } := by
  refine Logic.meets_atomic stable_has fun s hs h => ?_
  have hmem : f ∈ s.2.fvars p := by rwa [h.core.fvars]
  have hopened := Refiles.opened (x := { s.1.file f with
      off := 0
      readable := omode &&& O_WRONLY = 0
      writable := omode &&& O_WRONLY ≠ 0 ∨ omode &&& O_RDWR ≠ 0 }) hs h.core.used hmem
    ((h.core.ip f hf).trans hip) h.core.vars fun k hk => hlocks k ((h.core.lock k).mp hk)
  rw [h.core.fvars] at hopened
  refine does_refile (Function.update l.ips f (some j)) (a := ⟨⟩) h hs rfl hopened
    (fun g hg => ?_) fun t ht => ?_
  · by_cases hgf : g = f
    · rw [hgf, Function.update_self, Volume.opened, Function.update_self]
    · rw [Function.update_of_ne hgf, Volume.opened, Function.update_of_ne hgf]
      exact h.core.ip g hg
  · rw [h.core.ofile] at ht
    exact ht

end Volume

end Xv6
