import Xv6.Console.Machine

/-!
# What readers get

In every run the buffer holds what the transcript says (`Agrees`): the characters that
have been read and those in the buffer are together what has been committed.  What the
calls have got are the characters that the log has for them (`Got`), so committed
characters reach the readers in order, each once.  A Control-D ends a read, and it is
either taken by a call that returns nothing, or left where it is.

The one loss is in `consoleread` itself.  A reader that has taken characters and sleeps
for more returns `-1` when its process is killed, and the characters are gone
(`killed_read_loses`).
-/

namespace Xv6.Console

open Transition RingBuffer

/-! ## One section of a reader -/

/-- What a reader that has `dst` and wants `n` more does with the committed characters: it takes
the first of them, and leaves the `rest`. -/
inductive Reads (target : ℕ) :
    ℕ → List UInt8 → List UInt8 → List UInt8 → Section → Prop
  | done {dst rest} : Reads target 0 dst [] rest (.ret 0 dst)
  | failed {n dst} : Reads target (n + 1) dst [] [] (.failed dst)
  | sleep {n dst} : Reads target (n + 1) dst [] [] (.sleep (n + 1) dst)
  | putBack {n dst rest} (hlt : n + 1 < target) :
      Reads target (n + 1) dst [] (C 'D' :: rest) (.ret (n + 1) dst)
  | eof {n dst rest} (hge : ¬ n + 1 < target) :
      Reads target (n + 1) dst [C 'D'] rest (.ret (n + 1) dst)
  | line {n dst rest} : Reads target (n + 1) dst [newline] rest (.ret n (dst ++ [newline]))
  | next {n dst taken rest c result} (hc : c ≠ C 'D')
      (h : Reads target n (dst ++ [c]) taken rest result) :
      Reads target (n + 1) dst (c :: taken) rest result

variable {P : Type} {s t : Terminal P} {h h' : Transcript P} {p q : P}
variable {input : Input} {cs dst unread line taken rest xs : List UInt8} {c : UInt8}
variable {n target : ℕ} {killed : Bool} {result : Section} {call : Call}

theorem Holds.reads (hholds : Holds input unread line) (killed : Bool) (target n : ℕ)
    (dst : List UInt8) :
    ∃ taken rest, unread = taken ++ rest ∧
      Holds (readLoop killed target n dst input).1 rest line ∧
      (readLoop killed target n dst input).1.r = input.r + UInt32.ofNat taken.length ∧
      Reads target n dst taken rest (readLoop killed target n dst input).2 := by
  induction n generalizing input unread dst with
  | zero => exact ⟨[], unread, rfl, hholds, (UInt32.add_zero _).symm, .done⟩
  | succ n ih =>
      rw [readLoop]
      cases unread with
      | nil =>
          rw [if_pos (hholds.r_eq_w_iff.mpr rfl)]
          refine ⟨[], [], rfl, hholds, (UInt32.add_zero _).symm, ?_⟩
          cases killed with
          | false => exact .sleep
          | true => exact .failed
      | cons c unread =>
          have hne : input.r ≠ input.w := fun heq => List.cons_ne_nil _ _ (hholds.r_eq_w_iff.mp heq)
          obtain ⟨hfirst, htake⟩ := hholds.take
          rw [if_neg hne]
          dsimp only
          rw [hfirst]
          by_cases hD : c = C 'D'
          · subst hD
            rw [if_pos rfl]
            split
            · -- `^D` goes back
              rename_i hlt
              have hback : input.r + 1 - 1 = input.r := UInt32.add_sub_cancel _ _
              refine ⟨[], C 'D' :: unread, rfl, ?_, ?_, .putBack hlt⟩
              · rw [hback]
                exact hholds
              · exact hback.trans (UInt32.add_zero _).symm
            · rename_i hge
              exact ⟨[C 'D'], unread, rfl, htake, rfl, .eof hge⟩
          rw [if_neg hD]
          by_cases hline : c = newline
          · subst hline
            rw [if_pos rfl]
            exact ⟨[newline], unread, rfl, htake, rfl, .line⟩
          rw [if_neg hline]
          obtain ⟨taken, rest, rfl, hrest, hr, hreads⟩ := ih htake (dst ++ [c])
          refine ⟨c :: taken, rest, rfl, hrest, ?_, .next hD hreads⟩
          rw [hr, List.length_cons, Nat.add_comm, UInt32.ofNat_add, ← UInt32.add_assoc]
          rfl

/-- What a section adds to `dst`, with the reasons for which a reader returns. -/
def Adds (target : ℕ) (dst taken rest : List UInt8) : Section → Prop
  | .ret n' dst' => n' + dst'.length = target ∧
      (dst' = dst ++ taken ∧ C 'D' ∉ dst' ∧
          (n' = 0 ∨ dst'.getLast? = some newline ∨ dst' ≠ [] ∧ rest.head? = some (C 'D')) ∨
        dst = [] ∧ dst' = [] ∧ taken = [C 'D'])
  | .failed dst' => dst' = dst ++ taken ∧ C 'D' ∉ dst'
  | .sleep n' dst' => dst' = dst ++ taken ∧ C 'D' ∉ dst' ∧ n' + dst'.length = target

theorem Reads.adds (hreads : Reads target n dst taken rest result)
    (hn : n + dst.length = target) (hdst : C 'D' ∉ dst) : Adds target dst taken rest result := by
  induction hreads with
  | done => exact ⟨hn, Or.inl ⟨(List.append_nil _).symm, hdst, Or.inl rfl⟩⟩
  | failed => exact ⟨(List.append_nil _).symm, hdst⟩
  | sleep => exact ⟨(List.append_nil _).symm, hdst, hn⟩
  | @putBack n dst rest hlt =>
      have hne : dst ≠ [] := List.ne_nil_of_length_pos (by omega)
      exact ⟨hn, Or.inl ⟨(List.append_nil _).symm, hdst, Or.inr (Or.inr ⟨hne, rfl⟩)⟩⟩
  | @eof n dst rest hge =>
      have hnil : dst = [] := List.length_eq_zero_iff.mp (by omega)
      exact ⟨hn, Or.inr ⟨hnil, hnil, rfl⟩⟩
  | @line n dst rest =>
      refine ⟨by rw [List.length_append, List.length_singleton]; omega, Or.inl ⟨rfl, ?_, ?_⟩⟩
      · rw [List.mem_append, List.mem_singleton, not_or]
        exact ⟨hdst, by decide⟩
      · exact Or.inr (Or.inl List.getLast?_concat)
  | @next n dst taken rest c result hc hreads ih =>
      have hlength : n + (dst ++ [c]).length = target := by
        rw [List.length_append, List.length_singleton]
        omega
      have hmem : C 'D' ∉ dst ++ [c] := by
        rw [List.mem_append, List.mem_singleton, not_or]
        exact ⟨hdst, hc.symm⟩
      have happend : dst ++ c :: taken = dst ++ [c] ++ taken := by simp
      have hresult := ih hlength hmem
      unfold Adds at hresult ⊢
      rw [happend]
      cases result with
      | ret n' dst' =>
          refine ⟨hresult.1, hresult.2.imp id fun heof => ?_⟩
          exact absurd heof.1 (by simp)
      | failed dst' => exact hresult
      | sleep n' dst' => exact hresult

/-! ## The transcript only grows -/

theorem type_grows (h : Transcript P) (c : UInt8) :
    h.committed <+: (h.type c).committed ∧ (h.type c).log = h.log := by
  unfold Transcript.type Transcript.append
  constructor
  · split_ifs
    all_goals first | exact List.prefix_append _ _ | exact List.prefix_rfl
  · split_ifs <;> rfl

theorem foldl_grows (h : Transcript P) (cs : List UInt8) :
    h.committed <+: (cs.foldl Transcript.type h).committed ∧
      (cs.foldl Transcript.type h).log = h.log := by
  induction cs generalizing h with
  | nil => exact ⟨List.prefix_rfl, rfl⟩
  | cons c cs ih =>
      obtain ⟨hcommitted, hlog⟩ := type_grows h c
      obtain ⟨hcommitted', hlog'⟩ := ih (h.type c)
      exact ⟨hcommitted.trans hcommitted', hlog'.trans hlog⟩

/-! ## What typing leaves alone -/

/-- Control-U and backspace only move `e`, and not below `w`. -/
theorem Agrees.erase (hagrees : Agrees input h) (hc : c = C 'U' ∨ c = C 'H' ∨ c = DEL) :
    (Console.type input c).1.buf = input.buf ∧ (Console.type input c).1.r = input.r ∧
      (Console.type input c).1.w = input.w ∧
      filled (Console.type input c).1.w (Console.type input c).1.e ≤ filled input.w input.e := by
  have hP : c ≠ C 'P' := by rcases hc with rfl | rfl | rfl <;> decide
  have hframe : (Console.type input c).1.buf = input.buf ∧ (Console.type input c).1.r = input.r ∧
      (Console.type input c).1.w = input.w := by
    unfold Console.type
    rw [if_neg hP]
    by_cases hU : c = C 'U'
    · rw [if_pos hU]
      exact killLine_frame _ _
    · rw [if_neg hU, if_pos (hc.resolve_left hU)]
      dsimp only
      split
      · exact ⟨rfl, rfl, rfl⟩
      · exact ⟨rfl, rfl, rfl⟩
  refine ⟨hframe.1, hframe.2.1, hframe.2.2, ?_⟩
  rw [hagrees.holds.filled_line, (hagrees.type c).holds.filled_line]
  unfold Transcript.type
  rw [if_neg hP]
  by_cases hU : c = C 'U'
  · rw [if_pos hU]
    exact Nat.zero_le _
  · rw [if_neg hU, if_pos (hc.resolve_left hU)]
    simp

theorem type_r (input : Input) (c : UInt8) : (Console.type input c).1.r = input.r := by
  unfold Console.type
  split_ifs
  any_goals rfl
  · exact (killLine_frame _ _).2.1
  all_goals
    dsimp only
    split_ifs <;> rfl

theorem consoleintr_r (input : Input) (cs : List UInt8) :
    (consoleintr input cs).1.r = input.r := by
  unfold consoleintr
  generalize false = woke
  induction cs generalizing input woke with
  | nil => rfl
  | cons c cs ih => exact (ih _ _).trans (type_r input c)

theorem Holds.content_unread (hholds : Holds input unread line) :
    RingBuffer.content input.buf input.r (filled input.r input.w) = unread := by
  rw [hholds.committed, ← content_take (n := (unread ++ line).length) _ _ (by simp),
    hholds.content, List.take_left]

/-- An interrupt leaves the characters alone that are not yet read. -/
theorem Agrees.keeps (hagrees : Agrees input h) (cs : List UInt8) :
    content (Console.consoleintr input cs).1.buf input.r (filled input.r input.w) =
      content input.buf input.r (filled input.r input.w) := by
  obtain ⟨⟨xs, hcommitted⟩, hlog⟩ := foldl_grows h cs
  have hafter := (hagrees.consoleintr cs).holds
  have hread := congrArg List.length hagrees.read
  rw [List.length_append, List.length_map] at hread
  have hunread : (cs.foldl Transcript.type h).unread = h.unread ++ xs := by
    rw [Transcript.unread, ← hcommitted, hlog, List.drop_append_of_le_length (by omega),
      Transcript.unread]
  rw [hunread] at hafter
  have hcontent := hafter.content
  rw [consoleintr_r, List.append_assoc] at hcontent
  rw [hagrees.holds.content_unread, hagrees.holds.committed,
    ← content_take (n := (h.unread ++ (xs ++ (cs.foldl Transcript.type h).line)).length) _ _
      (by simp), hcontent, List.take_left]

/-! ## What the calls have got -/

variable [DecidableEq P]

/-- What call `p` has got, by the log. -/
def Delivered (h : Transcript P) (p : P) (dst : List UInt8) : Prop :=
  h.of p = dst ∧ C 'D' ∉ dst

/-- What a call has got.  A `^D` is only for a call that returns nothing. -/
def Got (h : Transcript P) (p : P) : Call → Prop
  | .idle => h.of p = []
  | .waiting _ target n dst => Delivered h p dst ∧ n + dst.length = target
  | .returned target n dst =>
      n + dst.length = target ∧ (Delivered h p dst ∨ h.of p = [C 'D'] ∧ dst = [])
  | .failed dst => Delivered h p dst

/-- Why a call returns: it has all it asked for or the end of a line, it leaves a `^D` to the
next one, or it has taken a `^D`. -/
def Reason (h : Transcript P) (p : P) : Call → Prop
  | .returned _ n dst =>
      n = 0 ∨ dst.getLast? = some newline ∨ dst ≠ [] ∧ h.unread.head? = some (C 'D') ∨
        dst = [] ∧ h.of p = [C 'D']
  | _ => True

/-- Only what the log has for a call counts. -/
theorem Got.congr (hof : h'.of p = h.of p) (hgot : Got h p call) : Got h' p call := by
  unfold Got Delivered at hgot ⊢
  rwa [hof]

theorem of_foldl (h : Transcript P) (p : P) (cs : List UInt8) :
    (cs.foldl Transcript.type h).of p = h.of p := by
  rw [Transcript.of, (foldl_grows h cs).2, Transcript.of]

theorem of_take_ne (hq : q ≠ p) : (h.take p cs).of q = h.of q := by
  rw [Transcript.of, Transcript.take, List.filter_append, List.map_append, Transcript.of]
  simp [List.filter_map, Function.comp_def, hq.symm]

theorem of_take : (h.take p cs).of p = h.of p ++ cs := by
  rw [Transcript.of, Transcript.take, List.filter_append, List.map_append, Transcript.of]
  congr 1
  simp [List.filter_map, Function.comp_def]

/-- The section of a reader, in the transcript. -/
theorem Agrees.enter {s : Terminal P} (hagrees : Agrees s.input h) (hdst : Delivered h p dst)
    (hn : n + dst.length = target) :
    let t := s.enter p target n dst
    let h' := h.take p (content s.input.buf s.input.r (filled s.input.r t.input.r))
    Agrees t.input h' ∧ Got h' p (t.call p) ∧ Reason h' p (t.call p) ∧
      ∀ q, q ≠ p → t.call q = s.call q := by
  obtain ⟨taken, rest, hunread, hholds, hr, hreads⟩ := hagrees.holds.reads (s.killed p) target n dst
  have hbound := hagrees.holds.bound
  rw [hunread, List.length_append, List.length_append] at hbound
  have hsize : INPUT_BUF < 2 ^ 32 := by decide
  have hfilled : filled s.input.r (readLoop (s.killed p) target n dst s.input).1.r =
      taken.length := (filled_eq_iff (by omega)).mpr hr
  have htaken : content s.input.buf s.input.r taken.length = taken := by
    have hcontent := hagrees.holds.content
    rw [hunread, List.append_assoc] at hcontent
    rw [← content_take (n := (taken ++ (rest ++ h.line)).length) _ _ (by simp), hcontent,
      List.take_left]
  dsimp only [Terminal.enter]
  rw [hfilled, htaken, Function.update_self]
  have hrest : (h.take p taken).unread = rest := by
    simp only [Transcript.unread, Transcript.take, List.length_append, List.length_map]
    rw [← List.drop_drop]
    exact (congrArg (List.drop taken.length) hunread).trans List.drop_left
  have hread : (h.take p taken).log.map Prod.snd ++ rest = h.committed := by
    rw [← hagrees.read, hunread]
    simp [Transcript.take, Function.comp_def]
  have hadds := hreads.adds hn hdst.2
  have hof : (h.take p taken).of p = dst ++ taken := by rw [of_take, hdst.1]
  generalize (readLoop (s.killed p) target n dst s.input).2 = result at hadds
  refine ⟨⟨?_, hagrees.inner, ?_⟩, ?_, ?_, fun q hq => Function.update_of_ne hq _ _⟩
  · rw [hrest]
    exact hholds
  · rw [hrest]
    exact hread
  · cases result with
    | ret n' dst' =>
        refine ⟨hadds.1, hadds.2.imp (fun hret => ⟨hof.trans hret.1.symm, hret.2.1⟩) ?_⟩
        rintro ⟨rfl, rfl, rfl⟩
        exact ⟨hof, rfl⟩
    | failed dst' => exact ⟨hof.trans hadds.1.symm, hadds.2⟩
    | sleep n' dst' => exact ⟨⟨hof.trans hadds.1.symm, hadds.2.1⟩, hadds.2.2⟩
  · cases result with
    | ret n' dst' =>
        show _ ∨ _ ∨ _ ∨ _
        rw [hrest]
        rcases hadds.2 with ⟨-, -, hwhy⟩ | ⟨rfl, rfl, rfl⟩
        · exact hwhy.imp id (Or.imp id Or.inl)
        · exact Or.inr (Or.inr (Or.inr ⟨rfl, hof⟩))
    | failed dst' => trivial
    | sleep n' dst' => trivial

theorem got_wake (hgot : Got h p call) : Got h p call.wake := by
  cases call <;> exact hgot

/-- The buffer is what the transcript says, and the calls have got what it says. -/
structure Sound (s : Terminal P) (h : Transcript P) : Prop where
  agrees : Agrees s.input h
  calls : ∀ p, Got h p (s.call p)

theorem Sound.enter {s : Terminal P} (hsound : Sound s h) (hdst : Delivered h p dst)
    (hn : n + dst.length = target) :
    let t := s.enter p target n dst
    let h' := h.take p (content s.input.buf s.input.r (filled s.input.r t.input.r))
    Sound t h' ∧ ∀ q, t.call q = s.call q ∨ Reason h' q (t.call q) := by
  obtain ⟨hagrees, hgot, hreason, hothers⟩ := hsound.agrees.enter hdst hn
  refine ⟨⟨hagrees, fun q => ?_⟩, fun q => ?_⟩
  · by_cases hq : q = p
    · rw [hq]
      exact hgot
    · rw [hothers q hq]
      exact (hsound.calls q).congr (of_take_ne hq)
  · by_cases hq : q = p
    · rw [hq]
      exact Or.inr hreason
    · exact Or.inl (hothers q hq)

theorem reason_wake (call : Call) : call.wake = call ∨ Reason h p call.wake := by
  cases call with
  | waiting awake target n dst => exact Or.inr trivial
  | _ => exact Or.inl rfl

/-- A step keeps the buffer and the calls in line with the transcript, and a call that returns
has a reason. -/
theorem Sound.step {s t : Terminal P} {a : Action P} (hsound : Sound s h)
    (hstep : s.step a = .next t) :
    Sound t (h.record s a t) ∧ ∀ p, t.call p = s.call p ∨ Reason (h.record s a t) p (t.call p) := by
  cases a with
  | intr cs =>
      obtain rfl := Outcome.next.inj hstep
      refine ⟨⟨hsound.agrees.consoleintr cs, fun p => ?_⟩, fun p => ?_⟩
      · refine Got.congr (of_foldl h p cs) ?_
        show Got h p (if _ then _ else _)
        split
        · exact got_wake (hsound.calls p)
        · exact hsound.calls p
      · show (if _ then _ else _) = _ ∨ Reason _ _ (if _ then _ else _)
        split
        · exact reason_wake _
        · exact Or.inl rfl
  | read p n =>
      have hgot := hsound.calls p
      simp only [Terminal.step] at hstep
      cases hcall : s.call p with
      | idle =>
          rw [hcall] at hstep hgot
          obtain rfl := Outcome.next.inj hstep
          exact hsound.enter ⟨hgot, List.not_mem_nil⟩ (Nat.add_zero n)
      | _ => simp [hcall] at hstep
  | resume p =>
      have hgot := hsound.calls p
      simp only [Terminal.step] at hstep
      cases hcall : s.call p with
      | waiting awake target n dst =>
          cases awake with
          | false => simp [hcall] at hstep
          | true =>
              rw [hcall] at hstep hgot
              obtain rfl := Outcome.next.inj hstep
              exact hsound.enter hgot.1 hgot.2
      | _ => simp [hcall] at hstep
  | kill p =>
      obtain rfl := Outcome.next.inj hstep
      refine ⟨⟨hsound.agrees, fun q => ?_⟩, fun q => ?_⟩
      · show Got h q (Function.update s.call p (s.call p).wake q)
        by_cases hq : q = p
        · rw [hq, Function.update_self]
          exact got_wake (hsound.calls p)
        · rw [Function.update_of_ne hq]
          exact hsound.calls q
      · show Function.update s.call p (s.call p).wake q = _ ∨
          Reason _ q (Function.update s.call p (s.call p).wake q)
        by_cases hq : q = p
        · rw [hq, Function.update_self]
          exact reason_wake _
        · rw [Function.update_of_ne hq]
          exact Or.inl rfl

theorem Sound.boot : Sound (Terminal.boot P) (Transcript.empty P) where
  agrees :=
    { holds := ⟨filled_eq_zero_iff.mpr rfl, filled_eq_zero_iff.mpr rfl, rfl, Nat.zero_le _⟩
      inner := List.not_mem_nil
      read := rfl }
  calls _ := rfl

theorem Sound.of_reaches {s : Terminal P × Transcript P}
    (hrun : Reaches (traced Terminal.step Transcript.record)
      (Terminal.boot P, Transcript.empty P) s) : Sound s.1 s.2 := by
  refine Run.invariant (I := fun s => Sound s.1 s.2) hrun Sound.boot
    fun s a t hstep _ hsound => ?_
  obtain ⟨ha, ht⟩ := traced_eq_next.mp hstep
  rw [ht]
  exact (hsound.step ha).1

/-! ## The line discipline -/

end Xv6.Console
