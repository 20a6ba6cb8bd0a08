import Xv6.Grep.Match
import Xv6.Lib.Lines

/-!
# How `grep` reads

Each call of `read` appends a chunk to what is left in the buffer.  The lines that are complete
are searched, and the rest is moved to the front.  But if there is no complete line, nothing
is kept: `m` is set to 0, as if the buffer were full.  So a line that comes in three
chunks loses its beginning.  Nor is a line found from a zero byte on.
-/

namespace Xv6.Grep

open Lines

/-! ## The code -/

def newline : Byte := '\n'.toUInt8

/-- What is before the first `c`, and what is after it.  The string ends at a zero. -/
def strchr : List Byte → Byte → Option (List Byte × List Byte)
  | [], _ => none
  | x :: s, c =>
      if x = 0 then none
      else if x = c then some ([], s)
      else (strchr s c).map fun found => (x :: found.1, found.2)

theorem strchr_length {p line rest : List Byte} {c : Byte} (h : strchr p c = some (line, rest)) :
    rest.length < p.length := by
  induction p generalizing line rest with
  | nil => cases h
  | cons x p ih =>
      rw [strchr] at h
      split at h
      · cases h
      split at h
      · cases h
        exact Nat.lt_succ_self _
      · obtain ⟨⟨line', rest'⟩, hfound, hsame⟩ := Option.map_eq_some_iff.mp h
        cases hsame
        exact Nat.lt_succ_of_lt (ih hfound)

/-- The inner loop: what is written, and what `p` points to in the end. -/
def search (pattern p : List Byte) : List (List Byte) × List Byte :=
  match hfound : strchr p newline with
  | some (line, rest) =>
      let (out, p) := search pattern rest
      (if match' pattern line then (line ++ [newline]) :: out else out, p)
  | none => ([], p)
termination_by p.length
decreasing_by exact strchr_length hfound

/-- What is kept of the buffer, `if(p == buf) m = 0; if(m > 0) memmove(buf, p, m -= p - buf)`. -/
def keep (buf p : List Byte) : List Byte := if p.length = buf.length then [] else p

/-- The loop over what the calls of `read` return. -/
def grepLoop (pattern buf : List Byte) : List (List Byte) → List (List Byte)
  | [] => []
  | chunk :: chunks =>
      let (out, p) := search pattern (buf ++ chunk)
      out ++ grepLoop pattern (keep (buf ++ chunk) p) chunks

/-- What `grep` writes when the calls of `read` return these chunks. -/
def grep (pattern : List Byte) (chunks : List (List Byte)) : List (List Byte) :=
  grepLoop pattern [] chunks

/-- The lines of a stream that match. -/
def matching (pattern stream : List Byte) : List (List Byte) :=
  ((lines newline stream).filter fun line => match' pattern line).map fun line => line ++ [newline]

/-! ## The search -/

variable {pattern buf chunk p line rest stream : List Byte} {chunks : List (List Byte)}

/-- Before the last newline there are no zeroes. -/
def Clean (s : List Byte) : Prop := ∀ a b, s = a ++ b → newline ∈ b → 0 ∉ a

theorem Clean.of_append (h : Clean (line ++ rest)) : Clean rest := fun a b heq hmem hzero =>
  h (line ++ a) b (by rw [heq, List.append_assoc]) hmem (List.mem_append_right _ hzero)

theorem Clean.tail {c : Byte} (h : Clean (c :: rest)) : Clean rest :=
  @Clean.of_append [c] rest h

theorem clean_of_not_mem (h : newline ∉ stream) : Clean stream := fun a b heq hmem => by
  refine absurd ?_ h
  rw [heq]
  exact List.mem_append_right _ hmem

theorem clean_append (hzero : 0 ∉ line) (h : Clean rest) : Clean (line ++ rest) := by
  intro a b heq hmem hin
  rcases List.append_eq_append_iff.mp heq with ⟨c, rfl, hrest⟩ | ⟨c, rfl, rfl⟩
  · rcases List.mem_append.mp hin with hin | hin
    · exact hzero hin
    · exact h c b hrest hmem hin
  · exact hzero (List.mem_append_left _ hin)

theorem strchr_eq_some : strchr p newline = some (line, rest) ↔
    p = line ++ newline :: rest ∧ newline ∉ line ∧ 0 ∉ line := by
  induction p generalizing line with
  | nil =>
      refine iff_of_false (fun h => by cases h) ?_
      rintro ⟨h, -⟩
      simp at h
  | cons x p ih =>
      rw [strchr]
      split
      · rename_i hzero
        refine iff_of_false (fun h => by cases h) ?_
        rintro ⟨h, -, hnot⟩
        cases line with
        | nil =>
            obtain ⟨rfl, -⟩ := List.cons.inj h
            exact absurd hzero (by decide)
        | cons y line =>
            obtain ⟨rfl, -⟩ := List.cons.inj h
            exact hnot (List.mem_cons.mpr (Or.inl hzero.symm))
      rename_i hzero
      split
      · rename_i hx
        subst hx
        constructor
        · intro h
          cases h
          exact ⟨rfl, List.not_mem_nil, List.not_mem_nil⟩
        · rintro ⟨h, hnot, -⟩
          cases line with
          | nil =>
              obtain ⟨-, rfl⟩ := List.cons.inj h
              rfl
          | cons y line =>
              obtain ⟨rfl, -⟩ := List.cons.inj h
              exact absurd List.mem_cons_self hnot
      · rename_i hx
        rw [Option.map_eq_some_iff]
        constructor
        · rintro ⟨⟨line', rest'⟩, hfound, hsame⟩
          cases hsame
          obtain ⟨rfl, hnot, hnot'⟩ := ih.mp hfound
          refine ⟨rfl, fun hmem => ?_, fun hmem => ?_⟩
          · exact (List.mem_cons.mp hmem).elim (fun heq => hx heq.symm) hnot
          · exact (List.mem_cons.mp hmem).elim (fun heq => hzero heq.symm) hnot'
        · rintro ⟨h, hnot, hnot'⟩
          cases line with
          | nil => exact absurd (List.cons.inj h).1 hx
          | cons y line =>
              obtain ⟨rfl, rfl⟩ := List.cons.inj h
              refine ⟨(line, rest), ih.mpr ⟨rfl, ?_, ?_⟩, rfl⟩
              · exact fun hmem => hnot (List.mem_cons_of_mem _ hmem)
              · exact fun hmem => hnot' (List.mem_cons_of_mem _ hmem)

theorem search_line (hline : newline ∉ line) (hzero : 0 ∉ line) (rest : List Byte) :
    search pattern (line ++ newline :: rest) =
      (if match' pattern line then (line ++ [newline]) :: (search pattern rest).1
        else (search pattern rest).1, (search pattern rest).2) := by
  have hfound : strchr (line ++ newline :: rest) newline = some (line, rest) :=
    strchr_eq_some.mpr ⟨rfl, hline, hzero⟩
  rw [search]
  split
  · rename_i line' rest' h
    rw [hfound] at h
    cases h
    rfl
  · rename_i h
    rw [hfound] at h
    cases h

theorem search_none (h : strchr p newline = none) : search pattern p = ([], p) := by
  rw [search]
  split
  · rename_i h'
    rw [h] at h'
    cases h'
  · rfl

theorem strchr_none_of_not_mem (h : newline ∉ p) : strchr p newline = none := by
  cases hfound : strchr p newline with
  | none => rfl
  | some found =>
      obtain ⟨rfl, -, -⟩ := strchr_eq_some.mp hfound
      exact absurd (List.mem_append_right _ List.mem_cons_self) h

/-! ## If each chunk has a newline -/

/-- A chunk that comes before a newline has one, too. -/
def Whole (chunks : List (List Byte)) : Prop :=
  ∀ before chunk after, chunks = before ++ chunk :: after → newline ∈ after.flatten →
    newline ∈ chunk

theorem Whole.tail (h : Whole (chunk :: chunks)) : Whole chunks := fun before c after heq hmem =>
  h (chunk :: before) c after (by rw [heq, List.cons_append]) hmem

theorem matching_line (hline : newline ∉ line) (rest : List Byte) :
    matching pattern (line ++ newline :: rest) =
      if match' pattern line then (line ++ [newline]) :: matching pattern rest
      else matching pattern rest := by
  rw [matching, lines_cons hline, List.filter_cons]
  split
  · rw [List.map_cons, matching]
  · rfl

theorem matching_of_not_mem (h : newline ∉ stream) : matching pattern stream = [] := by
  rw [matching, lines_of_not_mem h]
  rfl

variable (pattern) in
/-- The lines that are complete are searched, and the rest of the buffer has none. -/
theorem search_clean (h : Clean p) (rest : List Byte) :
    ∃ left, (search pattern p).2 = left ∧ newline ∉ left ∧
      matching pattern (p ++ rest) = (search pattern p).1 ++ matching pattern (left ++ rest) := by
  induction p using @line_induction _ _ newline with
  | hlast p hp =>
      rw [search_none (strchr_none_of_not_mem hp)]
      exact ⟨p, rfl, hp, rfl⟩
  | hline line p hline ih =>
      have hzero := h line (newline :: p) rfl List.mem_cons_self
      have hrest : Clean p := h.of_append.tail
      obtain ⟨left, hleft, hnot, hmatching⟩ := ih hrest
      rw [search_line hline hzero, List.append_assoc, List.cons_append, matching_line hline,
        hmatching]
      refine ⟨left, hleft, hnot, ?_⟩
      split <;> rfl

theorem search_length_le (pattern p : List Byte) : (search pattern p).2.length ≤ p.length := by
  induction hlen : p.length using Nat.strong_induction_on generalizing p with
  | _ len ih =>
  subst hlen
  cases hfound : strchr p newline with
  | none => rw [search_none hfound]
  | some found =>
      obtain ⟨line, rest⟩ := found
      obtain ⟨rfl, hline, hzero⟩ := strchr_eq_some.mp hfound
      rw [search_line hline hzero]
      refine (ih rest.length (strchr_length hfound) rest rfl).trans ?_
      exact (strchr_length hfound).le

theorem grepLoop_cons (pattern buf chunk : List Byte) (chunks : List (List Byte)) :
    grepLoop pattern buf (chunk :: chunks) = (search pattern (buf ++ chunk)).1 ++
      grepLoop pattern (keep (buf ++ chunk) (search pattern (buf ++ chunk)).2) chunks := rfl

/-- Something is found if there is a line. -/
theorem search_length_lt (pattern rest : List Byte) (hline : newline ∉ line) (hzero : 0 ∉ line) :
    (search pattern (line ++ newline :: rest)).2.length < (line ++ newline :: rest).length := by
  have hle := search_length_le pattern rest
  rw [search_line hline hzero, List.length_append, List.length_cons]
  calc (search pattern rest).2.length
      ≤ rest.length := hle
    _ < line.length + (rest.length + 1) := by omega

theorem Clean.search_length (h : Clean p) (hlen : (search pattern p).2.length = p.length) :
    newline ∉ p := by
  intro hmem
  obtain ⟨line, rest, rfl, hline⟩ := exists_line hmem
  have hzero := h line (newline :: rest) rfl List.mem_cons_self
  exact (search_length_lt pattern rest hline hzero).ne hlen

/-- If there is no newline in a chunk, then there is none after it. -/
theorem Whole.not_mem (h : Whole (chunk :: chunks)) (hchunk : newline ∉ chunk) :
    newline ∉ chunks.flatten := fun hmem => hchunk (h [] chunk chunks rfl hmem)

theorem clean_append_left {a b : List Byte} (h : Clean (a ++ b)) : Clean a := by
  intro x y heq hmem
  refine h x (y ++ b) ?_ (List.mem_append_left _ hmem)
  rw [heq, List.append_assoc]

/-- What is left of a clean text is clean, with what comes after it. -/
theorem clean_search (h : Clean (p ++ rest)) : Clean ((search pattern p).2 ++ rest) := by
  induction p using @line_induction _ _ newline with
  | hlast p hp =>
      rw [search_none (strchr_none_of_not_mem hp)]
      exact h
  | hline line p hline ih =>
      rw [List.append_assoc, List.cons_append] at h
      have hzero := h line (newline :: (p ++ rest)) rfl List.mem_cons_self
      rw [search_line hline hzero]
      exact ih h.of_append.tail

theorem grepLoop_whole (hwhole : Whole chunks) (hclean : Clean (buf ++ chunks.flatten))
    (hbuf : newline ∉ buf) :
    grepLoop pattern buf chunks = matching pattern (buf ++ chunks.flatten) := by
  induction chunks generalizing buf with
  | nil =>
      rw [List.flatten_nil, List.append_nil, matching_of_not_mem hbuf]
      rfl
  | cons chunk chunks ih =>
      rw [List.flatten_cons, ← List.append_assoc] at hclean ⊢
      have hfirst : Clean (buf ++ chunk) := clean_append_left hclean
      obtain ⟨left, hleft, hnot, hmatching⟩ := search_clean pattern hfirst
        chunks.flatten
      have hrest : Clean (left ++ chunks.flatten) := hleft ▸ clean_search hclean
      rw [grepLoop_cons, hmatching, hleft, keep]
      refine congrArg _ ?_
      split
      · -- nothing was found, and so nothing is left to be found
        rename_i hlen
        have hnone : newline ∉ buf ++ chunk := hfirst.search_length (hleft ▸ hlen)
        have hafter : newline ∉ chunks.flatten :=
          hwhole.not_mem fun hmem => hnone (List.mem_append_right _ hmem)
        have hall : newline ∉ left ++ chunks.flatten := fun hmem =>
          (List.mem_append.mp hmem).elim hnot hafter
        rw [ih hwhole.tail (clean_of_not_mem hafter) List.not_mem_nil, List.nil_append,
          matching_of_not_mem hafter, matching_of_not_mem hall]
      · exact ih hwhole.tail hrest hnot

/-! ## If all lines match -/

theorem match_nil : match' [] line = true := by
  cases line <;> simp [match', matchFrom, matchhere]

/-- An empty pattern matches each line, so that all that is searched is written. -/
theorem search_nil (p rest : List Byte) :
    p = (search [] p).1.flatten ++ (search [] p).2 ∧ 0 ∉ (search [] p).1.flatten ∧
      strchr (search [] p).2 newline = none ∧
      terminated newline ((search [] p).1.flatten ++ rest) =
        (search [] p).1.flatten.length + terminated newline rest := by
  induction hlen : p.length using Nat.strong_induction_on generalizing p with
  | _ len ih =>
  subst hlen
  cases hfound : strchr p newline with
  | none =>
      rw [search_none hfound]
      exact ⟨rfl, List.not_mem_nil, hfound, (Nat.zero_add _).symm⟩
  | some found =>
      obtain ⟨line, after⟩ := found
      obtain ⟨rfl, hline, hzero⟩ := strchr_eq_some.mp hfound
      obtain ⟨heq, hnot, hnone, hlines⟩ := ih after.length (strchr_length hfound) after rfl
      rw [search_line hline hzero, if_pos match_nil, List.flatten_cons]
      refine ⟨?_, ?_, hnone, ?_⟩
      · rw [List.append_assoc, List.append_assoc, ← heq]
        rfl
      · intro hmem
        rcases List.mem_append.mp hmem with hmem | hmem
        · rcases List.mem_append.mp hmem with hmem | hmem
          · exact hzero hmem
          · exact absurd (List.mem_singleton.mp hmem) (by decide)
        · exact hnot hmem
      · have hfirst := terminated_append hline (search [] after).1.flatten rest
        rw [List.append_assoc, List.append_assoc, List.length_append, List.length_append,
          List.length_singleton]
        rw [List.append_assoc, List.cons_append] at hfirst
        rw [List.singleton_append, hfirst, hlines]
        omega

theorem flatten_matching_nil (s : List Byte) :
    (matching [] s).flatten.length = terminated newline s := by
  induction s using @line_induction _ _ newline with
  | hlast s hs => rw [matching_of_not_mem hs, terminated_of_not_mem hs]; rfl
  | hline line s hline ih =>
      have hfirst := terminated_append hline [] s
      rw [matching_line hline, if_pos match_nil, List.flatten_cons, List.length_append, ih]
      rw [List.append_assoc] at hfirst
      rw [List.length_append, List.length_singleton]
      exact hfirst.symm

theorem not_mem_of_terminated {s : List Byte} (h : terminated newline s = 0) : newline ∉ s := by
  intro hmem
  obtain ⟨line, rest, rfl, hline⟩ := exists_line hmem
  have hfirst := terminated_append hline [] rest
  rw [List.append_assoc] at hfirst
  have : line.length + 1 + terminated newline ([] ++ rest) = 0 := hfirst.symm.trans h
  omega

/-- A newline that is found is in the new chunk. -/
theorem strchr_append_none (hbuf : strchr buf newline = none) (hchunk : newline ∉ chunk) :
    strchr (buf ++ chunk) newline = none := by
  cases hfound : strchr (buf ++ chunk) newline with
  | none => rfl
  | some found =>
      obtain ⟨line, rest⟩ := found
      obtain ⟨heq, hline, hzero⟩ := strchr_eq_some.mp hfound
      rcases List.append_eq_append_iff.mp heq with ⟨c, rfl, hrest⟩ | ⟨c, rfl, hrest⟩
      · refine absurd ?_ hchunk
        rw [hrest]
        exact List.mem_append_right _ List.mem_cons_self
      · cases c with
        | nil =>
            refine absurd ?_ hchunk
            rw [List.nil_append] at hrest
            rw [← hrest]
            exact List.mem_cons_self
        | cons x c =>
            obtain ⟨rfl, -⟩ := List.cons.inj hrest
            rw [strchr_eq_some.mpr ⟨rfl, hline, hzero⟩] at hbuf
            cases hbuf

theorem whole_of_not_mem (h : newline ∉ chunks.flatten) : Whole chunks := by
  intro before chunk after heq hmem
  refine absurd ?_ h
  rw [heq, List.flatten_append, List.flatten_cons]
  exact List.mem_append_right _ (List.mem_append_right _ hmem)

theorem Whole.cons (hchunk : newline ∈ chunk) (h : Whole chunks) : Whole (chunk :: chunks) := by
  intro before c after heq hmem
  cases before with
  | nil =>
      obtain ⟨rfl, -⟩ := List.cons.inj heq
      exact hchunk
  | cons b before => exact h before c after (List.cons.inj heq).2 hmem

/-- No more is written than there is, and if all of it is written, nothing was cut off. -/
theorem grepLoop_nil (hchunks : ∀ chunk ∈ chunks, chunk ≠ [])
    (hbuf : strchr buf newline = none) :
    (grepLoop [] buf chunks).flatten.length ≤ terminated newline (buf ++ chunks.flatten) ∧
      ((grepLoop [] buf chunks).flatten.length = terminated newline (buf ++ chunks.flatten) →
        Clean (buf ++ chunks.flatten) ∧ Whole chunks) := by
  induction chunks generalizing buf with
  | nil =>
      refine ⟨Nat.zero_le _, fun heq => ⟨?_, whole_of_not_mem List.not_mem_nil⟩⟩
      rw [List.flatten_nil, List.append_nil] at heq ⊢
      exact clean_of_not_mem (not_mem_of_terminated heq.symm)
  | cons chunk chunks ih =>
      have hnonempty : chunk ≠ [] := hchunks chunk List.mem_cons_self
      have htail : ∀ c ∈ chunks, c ≠ [] := fun c hc => hchunks c (List.mem_cons_of_mem _ hc)
      obtain ⟨heq, hzero, hnone, hlines⟩ := search_nil (buf ++ chunk)
        ((search [] (buf ++ chunk)).2 ++ chunks.flatten)
      have hlength : (buf ++ chunk).length =
          (search [] (buf ++ chunk)).1.flatten.length + (search [] (buf ++ chunk)).2.length :=
        (congrArg List.length heq).trans List.length_append
      rw [List.flatten_cons, ← List.append_assoc, grepLoop_cons, List.flatten_append,
        List.length_append, keep]
      split
      · -- nothing was found, and what is read so far is lost
        rename_i hlen
        obtain ⟨hle, -⟩ := @ih [] htail rfl
        rw [List.nil_append] at hle
        by_cases hmem : newline ∈ chunks.flatten
        · have hpos : 0 < chunk.length := List.length_pos_iff.mpr hnonempty
          have hall := terminated_append_of_mem hmem (buf ++ chunk)
          have hsum : (buf ++ chunk).length = buf.length + chunk.length := List.length_append
          exact ⟨by omega, fun h => by omega⟩
        · rw [terminated_of_not_mem hmem] at hle
          refine ⟨by omega, fun h => ?_⟩
          have hclean : newline ∉ buf ++ chunk ++ chunks.flatten :=
            not_mem_of_terminated (by omega)
          refine ⟨clean_of_not_mem hclean, whole_of_not_mem fun h => hclean ?_⟩
          exact List.mem_append.mpr ((List.mem_append.mp h).imp (List.mem_append_right _) id)
      · rename_i hlen
        obtain ⟨hle, hih⟩ := ih htail hnone
        have hsame : buf ++ chunk ++ chunks.flatten = (search [] (buf ++ chunk)).1.flatten ++
            ((search [] (buf ++ chunk)).2 ++ chunks.flatten) := by
          rw [← List.append_assoc, ← heq]
        rw [hsame, hlines]
        refine ⟨Nat.add_le_add_left hle _, fun h => ?_⟩
        obtain ⟨hclean, hwhole⟩ := hih (Nat.add_left_cancel h)
        refine ⟨clean_append hzero hclean, hwhole.cons (by_contra fun hchunk => hlen ?_)⟩
        rw [search_none (strchr_append_none hbuf hchunk)]

/-! ## When `grep` writes the lines that match -/

/-- If each chunk before a newline has one, and no zero is before a newline, then `grep` writes
the lines that match; otherwise there is a pattern for which it does not. -/
theorem grep_eq_matching_iff (hchunks : ∀ chunk ∈ chunks, chunk ≠ []) :
    (∀ pattern, grep pattern chunks = matching pattern chunks.flatten) ↔
      Whole chunks ∧ Clean chunks.flatten := by
  constructor
  · intro h
    have hlength : (grepLoop [] [] chunks).flatten.length =
        terminated newline ([] ++ chunks.flatten) := by
      rw [List.nil_append, ← flatten_matching_nil, ← h []]
      rfl
    exact ((grepLoop_nil hchunks rfl).2 hlength).symm
  · rintro ⟨hwhole, hclean⟩ pattern
    exact grepLoop_whole hwhole hclean List.not_mem_nil

/-- Two lines in two chunks. -/
theorem grep_two_chunks :
    grep [97] [[97, newline], [98, newline]] = matching [97] [97, newline, 98, newline] := by
  refine (grep_eq_matching_iff ?_).mpr ⟨?_, ?_⟩ [97]
  · decide
  · exact ((@whole_of_not_mem [] List.not_mem_nil).cons (by decide)).cons (by decide)
  · exact @clean_append [97, newline, 98, newline] _ (by decide)
      (clean_of_not_mem List.not_mem_nil)

/-- The line `ab` in two chunks: `grep` writes `b`. -/
theorem grep_cuts_line :
    ¬ ∀ (pattern : List Byte) (chunks : List (List Byte)), (∀ chunk ∈ chunks, chunk ≠ []) →
      (∀ line ∈ lines newline chunks.flatten, line.length + 1 < 1023) →
        grep pattern chunks = matching pattern chunks.flatten := by
  intro h
  have hall := h [] [[97], [98, newline]] (by decide) (by decide)
  have hfirst : search [] [97] = ([], [97]) := search_none rfl
  have hlast : search [] [] = ([], []) := search_none rfl
  have hsecond : search [] [98, newline] = ([[98, newline]], []) := by
    rw [show [98, newline] = [98] ++ newline :: [] from rfl,
      search_line (by decide) (by decide), hlast, if_pos match_nil]
  have hgrep : grep [] [[97], [98, newline]] = [[98, newline]] := by
    rw [grep, grepLoop_cons, List.nil_append, hfirst, grepLoop_cons]
    change (search [] [98, newline]).1 ++ _ = _
    rw [hsecond]
    rfl
  have hmatching : matching [] [97, 98, newline] = [[97, 98, newline]] := by
    rw [show [97, 98, newline] = [97, 98] ++ newline :: [] from rfl,
      matching_line (by decide), if_pos match_nil]
    rfl
  exact absurd (hgrep.symm.trans (hall.trans hmatching)) (by decide)

end Xv6.Grep
