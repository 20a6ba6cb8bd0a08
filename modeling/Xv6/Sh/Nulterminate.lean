import Mathlib.Data.List.GetD
import Xv6.Sh.Correct

/-!
# The ends of the words

`nulterminate` writes a NUL behind each word of the tree, into the buffer that was parsed.
There is a blank, an operator or the end of the text there, and so no word is changed.
-/

namespace Xv6.Sh

variable {buf : List Char} {text q eq w rest : Ptr} {a : Ptr × Ptr} {ts us : List Token} {cmd : Cmd}
variable {rs rs' : List Redirection} {argv as : List (Ptr × Ptr)} {len i n : ℕ}

/-! ## The code -/

/-- The index in the buffer, if the text has this length. -/
def index (len : ℕ) (p : Ptr) : ℕ := len - p.length

/-- The recursion of `nulterminate` over the tree. -/
def nulterminate (len : ℕ) : Cmd → List Char → List Char
  | .exec argv, buf => argv.foldl (fun buf a => buf.set (index len a.2) '\x00') buf
  | .redir cmd _ efile _ _, buf => (nulterminate len cmd buf).set (index len efile) '\x00'
  | .pipe left right, buf => nulterminate len right (nulterminate len left buf)
  | .list left right, buf => nulterminate len right (nulterminate len left buf)
  | .back cmd, buf => nulterminate len cmd buf

/-- The words and file names of a tree, each as its beginning and its end. -/
def Cmd.spans : Cmd → List (Ptr × Ptr)
  | .exec argv => argv
  | .redir cmd file efile _ _ => cmd.spans ++ [(file, efile)]
  | .pipe left right => left.spans ++ right.spans
  | .list left right => left.spans ++ right.spans
  | .back cmd => cmd.spans

/-! ## Which bytes are written -/

/-- A NUL at the end of each. -/
def terminate (len : ℕ) (as : List (Ptr × Ptr)) (buf : List Char) : List Char :=
  as.foldl (fun buf a => buf.set (index len a.2) '\x00') buf

theorem nulterminate_eq (len : ℕ) (cmd : Cmd) (buf : List Char) :
    nulterminate len cmd buf = terminate len cmd.spans buf := by
  induction cmd generalizing buf with
  | exec argv => rfl
  | redir cmd file efile mode fd ih =>
      rw [nulterminate, ih, Cmd.spans, terminate, terminate, List.foldl_append]
      rfl
  | pipe left right ihleft ihright =>
      rw [nulterminate, ihleft, ihright, Cmd.spans, terminate, terminate, terminate,
        List.foldl_append]
  | list left right ihleft ihright =>
      rw [nulterminate, ihleft, ihright, Cmd.spans, terminate, terminate, terminate,
        List.foldl_append]
  | back cmd ih => exact ih buf

theorem getElem?_terminate_of_ne (h : ∀ a ∈ as, index len a.2 ≠ i) :
    (terminate len as buf)[i]? = buf[i]? := by
  induction as generalizing buf with
  | nil => rfl
  | cons a as ih =>
      have hfirst : index len a.2 ≠ i := h a List.mem_cons_self
      calc (terminate len (a :: as) buf)[i]?
          = (buf.set (index len a.2) '\x00')[i]? := ih fun b hb => h b (List.mem_cons_of_mem _ hb)
        _ = buf[i]? := List.getElem?_set_ne hfirst

theorem nul_set {k : ℕ} (h : k ≠ i → ∀ c ∈ buf[i]?, c = '\x00') :
    ∀ c ∈ (buf.set k '\x00')[i]?, c = '\x00' := by
  intro c hc
  by_cases hk : k = i
  · subst hk
    rw [List.getElem?_set_self'] at hc
    obtain ⟨d, -, rfl⟩ := Option.map_eq_some_iff.mp hc
    rfl
  · rw [List.getElem?_set_ne hk] at hc
    exact h hk c hc

/-- A NUL is never overwritten by another character. -/
theorem nul_terminate (h : ∀ c ∈ buf[i]?, c = '\x00') :
    ∀ c ∈ (terminate len as buf)[i]?, c = '\x00' := by
  induction as generalizing buf with
  | nil => exact h
  | cons a as ih => exact ih (nul_set fun _ => h)

theorem nul_terminate_of_mem (ha : a ∈ as) :
    ∀ c ∈ (terminate len as buf)[index len a.2]?, c = '\x00' := by
  induction as generalizing buf with
  | nil => cases ha
  | cons b as ih =>
      rcases List.mem_cons.mp ha with rfl | ha
      · exact @nul_terminate _ as len _ (nul_set fun hne => absurd rfl hne)
      · exact ih ha

/-! ## The words of a text -/

/-- The word stands in the text, and what follows is no part of it. -/
structure IsWord (text : Ptr) (a : Ptr × Ptr) (before w : List Char) : Prop where
  text_eq : text = before ++ a.1
  word_eq : a.1 = w ++ a.2
  inner : ∀ c ∈ w, c ∉ whitespace ∧ c ∉ symbols
  ends : ∀ c ∈ a.2.head?, c ∈ whitespace ∨ c ∈ symbols

theorem Scans.suffix {t : Token} (h : Scans text t rest) : ∃ l, text = l ++ rest := by
  cases h with
  | symbol => exact ⟨[_], rfl⟩
  | gt => exact ⟨['>'], rfl⟩
  | gtgt => exact ⟨['>', '>'], rfl⟩
  | word => exact ⟨_, rfl⟩

theorem Lex.isWord (h : Lex text ts) (hmem : Token.word q eq ∈ ts) :
    ∃ before w, IsWord text (q, eq) before w := by
  induction h with
  | done => cases hmem
  | @blank c s ts hc h ih =>
      obtain ⟨before, w, hword⟩ := ih hmem
      exact ⟨c :: before, w, { hword with text_eq := congrArg (c :: ·) hword.text_eq }⟩
  | @token s rest t ts hscan h ih =>
      rcases List.mem_cons.mp hmem with rfl | hmem
      · cases hscan with
        | word hne hw hs => exact ⟨[], _, rfl, rfl, hw, hs⟩
      · obtain ⟨before, w, hword⟩ := ih hmem
        obtain ⟨l, rfl⟩ := hscan.suffix
        refine ⟨l ++ before, w, { hword with text_eq := ?_ }⟩
        rw [List.append_assoc, ← hword.text_eq]

theorem spans_wrap : (wrap cmd rs).spans = cmd.spans ++ rs.map fun r => (r.file, r.efile) := by
  induction rs generalizing cmd with
  | nil => exact (List.append_nil _).symm
  | cons r rs ih =>
      rw [wrap_cons, ih, Cmd.spans, List.append_assoc]
      rfl

theorem spans_background : (background n cmd).spans = cmd.spans := by
  induction n with
  | zero => rfl
  | succ n ih => rw [background, Function.iterate_succ_apply', Cmd.spans, ← background, ih]

theorem Redirs.mem (h : Redirs ts rs) : ∀ r ∈ rs, Token.word r.file r.efile ∈ ts := by
  induction h with
  | nil => simp
  | input h ih => simpa using fun r hr => Or.inr (ih r hr)
  | output h ih => simpa using fun r hr => Or.inr (ih r hr)
  | append h ih => simpa using fun r hr => Or.inr (ih r hr)

theorem Redirs.mem_spans (h : Redirs ts rs) :
    ∀ a ∈ rs.map fun r => (r.file, r.efile), Token.word a.1 a.2 ∈ ts := by
  intro a ha
  obtain ⟨r, hr, rfl⟩ := List.mem_map.mp ha
  exact h.mem r hr

theorem Words.mem_spans (h : Words ts argv rs) :
    ∀ a ∈ argv ++ rs.map fun r => (r.file, r.efile), Token.word a.1 a.2 ∈ ts := by
  induction h with
  | nil => simp
  | @cons q eq us ts argv rs rs' hredirs h ih =>
      intro a ha
      simp only [List.mem_append, List.mem_cons, List.map_append] at ha
      rw [List.mem_append, List.mem_cons]
      rcases ha with (rfl | ha) | ha | ha
      · exact Or.inl (Or.inl rfl)
      · exact Or.inr (ih a (List.mem_append_left _ ha))
      · exact Or.inl (Or.inr (hredirs.mem_spans a ha))
      · exact Or.inr (ih a (List.mem_append_right _ ha))

/-- The tree has words of the text only. -/
theorem Derives.mem_spans {N : Nonterminal} (h : Derives N ts cmd) :
    ∀ a ∈ cmd.spans, Token.word a.1 a.2 ∈ ts := by
  induction h with
  | single h ih =>
      rw [spans_background]
      exact fun a ha => List.mem_append_left _ (ih a ha)
  | list h hright ih ihright =>
      intro a ha
      rw [Cmd.spans, spans_background] at ha
      rcases List.mem_append.mp ha with ha | ha
      · exact List.mem_append_left _ (List.mem_append_left _ (ih a ha))
      · exact List.mem_append_right _ (List.mem_cons_of_mem _ (ihright a ha))
  | last h ih => exact ih
  | pipe h hright ih ihright =>
      intro a ha
      rcases List.mem_append.mp ha with ha | ha
      · exact List.mem_append_left _ (ih a ha)
      · exact List.mem_append_right _ (List.mem_cons_of_mem _ (ihright a ha))
  | block h hredirs ih =>
      intro a ha
      rw [spans_wrap] at ha
      rcases List.mem_append.mp ha with ha | ha
      · exact List.mem_append_left _ (List.mem_cons_of_mem _ (ih a ha))
      · exact List.mem_append_right _ (List.mem_cons_of_mem _ (hredirs.mem_spans a ha))
  | exec hredirs hwords hargv =>
      intro a ha
      rw [spans_wrap, Cmd.spans, List.map_append, List.mem_append, List.mem_append] at ha
      rcases ha with ha | ha | ha
      · exact List.mem_append_right _ (hwords.mem_spans a (List.mem_append_left _ ha))
      · exact List.mem_append_left _ (hredirs.mem_spans a ha)
      · exact List.mem_append_right _ (hwords.mem_spans a (List.mem_append_right _ ha))

/-! ## The words in the buffer -/

theorem cstring_drop (hw : ∀ c ∈ w, c ≠ '\x00') (hin : ∀ j < w.length, buf[i + j]? = w[j]?)
    (hend : ∀ c ∈ buf[i + w.length]?, c = '\x00') : cstring (buf.drop i) = w := by
  induction w generalizing i with
  | nil =>
      rw [cstring]
      cases hdrop : buf.drop i with
      | nil => rfl
      | cons c l =>
          have hc : buf[i]? = some c := by
            rw [← List.head?_drop, hdrop]
            rfl
          rw [List.takeWhile_cons_of_neg]
          simpa using hend c hc
  | cons c w ih =>
      have hc : buf[i]? = some c := hin 0 (Nat.succ_pos _)
      obtain ⟨hlt, hget⟩ := List.getElem?_eq_some_iff.mp hc
      have hdrop : buf.drop i = c :: buf.drop (i + 1) := by
        rw [List.drop_eq_getElem_cons hlt, hget]
      have hnul : c ≠ '\x00' := hw c List.mem_cons_self
      have hrest : cstring (buf.drop (i + 1)) = w := by
        apply ih fun c hc => hw c (List.mem_cons_of_mem _ hc)
        · intro j hj
          have := hin (j + 1) (Nat.succ_lt_succ hj)
          rwa [Nat.add_right_comm, Nat.add_assoc]
        · rwa [Nat.add_assoc, Nat.add_comm 1]
      calc cstring (buf.drop i)
          = c :: cstring (buf.drop (i + 1)) := by
            rw [hdrop, cstring, List.takeWhile_cons_of_pos (by simpa using hnul), cstring]
        _ = c :: w := by rw [hrest]

theorem IsWord.index_eq {before : List Char} (h : IsWord text a before w) :
    index text.length a.1 = before.length ∧
      index text.length a.2 = before.length + w.length := by
  have hfirst := congrArg List.length h.text_eq
  have hlast := congrArg List.length h.word_eq
  rw [List.length_append] at hfirst hlast
  rw [index, index]
  omega

theorem IsWord.getElem?_inner {before : List Char} (h : IsWord text a before w) {j : ℕ}
    (hj : j < w.length) : text[before.length + j]? = w[j]? := by
  rw [h.text_eq, List.getElem?_append_right (Nat.le_add_right _ _), Nat.add_sub_cancel_left,
    h.word_eq, List.getElem?_append_left hj]

theorem IsWord.getElem?_end {before : List Char} (h : IsWord text a before w) :
    text[before.length + w.length]? = a.2.head? := by
  rw [h.text_eq, List.getElem?_append_right (Nat.le_add_right _ _), Nat.add_sub_cancel_left,
    h.word_eq, List.getElem?_append_right le_rfl, Nat.sub_self, List.head?_eq_getElem?]

/-- Where a word ends there is no character of another word. -/
theorem IsWord.apart {b : Ptr × Ptr} {before before' w' : List Char} (h : IsWord text a before w)
    (h' : IsWord text b before' w') {j : ℕ} (hj : j < w.length) :
    index text.length b.2 ≠ before.length + j := by
  rw [h'.index_eq.2]
  intro heq
  have hc : b.2.head? = some w[j] := by
    rw [← h'.getElem?_end, heq, h.getElem?_inner hj, List.getElem?_eq_getElem hj]
  have hinner := h.inner w[j] (List.getElem_mem hj)
  exact (h'.ends w[j] hc).elim hinner.1 hinner.2

theorem cstring_append : ∃ tail, buf = cstring buf ++ tail :=
  ⟨buf.dropWhile (· ≠ '\x00'), (List.takeWhile_append_dropWhile).symm⟩

theorem IsWord.cstring_terminate {before : List Char} (h : IsWord (cstring buf) a before w)
    (ha : a ∈ as) (has : ∀ b ∈ as, ∃ before w, IsWord (cstring buf) b before w) :
    cstring ((terminate (cstring buf).length as buf).drop (index (cstring buf).length a.1)) =
      w := by
  obtain ⟨tail, htail⟩ := @cstring_append buf
  have hmem : ∀ c ∈ w, c ∈ cstring buf := by
    intro c hc
    rw [h.text_eq, h.word_eq]
    exact List.mem_append_right _ (List.mem_append_left _ hc)
  rw [h.index_eq.1]
  apply cstring_drop
  · intro c hc
    simpa using List.mem_takeWhile_imp (hmem c hc)
  · intro j hj
    have hsome : (cstring buf)[before.length + j]? = some w[j] := by
      rw [h.getElem?_inner hj, List.getElem?_eq_getElem hj]
    have hlt := (List.getElem?_eq_some_iff.mp hsome).1
    rw [getElem?_terminate_of_ne]
    · conv_lhs => rw [htail]
      rw [List.getElem?_append_left hlt, h.getElem?_inner hj]
    · intro b hb
      obtain ⟨before', w', hb⟩ := has b hb
      exact h.apart hb hj
  · rw [← h.index_eq.2]
    exact nul_terminate_of_mem ha

/-- When the line has been accepted and `nulterminate` has written its NULs, each argument and
each file name of the tree, read as a string, is the word of the text that it was parsed
from. -/
theorem nulterminate_words (h : Ends (fun fuel => parsecmd fuel buf) (.ok cmd)) :
    ∃ ts, Lex (cstring buf) ts ∧ ∀ a ∈ cmd.spans, Token.word a.1 a.2 ∈ ts ∧
      ∃ before w, IsWord (cstring buf) a before w ∧
        cstring ((nulterminate (cstring buf).length cmd buf).drop
          (index (cstring buf).length a.1)) = w := by
  obtain ⟨ts, hlex⟩ := Lex.exists (cstring buf)
  have hderives := derives_of_parsecmd hlex h
  refine ⟨ts, hlex, fun a ha => ⟨hderives.mem_spans a ha, ?_⟩⟩
  have hwords : ∀ b ∈ cmd.spans, ∃ before w, IsWord (cstring buf) b before w := fun b hb =>
    hlex.isWord (hderives.mem_spans b hb)
  obtain ⟨before, w, hword⟩ := hwords a ha
  rw [nulterminate_eq]
  exact ⟨before, w, hword, hword.cstring_terminate ha hwords⟩

/-- The line `a>b`, with nothing between its words but the operator. -/
theorem parsecmd_sample :
    Ends (fun fuel => parsecmd fuel ['a', '>', 'b'])
      (.ok (.redir (.exec [(['a', '>', 'b'], ['>', 'b'])]) ['b'] []
        (O_WRONLY ||| O_CREATE) 1)) := by
  have hlex : Lex ['a', '>', 'b']
      [.word ['a', '>', 'b'] ['>', 'b'], .symbol '>', .word ['b'] []] := by
    refine .token (@Scans.word ['a'] ['>', 'b'] (by simp) (by simp [whitespace, symbols])
      (by simp [whitespace, symbols])) ?_
    refine .token (.gt (by decide)) ?_
    exact .token (@Scans.word ['b'] [] (by simp) (by simp [whitespace, symbols])
      (by simp [whitespace, symbols])) .done
  have hwords : Words [.word ['a', '>', 'b'] ['>', 'b'], .symbol '>', .word ['b'] []]
      [(['a', '>', 'b'], ['>', 'b'])] [⟨['b'], [], O_WRONLY ||| O_CREATE, 1⟩] :=
    .cons (.output .nil) .nil
  exact parsecmd_of_derives hlex (@Derives.single _ 0 _ (.last (.exec .nil hwords (by decide))))

theorem nulterminate_sample :
    cstring ((nulterminate 3 (.redir (.exec [(['a', '>', 'b'], ['>', 'b'])]) ['b'] []
      (O_WRONLY ||| O_CREATE) 1) ['a', '>', 'b']).drop 0) = ['a'] := by
  obtain ⟨ts, -, h⟩ := nulterminate_words parsecmd_sample
  obtain ⟨-, before, w, hword, hcstring⟩ := h (['a', '>', 'b'], ['>', 'b']) (by simp [Cmd.spans])
  have hw : w = ['a'] := List.append_cancel_right hword.word_eq.symm
  exact hcstring.trans hw

end Xv6.Sh
