import Xv6.Sh.Parser
import Mathlib.Algebra.Order.Group.Nat
import Mathlib.Data.List.TakeWhile
import Mathlib.Logic.Function.Iterate

/-!
# The shell's grammar

The text of a line is a sequence of tokens, each as long as possible, with blanks between
them (`Lex`).  The tokens of a line form a command according to

    line  ::= pipe '&'* [';' line]
    pipe  ::= exec ['|' pipe]
    exec  ::= '(' line ')' redir* | redir* (word redir*)*     (at most nine words)
    redir ::= ('<' | '>' | '>>') word

and `Derives` also says which tree belongs to a derivation.  Every text has exactly one
token sequence (`Lex.exists`, `Lex.unique`), and `peek` and `gettoken` read its first
token.
-/

namespace Xv6.Sh

/-! ## Tokens -/

/-- `gtgt` is `>>`.  A word is its first character and the one after its last. -/
inductive Token where
  | symbol (c : Char)
  | gtgt
  | word (q eq : Ptr)

/-- The first token of a text that does not start with a blank, and what follows it. -/
inductive Scans : Ptr → Token → Ptr → Prop
  | symbol {c : Char} {s : Ptr} (hc : c ∈ ['|', '(', ')', ';', '&', '<']) :
      Scans (c :: s) (.symbol c) s
  | gt {s : Ptr} (hs : s.head? ≠ some '>') : Scans ('>' :: s) (.symbol '>') s
  | gtgt {s : Ptr} : Scans ('>' :: '>' :: s) .gtgt s
  | word {w s : Ptr} (hne : w ≠ []) (hw : ∀ c ∈ w, c ∉ whitespace ∧ c ∉ symbols)
      (hs : ∀ c ∈ s.head?, c ∈ whitespace ∨ c ∈ symbols) : Scans (w ++ s) (.word (w ++ s) s) s

/-- The tokens of a text. -/
inductive Lex : Ptr → List Token → Prop
  | done : Lex [] []
  | blank {c : Char} {s : Ptr} {ts : List Token} (hc : c ∈ whitespace) (h : Lex s ts) :
      Lex (c :: s) ts
  | token {s rest : Ptr} {t : Token} {ts : List Token} (hscan : Scans s t rest)
      (h : Lex rest ts) : Lex s (t :: ts)

/-! ## Derivations -/

structure Redirection where
  file : Ptr
  efile : Ptr
  mode : ℕ
  fd : ℕ

/-- `REDIR` nodes around a command, the last redirection outermost. -/
def wrap (cmd : Cmd) (rs : List Redirection) : Cmd :=
  rs.foldl (fun cmd r => .redir cmd r.file r.efile r.mode r.fd) cmd

/-- `redir*` -/
inductive Redirs : List Token → List Redirection → Prop
  | nil : Redirs [] []
  | input {q eq : Ptr} {ts : List Token} {rs : List Redirection} (h : Redirs ts rs) :
      Redirs (.symbol '<' :: .word q eq :: ts) (⟨q, eq, O_RDONLY, 0⟩ :: rs)
  | output {q eq : Ptr} {ts : List Token} {rs : List Redirection} (h : Redirs ts rs) :
      Redirs (.symbol '>' :: .word q eq :: ts) (⟨q, eq, O_WRONLY ||| O_CREATE, 1⟩ :: rs)
  | append {q eq : Ptr} {ts : List Token} {rs : List Redirection} (h : Redirs ts rs) :
      Redirs (.gtgt :: .word q eq :: ts) (⟨q, eq, O_WRONLY ||| O_CREATE, 1⟩ :: rs)

/-- `(word redir*)*` -/
inductive Words : List Token → List (Ptr × Ptr) → List Redirection → Prop
  | nil : Words [] [] []
  | cons {q eq : Ptr} {us ts : List Token} {argv : List (Ptr × Ptr)}
      {rs rs' : List Redirection} (hredirs : Redirs us rs) (h : Words ts argv rs') :
      Words (.word q eq :: us ++ ts) ((q, eq) :: argv) (rs ++ rs')

inductive Nonterminal where
  | line
  | pipe
  | exec

/-- One `BACK` for each `&`. -/
def background (n : ℕ) (cmd : Cmd) : Cmd := Cmd.back^[n] cmd

inductive Derives : Nonterminal → List Token → Cmd → Prop
  | single {ts : List Token} {n : ℕ} {cmd : Cmd} (h : Derives .pipe ts cmd) :
      Derives .line (ts ++ List.replicate n (.symbol '&')) (background n cmd)
  | list {ts us : List Token} {n : ℕ} {cmd right : Cmd} (h : Derives .pipe ts cmd)
      (hright : Derives .line us right) :
      Derives .line (ts ++ List.replicate n (.symbol '&') ++ .symbol ';' :: us)
        (.list (background n cmd) right)
  | last {ts : List Token} {cmd : Cmd} (h : Derives .exec ts cmd) : Derives .pipe ts cmd
  | pipe {ts us : List Token} {left right : Cmd} (h : Derives .exec ts left)
      (hright : Derives .pipe us right) :
      Derives .pipe (ts ++ .symbol '|' :: us) (.pipe left right)
  | block {ts us : List Token} {cmd : Cmd} {rs : List Redirection} (h : Derives .line ts cmd)
      (hredirs : Redirs us rs) :
      Derives .exec (.symbol '(' :: ts ++ .symbol ')' :: us) (wrap cmd rs)
  | exec {us ts : List Token} {argv : List (Ptr × Ptr)} {rs rs' : List Redirection}
      (hredirs : Redirs us rs) (hwords : Words ts argv rs') (hargv : argv.length ≤ 9) :
      Derives .exec (us ++ ts) (wrap (.exec argv) (rs ++ rs'))

/-! ## The tokens of a text are unique -/

variable {ps s rest rest' : Ptr} {t t' : Token} {ts ts' : List Token} {toks : List Char}

theorem not_mem_symbols {c : Char} (hc : c ∉ symbols) :
    c ∉ ['|', '(', ')', ';', '&', '<'] ∧ c ≠ '>' := by
  simp only [symbols, List.mem_cons, List.not_mem_nil, or_false, not_or] at hc ⊢
  tauto

theorem mem_symbols {c : Char} (hc : c ∈ ['|', '(', ')', ';', '&', '<']) : c ∈ symbols := by
  by_contra h
  exact (not_mem_symbols h).1 hc

theorem not_blank {c : Char} (hc : c ∈ symbols) : c ∉ whitespace := by
  simp only [symbols, List.mem_cons, List.not_mem_nil, or_false] at hc
  rcases hc with rfl | rfl | rfl | rfl | rfl | rfl | rfl <;> decide

/-- A token starts with its first character, which is not a blank. -/
theorem Scans.head (h : Scans s t rest) : ∃ c l, s = c :: l ∧ c ∉ whitespace := by
  cases h with
  | symbol hc => exact ⟨_, _, rfl, not_blank (mem_symbols hc)⟩
  | gt hrest => exact ⟨_, _, rfl, by decide⟩
  | gtgt => exact ⟨_, _, rfl, by decide⟩
  | @word w _ hne hw hrest =>
      obtain ⟨c, w, rfl⟩ := List.exists_cons_of_ne_nil hne
      exact ⟨c, w ++ rest, rfl, (hw c (by simp)).1⟩

theorem Scans.skip (h : Scans s t rest) : skip s = s := by
  obtain ⟨c, l, rfl, hc⟩ := h.head
  simp [Sh.skip, hc]

/-- The word that `gettoken` finds. -/
theorem dropWhile_word {w : Ptr} (hw : ∀ c ∈ w, c ∉ whitespace ∧ c ∉ symbols)
    (hrest : ∀ c ∈ rest.head?, c ∈ whitespace ∨ c ∈ symbols) :
    (w ++ rest).dropWhile (fun c => c ∉ whitespace ∧ c ∉ symbols) = rest := by
  rw [List.dropWhile_append_of_pos (by simpa using hw)]
  cases rest with
  | nil => rfl
  | cons c rest =>
      refine List.dropWhile_cons_of_neg ?_
      simpa [or_iff_not_imp_left] using hrest c rfl

/-- What `gettoken` returns for a token. -/
def Token.ret : Token → Char
  | .symbol c => c
  | .gtgt => '+'
  | .word _ _ => 'a'

/-- `gettoken` reads the first token. -/
theorem Scans.gettoken (h : Scans (Sh.skip ps) t rest) :
    gettoken ps = { ret := t.ret, q := Sh.skip ps, eq := rest, ps := Sh.skip rest } := by
  generalize hs : Sh.skip ps = s at h
  unfold Sh.gettoken
  rw [hs]
  cases h with
  | symbol hc => simp only [if_pos hc, Token.ret]
  | gt hrest => simp [hrest, Token.ret]
  | gtgt => simp [Token.ret]
  | @word w _ hne hw hrest =>
      obtain ⟨c, w, rfl⟩ := List.exists_cons_of_ne_nil hne
      obtain ⟨hsymbol, hgt⟩ := not_mem_symbols (hw c (by simp)).2
      have hdrop := dropWhile_word hw hrest
      rw [List.cons_append] at hdrop ⊢
      simp only [if_neg hsymbol, if_neg hgt, hdrop, Token.ret]

/-- The token at `s` for which `gettoken` returns `ret`. -/
def Token.ofRet (ret : Char) (s rest : Ptr) : Token :=
  if ret = 'a' then .word s rest else if ret = '+' then .gtgt else .symbol ret

theorem Scans.ofRet (h : Scans s t rest) : Token.ofRet t.ret s rest = t := by
  cases h with
  | symbol hc =>
      simp only [List.mem_cons, List.not_mem_nil, or_false] at hc
      rcases hc with rfl | rfl | rfl | rfl | rfl | rfl <;> rfl
  | gt hrest => rfl
  | gtgt => rfl
  | word hne hw hrest => rfl

theorem Scans.eq_word (h : Scans s t rest) (hret : t.ret = 'a') : t = .word s rest := by
  rw [← h.ofRet, hret]
  rfl

theorem Scans.ret_ne (h : Scans s t rest) : t.ret ≠ '\x00' := by
  cases h with
  | symbol hc =>
      intro hret
      rw [Token.ret] at hret
      subst hret
      exact absurd hc (by decide)
  | gt hrest => decide
  | gtgt => decide
  | word hne hw hrest => exact (by decide : 'a' ≠ '\x00')

theorem Scans.unique (h : Scans s t rest) (h' : Scans s t' rest') : t' = t ∧ rest' = rest := by
  have hread := Scans.gettoken (h.skip.symm ▸ h)
  rw [Scans.gettoken (h.skip.symm ▸ h'), Scanned.mk.injEq] at hread
  obtain ⟨hret, -, rfl, -⟩ := hread
  exact ⟨by rw [← h'.ofRet, hret, h.ofRet], rfl⟩

theorem Lex.unique (h : Lex ps ts) (h' : Lex ps ts') : ts' = ts := by
  induction h generalizing ts' with
  | done =>
      cases h' with
      | done => rfl
      | token hscan h =>
          obtain ⟨c, l, hcl, -⟩ := hscan.head
          exact absurd hcl (List.cons_ne_nil c l).symm
  | blank hc h ih =>
      cases h' with
      | blank hc' h' => exact ih h'
      | token hscan h' =>
          obtain ⟨c, l, hcl, hblank⟩ := hscan.head
          rw [← (List.cons.inj hcl).1] at hblank
          exact absurd hc hblank
  | token hscan h ih =>
      cases h' with
      | done =>
          obtain ⟨c, l, hcl, -⟩ := hscan.head
          exact absurd hcl (List.cons_ne_nil c l).symm
      | blank hc' h' =>
          obtain ⟨c, l, hcl, hblank⟩ := hscan.head
          rw [← (List.cons.inj hcl).1] at hblank
          exact absurd hc' hblank
      | token hscan' h' =>
          obtain ⟨rfl, rfl⟩ := hscan.unique hscan'
          rw [ih h']

/-! ## Every text has tokens -/

/-- What is not blank starts with a token. -/
theorem exists_scans {c : Char} {l : Ptr} (hc : c ∉ whitespace) :
    ∃ t rest, Scans (c :: l) t rest ∧ rest.length ≤ l.length := by
  by_cases hsymbol : c ∈ ['|', '(', ')', ';', '&', '<']
  · exact ⟨_, l, .symbol hsymbol, le_rfl⟩
  by_cases hgt : c = '>'
  · subst hgt
    by_cases hl : l.head? = some '>'
    · obtain ⟨l, rfl⟩ := List.head?_eq_some_iff.mp hl
      exact ⟨_, l, .gtgt, Nat.le_succ _⟩
    · exact ⟨_, l, .gt hl, le_rfl⟩
  · -- a word up to the first blank or symbol
    have hword : c ∉ whitespace ∧ c ∉ symbols := by
      refine ⟨hc, fun hmem => ?_⟩
      simp only [symbols, List.mem_cons, List.not_mem_nil, or_false] at hmem hsymbol
      tauto
    let p : Char → Bool := fun c => c ∉ whitespace ∧ c ∉ symbols
    have hscan : Scans (c :: l.takeWhile p ++ l.dropWhile p)
        (.word (c :: l.takeWhile p ++ l.dropWhile p) (l.dropWhile p)) (l.dropWhile p) := by
      refine .word (List.cons_ne_nil _ _) (fun d hd => ?_) fun d hd => ?_
      · rcases List.mem_cons.mp hd with rfl | hd
        · exact hword
        · simpa [p] using List.mem_takeWhile_imp hd
      · have hnot := List.head?_dropWhile_not p l
        rw [Option.mem_def.mp hd] at hnot
        by_contra hboth
        rw [not_or] at hboth
        exact absurd hnot (by simpa [p] using hboth)
    rw [List.cons_append, List.takeWhile_append_dropWhile] at hscan
    exact ⟨_, _, hscan, (List.dropWhile_suffix p).length_le⟩

theorem Lex.exists (ps : Ptr) : ∃ ts, Lex ps ts := by
  induction hn : ps.length using Nat.strong_induction_on generalizing ps with
  | _ n ih =>
      cases ps with
      | nil => exact ⟨[], .done⟩
      | cons c l =>
          rw [List.length_cons] at hn
          by_cases hc : c ∈ whitespace
          · obtain ⟨ts, h⟩ := ih l.length (by omega) l rfl
            exact ⟨ts, .blank hc h⟩
          · obtain ⟨t, rest, hscan, hle⟩ := exists_scans (l := l) hc
            obtain ⟨ts, h⟩ := ih rest.length (by omega) rest rfl
            exact ⟨t :: ts, .token hscan h⟩

/-! ## What the parser sees -/

theorem Lex.skip (h : Lex ps ts) : Lex (skip ps) ts := by
  induction h with
  | done => exact .done
  | blank hc h ih => rwa [Sh.skip, List.dropWhile_cons_of_pos (by simpa using hc)]
  | token hscan h ih =>
      rw [hscan.skip]
      exact .token hscan h

theorem Lex.scans (h : Lex ps (t :: ts)) : ∃ rest, Scans (Sh.skip ps) t rest ∧ Lex rest ts := by
  generalize hts : t :: ts = us at h
  induction h with
  | done => exact absurd hts (List.cons_ne_nil t ts)
  | blank hc h ih => rw [Sh.skip, List.dropWhile_cons_of_pos (by simpa using hc)]; exact ih hts
  | token hscan h ih =>
      obtain ⟨rfl, rfl⟩ := List.cons.inj hts
      rw [hscan.skip]
      exact ⟨_, hscan, h⟩

theorem Lex.eq_nil (h : Lex ps []) : Sh.skip ps = [] := by
  generalize hts : [] = ts at h
  induction h with
  | done => rfl
  | blank hc h ih => rw [Sh.skip, List.dropWhile_cons_of_pos (by simpa using hc)]; exact ih hts
  | token hscan h ih => exact absurd hts.symm (List.cons_ne_nil _ _)

theorem Lex.gettoken (h : Lex ps (t :: ts)) :
    (gettoken ps).ret = t.ret ∧ Lex (Sh.gettoken ps).ps ts := by
  obtain ⟨rest, hscan, hlex⟩ := h.scans
  rw [hscan.gettoken]
  exact ⟨rfl, hlex.skip⟩

theorem Lex.gettoken_nil (h : Lex ps []) : (Sh.gettoken ps).ret = '\x00' ∧
    Lex (Sh.gettoken ps).ps [] := by
  unfold Sh.gettoken
  rw [h.eq_nil]
  exact ⟨rfl, .done⟩

/-- `gettoken` gives back where a word starts and ends. -/
theorem Lex.gettoken_word {q eq : Ptr} (h : Lex ps (.word q eq :: ts)) :
    (Sh.gettoken ps).q = q ∧ (Sh.gettoken ps).eq = eq := by
  obtain ⟨rest, hscan, -⟩ := h.scans
  rw [hscan.gettoken]
  generalize Sh.skip ps = s at hscan
  cases hscan with
  | word hne hw hrest => exact ⟨rfl, rfl⟩

/-- The character by which `peek` finds a token. -/
def Token.first : Token → Option Char
  | .symbol c => some c
  | .gtgt => some '>'
  | .word _ _ => none

/-- The first token is one of `toks`. -/
def Begins (toks : List Char) (ts : List Token) : Prop :=
  ∃ t ∈ ts.head?, ∃ c ∈ t.first, c ∈ toks

theorem Lex.peek (h : Lex ps ts) (htoks : ∀ c ∈ toks, c ∈ symbols) :
    ((peek ps toks).1 = true ↔ Begins toks ts) ∧ Lex (Sh.peek ps toks).2 ts := by
  refine ⟨?_, h.skip⟩
  cases ts with
  | nil => simp [Sh.peek, Begins, h.eq_nil]
  | cons t ts =>
      obtain ⟨rest, hscan, -⟩ := h.scans
      generalize hs : Sh.skip ps = s at hscan
      simp only [Sh.peek, hs, Begins, List.head?_cons, Option.mem_some_iff, exists_eq_left']
      cases hscan with
      | symbol hc => simp [Token.first]
      | gt hrest => simp [Token.first]
      | gtgt => simp [Token.first]
      | word hne hw hrest =>
          obtain ⟨c, w, rfl⟩ := List.exists_cons_of_ne_nil hne
          have hc : c ∉ toks := fun hmem => (hw c (by simp)).2 (htoks c hmem)
          simp [Token.first, hc]

end Xv6.Sh
