import Xv6.Sh.Loops

/-!
# The parser accepts the grammar

For each of the three nonterminals, a call on any tokens rejects them or reads a
derivation of some of them (`line_parsed`), and it reads a whole derivation where the next
token may follow it (`Derives.accepts`).  The first is by induction on the number of
tokens, since each call from one of the functions to another one comes after a token has
been read or is the only call on the same tokens.  The second is by induction on the
derivation.

`parsecmd` therefore always ends, and panics exactly when the tokens of the line are not
derivable (`parsecmd_grammar`).
-/

namespace Xv6.Sh

open Fuel

variable {ps : Ptr} {cmd left right : Cmd} {us ts rest used : List Token} {t : Token} {n : ℕ}
variable {rs : List Redirection}

/-- The function of the parser for a nonterminal. -/
def parse : Nonterminal → ℕ → Ptr → Parse (Cmd × Ptr)
  | .line => parseline
  | .pipe => parsepipe
  | .exec => parseexec

/-- The tokens before which a derivation ends. -/
def Follows : Nonterminal → List Token → Prop
  | .line, rest => rest = [] ∨ Begins [')'] rest
  | .pipe, rest => rest = [] ∨ Begins [')', '&', ';'] rest
  | .exec, rest => Stops rest

/-! ## `parseexec` -/

/-- The loop over redirections and then the one over words. -/
theorem parseexec_words (hbegins : ¬ Begins ['('] ts) (hlex : Lex ps ts) :
    ∃ ps', Lex ps' ts ∧ ∀ r,
      Ends (fun fuel => do
        let (ret, ps) ← parseredirs fuel (.exec []) ps'
        parseargs fuel ret 0 ps) r →
      Ends (fun fuel => parseexec fuel ps) r := by
  obtain ⟨ps', hpeek, hlex'⟩ := peek_not_begins ['('] hlex (by simp [symbols]) hbegins
  refine ⟨ps', hlex', fun r hends => Returns.of_succ ?_⟩
  simp only [parseexec, hpeek]
  exact hends

theorem accepts_words {argv : List (Ptr × Ptr)} {rs' : List Redirection}
    (hredirs : Redirs us rs) (hwords : Words ts argv rs') (hargv : argv.length ≤ 9)
    (hrest : Stops rest) :
    Accepts parseexec (us ++ (ts ++ rest)) (wrap (.exec argv) (rs ++ rs')) rest := by
  have hbegins : ¬ Begins ['('] (us ++ (ts ++ rest)) := by
    cases hredirs with
    | nil =>
        cases hwords with
        | nil =>
            rcases hrest with rfl | hrest
            · exact not_begins_nil
            · intro h
              obtain ⟨us, rfl⟩ := begins_singleton (by decide) h
              rw [begins_symbol] at hrest
              exact absurd hrest (by decide)
        | cons hredirs h => exact not_begins_word
    | input h => simp
    | output h => simp
    | append h => simp
  intro ps hlex
  obtain ⟨ps₁, hlex₁, hgo⟩ := parseexec_words hbegins hlex
  obtain ⟨ps₂, hends₂, hlex₂⟩ := accepts_parseredirs hredirs
    (hwords.not_redirs hrest.not_redirs) (.exec []) ps₁ hlex₁
  obtain ⟨ps', hends, hlex'⟩ := accepts_parseargs hwords hrest [] rs (by simpa using hargv) ps₂
    hlex₂
  exact ⟨ps', hgo _ (Returns.bind_ok hends₂ hends), hlex'⟩

/-- A block is a line up to the closing parenthesis, and redirections. -/
theorem parseexec_block (hlex : Lex ps (.symbol '(' :: ts)) :
    ∃ ps', Lex ps' ts ∧ ∀ r,
      Ends (fun fuel => do
        let (cmd, ps) ← parseline fuel ps'
        let (found, ps) := peek ps [')']
        if !found then panic "syntax - missing )"
        else parseredirs fuel cmd (gettoken ps).ps) r →
      Ends (fun fuel => parseexec fuel ps) r := by
  obtain ⟨ps₁, hpeek, hlex₁⟩ := peek_begins ['('] hlex (by simp [symbols]) (by simp)
  obtain ⟨ps₂, hpeek₂, hlex₂⟩ := peek_begins ['('] hlex₁ (by simp [symbols]) (by simp)
  refine ⟨_, hlex₂.gettoken.2, fun r hends => Returns.of_succ (Returns.of_succ ?_)⟩
  simp only [parseexec, hpeek, parseblock, hpeek₂]
  exact hends

theorem accepts_block (hline : Accepts parseline ts cmd (.symbol ')' :: us ++ rest))
    (hredirs : Redirs us rs) (hrest : ¬ Begins ['<', '>'] rest) :
    Accepts parseexec (.symbol '(' :: ts) (wrap cmd rs) rest := by
  intro ps hlex
  obtain ⟨ps₁, hlex₁, hgo⟩ := parseexec_block hlex
  obtain ⟨ps₂, hends₂, hlex₂⟩ := hline ps₁ hlex₁
  obtain ⟨ps₃, hpeek, hlex₃⟩ := peek_begins [')'] hlex₂ (by simp [symbols]) (by simp)
  obtain ⟨ps', hends, hlex'⟩ := accepts_parseredirs hredirs hrest cmd _ hlex₃.gettoken.2
  refine ⟨ps', hgo _ (Returns.bind_ok hends₂ ?_), hlex'⟩
  simp only [hpeek]
  exact hends

theorem rejects_block (hline : Rejects parseline ts) :
    Rejects parseexec (.symbol '(' :: ts) := by
  intro ps hlex
  obtain ⟨ps₁, hlex₁, hgo⟩ := parseexec_block hlex
  obtain ⟨msg, hmsg, hends⟩ := hline ps₁ hlex₁
  exact ⟨msg, hmsg, hgo _ (Returns.bind_error hends)⟩

theorem rejects_block_missing (hline : Accepts parseline ts cmd rest)
    (hrest : ¬ Begins [')'] rest) : Rejects parseexec (.symbol '(' :: ts) := by
  intro ps hlex
  obtain ⟨ps₁, hlex₁, hgo⟩ := parseexec_block hlex
  obtain ⟨ps₂, hends₂, hlex₂⟩ := hline ps₁ hlex₁
  obtain ⟨ps₃, hpeek, -⟩ := peek_not_begins [')'] hlex₂ (by simp [symbols]) hrest
  refine ⟨"syntax - missing )", by simp [syntaxErrors], hgo _ (Returns.bind_ok hends₂ ?_)⟩
  simp only [hpeek]
  exact ends_panic

theorem rejects_block_redirs (hline : Accepts parseline ts cmd (.symbol ')' :: rest))
    (hredirs : ∀ cmd, Rejects (fun fuel ps => parseredirs fuel cmd ps) rest) :
    Rejects parseexec (.symbol '(' :: ts) := by
  intro ps hlex
  obtain ⟨ps₁, hlex₁, hgo⟩ := parseexec_block hlex
  obtain ⟨ps₂, hends₂, hlex₂⟩ := hline ps₁ hlex₁
  obtain ⟨ps₃, hpeek, hlex₃⟩ := peek_begins [')'] hlex₂ (by simp [symbols]) (by simp)
  obtain ⟨msg, hmsg, hends⟩ := hredirs cmd _ hlex₃.gettoken.2
  refine ⟨msg, hmsg, hgo _ (Returns.bind_ok hends₂ ?_)⟩
  simp only [hpeek]
  exact hends

/-! ## `parsepipe` -/

theorem accepts_last (hexec : Accepts parseexec ts cmd rest) (hrest : ¬ Begins ['|'] rest) :
    Accepts parsepipe ts cmd rest := by
  intro ps hlex
  obtain ⟨ps₁, hends₁, hlex₁⟩ := hexec ps hlex
  obtain ⟨ps', hpeek, hlex'⟩ := peek_not_begins ['|'] hlex₁ (by simp [symbols]) hrest
  refine ⟨ps', Returns.of_succ ?_, hlex'⟩
  simp only [parsepipe]
  refine Returns.bind_ok hends₁ ?_
  simp only [hpeek]
  exact returns_pure _

/-- Behind a `|` there is another pipe. -/
theorem parsepipe_step (hexec : Accepts parseexec ts left (.symbol '|' :: us))
    (hlex : Lex ps ts) :
    ∃ ps', Lex ps' us ∧ ∀ r,
      Ends (fun fuel => do
        let (right, ps) ← parsepipe fuel ps'
        pure (.pipe left right, ps)) r →
      Ends (fun fuel => parsepipe fuel ps) r := by
  obtain ⟨ps₁, hends₁, hlex₁⟩ := hexec ps hlex
  obtain ⟨ps₂, hpeek, hlex₂⟩ := peek_begins ['|'] hlex₁ (by simp [symbols]) (by simp)
  refine ⟨_, hlex₂.gettoken.2, fun r hends => Returns.of_succ ?_⟩
  simp only [parsepipe]
  refine Returns.bind_ok hends₁ ?_
  simp only [hpeek]
  exact hends

theorem accepts_pipe (hexec : Accepts parseexec ts left (.symbol '|' :: us))
    (hpipe : Accepts parsepipe us right rest) : Accepts parsepipe ts (.pipe left right) rest := by
  intro ps hlex
  obtain ⟨ps₁, hlex₁, hgo⟩ := parsepipe_step hexec hlex
  obtain ⟨ps', hends, hlex'⟩ := hpipe ps₁ hlex₁
  exact ⟨ps', hgo _ (Returns.bind_ok hends (returns_pure _)), hlex'⟩

theorem rejects_pipe (hexec : Rejects parseexec ts) : Rejects parsepipe ts := by
  intro ps hlex
  obtain ⟨msg, hmsg, hends⟩ := hexec ps hlex
  refine ⟨msg, hmsg, Returns.of_succ ?_⟩
  simp only [parsepipe]
  exact Returns.bind_error hends

theorem rejects_pipe_right (hexec : Accepts parseexec ts left (.symbol '|' :: us))
    (hpipe : Rejects parsepipe us) : Rejects parsepipe ts := by
  intro ps hlex
  obtain ⟨ps₁, hlex₁, hgo⟩ := parsepipe_step hexec hlex
  obtain ⟨msg, hmsg, hends⟩ := hpipe ps₁ hlex₁
  exact ⟨msg, hmsg, hgo _ (Returns.bind_error hends)⟩

/-! ## `parseline` -/

/-- A pipe and its `&`. -/
theorem parseline_step (hpipe : Accepts parsepipe ts cmd (List.replicate n (.symbol '&') ++ rest))
    (hrest : ¬ Begins ['&'] rest) (hlex : Lex ps ts) :
    ∃ ps', Lex ps' rest ∧ ∀ r,
      Ends (fun fuel =>
        let (found, ps) := peek ps' [';']
        if found then do
          let (right, ps) ← parseline fuel (gettoken ps).ps
          pure (.list (background n cmd) right, ps)
        else pure (background n cmd, ps)) r →
      Ends (fun fuel => parseline fuel ps) r := by
  obtain ⟨ps₁, hends₁, hlex₁⟩ := hpipe ps hlex
  obtain ⟨ps₂, hends₂, hlex₂⟩ := accepts_backs hrest n cmd ps₁ hlex₁
  refine ⟨ps₂, hlex₂, fun r hends => Returns.of_succ ?_⟩
  simp only [parseline]
  exact Returns.bind_ok hends₁ (Returns.bind_ok hends₂ hends)

theorem accepts_single
    (hpipe : Accepts parsepipe ts cmd (List.replicate n (.symbol '&') ++ rest))
    (hamp : ¬ Begins ['&'] rest) (hsemi : ¬ Begins [';'] rest) :
    Accepts parseline ts (background n cmd) rest := by
  intro ps hlex
  obtain ⟨ps₁, hlex₁, hgo⟩ := parseline_step hpipe hamp hlex
  obtain ⟨ps', hpeek, hlex'⟩ := peek_not_begins [';'] hlex₁ (by simp [symbols]) hsemi
  refine ⟨ps', hgo _ ?_, hlex'⟩
  simp only [hpeek]
  exact returns_pure _

theorem accepts_list
    (hpipe : Accepts parsepipe ts cmd (List.replicate n (.symbol '&') ++ .symbol ';' :: us))
    (hline : Accepts parseline us right rest) :
    Accepts parseline ts (.list (background n cmd) right) rest := by
  intro ps hlex
  obtain ⟨ps₁, hlex₁, hgo⟩ := parseline_step hpipe (by simp) hlex
  obtain ⟨ps₂, hpeek, hlex₂⟩ := peek_begins [';'] hlex₁ (by simp [symbols]) (by simp)
  obtain ⟨ps', hends, hlex'⟩ := hline _ hlex₂.gettoken.2
  refine ⟨ps', hgo _ ?_, hlex'⟩
  simp only [hpeek]
  exact Returns.bind_ok hends (returns_pure _)

theorem rejects_line (hpipe : Rejects parsepipe ts) : Rejects parseline ts := by
  intro ps hlex
  obtain ⟨msg, hmsg, hends⟩ := hpipe ps hlex
  refine ⟨msg, hmsg, Returns.of_succ ?_⟩
  simp only [parseline]
  exact Returns.bind_error hends

theorem rejects_list
    (hpipe : Accepts parsepipe ts cmd (List.replicate n (.symbol '&') ++ .symbol ';' :: us))
    (hline : Rejects parseline us) : Rejects parseline ts := by
  intro ps hlex
  obtain ⟨ps₁, hlex₁, hgo⟩ := parseline_step hpipe (by simp) hlex
  obtain ⟨ps₂, hpeek, hlex₂⟩ := peek_begins [';'] hlex₁ (by simp [symbols]) (by simp)
  obtain ⟨msg, hmsg, hends⟩ := hline _ hlex₂.gettoken.2
  refine ⟨msg, hmsg, hgo _ ?_⟩
  simp only [hpeek]
  exact Returns.bind_error hends

/-! ## What is derivable is accepted -/

theorem Derives.accepts {N : Nonterminal} (h : Derives N ts cmd) :
    ∀ rest, Follows N rest → Accepts (parse N) (ts ++ rest) cmd rest := by
  induction h with
  | @single ts n cmd h ih =>
      intro rest hrest
      rw [List.append_assoc]
      have hfollows : Follows .pipe (List.replicate n (.symbol '&') ++ rest) := by
        cases n with
        | zero =>
            refine hrest.imp id fun hbegins => ?_
            obtain ⟨us, rfl⟩ := begins_singleton (by decide) hbegins
            simp
        | succ n => exact Or.inr (by simp [List.replicate_succ])
      have hnot : ∀ c : Char, c ≠ ')' → c ≠ '>' → ¬ Begins [c] rest := by
        intro c hc hgt hbegins
        obtain ⟨us, rfl⟩ := begins_singleton hgt hbegins
        rcases hrest with hrest | hrest
        · exact List.cons_ne_nil _ _ hrest
        · rw [begins_symbol, List.mem_singleton] at hrest
          exact hc hrest
      exact accepts_single (ih _ hfollows) (hnot '&' (by decide) (by decide))
        (hnot ';' (by decide) (by decide))
  | @list ts us n cmd right h hright ih ihright =>
      intro rest hrest
      have hfollows : Follows .pipe
          (List.replicate n (.symbol '&') ++ .symbol ';' :: (us ++ rest)) := by
        cases n with
        | zero => exact Or.inr (by simp)
        | succ n => exact Or.inr (by simp [List.replicate_succ])
      have happend : ts ++ List.replicate n (.symbol '&') ++ .symbol ';' :: us ++ rest =
          ts ++ (List.replicate n (.symbol '&') ++ .symbol ';' :: (us ++ rest)) := by simp
      rw [happend]
      exact accepts_list (ih _ hfollows) (ihright rest hrest)
  | @last ts cmd h ih =>
      intro rest hrest
      have hstops : Stops rest := hrest.imp id fun ⟨t, ht, c, hc, hmem⟩ =>
        ⟨t, ht, c, hc, by simp only [List.mem_cons] at hmem ⊢; tauto⟩
      refine accepts_last (ih rest hstops) fun hbegins => ?_
      obtain ⟨us, rfl⟩ := begins_singleton (by decide) hbegins
      rcases hrest with hrest | hrest
      · exact List.cons_ne_nil _ _ hrest
      · rw [begins_symbol] at hrest
        exact absurd hrest (by decide)
  | @pipe ts us left right h hright ih ihright =>
      intro rest hrest
      rw [List.append_assoc, List.cons_append]
      exact accepts_pipe (ih _ (Or.inr (by simp))) (ihright rest hrest)
  | @block ts us cmd rs h hredirs ih =>
      intro rest hrest
      have happend : .symbol '(' :: ts ++ .symbol ')' :: us ++ rest =
          .symbol '(' :: (ts ++ (.symbol ')' :: us ++ rest)) := by simp
      rw [happend]
      exact accepts_block (ih _ (Or.inr (by simp))) hredirs (Stops.not_redirs hrest)
  | exec hredirs hwords hargv =>
      intro rest hrest
      rw [List.append_assoc]
      exact accepts_words hredirs hwords hargv hrest

/-! ## What is accepted is derivable -/

/-- The call rejects the tokens, or reads a derivation. -/
def Parsed (N : Nonterminal) (ts : List Token) : Prop :=
  Rejects (parse N) ts ∨
    ∃ cmd used rest, ts = used ++ rest ∧ Derives N used cmd ∧ Accepts (parse N) ts cmd rest

theorem exec_parsed (hline : ∀ us, us.length < ts.length → Parsed .line us) :
    Parsed .exec ts := by
  by_cases hbegins : Begins ['('] ts
  · obtain ⟨ts, rfl⟩ := begins_singleton (by decide) hbegins
    rcases hline ts (Nat.lt_succ_self _) with hrejects | ⟨cmd, used, rest, rfl, hderives, haccepts⟩
    · exact Or.inl (rejects_block hrejects)
    by_cases hclose : Begins [')'] rest
    · obtain ⟨rest, rfl⟩ := begins_singleton (by decide) hclose
      rcases exists_redirs rest with ⟨us, rs, rest, rfl, hredirs, hrest⟩ | hrejects
      · refine Or.inr ⟨wrap cmd rs, .symbol '(' :: used ++ .symbol ')' :: us, rest, by simp,
          .block hderives hredirs, accepts_block haccepts hredirs hrest⟩
      · exact Or.inl (rejects_block_redirs haccepts hrejects)
    · exact Or.inl (rejects_block_missing haccepts hclose)
  · rcases exists_redirs ts with ⟨us, rs, ts, rfl, hredirs, hrest⟩ | hrejects
    · rcases exists_words ts [] rs (Nat.zero_le 9) with
        ⟨ts, argv, rs', rest, rfl, hwords, hargv, hstops⟩ | hrejects
      · have hle : argv.length ≤ 9 := by simpa using hargv
        exact Or.inr ⟨_, us ++ ts, rest, (List.append_assoc us ts rest).symm,
          .exec hredirs hwords hle, accepts_words hredirs hwords hle hstops⟩
      · refine Or.inl fun ps hlex => ?_
        obtain ⟨ps₁, hlex₁, hgo⟩ := parseexec_words hbegins hlex
        obtain ⟨ps₂, hends₂, hlex₂⟩ := accepts_parseredirs hredirs hrest (.exec []) ps₁ hlex₁
        obtain ⟨msg, hmsg, hends⟩ := hrejects ps₂ hlex₂
        exact ⟨msg, hmsg, hgo _ (Returns.bind_ok hends₂ hends)⟩
    · refine Or.inl fun ps hlex => ?_
      obtain ⟨ps₁, hlex₁, hgo⟩ := parseexec_words hbegins hlex
      obtain ⟨msg, hmsg, hends⟩ := hrejects _ ps₁ hlex₁
      exact ⟨msg, hmsg, hgo _ (Returns.bind_error hends)⟩

theorem pipe_parsed (ts : List Token) :
    (∀ us, us.length < ts.length → Parsed .line us) → Parsed .pipe ts := by
  induction hn : ts.length using Nat.strong_induction_on generalizing ts with
  | _ n ih =>
      intro hline
      have hparsed : Parsed .exec ts := exec_parsed (hn.symm ▸ hline)
      rcases hparsed with
        hrejects | ⟨left, used, rest, rfl, hderives, haccepts⟩
      · exact Or.inl (rejects_pipe hrejects)
      by_cases hbegins : Begins ['|'] rest
      · obtain ⟨us, rfl⟩ := begins_singleton (by decide) hbegins
        have hshort : us.length < n := by
          rw [← hn, List.length_append, List.length_cons]
          omega
        rcases ih us.length hshort us rfl fun us' hlt => hline us' (hlt.trans hshort) with
          hrejects | ⟨right, used', rest, rfl, hderives', haccepts'⟩
        · exact Or.inl (rejects_pipe_right haccepts hrejects)
        · exact Or.inr ⟨_, used ++ .symbol '|' :: used', rest, by simp,
            .pipe hderives hderives', accepts_pipe haccepts haccepts'⟩
      · exact Or.inr ⟨left, used, rest, rfl, .last hderives, accepts_last haccepts hbegins⟩

theorem line_parsed (ts : List Token) : Parsed .line ts := by
  induction hn : ts.length using Nat.strong_induction_on generalizing ts with
  | _ n ih =>
      rcases pipe_parsed ts fun us hlt => ih us.length (hn ▸ hlt) us rfl with
        hrejects | ⟨cmd, used, rest, rfl, hderives, haccepts⟩
      · exact Or.inl (rejects_line hrejects)
      obtain ⟨m, rest, rfl, hamp⟩ := exists_backs rest
      by_cases hsemi : Begins [';'] rest
      · obtain ⟨us, rfl⟩ := begins_singleton (by decide) hsemi
        have hshort : us.length < n := by
          rw [← hn, List.length_append, List.length_append, List.length_cons]
          omega
        rcases ih us.length hshort us rfl with
          hrejects | ⟨right, used', rest, rfl, hderives', haccepts'⟩
        · exact Or.inl (rejects_list haccepts hrejects)
        · exact Or.inr ⟨_, used ++ List.replicate m (.symbol '&') ++ .symbol ';' :: used', rest,
            by simp, .list hderives hderives', accepts_list haccepts haccepts'⟩
      · exact Or.inr ⟨_, used ++ List.replicate m (.symbol '&'), rest, by simp,
          .single hderives, accepts_single haccepts hamp hsemi⟩

/-! ## `parsecmd` -/

/-- The parser returns the tree, and nothing is left of the text. -/
theorem parsecmd_of_derives {buf : List Char} (hlex : Lex (cstring buf) ts)
    (h : Derives .line ts cmd) : Ends (fun fuel => parsecmd fuel buf) (.ok cmd) := by
  rw [← List.append_nil ts] at hlex
  obtain ⟨ps', hends, hlex'⟩ := h.accepts [] (Or.inl rfl) _ hlex
  refine Returns.bind_ok hends ?_
  simp only [peek, hlex'.eq_nil]
  exact returns_pure _

/-- What the parser does with these tokens. -/
theorem parsecmd_cases {buf : List Char} (hlex : Lex (cstring buf) ts) :
    (∃ cmd, Ends (fun fuel => parsecmd fuel buf) (.ok cmd) ∧ Derives .line ts cmd) ∨
      ∃ msg ∈ syntaxErrors, Ends (fun fuel => parsecmd fuel buf) (.error msg) := by
  rcases line_parsed ts with hrejects | ⟨cmd, used, rest, rfl, hderives, haccepts⟩
  · obtain ⟨msg, hmsg, hends⟩ := hrejects _ hlex
    exact Or.inr ⟨msg, hmsg, Returns.bind_error hends⟩
  cases rest with
  | nil =>
      rw [List.append_nil] at hlex ⊢
      exact Or.inl ⟨cmd, parsecmd_of_derives hlex hderives, hderives⟩
  | cons t rest =>
      obtain ⟨ps', hends, hlex'⟩ := haccepts _ hlex
      obtain ⟨rest', hscan, -⟩ := hlex'.scans
      obtain ⟨c, l, hcl, -⟩ := hscan.head
      refine Or.inr ⟨"syntax", by simp [syntaxErrors], Returns.bind_ok hends ?_⟩
      simp only [peek, hcl]
      exact ends_panic

/-- A tree that is returned has a derivation. -/
theorem derives_of_parsecmd {buf : List Char} (hlex : Lex (cstring buf) ts)
    (h : Ends (fun fuel => parsecmd fuel buf) (.ok cmd)) : Derives .line ts cmd := by
  rcases parsecmd_cases hlex with ⟨cmd', hends, hderives⟩ | ⟨msg, -, hends⟩
  · obtain rfl : cmd' = cmd := Except.ok.inj (h.unique hends).symm
    exact hderives
  · cases h.unique hends

/-- On every text the parser ends.  It returns the tree of the one derivation of the text's
tokens, or panics if there is none. -/
theorem parsecmd_grammar (buf : List Char) :
    ∃ ts, Lex (cstring buf) ts ∧ (∀ ts', Lex (cstring buf) ts' → ts' = ts) ∧
      ((∃ cmd, Ends (fun fuel => parsecmd fuel buf) (.ok cmd) ∧ Derives .line ts cmd ∧
          ∀ cmd', Derives .line ts cmd' → cmd' = cmd) ∨
        ((∃ msg ∈ syntaxErrors, Ends (fun fuel => parsecmd fuel buf) (.error msg)) ∧
          ∀ cmd, ¬ Derives .line ts cmd)) := by
  obtain ⟨ts, hlex⟩ := Lex.exists (cstring buf)
  refine ⟨ts, hlex, fun ts' hlex' => hlex.unique hlex', ?_⟩
  rcases parsecmd_cases hlex with ⟨cmd, hends, hderives⟩ | ⟨msg, hmsg, hends⟩
  · refine Or.inl ⟨cmd, hends, hderives, fun cmd' hderives' => ?_⟩
    exact Except.ok.inj ((parsecmd_of_derives hlex hderives').unique hends)
  · refine Or.inr ⟨⟨msg, hmsg, hends⟩, fun cmd hderives => ?_⟩
    cases (parsecmd_of_derives hlex hderives).unique hends

end Xv6.Sh
