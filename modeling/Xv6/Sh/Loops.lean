import Xv6.Lib.Fuel
import Xv6.Sh.Grammar

/-!
# The loops of the parser

`Accepts parse ts cmd rest` says that the call reads the tokens of `ts` up to `rest` and
returns `cmd`, and `Rejects parse ts` that it ends in a `panic`.  For the loops over `&`,
over redirections and over the words of a command, what they accept is what the grammar
says, and on everything else they panic.
-/

namespace Xv6.Sh

open Fuel

variable {α : Type} {parse : ℕ → Ptr → Parse (Cmd × Ptr)} {ps : Ptr} {cmd : Cmd}
variable {us ts rest : List Token} {t : Token} {toks : List Char} {rs rs' : List Redirection}
variable {args argv : List (Ptr × Ptr)}

def syntaxErrors : List String :=
  ["syntax", "syntax - missing )", "missing file for redirection", "too many args"]

/-- With enough fuel the call ends with `r`. -/
abbrev Ends (call : ℕ → Parse α) (r : Except String α) : Prop :=
  Returns (fun fuel => (call fuel).run) r

/-- The call returns `cmd`, and what it leaves are the tokens `rest`. -/
def Accepts (parse : ℕ → Ptr → Parse (Cmd × Ptr)) (ts : List Token) (cmd : Cmd)
    (rest : List Token) : Prop :=
  ∀ ps, Lex ps ts → ∃ ps', Ends (fun fuel => parse fuel ps) (.ok (cmd, ps')) ∧ Lex ps' rest

/-- The call reports a syntax error. -/
def Rejects (parse : ℕ → Ptr → Parse (Cmd × Ptr)) (ts : List Token) : Prop :=
  ∀ ps, Lex ps ts → ∃ msg ∈ syntaxErrors, Ends (fun fuel => parse fuel ps) (.error msg)

theorem ends_panic {msg : String} : Ends (fun _ => (panic msg : Parse α)) (.error msg) :=
  returns_throw msg

/-! ## What `peek` tells -/

@[simp] theorem not_begins_nil : ¬ Begins toks [] := by
  rintro ⟨t, ht, -⟩
  exact absurd ht (by simp)

theorem begins_cons : Begins toks (t :: ts) ↔ ∃ c ∈ t.first, c ∈ toks := by
  simp [Begins]

@[simp] theorem begins_symbol {c : Char} : Begins toks (.symbol c :: ts) ↔ c ∈ toks := by
  simp [begins_cons, Token.first]

@[simp] theorem begins_gtgt : Begins toks (.gtgt :: ts) ↔ '>' ∈ toks := by
  simp [begins_cons, Token.first]

@[simp] theorem not_begins_word {q eq : Ptr} : ¬ Begins toks (.word q eq :: ts) := by
  simp [begins_cons, Token.first]

/-- Only the symbol itself begins with a character other than `>`. -/
theorem begins_singleton {c : Char} (hc : c ≠ '>') (h : Begins [c] ts) :
    ∃ us, ts = .symbol c :: us := by
  cases ts with
  | nil => exact absurd h not_begins_nil
  | cons t ts =>
      cases t with
      | symbol d =>
          rw [begins_symbol, List.mem_singleton] at h
          exact ⟨ts, by rw [h]⟩
      | gtgt => rw [begins_gtgt, List.mem_singleton] at h; exact absurd h.symm hc
      | word q eq => exact absurd h not_begins_word

variable (toks) in
theorem peek_begins (hlex : Lex ps ts) (htoks : ∀ c ∈ toks, c ∈ symbols)
    (h : Begins toks ts) : ∃ ps', peek ps toks = (true, ps') ∧ Lex ps' ts :=
  ⟨_, Prod.ext ((hlex.peek htoks).1.mpr h) rfl, (hlex.peek htoks).2⟩

variable (toks) in
theorem peek_not_begins (hlex : Lex ps ts) (htoks : ∀ c ∈ toks, c ∈ symbols)
    (h : ¬ Begins toks ts) : ∃ ps', peek ps toks = (false, ps') ∧ Lex ps' ts :=
  ⟨_, Prod.ext (by simpa using mt (hlex.peek htoks).1.mp h) rfl, (hlex.peek htoks).2⟩

/-! ## `&` -/

theorem accepts_backs (hrest : ¬ Begins ['&'] rest) (n : ℕ) (cmd : Cmd) :
    Accepts (fun fuel ps => backs fuel cmd ps) (List.replicate n (.symbol '&') ++ rest)
      (background n cmd) rest := by
  induction n generalizing cmd with
  | zero =>
      intro ps hlex
      obtain ⟨ps', hpeek, hlex'⟩ := peek_not_begins ['&'] hlex (by simp [symbols]) hrest
      refine ⟨ps', Returns.of_succ ?_, hlex'⟩
      simp only [backs, hpeek]
      exact returns_pure _
  | succ n ih =>
      intro ps hlex
      rw [List.replicate_succ, List.cons_append] at hlex
      obtain ⟨ps₁, hpeek, hlex₁⟩ := peek_begins ['&'] hlex (by simp [symbols]) (by simp)
      obtain ⟨ps', hends, hlex'⟩ := ih (.back cmd) _ hlex₁.gettoken.2
      refine ⟨ps', Returns.of_succ ?_, hlex'⟩
      simp only [backs, hpeek]
      exact hends

/-- The `&` at the beginning. -/
theorem exists_backs (ts : List Token) :
    ∃ n rest, ts = List.replicate n (.symbol '&') ++ rest ∧ ¬ Begins ['&'] rest := by
  induction ts with
  | nil => exact ⟨0, [], rfl, not_begins_nil⟩
  | cons t ts ih =>
      by_cases hbegins : Begins ['&'] (t :: ts)
      · obtain ⟨us, hus⟩ := begins_singleton (by decide) hbegins
        obtain ⟨n, rest, heq, hrest⟩ := ih
        refine ⟨n + 1, rest, ?_, hrest⟩
        rw [List.replicate_succ, List.cons_append, ← heq, hus, (List.cons.inj hus).2]
      · exact ⟨0, t :: ts, rfl, hbegins⟩

/-! ## Redirections -/

/-- What `parseredirs` makes of a redirection token and a word. -/
def Token.redirection (q eq : Ptr) : Token → Redirection
  | .symbol '<' => ⟨q, eq, O_RDONLY, 0⟩
  | _ => ⟨q, eq, O_WRONLY ||| O_CREATE, 1⟩

theorem begins_redirection (h : Begins ['<', '>'] (t :: ts)) :
    t = .symbol '<' ∨ t = .symbol '>' ∨ t = .gtgt := by
  cases t with
  | symbol c => simpa using h
  | gtgt => exact Or.inr (Or.inr rfl)
  | word q eq => exact absurd h not_begins_word

theorem Redirs.cons {q eq : Ptr} (hbegins : Begins ['<', '>'] (t :: ts)) (h : Redirs ts rs) :
    Redirs (t :: .word q eq :: ts) (t.redirection q eq :: rs) := by
  rcases begins_redirection hbegins with rfl | rfl | rfl
  · exact .input h
  · exact .output h
  · exact .append h

theorem wrap_cons (r : Redirection) :
    wrap cmd (r :: rs) = wrap (.redir cmd r.file r.efile r.mode r.fd) rs := rfl

theorem wrap_append : wrap cmd (rs ++ rs') = wrap (wrap cmd rs) rs' := List.foldl_append

variable (cmd) in
/-- The loop goes on behind a redirection. -/
theorem parseredirs_step {q eq : Ptr} (hlex : Lex ps (t :: .word q eq :: ts))
    (hbegins : Begins ['<', '>'] (t :: ts)) :
    ∃ ps', Lex ps' ts ∧ ∀ r,
      Ends (fun fuel => parseredirs fuel (wrap cmd [t.redirection q eq]) ps') r →
      Ends (fun fuel => parseredirs fuel cmd ps) r := by
  obtain ⟨ps₁, hpeek, hlex₁⟩ := peek_begins ['<', '>'] hlex (by simp [symbols])
    (by rwa [begins_cons] at hbegins ⊢)
  obtain ⟨hret, hlex₂⟩ := hlex₁.gettoken
  obtain ⟨hret', hlex₃⟩ := hlex₂.gettoken
  obtain ⟨hq, heq⟩ := hlex₂.gettoken_word
  refine ⟨_, hlex₃, fun r hends => Returns.of_succ ?_⟩
  simp only [parseredirs, hpeek, hret, hret', hq, heq]
  rcases begins_redirection hbegins with rfl | rfl | rfl
  · exact hends
  · exact hends
  · exact hends

theorem parseredirs_missing (hlex : Lex ps (t :: ts)) (hbegins : Begins ['<', '>'] (t :: ts))
    (hword : ∀ q eq us, ts ≠ .word q eq :: us) :
    Ends (fun fuel => parseredirs fuel cmd ps) (.error "missing file for redirection") := by
  obtain ⟨ps₁, hpeek, hlex₁⟩ := peek_begins ['<', '>'] hlex (by simp [symbols]) hbegins
  obtain ⟨-, hlex₂⟩ := hlex₁.gettoken
  have hret : (gettoken (gettoken ps₁).ps).ret ≠ 'a' := by
    cases ts with
    | nil => rw [hlex₂.gettoken_nil.1]; decide
    | cons t ts =>
        rw [hlex₂.gettoken.1]
        obtain ⟨rest, hscan, -⟩ := hlex₂.scans
        exact fun hret => hword _ _ _ (by rw [hscan.eq_word hret])
  refine Returns.of_succ ?_
  simp only [parseredirs, hpeek, if_pos hret, if_true]
  exact ends_panic

theorem accepts_parseredirs (hredirs : Redirs us rs) (hrest : ¬ Begins ['<', '>'] rest)
    (cmd : Cmd) :
    Accepts (fun fuel ps => parseredirs fuel cmd ps) (us ++ rest) (wrap cmd rs) rest := by
  have step : ∀ {t : Token} {q eq : Ptr} {us : List Token} {rs : List Redirection},
      Begins ['<', '>'] (t :: us) →
      (∀ cmd, Accepts (fun fuel ps => parseredirs fuel cmd ps) (us ++ rest) (wrap cmd rs) rest) →
      ∀ cmd, Accepts (fun fuel ps => parseredirs fuel cmd ps) (t :: .word q eq :: us ++ rest)
        (wrap cmd (t.redirection q eq :: rs)) rest := by
    intro t q eq us rs hbegins ih cmd ps hlex
    obtain ⟨ps₁, hlex₁, hends₁⟩ := parseredirs_step cmd hlex
      (by rwa [begins_cons] at hbegins ⊢)
    obtain ⟨ps', hends, hlex'⟩ := ih _ ps₁ hlex₁
    exact ⟨ps', hends₁ _ hends, hlex'⟩
  induction hredirs generalizing cmd with
  | nil =>
      intro ps hlex
      obtain ⟨ps', hpeek, hlex'⟩ := peek_not_begins ['<', '>'] hlex (by simp [symbols]) hrest
      refine ⟨ps', Returns.of_succ ?_, hlex'⟩
      simp only [parseredirs, hpeek]
      exact returns_pure _
  | input h ih => exact step (t := .symbol '<') (by simp) ih cmd
  | output h ih => exact step (t := .symbol '>') (by simp) ih cmd
  | append h ih => exact step (t := .gtgt) (by simp) ih cmd

/-- The redirections at the beginning, if there are no others. -/
theorem exists_redirs (ts : List Token) :
    (∃ us rs rest, ts = us ++ rest ∧ Redirs us rs ∧ ¬ Begins ['<', '>'] rest) ∨
      ∀ cmd, Rejects (fun fuel ps => parseredirs fuel cmd ps) ts := by
  induction hn : ts.length using Nat.strong_induction_on generalizing ts with
  | _ n ih =>
      by_cases hbegins : Begins ['<', '>'] ts
      · cases ts with
        | nil => exact absurd hbegins not_begins_nil
        | cons t ts =>
            by_cases hword : ∃ q eq us, ts = .word q eq :: us
            · obtain ⟨q, eq, us, rfl⟩ := hword
              rw [begins_cons] at hbegins
              rw [List.length_cons, List.length_cons] at hn
              rcases ih us.length (by omega) us rfl with
                ⟨us', rs, rest, rfl, hredirs, hrest⟩ | hrejects
              · exact Or.inl ⟨t :: .word q eq :: us', _, rest, rfl,
                  .cons (begins_cons.mpr hbegins) hredirs, hrest⟩
              · refine Or.inr fun cmd ps hlex => ?_
                obtain ⟨ps₁, hlex₁, hends₁⟩ := parseredirs_step cmd hlex
                  (begins_cons.mpr hbegins)
                obtain ⟨msg, hmsg, hends⟩ := hrejects _ ps₁ hlex₁
                exact ⟨msg, hmsg, hends₁ _ hends⟩
            · push Not at hword
              exact Or.inr fun cmd ps hlex =>
                ⟨_, by simp [syntaxErrors], parseredirs_missing hlex hbegins hword⟩
      · exact Or.inl ⟨[], [], ts, rfl, .nil, hbegins⟩

/-! ## The words of a command -/

theorem addArg_wrap (a : Ptr × Ptr) : addArg a (wrap cmd rs) = wrap (addArg a cmd) rs := by
  induction rs generalizing cmd with
  | nil => rfl
  | cons r rs ih => rw [wrap_cons, wrap_cons, ih, addArg]

/-- The tokens at which the loop over the words stops. -/
def Stops (rest : List Token) : Prop := rest = [] ∨ Begins ['|', ')', '&', ';'] rest

theorem Stops.not_redirs (h : Stops rest) : ¬ Begins ['<', '>'] rest := by
  rcases h with rfl | ⟨t, ht, c, hc, hmem⟩
  · exact not_begins_nil
  · rintro ⟨t', ht', c', hc', hmem'⟩
    rw [Option.mem_unique ht ht'] at hc
    rw [Option.mem_unique hc hc'] at hmem
    simp only [List.mem_cons, List.not_mem_nil, or_false] at hmem'
    rcases hmem' with rfl | rfl
    · exact absurd hmem (by decide)
    · exact absurd hmem (by decide)

/-- The loop goes on behind a word. -/
theorem parseargs_step {q eq : Ptr} (ret : Cmd) (argc : ℕ)
    (hlex : Lex ps (.word q eq :: ts)) :
    ∃ ps', Lex ps' ts ∧
      (MAXARGS ≤ argc + 1 → Ends (fun fuel => parseargs fuel ret argc ps)
        (.error "too many args")) ∧
      (argc + 1 < MAXARGS → ∀ r,
        Ends (fun fuel => do
          let (ret, ps) ← parseredirs fuel (addArg (q, eq) ret) ps'
          parseargs fuel ret (argc + 1) ps) r →
        Ends (fun fuel => parseargs fuel ret argc ps) r) := by
  obtain ⟨ps₁, hpeek, hlex₁⟩ := peek_not_begins ['|', ')', '&', ';'] hlex (by simp [symbols])
    not_begins_word
  obtain ⟨hret, hlex₂⟩ := hlex₁.gettoken
  obtain ⟨hq, heq⟩ := hlex₁.gettoken_word
  refine ⟨_, hlex₂, fun hargc => Returns.of_succ ?_, fun hargc r hends => Returns.of_succ ?_⟩
  · simp only [parseargs, hpeek, hret, hq, heq, if_pos hargc]
    exact ends_panic
  · simp only [parseargs, hpeek, hret, hq, heq, if_neg (not_le.mpr hargc)]
    exact hends

theorem parseargs_stop {ret : Cmd} {argc : ℕ} (h : Stops rest) :
    Accepts (fun fuel ps => parseargs fuel ret argc ps) rest ret rest := by
  intro ps hlex
  by_cases hbegins : Begins ['|', ')', '&', ';'] rest
  · obtain ⟨ps', hpeek, hlex'⟩ := peek_begins ['|', ')', '&', ';'] hlex (by simp [symbols])
      hbegins
    refine ⟨ps', Returns.of_succ ?_, hlex'⟩
    simp only [parseargs, hpeek]
    exact returns_pure _
  · obtain rfl : rest = [] := h.resolve_right hbegins
    obtain ⟨ps₁, hpeek, hlex₁⟩ := peek_not_begins ['|', ')', '&', ';'] hlex (by simp [symbols])
      hbegins
    obtain ⟨hret, hlex'⟩ := hlex₁.gettoken_nil
    refine ⟨_, Returns.of_succ ?_, hlex'⟩
    simp only [parseargs, hpeek, hret]
    exact returns_pure _

theorem parseargs_syntax {ret : Cmd} {argc : ℕ} (hstops : ¬ Stops (t :: ts))
    (hword : ∀ q eq, t ≠ .word q eq) (hlex : Lex ps (t :: ts)) :
    Ends (fun fuel => parseargs fuel ret argc ps) (.error "syntax") := by
  obtain ⟨ps₁, hpeek, hlex₁⟩ := peek_not_begins ['|', ')', '&', ';'] hlex (by simp [symbols])
    fun hbegins => hstops (Or.inr hbegins)
  obtain ⟨hret, -⟩ := hlex₁.gettoken
  obtain ⟨rest, hscan, -⟩ := hlex₁.scans
  have hword' : t.ret ≠ 'a' := fun h => hword _ _ (hscan.eq_word h)
  have hend : t.ret ≠ '\x00' := hscan.ret_ne
  refine Returns.of_succ ?_
  simp only [parseargs, hpeek, hret, if_neg hend, if_pos hword']
  exact ends_panic

theorem Words.not_redirs (hwords : Words ts argv rs) (hrest : ¬ Begins ['<', '>'] rest) :
    ¬ Begins ['<', '>'] (ts ++ rest) := by
  cases hwords with
  | nil => exact hrest
  | cons hredirs h => exact not_begins_word

theorem accepts_parseargs (hwords : Words ts argv rs') (hrest : Stops rest) :
    ∀ args rs, args.length + argv.length ≤ 9 →
      Accepts (fun fuel ps => parseargs fuel (wrap (.exec args) rs) args.length ps) (ts ++ rest)
        (wrap (.exec (args ++ argv)) (rs ++ rs')) rest := by
  induction hwords with
  | nil =>
      intro args rs hle
      rw [List.append_nil, List.append_nil]
      exact parseargs_stop hrest
  | @cons q eq us ts argv rs₁ rs' hredirs hwords ih =>
      intro args rs hle ps hlex
      rw [List.length_cons] at hle
      rw [List.append_assoc, List.cons_append] at hlex
      obtain ⟨ps₁, hlex₁, -, hgo⟩ := parseargs_step (wrap (.exec args) rs)
        args.length hlex
      rw [addArg_wrap, addArg] at hgo
      obtain ⟨ps₂, hends₂, hlex₂⟩ := accepts_parseredirs hredirs
        (hwords.not_redirs hrest.not_redirs) (wrap (.exec (args ++ [(q, eq)])) rs) ps₁ hlex₁
      obtain ⟨ps', hends, hlex'⟩ := ih (args ++ [(q, eq)]) (rs ++ rs₁)
        (by rw [List.length_append, List.length_singleton]; omega) ps₂ hlex₂
      refine ⟨ps', hgo (by simp only [MAXARGS]; omega) _ (Returns.bind_ok hends₂ ?_), hlex'⟩
      rw [← wrap_append]
      simpa using hends

/-- The words and redirections at the beginning, if there are at most nine words and nothing
but what may follow a command. -/
theorem exists_words (ts : List Token) :
    ∀ args rs, args.length ≤ 9 →
      (∃ us argv rs' rest, ts = us ++ rest ∧ Words us argv rs' ∧
        args.length + argv.length ≤ 9 ∧ Stops rest) ∨
      Rejects (fun fuel ps => parseargs fuel (wrap (.exec args) rs) args.length ps) ts := by
  induction hn : ts.length using Nat.strong_induction_on generalizing ts with
  | _ n ih =>
      intro args rs hargs
      by_cases hstops : Stops ts
      · exact Or.inl ⟨[], [], [], ts, rfl, .nil, hargs, hstops⟩
      cases ts with
      | nil => exact absurd (Or.inl rfl) hstops
      | cons t ts =>
          by_cases hword : ∃ q eq, t = .word q eq
          · obtain ⟨q, eq, rfl⟩ := hword
            by_cases hmax : MAXARGS ≤ args.length + 1
            · refine Or.inr fun ps hlex => ?_
              obtain ⟨-, -, hmany, -⟩ := parseargs_step (wrap (.exec args) rs)
                args.length hlex
              exact ⟨_, by simp [syntaxErrors], hmany hmax⟩
            rw [not_le] at hmax
            rcases exists_redirs ts with ⟨us, rs₁, rest, rfl, hredirs, hrest⟩ | hrejects
            · have hlength : (args ++ [(q, eq)]).length = args.length + 1 := by simp
              have hshort : rest.length < n := by
                rw [← hn, List.length_cons, List.length_append]
                omega
              rcases ih rest.length hshort rest rfl (args ++ [(q, eq)]) (rs ++ rs₁)
                (by rw [hlength]; simp only [MAXARGS] at hmax; omega) with
                ⟨us', argv, rs', rest', rfl, hwords, hle, hstops'⟩ | hrejects
              · refine Or.inl ⟨.word q eq :: us ++ us', (q, eq) :: argv, rs₁ ++ rs', rest', ?_,
                  .cons hredirs hwords, ?_, hstops'⟩
                · simp
                · rw [hlength] at hle
                  rw [List.length_cons]
                  omega
              · refine Or.inr fun ps hlex => ?_
                obtain ⟨ps₁, hlex₁, -, hgo⟩ := parseargs_step (wrap (.exec args) rs)
                  args.length hlex
                rw [addArg_wrap, addArg] at hgo
                obtain ⟨ps₂, hends₂, hlex₂⟩ := accepts_parseredirs hredirs hrest
                  (wrap (.exec (args ++ [(q, eq)])) rs) ps₁ hlex₁
                obtain ⟨msg, hmsg, hends⟩ := hrejects ps₂ hlex₂
                refine ⟨msg, hmsg, hgo hmax _ (Returns.bind_ok hends₂ ?_)⟩
                rw [← wrap_append]
                simpa using hends
            · refine Or.inr fun ps hlex => ?_
              obtain ⟨ps₁, hlex₁, -, hgo⟩ := parseargs_step (wrap (.exec args) rs)
                args.length hlex
              obtain ⟨msg, hmsg, hends⟩ := hrejects _ ps₁ hlex₁
              exact ⟨msg, hmsg, hgo hmax _ (Returns.bind_error hends)⟩
          · push Not at hword
            exact Or.inr fun ps hlex =>
              ⟨_, by simp [syntaxErrors], parseargs_syntax hstops hword hlex⟩

end Xv6.Sh
