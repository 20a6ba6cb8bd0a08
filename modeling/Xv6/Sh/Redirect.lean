import Mathlib.Data.List.FinRange
import Mathlib.Data.List.Induction
import Xv6.Sh.Correct
import Xv6.Syscall.Handlers

/-!
# The order of redirections

The parser puts each redirection around those before it, and `runcmd` begins outside.  So the
last redirection is made first, and the first one of the text is made last and stays.
-/

namespace Xv6.Sh

variable {F : Type} {opens : List Char → ℕ → Option F} {ofile : Fin NOFILE → Option F}
variable {ts us rest : List Token} {inner : Cmd} {rs : List Redirection} {ps : Ptr} {fd : ℕ}

/-! ## The code -/

def close (ofile : Fin NOFILE → Option F) (fd : ℕ) : Fin NOFILE → Option F := fun i =>
  if (i : ℕ) = fd then none else ofile i

/-- `fdalloc`: the first free descriptor. -/
def fdalloc (ofile : Fin NOFILE → Option F) (f : F) : Option (Fin NOFILE → Option F) :=
  ((List.finRange NOFILE).find? fun fd => (ofile fd).isNone).map fun fd =>
    Function.update ofile fd (some f)

/-- `open`, where `opens` says which file the path leads to. -/
def sysOpen (opens : List Char → ℕ → Option F) (ofile : Fin NOFILE → Option F)
    (path : List Char) (mode : ℕ) : Option (Fin NOFILE → Option F) :=
  (opens path mode).bind (fdalloc ofile)

/-- The string at `file` when `nulterminate` has written a NUL at `efile`. -/
def word (file efile : Ptr) : List Char := file.take (file.length - efile.length)

/-- `runcmd` as far as the first command that is no redirection, or until an `open` fails. -/
def runcmd (opens : List Char → ℕ → Option F) :
    Cmd → (Fin NOFILE → Option F) → Option (Cmd × (Fin NOFILE → Option F))
  | .redir cmd file efile mode fd, ofile =>
      match sysOpen opens (close ofile fd) (word file efile) mode with
      | none => none
      | some ofile => runcmd opens cmd ofile
  | cmd, ofile => some (cmd, ofile)

/-! ## One redirection -/

/-- The standard descriptors. -/
def Standard (ofile : Fin NOFILE → Option F) : Prop := ∀ i : Fin NOFILE, i.val ≤ 2 → ofile i ≠ none

theorem fdalloc_close (hofile : Standard ofile) (hfd : fd ≤ 2) (f : F) :
    fdalloc (close ofile fd) f =
      some (fun i : Fin NOFILE => if (i : ℕ) = fd then some f else ofile i) := by
  have hlt : fd < NOFILE := lt_of_le_of_lt hfd (by decide)
  have hfirst : (List.finRange NOFILE).find? (fun i => (close ofile fd i).isNone) =
      some ⟨fd, hlt⟩ := by
    rw [List.find?_eq_some_iff_getElem]
    refine ⟨by simp [close], fd, by simpa using hlt, by simp, fun j hj => ?_⟩
    have hne : j ≠ fd := hj.ne
    have hopen := hofile ⟨j, hj.trans hlt⟩ (hj.le.trans hfd)
    simpa [close, hne, Option.isSome_iff_ne_none] using hopen
  unfold fdalloc
  rw [hfirst, Option.map_some]
  refine congrArg some (funext fun i => ?_)
  by_cases hi : (i : ℕ) = fd
  · obtain rfl : i = ⟨fd, hlt⟩ := Fin.ext hi
    rw [Function.update_self, if_pos rfl]
  · rw [Function.update_of_ne (fun h => hi (congrArg Fin.val h)), if_neg hi, close, if_neg hi]

/-- The file of a redirection. -/
def Redirection.target (opens : List Char → ℕ → Option F) (r : Redirection) : Option F :=
  opens (word r.file r.efile) r.mode

/-- The descriptors when the first redirection of each of them has taken effect. -/
def redirected (opens : List Char → ℕ → Option F) (rs : List Redirection)
    (ofile : Fin NOFILE → Option F) (i : Fin NOFILE) : Option F :=
  match rs.find? fun r => r.fd = i.val with
  | some r => r.target opens
  | none => ofile i

/-- The last redirection is made, and then those before it. -/
theorem runcmd_wrap (hopens : ∀ path mode, opens path mode ≠ none) (hfds : ∀ r ∈ rs, r.fd ≤ 2)
    (hofile : Standard ofile) :
    runcmd opens (wrap inner rs) ofile = runcmd opens inner (redirected opens rs ofile) := by
  induction rs using List.reverseRecOn generalizing ofile with
  | nil => rfl
  | append_singleton rs r ih =>
      obtain ⟨f, hf⟩ := Option.ne_none_iff_exists'.mp (hopens (word r.file r.efile) r.mode)
      have hfd : r.fd ≤ 2 := hfds r (by simp)
      have hwrap : wrap inner (rs ++ [r]) = .redir (wrap inner rs) r.file r.efile r.mode r.fd :=
        wrap_append
      rw [hwrap, runcmd, sysOpen, hf, Option.bind_some, fdalloc_close hofile hfd f]
      dsimp only
      rw [ih (fun r hr => hfds r (List.mem_append_left _ hr))]
      · congr 1
        funext i
        rw [redirected, redirected, List.find?_append]
        cases hfind : rs.find? fun r => r.fd = i.val with
        | some r' => rfl
        | none =>
            by_cases hi : (i : ℕ) = r.fd
            · simp [hi, Redirection.target, hf]
            · simp [hi, Ne.symm hi]
      · intro i hi
        dsimp only
        split
        · exact Option.some_ne_none f
        · exact hofile i hi

/-! ## The redirections of a command -/

/-- The tokens of a command, what is redirected, and the redirections as the text has them. -/
inductive Redirected : List Token → Cmd → List Redirection → Prop
  | block {ts us : List Token} {cmd : Cmd} {rs : List Redirection} (h : Derives .line ts cmd)
      (hredirs : Redirs us rs) : Redirected (.symbol '(' :: ts ++ .symbol ')' :: us) cmd rs
  | exec {us ts : List Token} {argv : List (Ptr × Ptr)} {rs rs' : List Redirection}
      (hredirs : Redirs us rs) (hwords : Words ts argv rs') (hargv : argv.length ≤ 9) :
      Redirected (us ++ ts) (.exec argv) (rs ++ rs')

theorem Redirected.derives (h : Redirected ts inner rs) : Derives .exec ts (wrap inner rs) := by
  cases h with
  | block h hredirs => exact .block h hredirs
  | exec hredirs hwords hargv => exact .exec hredirs hwords hargv

theorem Redirs.fd_le (h : Redirs ts rs) : ∀ r ∈ rs, r.fd ≤ 2 := by
  induction h with
  | nil => simp
  | input h ih => simpa using ih
  | output h ih => simpa using ih
  | append h ih => simpa using ih

theorem Words.fd_le {argv : List (Ptr × Ptr)} (h : Words ts argv rs) : ∀ r ∈ rs, r.fd ≤ 2 := by
  induction h with
  | nil => simp
  | cons hredirs h ih =>
      intro r hr
      exact (List.mem_append.mp hr).elim (hredirs.fd_le r) (ih r)

theorem Redirected.fd_le (h : Redirected ts inner rs) : ∀ r ∈ rs, r.fd ≤ 2 := by
  cases h with
  | block h hredirs => exact hredirs.fd_le
  | exec hredirs hwords hargv =>
      intro r hr
      exact (List.mem_append.mp hr).elim (hredirs.fd_le r) (hwords.fd_le r)

/-- Wherever a command with redirections stands in a line, the parser returns a tree from which
`runcmd` comes to the command itself, and each descriptor then leads to the file of the first
redirection of it in the text. -/
theorem first_redirection_stays (hcmd : Redirected ts inner rs) (hfollows : Follows .exec rest)
    (hlex : Lex ps (ts ++ rest)) (hopens : ∀ path mode, opens path mode ≠ none)
    (hofile : Standard ofile) :
    ∃ tree ps', Ends (fun fuel => parseexec fuel ps) (.ok (tree, ps')) ∧ Lex ps' rest ∧
      ∃ ofile', runcmd opens tree ofile = runcmd opens inner ofile' ∧
        ∀ i : Fin NOFILE, ofile' i =
          match rs.find? fun r => r.fd = i.val with
          | some r => r.target opens
          | none => ofile i := by
  obtain ⟨ps', hends, hrest⟩ := hcmd.derives.accepts rest hfollows ps hlex
  exact ⟨wrap inner rs, ps', hends, hrest, redirected opens rs ofile,
    runcmd_wrap hopens hcmd.fd_le hofile, fun i => rfl⟩

/-! ## The line `a>b>c` -/

def twoOutputs : List Redirection :=
  [⟨['b', '>', 'c'], ['>', 'c'], O_WRONLY ||| O_CREATE, 1⟩, ⟨['c'], [], O_WRONLY ||| O_CREATE, 1⟩]

theorem redirected_twoOutputs : ∃ ts inner, Lex ['a', '>', 'b', '>', 'c'] (ts ++ []) ∧
    Redirected ts inner twoOutputs ∧ ∀ {F : Type} (opens : List Char → ℕ → Option F) ofile,
      runcmd opens inner ofile = some (inner, ofile) := by
  have hlex : Lex ['a', '>', 'b', '>', 'c'] ([.word ['a', '>', 'b', '>', 'c'] ['>', 'b', '>', 'c'],
      .symbol '>', .word ['b', '>', 'c'] ['>', 'c'], .symbol '>', .word ['c'] []] ++ []) := by
    refine .token (@Scans.word ['a'] ['>', 'b', '>', 'c'] (by simp) (by simp [whitespace, symbols])
      (by simp [whitespace, symbols])) ?_
    refine .token (.gt (by decide)) ?_
    refine .token (@Scans.word ['b'] ['>', 'c'] (by simp) (by simp [whitespace, symbols])
      (by simp [whitespace, symbols])) ?_
    refine .token (.gt (by decide)) ?_
    exact .token (@Scans.word ['c'] [] (by simp) (by simp [whitespace, symbols])
      (by simp [whitespace, symbols])) .done
  have hwords : Words [.word ['a', '>', 'b', '>', 'c'] ['>', 'b', '>', 'c'],
      .symbol '>', .word ['b', '>', 'c'] ['>', 'c'], .symbol '>', .word ['c'] []]
      [(['a', '>', 'b', '>', 'c'], ['>', 'b', '>', 'c'])] twoOutputs :=
    .cons (.output (.output .nil)) .nil
  exact ⟨_, _, hlex, .exec .nil hwords (by decide), fun _ _ => rfl⟩

/-- The output goes to `b`. -/
theorem output_to_first : ∃ tree ps' inner ofile',
    Ends (fun fuel => parseexec fuel ['a', '>', 'b', '>', 'c']) (.ok (tree, ps')) ∧
      runcmd (fun path _ => some path) tree (fun _ => some []) = some (inner, ofile') ∧
      ofile' ⟨1, by decide⟩ = some ['b'] := by
  obtain ⟨ts, inner, hlex, hcmd, hinner⟩ := redirected_twoOutputs
  obtain ⟨tree, ps', hends, -, ofile', hrun, htarget⟩ :=
    @first_redirection_stays _ (fun path _ => some path) (fun _ => some []) _ _ _ _ _ hcmd
      (Or.inl rfl) hlex (fun _ _ => Option.some_ne_none _) (fun _ _ => Option.some_ne_none _)
  exact ⟨tree, ps', inner, ofile', hends, hrun.trans (hinner _ _), htarget _⟩

/-- It does not go to `c`. -/
theorem last_redirection_lost :
    ¬ ∀ (F : Type) (opens : List Char → ℕ → Option F) (ofile : Fin NOFILE → Option F)
      (ts rest : List Token) (inner : Cmd) (rs : List Redirection) (ps : Ptr),
      Redirected ts inner rs → Follows .exec rest → Lex ps (ts ++ rest) →
      (∀ path mode, opens path mode ≠ none) → Standard ofile →
      ∃ tree ps', Ends (fun fuel => parseexec fuel ps) (.ok (tree, ps')) ∧ Lex ps' rest ∧
        ∃ ofile', runcmd opens tree ofile = runcmd opens inner ofile' ∧
          ∀ i : Fin NOFILE, ofile' i =
            match rs.reverse.find? fun r => r.fd = i.val with
            | some r => r.target opens
            | none => ofile i := by
  intro h
  obtain ⟨ts, inner, hlex, hcmd, hinner⟩ := redirected_twoOutputs
  obtain ⟨tree, ps', hends, -, ofile', hrun, htarget⟩ :=
    h _ (fun path _ => some path) (fun _ => some []) ts [] inner twoOutputs _ hcmd (Or.inl rfl) hlex
      (fun _ _ => Option.some_ne_none _) (fun _ _ => Option.some_ne_none _)
  obtain ⟨ps₁, hends₁, -⟩ := hcmd.derives.accepts [] (Or.inl rfl) _ hlex
  obtain ⟨rfl, -⟩ := Prod.mk.inj (Except.ok.inj (hends₁.unique hends))
  rw [runcmd_wrap (fun _ _ => Option.some_ne_none _) hcmd.fd_le fun _ _ => Option.some_ne_none _,
    hinner, hinner] at hrun
  obtain ⟨-, rfl⟩ := Prod.mk.inj (Option.some.inj hrun)
  have hlast : some ['b'] = some ['c'] := htarget ⟨1, by decide⟩
  exact absurd hlast (by decide)

end Xv6.Sh
