import Xv6.Lib.Prefix

/-!
# The matcher of `grep`

A string is the list of its bytes, without the zero at its end.  What a pattern means is
said in terms of languages: it is a list of letters and starred letters, with or without
an anchor at each end.
-/

namespace Xv6.Grep

open Computability Prefix

abbrev Byte := UInt8

/-! ## The code -/

mutual

/-- Search for `re` at the beginning of `text`. -/
def matchhere (re text : List Byte) : Bool :=
  match re with
  | [] => true
  | c :: re' =>
      if re'.head? = some '*'.toUInt8 then matchstar c re'.tail text
      else if c = '$'.toUInt8 ∧ re' = [] then text.isEmpty
      else
        match text with
        | x :: text' => if c = '.'.toUInt8 ∨ c = x then matchhere re' text' else false
        | [] => false
termination_by (re.length, text.length, 0)
decreasing_by
  · simp only [Prod.lex_def, List.length_cons, List.length_tail]
    omega
  · simp only [Prod.lex_def, List.length_cons]
    omega

/-- Search for `c*re` at the beginning of `text`. -/
def matchstar (c : Byte) (re text : List Byte) : Bool :=
  if matchhere re text then true
  else
    match text with
    | x :: text' => if x = c ∨ c = '.'.toUInt8 then matchstar c re text' else false
    | [] => false
termination_by (re.length, text.length, 1)

end

/-- The loop of `match`. -/
def matchFrom (re text : List Byte) : Bool :=
  if matchhere re text then true
  else
    match text with
    | _ :: text' => matchFrom re text'
    | [] => false

/-- The function `match`. -/
def match' (re text : List Byte) : Bool :=
  if re.head? = some '^'.toUInt8 then matchhere re.tail text else matchFrom re text

/-! ## What a pattern means -/

inductive Atom where
  | one (c : Byte)
  | star (c : Byte)

structure Pattern where
  anchored : Bool
  atoms : List Atom
  final : Bool

/-- The atoms of a pattern, and whether a `$` is at its end. -/
def parse : List Byte → List Atom × Bool
  | [] => ([], false)
  | [c] => if c = '$'.toUInt8 then ([], true) else ([.one c], false)
  | c :: d :: re =>
      if d = '*'.toUInt8 then (.star c :: (parse re).1, (parse re).2)
      else (.one c :: (parse (d :: re)).1, (parse (d :: re)).2)

def Pattern.ofString (re : List Byte) : Pattern :=
  if re.head? = some '^'.toUInt8 then ⟨true, (parse re.tail).1, (parse re.tail).2⟩
  else ⟨false, (parse re).1, (parse re).2⟩

/-- `.` stands for any character. -/
def Stands (c x : Byte) : Prop := c = '.'.toUInt8 ∨ c = x

def Atom.language : Atom → Language Byte
  | one c => letter (Stands c)
  | star c => (letter (Stands c))∗

def Pattern.language (pattern : Pattern) : Language Byte :=
  (pattern.atoms.map Atom.language).prod

/-- The text contains a match of the pattern. -/
def Pattern.Occurs (pattern : Pattern) (text : List Byte) : Prop :=
  ∃ before word after, text = before ++ word ++ after ∧ word ∈ pattern.language ∧
    (pattern.anchored = true → before = []) ∧ (pattern.final = true → after = [])

/-! ## Matches at the beginning -/

variable {re text : List Byte} {c x : Byte} {a : Atom} {as : List Atom}

/-- What `matchhere` looks for. -/
def Here (re text : List Byte) : Prop :=
  Ahead ((parse re).1.map Atom.language).prod ((parse re).2 = true) text

theorem here_nil : Here [] text := ahead_one.mpr fun h => absurd h Bool.false_ne_true

theorem here_dollar : Here ['$'.toUInt8] text ↔ text = [] := by
  have hparse : parse ['$'.toUInt8] = ([], true) := if_pos rfl
  rw [Here, hparse]
  exact ahead_one.trans ⟨fun h => h rfl, fun h _ => h⟩

theorem here_star : Here (c :: '*'.toUInt8 :: re) text ↔
    Here re text ∨
      ∃ x text', text = x :: text' ∧ Stands c x ∧ Here (c :: '*'.toUInt8 :: re) text' := by
  have hparse : parse (c :: '*'.toUInt8 :: re) = (.star c :: (parse re).1, (parse re).2) :=
    if_pos rfl
  rw [Here, hparse, List.map_cons, List.prod_cons, Atom.language, ahead_kstar, ahead_letter]
  simp only [Here, hparse]
  rfl

/-- A letter without a star, and other than a `$` at the end. -/
theorem here_one (hstar : re.head? ≠ some '*'.toUInt8) (hdollar : ¬(c = '$'.toUInt8 ∧ re = [])) :
    Here (c :: re) text ↔ ∃ x text', text = x :: text' ∧ Stands c x ∧ Here re text' := by
  have hparse : parse (c :: re) = (.one c :: (parse re).1, (parse re).2) := by
    cases re with
    | nil => exact if_neg fun h => hdollar ⟨h, rfl⟩
    | cons d re => exact if_neg fun h => hstar (congrArg some h)
  rw [Here, hparse, List.map_cons, List.prod_cons, Atom.language, ahead_letter]
  rfl

/-! ## The matcher is right -/

theorem matchstar_iff (hhere : ∀ text, matchhere re text = true ↔ Here re text) (text : List Byte) :
    matchstar c re text = true ↔ Here (c :: '*'.toUInt8 :: re) text := by
  induction text with
  | nil =>
      rw [matchstar, here_star]
      split
      · rename_i hmatch
        exact iff_of_true rfl (Or.inl ((hhere []).mp hmatch))
      · rename_i hmatch
        refine iff_of_false Bool.false_ne_true ?_
        rintro (h | ⟨x, text', htext, -⟩)
        · exact hmatch ((hhere []).mpr h)
        · simp at htext
  | cons x text ih =>
      rw [matchstar, here_star]
      split
      · rename_i hmatch
        exact iff_of_true rfl (Or.inl ((hhere _).mp hmatch))
      rename_i hmatch
      have hnot : ¬Here re (x :: text) := fun h => hmatch ((hhere _).mpr h)
      have hstands : x = c ∨ c = '.'.toUInt8 ↔ Stands c x :=
        ⟨fun h => h.symm.imp_right Eq.symm, fun h => (h.imp_right Eq.symm).symm⟩
      split
      · rename_i hx
        rw [ih]
        constructor
        · exact fun h => Or.inr ⟨x, text, rfl, hstands.mp hx, h⟩
        · rintro (h | ⟨y, text', htext, -, h⟩)
          · exact absurd h hnot
          · obtain ⟨rfl, rfl⟩ := List.cons.inj htext
            exact h
      · rename_i hx
        refine iff_of_false Bool.false_ne_true ?_
        rintro (h | ⟨y, text', htext, hy, -⟩)
        · exact hnot h
        · obtain ⟨rfl, rfl⟩ := List.cons.inj htext
          exact hx (hstands.mpr hy)

theorem matchhere_iff (re text : List Byte) : matchhere re text = true ↔ Here re text := by
  induction hlen : re.length using Nat.strong_induction_on generalizing re text with
  | _ len ih =>
  subst hlen
  cases re with
  | nil =>
      rw [matchhere]
      exact iff_of_true rfl here_nil
  | cons c re =>
      rw [matchhere.eq_def]
      dsimp only
      split
      · -- a starred letter
        rename_i hhead
        obtain ⟨re, rfl⟩ : ∃ re', re = '*'.toUInt8 :: re' := by
          cases re with
          | nil => simp at hhead
          | cons d re => exact ⟨re, congrArg (· :: re) (Option.some.inj hhead)⟩
        have hlt : re.length < (c :: '*'.toUInt8 :: re).length := by
          simp only [List.length_cons]
          omega
        exact matchstar_iff (fun text => ih re.length hlt re text rfl) text
      rename_i hstar
      split
      · -- the end of the pattern
        rename_i hdollar
        obtain ⟨rfl, rfl⟩ := hdollar
        rw [here_dollar, List.isEmpty_iff]
      rename_i hdollar
      rw [here_one hstar hdollar]
      cases text with
      | nil =>
          refine iff_of_false Bool.false_ne_true ?_
          rintro ⟨x, text', htext, -⟩
          simp at htext
      | cons x text =>
          dsimp only
          split
          · rename_i hx
            rw [ih re.length (by simp) re text rfl]
            constructor
            · exact fun h => ⟨x, text, rfl, hx, h⟩
            · rintro ⟨_, _, htext, -, h⟩
              obtain ⟨rfl, rfl⟩ := List.cons.inj htext
              exact h
          · rename_i hx
            refine iff_of_false Bool.false_ne_true ?_
            rintro ⟨_, _, htext, hstands, -⟩
            obtain ⟨rfl, rfl⟩ := List.cons.inj htext
            exact hx hstands

theorem matchFrom_iff (re text : List Byte) :
    matchFrom re text = true ↔ ∃ before rest, text = before ++ rest ∧ Here re rest := by
  induction text with
  | nil =>
      rw [matchFrom]
      split
      · rename_i hmatch
        exact iff_of_true rfl ⟨[], [], rfl, (matchhere_iff re []).mp hmatch⟩
      · rename_i hmatch
        refine iff_of_false Bool.false_ne_true ?_
        rintro ⟨before, rest, htext, h⟩
        obtain ⟨rfl, rfl⟩ := List.append_eq_nil_iff.mp htext.symm
        exact hmatch ((matchhere_iff re []).mpr h)
  | cons x text ih =>
      rw [matchFrom]
      split
      · rename_i hmatch
        exact iff_of_true rfl ⟨[], x :: text, rfl, (matchhere_iff re _).mp hmatch⟩
      rename_i hmatch
      rw [ih]
      constructor
      · rintro ⟨before, rest, rfl, h⟩
        exact ⟨x :: before, rest, rfl, h⟩
      · rintro ⟨before, rest, htext, h⟩
        cases before with
        | nil =>
            rw [List.nil_append] at htext
            rw [← htext] at h
            exact absurd ((matchhere_iff re _).mpr h) hmatch
        | cons y before =>
            obtain ⟨rfl, rfl⟩ := List.cons.inj htext
            exact ⟨before, rest, rfl, h⟩

/-- `match` finds a match if and only if the text contains one. -/
theorem match_iff (re text : List Byte) :
    match' re text = true ↔ (Pattern.ofString re).Occurs text := by
  rw [match', Pattern.ofString]
  split
  · rw [matchhere_iff]
    constructor
    · rintro ⟨word, rest, rfl, hword, hfinal⟩
      exact ⟨[], word, rest, rfl, hword, fun _ => rfl, hfinal⟩
    · rintro ⟨before, word, after, rfl, hword, hanchored, hfinal⟩
      rw [hanchored rfl]
      exact ⟨word, after, rfl, hword, hfinal⟩
  · rw [matchFrom_iff]
    constructor
    · rintro ⟨before, _, rfl, word, rest, rfl, hword, hfinal⟩
      exact ⟨before, word, rest, (List.append_assoc ..).symm, hword,
        fun h => absurd h Bool.false_ne_true, hfinal⟩
    · rintro ⟨before, word, after, rfl, hword, -, hfinal⟩
      exact ⟨before, word ++ after, List.append_assoc .., word, after, rfl, hword, hfinal⟩

end Xv6.Grep
