import Mathlib.Data.List.TakeWhile
import AliOS.Shell.Redirect

/-!
# AliOS.Shell.Glob

The patterns of `find` (`kernel/shell.c`).  `sh_glob` walks along pattern and string; behind
a star it calls itself for every place where the rest of the pattern could begin, except the
end of the string.  It never looks there, because a rest that matches nothing at all consists
of stars and matches the last character, too.

`Matches` says what a pattern means; `shGlob_iff` says that `sh_glob` decides it.
-/

namespace AliOS

open Lib List

/-! ## sh_glob -/

/-- The character '*'. -/
def star : UInt8 := 42

/-- The character '?'. -/
def question : UInt8 := 63

/-- `while (*str) { if (sh_glob(pat, str)) return 1; str++; } return 0;` -/
def anySuffix (glob : List UInt8 → Bool) : List UInt8 → Bool
  | [] => false
  | c :: str => glob (c :: str) || anySuffix glob str

/-- Behind the loop: stars are skipped, and nothing may be left. -/
def globEnd (pat str : List UInt8) : Bool := (pat.dropWhile (· == star)).isEmpty && str.isEmpty

/-- `sh_glob`.  The pattern of a recursive call is shorter. -/
def shGlob : List UInt8 → List UInt8 → Bool
  | [], str => globEnd [] str
  | p :: pat, [] => globEnd (p :: pat) []
  | p :: pat, c :: str =>
    if p = star then if pat = [] then true else anySuffix (shGlob pat) (c :: str)
    else if p = question ∨ p = c then shGlob pat str
    else false

/-- What a pattern means: a star stands for any characters, a question mark for one, and any
other character for itself. -/
inductive Matches : List UInt8 → List UInt8 → Prop where
  | nil : Matches [] []
  | star (s : List UInt8) {pat str : List UInt8} : Matches pat str →
      Matches (star :: pat) (s ++ str)
  | any (c : UInt8) {pat str : List UInt8} : Matches pat str → Matches (question :: pat) (c :: str)
  | char {c : UInt8} {pat str : List UInt8} :
      c ≠ AliOS.star → c ≠ question → Matches pat str → Matches (c :: pat) (c :: str)

section

variable {p c : UInt8} {pat str : List UInt8}

theorem anySuffix_iff {glob : List UInt8 → Bool} :
    anySuffix glob str ↔ ∃ s rest, rest ≠ [] ∧ str = s ++ rest ∧ glob rest := by
  induction str with
  | nil => simp [anySuffix]
  | cons c str ih =>
    rw [anySuffix, Bool.or_eq_true, ih]
    constructor
    · rintro (h | ⟨s, rest, hne, rfl, h⟩)
      · exact ⟨[], c :: str, by simp, rfl, h⟩
      · exact ⟨c :: s, rest, hne, rfl, h⟩
    · rintro ⟨s, rest, hne, heq, h⟩
      cases s with
      | nil => exact .inl (by rw [heq]; exact h)
      | cons d s =>
        obtain ⟨rfl, rfl⟩ := List.cons.inj heq
        exact .inr ⟨s, rest, hne, rfl, h⟩

theorem matches_nil_iff : Matches [] str ↔ str = [] := by
  constructor
  · rintro ⟨⟩
    rfl
  · rintro rfl
    exact .nil

theorem matches_star_iff : Matches (star :: pat) str ↔ ∃ s rest, str = s ++ rest ∧
    Matches pat rest := by
  constructor
  · intro h
    cases h with
    | star s h => exact ⟨s, _, rfl, h⟩
    | char hstar => exact absurd rfl hstar
  · rintro ⟨s, rest, rfl, h⟩
    exact .star s h

/-- Any other character of the pattern takes one of the string. -/
theorem matches_cons_iff (hp : p ≠ star) :
    Matches (p :: pat) (c :: str) ↔ (p = question ∨ p = c) ∧ Matches pat str := by
  constructor
  · intro h
    generalize ht : c :: str = t at h
    cases h with
    | star => exact absurd rfl hp
    | any _ h =>
      obtain ⟨-, rfl⟩ := List.cons.inj ht
      exact ⟨.inl rfl, h⟩
    | char _ _ h =>
      obtain ⟨rfl, rfl⟩ := List.cons.inj ht
      exact ⟨.inr rfl, h⟩
  · rintro ⟨hpc, h⟩
    by_cases hq : p = question
    · rw [hq]
      exact .any c h
    · obtain rfl := hpc.resolve_left hq
      exact .char hp hq h

/-- Only stars match nothing. -/
theorem matches_empty_iff : Matches pat [] ↔ ∀ p ∈ pat, p = star := by
  induction pat with
  | nil => simp [matches_nil_iff]
  | cons p pat ih =>
    by_cases hp : p = star
    · simp [hp, matches_star_iff, ih]
    · simp only [forall_mem_cons, hp, false_and, iff_false]
      intro h
      generalize ht : [] = t at h
      cases h with
      | star => exact hp rfl
      | any => cases ht
      | char => cases ht

/-- Stars match anything. -/
theorem matches_of_stars (h : ∀ p ∈ pat, p = star) (hne : pat ≠ []) (str : List UInt8) :
    Matches pat str := by
  cases pat with
  | nil => exact absurd rfl hne
  | cons p pat =>
    obtain ⟨rfl, hpat⟩ := forall_mem_cons.mp h
    exact matches_star_iff.mpr ⟨str, [], by simp, matches_empty_iff.mpr hpat⟩

/-- Behind a star the rest of the pattern need not be tried at the end of the string. -/
theorem matches_star_suffix (hpat : pat ≠ []) (hstr : str ≠ []) :
    Matches (star :: pat) str ↔ ∃ s rest, rest ≠ [] ∧ str = s ++ rest ∧ Matches pat rest := by
  rw [matches_star_iff]
  constructor
  · rintro ⟨s, rest, rfl, h⟩
    cases rest with
    | nil => exact ⟨[], s ++ [], hstr, rfl, matches_of_stars (matches_empty_iff.mp h) hpat _⟩
    | cons c rest => exact ⟨s, c :: rest, by simp, rfl, h⟩
  · rintro ⟨s, rest, -, rfl, h⟩
    exact ⟨s, rest, rfl, h⟩

/-- **`sh_glob` decides what its pattern means.**  For every pattern and string it returns, and
it returns 1 iff the string matches. -/
theorem shGlob_iff (pat str : List UInt8) : shGlob pat str = true ↔ Matches pat str := by
  induction pat generalizing str with
  | nil => simp [shGlob, globEnd, matches_nil_iff]
  | cons p pat ih =>
    cases str with
    | nil => simp [shGlob, globEnd, matches_empty_iff, dropWhile_eq_nil_iff]
    | cons c str =>
      rw [shGlob]
      by_cases hp : p = star
      · rw [if_pos hp, hp]
        by_cases hpat : pat = []
        · simpa [hpat] using matches_of_stars (by simp) (by simp) _
        · rw [if_neg hpat, anySuffix_iff, matches_star_suffix hpat (by simp)]
          simp only [ih]
      · rw [if_neg hp, matches_cons_iff hp]
        by_cases hpc : p = question ∨ p = c
        · simp [hpc, ih]
        · simp [hpc]

example : shGlob (.ascii "*.?xt" : CStr).chars (.ascii "notes.txt" : CStr).chars = true := by decide

end

end AliOS
