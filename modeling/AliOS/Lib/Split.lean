/-!
# AliOS.Lib.Split

Lists in pieces between separators, and in words: the pieces that are not empty.  A scanner
has a piece in hand when it comes to a place in the list; `splitFrom sep w s` and
`wordsFrom sep w s` are what it gets from there on when `w` is that piece.  This module
depends only on the Lean 4 core library.
-/

namespace AliOS.Lib

open List

variable {α : Type _} {sep : α → Bool} {c : α} {w s t : List α}

/-! ## pieces -/

/-- The pieces of `s`, with `w` in front of the first one. -/
def splitFrom (sep : α → Bool) (w s : List α) : List (List α) :=
  (s.splitOnP sep).modifyHead (w ++ ·)

theorem splitFrom_empty (sep : α → Bool) (s : List α) : splitFrom sep [] s = s.splitOnP sep := by
  cases h : s.splitOnP sep <;> simp [splitFrom, h]

@[simp] theorem splitFrom_nil : splitFrom sep w [] = [w] := by
  simp [splitFrom]

theorem splitFrom_cons : splitFrom sep w (c :: s) =
    if sep c then w :: splitFrom sep [] s else splitFrom sep (w ++ [c]) s := by
  rw [splitFrom_empty, splitFrom, splitOnP_cons_eq_if_modifyHead]
  split
  · simp
  · rw [splitFrom, modifyHead_modifyHead]
    congr 1
    funext x
    simp

/-- Pieces consist of what is in the list. -/
theorem mem_of_mem_splitFrom {p : List α} (hp : p ∈ splitFrom sep w s) :
    ∀ c ∈ p, c ∈ w ∨ c ∈ s := by
  induction s generalizing w with
  | nil =>
    obtain rfl := mem_singleton.mp (splitFrom_nil ▸ hp)
    exact fun c => .inl
  | cons d s ih =>
    intro c hc
    rw [splitFrom_cons] at hp
    split at hp
    · rcases mem_cons.mp hp with rfl | hp
      · exact .inl hc
      · exact .inr (mem_cons_of_mem _ ((ih hp c hc).resolve_left (by simp)))
    · have h := ih hp c hc
      simpa [or_assoc] using h

/-- The piece in hand is the beginning of one. -/
theorem exists_splitFrom_prefix (sep : α → Bool) (w s : List α) :
    ∃ p ∈ splitFrom sep w s, w <+: p := by
  induction s generalizing w with
  | nil => exact ⟨w, by simp, prefix_rfl⟩
  | cons c s ih =>
    rw [splitFrom_cons]
    split
    · exact ⟨w, mem_cons_self, prefix_rfl⟩
    · obtain ⟨p, hp, hw⟩ := ih (w ++ [c])
      exact ⟨p, hp, (prefix_append w [c]).trans hw⟩

/-! ## words -/

/-- A word that has ended, unless it is empty. -/
def flush (w : List α) : List (List α) := if w.isEmpty then [] else [w]

def wordsFrom (sep : α → Bool) (w s : List α) : List (List α) :=
  (splitFrom sep w s).filter (!·.isEmpty)

/-- The words of a list. -/
def words (sep : α → Bool) (s : List α) : List (List α) := (s.splitOnP sep).filter (!·.isEmpty)

theorem wordsFrom_empty (sep : α → Bool) (s : List α) : wordsFrom sep [] s = words sep s := by
  rw [wordsFrom, splitFrom_empty, words]

@[simp] theorem flush_nil : flush ([] : List α) = [] := rfl

theorem flush_of_ne (h : w ≠ []) : flush w = [w] := by
  simp [flush, h]

@[simp] theorem wordsFrom_nil : wordsFrom sep w [] = flush w := by
  cases w <;> simp [wordsFrom, flush]

theorem wordsFrom_cons : wordsFrom sep w (c :: s) =
    if sep c then flush w ++ wordsFrom sep [] s else wordsFrom sep (w ++ [c]) s := by
  rw [wordsFrom, splitFrom_cons]
  split
  · cases w <;> simp [wordsFrom, flush]
  · rfl

/-- Characters join the word. -/
theorem wordsFrom_append (h : ∀ c ∈ t, sep c = false) :
    wordsFrom sep w (t ++ s) = wordsFrom sep (w ++ t) s := by
  induction t generalizing w with
  | nil => simp
  | cons c t ih =>
    obtain ⟨hc, ht⟩ := forall_mem_cons.mp h
    simp [wordsFrom_cons, hc, ih ht]

/-- Separators between words are passed over. -/
theorem wordsFrom_seps (h : ∀ c ∈ t, sep c) : wordsFrom sep [] (t ++ s) = wordsFrom sep [] s := by
  induction t with
  | nil => rfl
  | cons c t ih =>
    obtain ⟨hc, ht⟩ := forall_mem_cons.mp h
    simp [wordsFrom_cons, hc, ih ht]

/-- A separator, or the end of the list, ends the word. -/
theorem wordsFrom_ended (h : ∀ c, s.head? = some c → sep c) :
    wordsFrom sep w s = flush w ++ wordsFrom sep [] s := by
  cases s with
  | nil => simp
  | cons c s => simp [wordsFrom_cons, h c rfl]

end AliOS.Lib
