import Mathlib.Algebra.GroupWithZero.Nat
import Mathlib.Data.List.Basic
import AliOS.Lib.Split

/-!
# AliOS.Lib.Lines

Texts and their lines.  The separator at the end of a text ends its last line; `lines` and
`unlines` go back and forth.  `linesInduction` is induction on the lines of a text, and
`foldl_frame` the rule for a scanner that collects the characters of a line in a buffer and
does something with the buffer at each separator and when it is full.
-/

namespace AliOS.Lib

open List

variable {α σ : Type _} {sep : α → Bool} {c : α} {s t : List α}

/-- The lines of a text.  The last separator ends a line, and what stands behind it is one only
if it is not empty. -/
def lines (sep : α → Bool) (s : List α) : List (List α) :=
  (s.splitOnP sep).dropLast ++ flush ((s.splitOnP sep).getLastD [])

/-- Nothing stands behind the last separator. -/
def ended (sep : α → Bool) (s : List α) : Bool := s.getLast?.all sep

/-- Lines, each with its end. -/
def unlines (nl : α) (ls : List (List α)) : List α := ls.flatMap (· ++ [nl])

/-- A text is a line without its end, or a line and a text. -/
theorem linesInduction {P : List α → Prop} (sep : α → Bool)
    (last : ∀ l, (∀ c ∈ l, sep c = false) → P l)
    (line : ∀ l c t, (∀ c ∈ l, sep c = false) → sep c → P t → P (l ++ c :: t))
    (s : List α) : P s := by
  have h : ∀ w, (∀ c ∈ w, sep c = false) → P (w ++ s) := by
    induction s with
    | nil => simpa using last
    | cons c s ih =>
      intro w hw
      cases hc : sep c with
      | true => exact line w c s hw hc (ih [] (by simp))
      | false =>
        rw [append_cons]
        exact ih _ (by simpa [or_imp, forall_and] using ⟨hw, hc⟩)
  exact h [] (by simp)

/-! ## pieces and lines -/

theorem lines_of_forall (h : ∀ c ∈ s, sep c = false) : lines sep s = flush s := by
  simp [lines, splitOnP_eq_singleton h]

theorem lines_append_cons (h : ∀ c ∈ s, sep c = false) (hc : sep c) :
    lines sep (s ++ c :: t) = s :: lines sep t := by
  obtain ⟨p, ps, hps⟩ := exists_cons_of_ne_nil (splitOnP_ne_nil sep t)
  simp [lines, splitOnP_append_cons_of_forall_mem h c hc t, hps]

theorem ended_append (h : ended sep s) : ended sep (s ++ t) = ended sep t := by
  cases t with
  | nil => simpa [ended] using h
  | cons c t => simp [ended, List.getLast?_cons]

theorem ended_append_cons (h : sep c) : ended sep (s ++ c :: t) = ended sep t := by
  rw [append_cons, ended_append (by simp [ended, h])]

theorem ended_of_forall (h : ∀ c ∈ s, sep c = false) (hs : s ≠ []) : ended sep s = false := by
  rw [ended, List.getLast?_eq_some_getLast hs, Option.all_some, h _ (getLast_mem hs)]

/-- The pieces are the lines and, behind the last separator, an empty one. -/
theorem splitOnP_eq (sep : α → Bool) (s : List α) :
    s.splitOnP sep = lines sep s ++ if ended sep s then [[]] else [] := by
  induction s using linesInduction sep with
  | last l h =>
    rw [splitOnP_eq_singleton h, lines_of_forall h]
    by_cases hnil : l = []
    · simp [hnil, ended]
    · simp [flush_of_ne hnil, ended_of_forall h hnil]
  | line l c t h hc ih => rw [splitOnP_append_cons_of_forall_mem h c hc t, lines_append_cons h hc,
      ended_append_cons hc, ih, cons_append]

/-- A text that has ended is followed by other lines. -/
theorem lines_append (h : ended sep s) : lines sep (s ++ t) = lines sep s ++ lines sep t := by
  induction s using linesInduction sep with
  | last l hl =>
    obtain rfl : l = [] :=
      Decidable.byContradiction fun hne => by simp [ended_of_forall hl hne] at h
    rfl
  | line l c s hl hc ih =>
    rw [ended_append_cons hc] at h
    rw [append_assoc, cons_append, lines_append_cons hl hc, lines_append_cons hl hc,
      ih h, cons_append]

theorem mem_of_mem_splitOnP {l : List α} (hl : l ∈ s.splitOnP sep) :
    ∀ c ∈ l, c ∈ s ∧ sep c = false := by
  induction s using linesInduction sep with
  | last t h =>
    rw [splitOnP_eq_singleton h, mem_singleton] at hl
    exact fun c hc => ⟨hl ▸ hc, h c (hl ▸ hc)⟩
  | line t d r h hd ih =>
    rw [splitOnP_append_cons_of_forall_mem h d hd, mem_cons] at hl
    rcases hl with rfl | hl
    · exact fun c hc => ⟨mem_append_left _ hc, h c hc⟩
    · exact fun c hc => ⟨by simp [(ih hl c hc).1], (ih hl c hc).2⟩

theorem mem_of_mem_lines {l : List α} (hl : l ∈ lines sep s) : ∀ c ∈ l, c ∈ s ∧ sep c = false :=
  mem_of_mem_splitOnP (by rw [splitOnP_eq]; exact mem_append_left _ hl)

/-- The last lines of a text, by their number. -/
theorem eq_drop_iff {ls ls' : List α} (h : ls <:+ ls') (n : Nat) :
    ls = ls'.drop (ls'.length - n) ↔ ls.length = min n ls'.length := by
  obtain ⟨pre, rfl⟩ := h
  refine ⟨fun heq => ?_, fun hlen => ?_⟩
  · have hlen := congrArg List.length heq
    simp only [length_drop, length_append] at hlen ⊢
    omega
  · rw [length_append] at hlen ⊢
    rw [drop_left' (by omega)]

section

variable [DecidableEq α] {nl : α} {ls ls' : List (List α)}

theorem not_mem_of_mem_lines {l : List α} (hl : l ∈ lines (· == nl) s) : nl ∉ l := fun hnl => by
  simpa using (mem_of_mem_lines hl nl hnl).2

/-- The lines make up the text again. -/
theorem unlines_lines (s : List α) : unlines nl (lines (· == nl) s) =
    s ++ if ended (· == nl) s then [] else [nl] := by
  induction s using linesInduction (· == nl) with
  | last l h =>
    rw [lines_of_forall h]
    by_cases hnil : l = []
    · simp [hnil, ended, unlines]
    · simp [flush_of_ne hnil, ended_of_forall h hnil, unlines]
  | line l c t h hc ih =>
    rw [unlines] at ih
    obtain rfl : c = nl := by simpa using hc
    rw [lines_append_cons h hc, ended_append_cons (by simp), unlines, flatMap_cons, ih]
    simp

theorem lines_unlines (h : ∀ l ∈ ls, nl ∉ l) : lines (· == nl) (unlines nl ls) = ls := by
  induction ls with
  | nil => rfl
  | cons l ls ih =>
    obtain ⟨hl, hls⟩ := forall_mem_cons.mp h
    have hchars : ∀ c ∈ l, (c == nl) = false :=
      fun c hc => by simpa using ne_of_mem_of_not_mem hc hl
    rw [unlines, flatMap_cons, append_assoc, singleton_append, lines_append_cons hchars (by simp)]
    exact congrArg (l :: ·) (ih hls)

theorem unlines_inj (h : ∀ l ∈ ls, nl ∉ l) (h' : ∀ l ∈ ls', nl ∉ l) :
    unlines nl ls = unlines nl ls' ↔ ls = ls' := by
  refine ⟨fun heq => ?_, congrArg _⟩
  rw [← lines_unlines h, heq, lines_unlines h']

theorem length_lines (nl : α) (s : List α) :
    (lines (· == nl) s).length = s.count nl + if ended (· == nl) s then 0 else 1 := by
  induction s using linesInduction (· == nl) with
  | last l h =>
    have hcount : l.count nl = 0 := count_eq_zero.mpr fun hnl => by simpa using h nl hnl
    rw [lines_of_forall h, hcount]
    by_cases hnil : l = []
    · simp [hnil, ended]
    · simp [flush_of_ne hnil, ended_of_forall h hnil]
  | line l c t h hc ih =>
    have hcount : l.count nl = 0 := count_eq_zero.mpr fun hnl => by simpa using h nl hnl
    obtain rfl : c = nl := by simpa using hc
    rw [lines_append_cons h hc, ended_append_cons (by simp), length_cons, ih, count_append, hcount,
      count_cons_self]
    omega

end

/-! ## a buffer for the line -/

/-- The pieces in which a line goes through a buffer for `cap` characters: the character that
finds no room ends a piece and is lost. -/
def fills (cap : Nat) (l : List α) : List (List α) :=
  if _h : l.length ≤ cap then [l] else l.take cap :: fills cap (l.drop (cap + 1))
termination_by l.length
decreasing_by
  simp
  omega

section

variable {cap : Nat} {l : List α} {ls : List (List α)}

theorem fills_of_le (h : l.length ≤ cap) : fills cap l = [l] := by
  rw [fills, dif_pos h]

theorem mem_of_mem_fills {p : List α} (hp : p ∈ fills cap l) :
    p.length ≤ cap ∧ ∀ c ∈ p, c ∈ l := by
  fun_induction fills cap l with
  | case1 l h =>
    obtain rfl := mem_singleton.mp hp
    exact ⟨h, fun _ => id⟩
  | case2 l _ ih =>
    rcases mem_cons.mp hp with rfl | hp
    · exact ⟨length_take_le _ _, fun c hc => mem_of_mem_take hc⟩
    · exact ⟨(ih hp).1, fun c hc => mem_of_mem_drop ((ih hp).2 c hc)⟩

/-- The pieces of a text. -/
theorem mem_of_mem_flatMap_fills {p : List α} (hp : p ∈ (s.splitOnP sep).flatMap (fills cap)) :
    p.length ≤ cap ∧ ∀ c ∈ p, c ∈ s ∧ sep c = false := by
  obtain ⟨l, hl, hpl⟩ := mem_flatMap.mp hp
  exact ⟨(mem_of_mem_fills hpl).1, fun c hc =>
    mem_of_mem_splitOnP hl c ((mem_of_mem_fills hpl).2 c hc)⟩

theorem flatMap_fills_of_le (h : ∀ l ∈ ls, l.length ≤ cap) : ls.flatMap (fills cap) = ls := by
  induction ls with
  | nil => rfl
  | cons l ls ih =>
    obtain ⟨hl, hls⟩ := forall_mem_cons.mp h
    rw [flatMap_cons, ih hls, fills_of_le hl, singleton_append]

theorem length_flatMap_fills (cap : Nat) (ls : List (List α)) :
    (ls.flatMap (fills cap)).length = ls.length + (ls.map (·.length / (cap + 1))).sum := by
  have hline : ∀ l : List α, (fills cap l).length = l.length / (cap + 1) + 1 := by
    intro l
    fun_induction fills cap l with
    | case1 l h => simp [Nat.div_eq_of_lt (Nat.lt_succ_of_le h)]
    | case2 l h ih => rw [length_cons, ih, length_drop, ← Nat.div_eq_sub_div (by omega) (by omega)]
  induction ls with
  | nil => rfl
  | cons l ls ih =>
    rw [flatMap_cons, length_append, ih, hline, length_cons, map_cons, sum_cons]
    omega

end

section

variable {cap : Nat} {step : List α × σ → α → List α × σ} {emit : σ → List α → σ}
  (hstep : ∀ w st c, step (w, st) c =
    if sep c ∨ cap ≤ w.length then ([], emit st w) else (w ++ [c], st))

include hstep

/-- The characters of a line, as long as there is room. -/
theorem foldl_fill {l w : List α} (hl : ∀ c ∈ l, sep c = false) (hw : w.length + l.length ≤ cap)
    (st : σ) : l.foldl step (w, st) = (w ++ l, st) := by
  induction l generalizing w with
  | nil => simp
  | cons c l ih =>
    obtain ⟨hc, hl⟩ := forall_mem_cons.mp hl
    rw [length_cons] at hw
    rw [foldl_cons, hstep, if_neg (by simp [hc]; omega), ih hl (by simp; omega), append_assoc,
      singleton_append]

/-- A line leaves its last piece in the buffer. -/
theorem foldl_fills {l : List α} (hl : ∀ c ∈ l, sep c = false) : ∃ ps p,
    fills cap l = ps ++ [p] ∧ ∀ st, l.foldl step ([], st) = (p, ps.foldl emit st) := by
  fun_induction fills cap l with
  | case1 l h => exact ⟨[], l, rfl, foldl_fill hstep hl (by simpa using h)⟩
  | case2 l h ih =>
    obtain ⟨ps, p, hps, hrest⟩ := ih fun c hc => hl c (mem_of_mem_drop hc)
    refine ⟨l.take cap :: ps, p, by rw [hps, cons_append], fun st => ?_⟩
    have hsplit : l = l.take cap ++ l[cap] :: l.drop (cap + 1) := by simp
    rw [hsplit, foldl_append, foldl_fill hstep (fun c hc => hl c (mem_of_mem_take hc))
      (by rw [length_nil, Nat.zero_add]; exact length_take_le _ _), foldl_cons, hstep,
      if_pos (.inr (by simp; omega)), hrest]
    simp

/-- Scanning a text with a buffer for the line. -/
theorem foldl_frame (s : List α) : ∃ ps p, (s.splitOnP sep).flatMap (fills cap) = ps ++ [p] ∧
    ∀ st, s.foldl step ([], st) = (p, ps.foldl emit st) := by
  induction s using linesInduction sep with
  | last l hl => simpa [splitOnP_eq_singleton hl] using foldl_fills hstep hl
  | line l c t hl hc ih =>
    obtain ⟨ps, p, hps, hline⟩ := foldl_fills hstep hl
    obtain ⟨qs, q, hqs, hrest⟩ := ih
    refine ⟨ps ++ p :: qs, q, ?_, fun st => ?_⟩
    · rw [splitOnP_append_cons_of_forall_mem hl c hc, flatMap_cons, hps, hqs]
      simp
    · rw [foldl_append, hline, foldl_cons, hstep, if_pos (.inl hc), hrest]
      simp

end

end AliOS.Lib
