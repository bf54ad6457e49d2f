import Mathlib.Logic.Function.Basic

/-!
# AliOS.Lib.Loop

Counted loops over an explicit state: `forRange` for a body that always
returns, `forRangeM` for a body that may stop the machine (`none`).  Both run
the body at `lo, lo + 1, …, lo + n - 1`, the shape of a C loop
`for (i = lo; i < lo + n; i++)`.

The rules at the end are what the callers use: an invariant indexed by the
loop counter holds after the loop when every iteration carries it one step.
-/

namespace AliOS.Lib

open Function

variable {n a lo : Nat}

variable {σ : Type _}

/-- Run `f lo`, `f (lo + 1)`, …, `f (lo + n - 1)` on the state. -/
def forRange (f : Nat → σ → σ) : Nat → Nat → σ → σ
  | _, 0, s => s
  | lo, n + 1, s => forRange f (lo + 1) n (f lo s)

/-- The same loop with a body that may stop; `none` ends the loop at once. -/
def forRangeM (f : Nat → σ → Option σ) : Nat → Nat → σ → Option σ
  | _, 0, s => some s
  | lo, n + 1, s => (f lo s).bind (forRangeM f (lo + 1) n)

@[simp] theorem forRange_zero (f : Nat → σ → σ) (lo : Nat) (s : σ) : forRange f lo 0 s = s := rfl

@[simp] theorem forRangeM_zero (f : Nat → σ → Option σ) (lo : Nat) (s : σ) :
    forRangeM f lo 0 s = some s := rfl

theorem forRangeM_succ (f : Nat → σ → Option σ) (lo n : Nat) (s : σ) :
    forRangeM f lo (n + 1) s = (f lo s).bind (forRangeM f (lo + 1) n) := rfl

/-! ## invariant rules -/

/-- **Invariant rule**: a property of counter and state that each iteration
carries from `i` to `i + 1` holds at the end of the loop. -/
theorem forRange_induct (P : Nat → σ → Prop) {f : Nat → σ → σ} {s : σ} (h0 : P a s)
    (hstep : ∀ i t, a ≤ i → i < a + n → P i t → P (i + 1) (f i t)) :
    P (a + n) (forRange f a n s) := by
  induction n generalizing a s with
  | zero => exact h0
  | succ n ih =>
    have ha : P (a + 1) (f a s) := hstep a s (Nat.le_refl _) (by omega) h0
    have h := ih ha fun i t hi hlt => hstep i t (by omega) (by omega)
    rw [forRange, show a + (n + 1) = a + 1 + n by omega]
    exact h

/-- A loop that stores to one place after the other.  What it stores must not depend on what it
has stored before. -/
theorem forRange_update {α : Type _} {f val : Nat → α} {g : Nat → (Nat → α) → α}
    (h : ∀ i f', (∀ j, a + i ≤ j → f' j = f j) → g i f' = val (a + i)) :
    forRange (fun i f => update f (a + i) (g i f)) lo n f =
      fun j => if a + lo ≤ j ∧ j < a + lo + n then val j else f j := by
  have hall := forRange_induct (a := lo) (n := n) (s := f)
    (fun i f' => f' = fun j => if a + lo ≤ j ∧ j < a + i then val j else f j) ?_
    (f := fun i f => update f (a + i) (g i f)) fun i f' hlo _ hf' => ?_
  · rw [hall, Nat.add_assoc]
  · funext j
    rw [if_neg (by omega)]
  · have hg : g i f' = val (a + i) := h i f' fun j hj => by
      rw [hf']
      exact if_neg (by omega)
    funext j
    by_cases hj : j = a + i
    · subst hj
      simp [hg, hlo]
    · rw [update_of_ne hj, hf']
      simp only [show j < a + i ↔ j < a + (i + 1) by omega]

/-- **Invariant rule, partial bodies**: the same rule for a loop that
completed; only iterations that returned have to be considered. -/
theorem forRangeM_induct (P : Nat → σ → Prop) {f : Nat → σ → Option σ} {s s' : σ}
    (hrun : forRangeM f lo n s = some s') (h0 : P lo s)
    (hstep : ∀ i t t', lo ≤ i → i < lo + n → P i t → f i t = some t' → P (i + 1) t') :
    P (lo + n) s' := by
  induction n generalizing lo s with
  | zero =>
    rwa [← Option.some.inj hrun]
  | succ n ih =>
    rw [forRangeM_succ] at hrun
    cases hf : f lo s with
    | none => rw [hf] at hrun; contradiction
    | some t =>
      rw [hf, Option.bind_some] at hrun
      have hlo : P (lo + 1) t := hstep lo s t (Nat.le_refl _) (by omega) h0 hf
      have h := ih hrun hlo fun i u u' hi hlt => hstep i u u' (by omega) (by omega)
      rw [show lo + (n + 1) = lo + 1 + n by omega]
      exact h

/-- **Invariant rule, total**: the loop completes when every iteration does. -/
theorem forRangeM_total (P : Nat → σ → Prop) {f : Nat → σ → Option σ} {s : σ} (h0 : P a s)
    (hstep : ∀ i t, a ≤ i → i < a + n → P i t → ∃ t', f i t = some t' ∧ P (i + 1) t') :
    ∃ s', forRangeM f a n s = some s' ∧ P (a + n) s' := by
  induction n generalizing a s with
  | zero => exact ⟨s, rfl, h0⟩
  | succ n ih =>
    obtain ⟨t, ht, hP⟩ := hstep a s (Nat.le_refl _) (by omega) h0
    obtain ⟨s', hs', hP'⟩ := ih hP fun i t hi hlt => hstep i t (by omega) (by omega)
    rw [forRangeM_succ, ht, Option.bind_some, show a + (n + 1) = a + 1 + n by omega]
    exact ⟨s', hs', hP'⟩

/-- A loop whose iterations change nothing. -/
theorem forRangeM_fixed {f : Nat → σ → Option σ} {s : σ}
    (h : ∀ i, lo ≤ i → i < lo + n → f i s = some s) :
    forRangeM f lo n s = some s := by
  induction n generalizing lo with
  | zero => rfl
  | succ n ih =>
    rw [forRangeM_succ, h lo (Nat.le_refl _) (by omega)]
    exact ih fun i hlo hhi => h i (by omega) (by omega)

/-! ## two runs -/

section

variable {α β γ δ τ : Type _}

/-- Two computations that both stop, or go on from related results. -/
theorem rel_bind {R : α → β → Prop} {S : γ → δ → Prop} {x : Option α} {y : Option β}
    {f : α → Option γ}
    {g : β → Option δ} (h : Option.Rel R x y) (hfg : ∀ a b, R a b → Option.Rel S (f a) (g b)) :
    Option.Rel S (x.bind f) (y.bind g) := by
  cases h with
  | some h => exact hfg _ _ h
  | none => exact .none

theorem rel_map {R : α → β → Prop} {S : γ → δ → Prop} {x : Option α} {y : Option β}
    {f : α → γ} {g : β → δ}
    (h : Option.Rel R x y) (hfg : ∀ a b, R a b → S (f a) (g b)) : Option.Rel S (x.map f)
    (y.map g) := by
  cases h with
  | some h => exact .some (hfg _ _ h)
  | none => exact .none

/-- **Two loops in step**: bodies that carry a relation between their states from `i` to
`i + 1`. -/
theorem forRangeM_rel_at (R : Nat → σ → τ → Prop) {f : Nat → σ → Option σ} {g : Nat → τ → Option τ}
    {s : σ} {t : τ} (h : R a s t)
    (hstep : ∀ i s t, a ≤ i → i < a + n → R i s t → Option.Rel (R (i + 1)) (f i s) (g i t)) :
    Option.Rel (R (a + n)) (forRangeM f a n s) (forRangeM g a n t) := by
  induction n generalizing a s t with
  | zero => exact .some h
  | succ n ih =>
    rw [show a + (n + 1) = a + 1 + n by omega]
    exact rel_bind (hstep a s t (Nat.le_refl _) (by omega) h) fun s t hst =>
      ih hst fun i s t hlo hhi => hstep i s t (by omega) (by omega)

/-- Bodies that keep a relation. -/
theorem forRangeM_rel (R : σ → τ → Prop) {f : Nat → σ → Option σ} {g : Nat → τ → Option τ}
    {s : σ} {t : τ}
    (h : R s t) (hstep : ∀ i s t, lo ≤ i → i < lo + n → R s t → Option.Rel R (f i s) (g i t)) :
    Option.Rel R (forRangeM f lo n s) (forRangeM g lo n t) :=
  forRangeM_rel_at (fun _ => R) h hstep

end

end AliOS.Lib
