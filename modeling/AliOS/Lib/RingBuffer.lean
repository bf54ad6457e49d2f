import Mathlib.Data.Nat.ModEq

/-!
# AliOS.Lib.RingBuffer

The contents of a ring buffer: positions count on without end and are reduced
modulo the capacity on use.  `window data cap start n` is the list of the `n`
cells from position `start` on; taking from the front and storing behind the end
are what a queue does to it.  A ring that keeps the last `cap` entries goes on
storing when it is full.
-/

namespace AliOS.Lib

open Function List

variable {α : Type _}

/-- The `n` cells of the ring from position `start` on. -/
def window (data : Nat → α) (cap start n : Nat) : List α :=
  (List.range n).map fun i => data ((start + i) % cap)

@[simp] theorem window_zero (data : Nat → α) (cap start : Nat) : window data cap start 0 = [] := rfl

@[simp] theorem length_window (data : Nat → α) (cap start n : Nat) :
    (window data cap start n).length = n := by
  simp [window]

/-- Positions that agree modulo the capacity are the same cell. -/
theorem window_congr {data : Nat → α} {cap start start' : Nat} (n : Nat)
    (h : start % cap = start' % cap) : window data cap start n = window data cap start' n := by
  refine map_congr_left fun i _ => ?_
  rw [Nat.add_mod, h, ← Nat.add_mod]

/-- Taking one cell from the front. -/
theorem window_succ (data : Nat → α) (cap start n : Nat) :
    window data cap start (n + 1) = data (start % cap) :: window data cap (start + 1) n := by
  unfold window
  rw [range_succ_eq_map, map_cons, List.map_map]
  congr 1
  refine map_congr_left fun i _ => ?_
  rw [Function.comp_apply, show start + (i + 1) = start + 1 + i by omega]

/-- Storing behind the last cell appends to the contents, as long as the ring is
not full. -/
theorem window_update {data : Nat → α} {cap start n : Nat} (hn : n < cap) (b : α) :
    window (update data ((start + n) % cap) b) cap start (n + 1) =
      window data cap start n ++ [b] := by
  unfold window
  rw [range_succ, map_append, map_singleton, update_self]
  congr 1
  refine map_congr_left fun i hi => update_of_ne (fun heq => ?_) _ _
  -- two positions less than a full turn apart are different cells
  have hlt : i < n := mem_range.mp hi
  have hmod : i % cap = n % cap := Nat.ModEq.add_left_cancel' start heq
  rw [Nat.mod_eq_of_lt (by omega), Nat.mod_eq_of_lt hn] at hmod
  omega

/-- Storing into a ring that is full overwrites the first cell. -/
theorem window_overwrite {data : Nat → α} {cap start : Nat} (hcap : 0 < cap) (b : α) :
    window (update data ((start + cap) % cap) b) cap (start + 1) cap =
      (window data cap start cap).tail ++ [b] := by
  obtain ⟨n, rfl⟩ : ∃ n, cap = n + 1 := ⟨cap - 1, by omega⟩
  rw [show start + (n + 1) = start + 1 + n by omega, window_update (Nat.lt_succ_self n),
    window_succ, tail_cons]

end AliOS.Lib
