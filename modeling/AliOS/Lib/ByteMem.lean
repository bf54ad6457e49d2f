import Mathlib.Tactic.Ring

/-!
# AliOS.Lib.ByteMem

Byte-addressed memory as a function from addresses to bytes, with block
writes and little-endian 32-bit words.  The same three operations serve
physical memory, a disk and a C array: `blit` overwrites a block, `load32`
and `store32` access a word.

The lemmas are the usual memory laws: a word reads back after it was stored,
accesses to disjoint blocks commute with reading, and a word read depends only
on the four bytes under it.
-/

namespace AliOS.Lib

open List

variable {m src m' : Bytes} {a n k b w : Nat}

/-- Memory: a byte at every address. -/
abbrev Bytes := Nat → UInt8

/-- Overwrite the `n` bytes from `a` on with those of `src`. -/
def blit (m : Bytes) (a n : Nat) (src : Bytes) : Bytes :=
  fun k => if a ≤ k ∧ k < a + n then src (k - a) else m k

/-- The little-endian word at `a`. -/
def load32 (m : Bytes) (a : Nat) : Nat :=
  (m a).toNat + 256 * (m (a + 1)).toNat + 65536 * (m (a + 2)).toNat +
    16777216 * (m (a + 3)).toNat

/-- The little-endian half-word at `a`. -/
def load16 (m : Bytes) (a : Nat) : Nat := (m a).toNat + 256 * (m (a + 1)).toNat

/-- The bytes of a word, lowest first. -/
def wordBytes (w : Nat) : Bytes := fun k => UInt8.ofNat (w / 256 ^ k)

/-- Store a word in little-endian order. -/
def store32 (m : Bytes) (a w : Nat) : Bytes := blit m a 4 (wordBytes w)

/-- The `n` bytes from `a` on. -/
def slice (m : Bytes) (a n : Nat) : List UInt8 := (List.range n).map fun k => m (a + k)

/-! ## blocks -/

theorem blit_of_mem (h : a ≤ k ∧ k < a + n) :
    blit m a n src k = src (k - a) := if_pos h

theorem blit_of_notMem (h : k < a ∨ a + n ≤ k) :
    blit m a n src k = m k := if_neg (by omega)

@[simp] theorem blit_add (h : k < n) :
    blit m a n src (a + k) = src k := by
  rw [blit_of_mem (by omega), Nat.add_sub_cancel_left]

theorem blit_congr {src' : Bytes} (h : ∀ k < n, src k = src' k) :
    blit m a n src = blit m a n src' := by
  funext k
  by_cases hk : a ≤ k ∧ k < a + n
  · rw [blit_of_mem hk, blit_of_mem hk, h (k - a) (by omega)]
  · rw [blit_of_notMem (by omega), blit_of_notMem (by omega)]

/-- Writing back what is already there changes nothing. -/
theorem blit_self (h : ∀ k < n, src k = m (a + k)) :
    blit m a n src = m := by
  funext k
  by_cases hk : a ≤ k ∧ k < a + n
  · rw [blit_of_mem hk, h (k - a) (by omega), Nat.add_sub_cancel' hk.1]
  · rw [blit_of_notMem (by omega)]

/-! ## words -/

theorem load32_lt (m : Bytes) (a : Nat) : load32 m a < 2 ^ 32 := by
  have h0 := (m a).toNat_lt
  have h1 := (m (a + 1)).toNat_lt
  have h2 := (m (a + 2)).toNat_lt
  have h3 := (m (a + 3)).toNat_lt
  unfold load32
  omega

/-- A word read depends only on the four bytes under it. -/
theorem load32_congr (h : ∀ k < 4, m (a + k) = m' (b + k)) :
    load32 m a = load32 m' b := by
  have h0 : m a = m' b := h 0 (by decide)
  have h1 := h 1 (by decide)
  have h2 := h 2 (by decide)
  have h3 := h 3 (by decide)
  unfold load32
  rw [h0, h1, h2, h3]

theorem store32_of_notMem (h : k < a ∨ a + 4 ≤ k) :
    store32 m a w k = m k := blit_of_notMem h

/-- A stored word reads back. -/
theorem load32_store32_self (hw : w < 2 ^ 32) :
    load32 (store32 m a w) a = w := by
  have hbyte : ∀ k < 4, store32 m a w (a + k) = UInt8.ofNat (w / 256 ^ k) :=
    fun k hk => blit_add hk
  have h0 : store32 m a w a = UInt8.ofNat (w / 256 ^ 0) := hbyte 0 (by decide)
  unfold load32
  rw [h0, hbyte 1 (by decide), hbyte 2 (by decide), hbyte 3 (by decide)]
  simp only [UInt8.toNat_ofNat']
  omega

theorem load32_store32_of_disjoint (h : b + 4 ≤ a ∨ a + 4 ≤ b) :
    load32 (store32 m a w) b = load32 m b :=
  load32_congr fun k hk => blit_of_notMem (by omega)

/-! ## slices -/

@[simp] theorem length_slice (m : Bytes) (a n : Nat) : (slice m a n).length = n := by
  simp [slice]

theorem getD_slice (hk : k < n) : (slice m a n).getD k 0 = m (a + k) := by
  simp [slice, List.getD, hk]

theorem slice_congr (h : ∀ k < n, m (a + k) = m' (b + k)) :
    slice m a n = slice m' b n :=
  map_congr_left fun k hk => h k (mem_range.mp hk)

/-- Equal slices have equal bytes. -/
theorem eq_of_slice_eq (h : slice m a n = slice m' b n) :
    ∀ k < n, m (a + k) = m' (b + k) := by
  intro k hk
  have hget := congrArg (fun l => l[k]?) h
  simpa [slice, hk] using hget

theorem slice_succ (m : Bytes) (a n : Nat) : slice m a (n + 1) = m a :: slice m (a + 1) n := by
  unfold slice
  rw [range_succ_eq_map, map_cons, List.map_map]
  congr 1
  refine map_congr_left fun k _ => ?_
  rw [Function.comp_apply, show a + 1 + k = a + (k + 1) by omega]

/-- A part of a slice. -/
theorem slice_drop_take {i : Nat} (h : i + k ≤ n) :
    ((slice m a n).drop i).take k = slice m (a + i) k := by
  refine ext_getElem (by simp; omega) fun j hj hj' => ?_
  simp [slice, Nat.add_assoc]

theorem slice_take (h : k ≤ n) : (slice m a n).take k = slice m a k := by
  have h0 := slice_drop_take (m := m) (a := a) (show 0 + k ≤ n by omega)
  rwa [drop_zero, Nat.add_zero] at h0

theorem slice_append (m : Bytes) (a n n' : Nat) :
    slice m a n ++ slice m (a + n) n' = slice m a (n + n') := by
  unfold slice
  rw [range_add, map_append, List.map_map]
  congr 1
  exact map_congr_left fun k _ => by simp [Nat.add_assoc]

end AliOS.Lib
