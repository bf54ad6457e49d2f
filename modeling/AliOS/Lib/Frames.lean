import AliOS.Lib.ByteMem

/-!
# AliOS.Lib.Frames

Memory cut into frames of 4096 bytes, each also read as a table of 1024 words.
`setWord` changes one word of one frame, `page` is a frame's content; the
lemmas say which words and pages a change leaves alone, so that proofs about
tables in memory never mention addresses.
-/

namespace AliOS.Lib

open Function

variable {m : Bytes} {f g i : Nat}

/-- Word `i` of frame `f`. -/
def word (m : Bytes) (f i : Nat) : Nat := load32 m (f * 4096 + 4 * i)

/-- Store word `i` of frame `f`. -/
def setWord (m : Bytes) (f i w : Nat) : Bytes := store32 m (f * 4096 + 4 * i) w

/-- The content of frame `f`. -/
def page (m : Bytes) (f : Nat) : Fin 4096 → UInt8 := fun k => m (f * 4096 + k)

theorem word_lt (m : Bytes) (f i : Nat) : word m f i < 2 ^ 32 := load32_lt _ _

/-- A stored word reads back, and is the only word that changes. -/
theorem word_setWord {j w : Nat} (hi : i < 1024) (hj : j < 1024) (hw : w < 2 ^ 32) :
    word (setWord m f i w) g j = if g = f ∧ j = i then w else word m g j := by
  by_cases h : g = f ∧ j = i
  · rw [if_pos h, h.1, h.2]
    exact load32_store32_self hw
  · rw [if_neg h]
    exact load32_store32_of_disjoint (by omega)

theorem page_setWord {w : Nat} (hi : i < 1024) (h : g ≠ f) :
    page (setWord m f i w) g = page m g := by
  funext k
  exact store32_of_notMem (by omega)

/-- The words of a frame are determined by its content. -/
theorem word_congr {m' : Bytes} (hi : i < 1024) (h : page m' f = page m f) :
    word m' f i = word m f i := by
  refine load32_congr fun k hk => ?_
  have hbyte := congrFun h ⟨4 * i + k, by omega⟩
  rw [show f * 4096 + 4 * i + k = f * 4096 + (4 * i + k) by omega]
  exact hbyte

theorem page_setWord_congr {m' : Bytes} (h : page m' g = page m g) (f i w : Nat) :
    page (setWord m' f i w) g = page (setWord m f i w) g := by
  funext k
  unfold page setWord store32 blit
  split
  · rfl
  · exact congrFun h k

/-- A frame of zero words. -/
theorem page_eq_zero (h : ∀ i < 1024, word m f i = 0) : page m f = fun _ => 0 := by
  funext k
  have hword := h (k / 4) (by omega)
  unfold word load32 at hword
  have haddr : f * 4096 + (k : Nat) = f * 4096 + 4 * (k / 4) + k % 4 := by omega
  refine UInt8.toNat_inj.mp ?_
  show (m (f * 4096 + k)).toNat = 0
  rw [haddr]
  generalize (k : Nat) % 4 = r at *
  obtain rfl | rfl | rfl | rfl : r = 0 ∨ r = 1 ∨ r = 2 ∨ r = 3 := by omega
  · rw [Nat.add_zero]
    omega
  all_goals omega

/-- Overwriting one byte. -/
theorem page_update (m : Bytes) (f g : Nat) (k : Fin 4096) (b : UInt8) :
    page (update m (f * 4096 + k) b) g =
      if g = f then update (page m f) k b else page m g := by
  funext l
  by_cases h : g = f
  · subst h
    by_cases hl : l = k
    · subst hl
      simp [page]
    · have hne : g * 4096 + l.val ≠ g * 4096 + k.val := fun heq => hl (Fin.ext (by omega))
      simp [page, update_of_ne hl, update_of_ne hne]
  · rw [if_neg h]
    have hne : g * 4096 + l.val ≠ f * 4096 + k.val := by omega
    simp [page, update_of_ne hne]

/-- Memory given by its words. -/
def ofWords (w : Nat → Nat → Nat) : Bytes :=
  fun a => wordBytes (w (a / 4096) (a % 4096 / 4)) (a % 4)

theorem word_ofWords {w : Nat → Nat → Nat} (hi : i < 1024) (hw : w f i < 2 ^ 32) :
    word (ofWords w) f i = w f i := by
  have hbyte : ∀ k < 4, ofWords w (f * 4096 + 4 * i + k) = store32 (fun _ => 0) 0 (w f i)
      (0 + k) := by
    intro k hk
    unfold ofWords store32
    rw [show (f * 4096 + 4 * i + k) / 4096 = f by omega,
      show (f * 4096 + 4 * i + k) % 4096 / 4 = i by omega,
      show (f * 4096 + 4 * i + k) % 4 = k by omega]
    exact (blit_add hk).symm
  exact (load32_congr hbyte).trans (load32_store32_self hw)

end AliOS.Lib
