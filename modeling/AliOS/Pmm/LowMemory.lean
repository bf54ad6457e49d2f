import AliOS.Paging.Identity
import AliOS.Pmm.Invariant

/-!
# AliOS.Pmm.LowMemory

Which frames the allocator hands out, against what the kernel can reach.  The
bitmap covers 256 MB, the identity map 128 MB, and user space starts where the
identity map ends.  Nothing in `pmm.c` closes the gap, so the memory map
decides: if it reports usable RAM between 128 MB and 256 MB, allocating often
enough yields an address the kernel cannot dereference and a process can map.
-/

namespace AliOS

variable {k : KernelImage} {map : List E820Entry} {s : Pmm}

/-- A page between 128 MB and 256 MB. -/
def HighPage (p : Nat) : Prop := 32768 ≤ p ∧ p < pagesMax

/-- The promise to `pmm_addref` and `pmm_free`: an address between 128 MB and
256 MB is passed on only while its page is held. -/
def HighHeld (s : Pmm) (addr : Nat) : Prop := HighPage (addr / pageSize) → Held s addr

/-- The memory map offers no page between 128 MB and 256 MB, apart from the
kernel image. -/
def NoHighRam (k : KernelImage) (map : List E820Entry) : Prop :=
  ∀ e ∈ map, e.type = e820Usable → ∀ p, HighPage p → e.Covers p → k.Reserved p

/-- The high pages are in use and nobody holds them. -/
def HighUnused (s : Pmm) : Prop := ∀ p, HighPage p → pageIsFree s p = false ∧ s.pageRefs p = 0

/-! ## without high RAM -/

theorem highUnused_pmmInit (h : NoHighRam k map) : HighUnused (pmmInit k map Pmm.bss) := by
  intro p hp
  refine ⟨?_, by rw [pageRefs_pmmInit]; rfl⟩
  rw [← Bool.not_eq_true, pageIsFree_pmmInit k map _ hp.2]
  rintro ⟨⟨e, he, hu, hc⟩, hres⟩
  exact hres (h e he hu p hp hc)

theorem HighUnused.alloc (h : HighUnused s) : HighUnused (pmmAlloc s).2 := by
  obtain ⟨q, -, hfree, -, heq⟩ | ⟨-, heq⟩ := pmmAlloc_cases s
  · intro p hp
    obtain ⟨hused, hrefs⟩ := h p hp
    have hne : p ≠ q := by rintro rfl; rw [hused] at hfree; cases hfree
    rw [heq]
    simp [hused, hrefs, hne]
  · rw [heq]
    exact h

/-- A high page that is promised to be held is not one. -/
theorem HighUnused.not_high (h : HighUnused s) {addr : Nat} (hok : HighHeld s addr) :
    ¬HighPage (addr / pageSize) := by
  intro hp
  have hheld := (hok hp).2
  rw [(h _ hp).2] at hheld
  omega

theorem HighUnused.addref (h : HighUnused s) {addr : Nat} (hok : HighHeld s addr) :
    HighUnused (pmmAddref s addr) := by
  obtain ⟨-, -, heq⟩ | ⟨-, heq⟩ := pmmAddref_cases s addr
  · intro p hp
    have hne : p ≠ addr / pageSize := by rintro rfl; exact h.not_high hok hp
    rw [heq, pageIsFree_setRefs, pageRefs_setRefs, if_neg hne]
    exact h p hp
  · rw [heq]
    exact h

theorem HighUnused.free (h : HighUnused s) {addr : Nat} (hok : HighHeld s addr) :
    HighUnused (pmmFree s addr) := by
  have hne : ∀ p, HighPage p → p ≠ addr / pageSize := by
    rintro p hp rfl
    exact h.not_high hok hp
  obtain ⟨-, heq⟩ | ⟨-, -, ⟨-, heq⟩ | ⟨-, heq⟩⟩ := pmmFree_cases s addr
  · rw [heq]
    exact h
  · intro p hp
    rw [heq, pageIsFree_setRefs, pageRefs_setRefs, if_neg (hne p hp)]
    exact h p hp
  · intro p hp
    rw [heq, pageIsFree_release, pageRefs_release, if_neg (hne p hp)]
    simp [h p hp, hne p hp]

theorem Reach.highUnused (hram : NoHighRam k map) (h : Reach k map HighHeld s) : HighUnused s := by
  induction h with
  | init => exact highUnused_pmmInit hram
  | alloc _ ih => exact ih.alloc
  | addref addr _ hok ih => exact ih.addref hok
  | free addr _ hok ih => exact ih.free hok

/-! ## with high RAM -/

/-- While a high page is free, allocating on and on yields a high page: every
allocation that does not uses up a page below 128 MB. -/
theorem Reach.alloc_high {ok : Pmm → Nat → Prop} (h : Reach k map ok s) {p : Nat} (hp : HighPage p)
    (hfree : pageIsFree s p) :
    ∃ t, Reach k map ok t ∧ ∃ q, HighPage q ∧ (pmmAlloc t).1 = q * pageSize := by
  induction hn : freeBelow 32768 s generalizing s with
  | zero =>
    obtain ⟨q, hq, hqfree, -, heq⟩ | ⟨hall, -⟩ := pmmAlloc_cases s
    · refine ⟨s, h, q, ⟨?_, hq⟩, by rw [heq]⟩
      by_contra hlow
      have hcount := freeBelow_grant (n := 32768) (by omega) hqfree
      omega
    · rw [hall p hp.2] at hfree
      cases hfree
  | succ n ih =>
    obtain ⟨q, hq, hqfree, heq⟩ :=
      pmmAlloc_of_freeBelow (n := 32768) (s := s) (by decide) (by omega)
    have hnext : Reach k map ok (pmmAlloc s).2 := .alloc h
    have hcount := freeBelow_grant hq hqfree
    have hne : p ≠ q := by have := hp.1; omega
    rw [heq] at hnext
    exact ih hnext (by simp [hfree, hne]) (by dsimp only; omega)

/-- **The allocator stays in the identity map** in every run exactly when the
memory map has no usable page between 128 MB and 256 MB: only then every frame
it hands out lies below `0x08000000`, can be dereferenced by the kernel at its
physical address, byte for byte, and is no user address. -/
theorem alloc_below_identityEnd_iff (k : KernelImage) (map : List E820Entry) :
    (∀ s, Reach k map HighHeld s → (pmmAlloc s).1 ≠ 0 →
      (pmmAlloc s).1 < 0x08000000 ∧
      (∀ m kt c, IdMapped m kt c → ∀ i < pageSize,
        m.kread ((pmmAlloc s).1 + i) = some ((pmmAlloc s).1 + i) ∧
        m.kwrite ((pmmAlloc s).1 + i) = some ((pmmAlloc s).1 + i)) ∧
      ¬(0x08000000 ≤ (pmmAlloc s).1 ∧ (pmmAlloc s).1 < 0xC0000000)) ↔
    NoHighRam k map := by
  constructor
  · intro hall e he hu p hp hc
    by_contra hres
    have hfree : pageIsFree (pmmInit k map Pmm.bss) p = true :=
      (pageIsFree_pmmInit k map _ hp.2).mpr ⟨⟨e, he, hu, hc⟩, hres⟩
    obtain ⟨t, ht, q, hq, haddr⟩ := (show Reach k map HighHeld _ from .init).alloc_high hp hfree
    have hlo := hq.1
    have hbound := (hall t ht (by rw [haddr]; unfold pageSize; omega)).1
    rw [haddr] at hbound
    unfold pageSize at hbound
    omega
  · intro hram s hs hne
    obtain ⟨p, hp, hfree, -, haddr, -⟩ := pmmAlloc_ne_zero (Prod.mk.eta (p := pmmAlloc s)).symm hne
    have hlow : p < 32768 := by
      by_contra hhigh
      rw [(hs.highUnused hram p ⟨by omega, hp⟩).1] at hfree
      cases hfree
    have hbound : (pmmAlloc s).1 < 0x08000000 := by rw [haddr]; unfold pageSize; omega
    refine ⟨hbound, fun m kt c hid i hi => ?_, by omega⟩
    have hv : (pmmAlloc s).1 + i < identityEnd := by
      rw [haddr]
      exact Low.addr_lt hlow hi
    exact ⟨hid.kread hv, hid.kwrite hv⟩

/-- 256 MB of RAM, the BIOS hole apart. -/
def largeMap : List E820Entry := [⟨0, 0x9FC00, 1⟩, ⟨0x9FC00, 0x400, 2⟩, ⟨0x100000, 0xFF00000, 1⟩]

/-- On a machine with 256 MB a run of allocations ends with a user address. -/
theorem alloc_largeMap_user_address : ∃ s, Reach smallImage largeMap HighHeld s ∧
    0x08000000 ≤ (pmmAlloc s).1 ∧ (pmmAlloc s).1 < 0xC0000000 := by
  have hstart : (⟨0x100000, 0xFF00000, 1⟩ : E820Entry).start / pageSize = 256 := by decide
  have hstop : (⟨0x100000, 0xFF00000, 1⟩ : E820Entry).stop / pageSize = 65536 := by decide
  have hfree : pageIsFree (pmmInit smallImage largeMap Pmm.bss) 32768 = true := by
    refine (pageIsFree_pmmInit _ _ _ (by decide)).mpr
      ⟨⟨⟨0x100000, 0xFF00000, 1⟩, by simp [largeMap],
      rfl, 32768, by omega, by omega, by omega⟩, ?_⟩
    rintro (h | ⟨-, h⟩)
    · omega
    · exact absurd h (by decide)
  have hinit : Reach smallImage largeMap HighHeld _ := .init
  obtain ⟨t, ht, q, ⟨hlo, hhi⟩, haddr⟩ := hinit.alloc_high ⟨by decide, by decide⟩ hfree
  refine ⟨t, ht, ?_⟩
  rw [haddr]
  unfold pagesMax at hhi
  unfold pageSize
  omega

end AliOS
