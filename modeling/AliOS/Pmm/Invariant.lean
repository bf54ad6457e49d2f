import AliOS.Pmm.Init

/-!
# AliOS.Pmm.Invariant

The manager's invariant over whole runs: from `pmm_init`, through any sequence
of `pmm_alloc`, `pmm_addref` and `pmm_free`, the three representations of "this
page is free" (bitmap, counter, reference count) agree, and the protected pages
stay used.  `Reach` is parameterised by what the callers promise about the
addresses they pass; `Held` is the promise that the page is in use and counted.
-/

namespace AliOS

/-- The states reached from boot when every address passed to `pmm_addref` or
`pmm_free` satisfies `ok`. -/
inductive Reach (k : KernelImage) (map : List E820Entry) (ok : Pmm → Nat → Prop) : Pmm → Prop where
  | init : Reach k map ok (pmmInit k map Pmm.bss)
  | alloc {s : Pmm} : Reach k map ok s → Reach k map ok (pmmAlloc s).2
  | addref {s : Pmm} (addr : Nat) : Reach k map ok s → ok s addr → Reach k map ok (pmmAddref s addr)
  | free {s : Pmm} (addr : Nat) : Reach k map ok s → ok s addr → Reach k map ok (pmmFree s addr)

/-- The address lies in a page that is marked used and has a reference. -/
def Held (s : Pmm) (addr : Nat) : Prop :=
  pageIsFree s (addr / pageSize) = false ∧ 1 ≤ s.pageRefs (addr / pageSize)

/-- The invariant of the manager. -/
structure Pmm.Valid (k : KernelImage) (s : Pmm) : Prop where
  counted : Counted s
  refs : ∀ p < pagesMax, pageIsFree s p = true → s.pageRefs p = 0
  reserved : ∀ p < pagesMax, k.Reserved p → pageIsFree s p = false ∧ s.pageRefs p = 0

variable {k : KernelImage} {map : List E820Entry} {s : Pmm}

theorem valid_pmmInit (k : KernelImage) (map : List E820Entry) :
    (pmmInit k map Pmm.bss).Valid k where
  counted := counted_pmmInit k map _
  refs := fun p _ _ => by rw [pageRefs_pmmInit]; rfl
  reserved := fun p hp hres => by
    refine ⟨?_, by rw [pageRefs_pmmInit]; rfl⟩
    rw [← Bool.not_eq_true, pageIsFree_pmmInit k map _ hp]
    exact fun h => h.2 hres

theorem Pmm.Valid.grant (h : s.Valid k) {p : Nat} (hp : p < pagesMax)
    (hfree : pageIsFree s p) : (s.grant p).Valid k where
  counted := h.counted.grant hp hfree
  refs := fun q hq hqf => by
    simp only [pageIsFree_grant, Bool.and_eq_true, Bool.not_eq_true',
      decide_eq_false_iff_not] at hqf
    rw [pageRefs_grant, if_neg hqf.2]
    exact h.refs q hq hqf.1
  reserved := fun q hq hres => by
    have hold := h.reserved q hq hres
    have hne : q ≠ p := fun hqp => by rw [hqp, hfree] at hold; exact absurd hold.1 (by decide)
    simp [hold, hne]

theorem Pmm.Valid.alloc (h : s.Valid k) : (pmmAlloc s).2.Valid k := by
  obtain ⟨p, hp, hfree, -, heq⟩ | ⟨-, heq⟩ := pmmAlloc_cases s
  · rw [heq]; exact h.grant hp hfree
  · rw [heq]; exact h

/-- Moving the count of a page that has one keeps the invariant: the page is
neither free nor protected. -/
theorem Pmm.Valid.setRefs (h : s.Valid k) {p : Nat} (hrefs : 1 ≤ s.pageRefs p) (n : Nat) :
    (s.setRefs p n).Valid k where
  counted := h.counted
  refs := fun q hq hqf => by
    rw [pageIsFree_setRefs] at hqf
    have h0 := h.refs q hq hqf
    have hne : q ≠ p := fun hqp => by rw [hqp] at h0; omega
    rw [pageRefs_setRefs, if_neg hne, h0]
  reserved := fun q hq hres => by
    have hold := h.reserved q hq hres
    have hne : q ≠ p := fun hqp => by rw [hqp] at hold; omega
    rw [pageIsFree_setRefs, pageRefs_setRefs, if_neg hne]
    exact hold

theorem Pmm.Valid.release (h : s.Valid k) {p : Nat} (hp : p < pagesMax)
    (hused : pageIsFree s p = false) (hrefs : 1 ≤ s.pageRefs p) : (s.release p).Valid k where
  counted := h.counted.release hp hused
  refs := fun q hq hqf => by
    rw [pageRefs_release]
    by_cases hqp : q = p
    · rw [if_pos hqp]
    · rw [if_neg hqp]
      exact h.refs q hq (by simpa [hqp] using hqf)
  reserved := fun q hq hres => by
    have hold := h.reserved q hq hres
    have hne : q ≠ p := fun hqp => by rw [hqp] at hold; omega
    simp [hold, hne]

theorem Pmm.Valid.addref (h : s.Valid k) {addr : Nat} (hheld : Held s addr) :
    (pmmAddref s addr).Valid k := by
  obtain ⟨-, -, heq⟩ | ⟨-, heq⟩ := pmmAddref_cases s addr
  · rw [heq]; exact h.setRefs hheld.2 _
  · rw [heq]; exact h

theorem Pmm.Valid.free (h : s.Valid k) {addr : Nat} (hheld : Held s addr) :
    (pmmFree s addr).Valid k := by
  obtain ⟨-, heq⟩ | ⟨hp, hused, ⟨-, heq⟩ | ⟨-, heq⟩⟩ := pmmFree_cases s addr
  · rw [heq]; exact h
  · rw [heq]; exact h.setRefs hheld.2 _
  · rw [heq]; exact h.release hp hused hheld.2

/-- Every state reached with counted addresses satisfies the invariant. -/
theorem Reach.valid (h : Reach k map Held s) : s.Valid k := by
  induction h with
  | init => exact valid_pmmInit k map
  | alloc _ ih => exact ih.alloc
  | addref addr _ hok ih => exact ih.addref hok
  | free addr _ hok ih => exact ih.free hok

/-- The counter is 0 exactly when every page is used. -/
theorem Pmm.Valid.freeCount_eq_zero (h : s.Valid k) :
    s.freeCount = 0 ↔ ∀ p < pagesMax, pageIsFree s p = false := by
  rw [show s.freeCount = (freeSet s).card from h.counted, Finset.card_eq_zero]
  constructor
  · intro hempty p hp
    by_contra hfree
    have hmem : p ∈ freeSet s := mem_freeSet.mpr ⟨hp, by simpa using hfree⟩
    simp [hempty] at hmem
  · intro hall
    ext p
    simp only [mem_freeSet, Finset.notMem_empty, iff_false, not_and]
    intro hp
    simp [hall p hp]

/-- Page 0 is protected, so the address 0 always means failure. -/
theorem Pmm.Valid.pmmAlloc_eq_zero (h : s.Valid k) : (pmmAlloc s).1 = 0 ↔ s.freeCount = 0 := by
  rw [h.freeCount_eq_zero]
  obtain ⟨p, hp, hfree, -, heq⟩ | ⟨hall, heq⟩ := pmmAlloc_cases s
  · have h0 := (h.reserved 0 (by decide) (.inl (by decide))).1
    have hp0 : p ≠ 0 := fun hz => by rw [hz, h0] at hfree; exact absurd hfree (by decide)
    have hpos : p * pageSize ≠ 0 := Nat.mul_ne_zero hp0 (by decide)
    rw [heq]
    constructor
    · exact fun hz => absurd hz hpos
    · exact fun hz => by rw [hz p hp] at hfree; exact absurd hfree (by decide)
  · rw [heq]
    exact ⟨fun _ => hall, fun _ => rfl⟩

/-- **The manager's invariant over every run**: the counter is the number of
clear bits, free pages have no reference, the first megabyte and the kernel
image stay used, and `pmm_alloc` fails exactly when the counter is 0 and
otherwise returns a page that was free and is now used with count 1. -/
theorem reach_pmm_consistent (h : Reach k map Held s) :
    s.freeCount = ((Finset.range pagesMax).filter fun p => pageIsFree s p = true).card ∧
    (∀ p < pagesMax, pageIsFree s p = true → s.pageRefs p = 0) ∧
    (∀ p < pagesMax, p * pageSize < 0x100000 → pageIsFree s p = false) ∧
    (∀ p < pagesMax, 0x1000 ≤ p * pageSize → p * pageSize < k.physEnd →
      pageIsFree s p = false) ∧
    pageIsFree s 0 = false ∧
    ((pmmAlloc s).1 = 0 ↔ s.freeCount = 0) ∧
    ((pmmAlloc s).1 ≠ 0 → ∃ p < pagesMax, (pmmAlloc s).1 = p * pageSize ∧
      pageIsFree s p = true ∧ pageIsFree (pmmAlloc s).2 p = false ∧
      (pmmAlloc s).2.pageRefs p = 1) := by
  have hv := h.valid
  refine ⟨hv.counted, hv.refs, ?_, ?_, ?_, hv.pmmAlloc_eq_zero, ?_⟩
  · intro p hp hlow
    exact (hv.reserved p hp (.inl (by unfold pageSize at hlow; omega))).1
  · intro p hp hlo himg
    exact (hv.reserved p hp (.inr ⟨by unfold pageSize at hlo; omega, himg⟩)).1
  · exact (hv.reserved 0 (by decide) (.inl (by decide))).1
  · intro hne
    obtain ⟨p, hp, hfree, -, haddr, hs'⟩ :=
      pmmAlloc_ne_zero (Prod.mk.eta (p := pmmAlloc s)).symm hne
    refine ⟨p, hp, haddr, hfree, ?_, ?_⟩
    · rw [hs']; simp
    · rw [hs']; simp

/-- A kernel image of 128 KB and 31 MB of RAM above the first megabyte. -/
def smallImage : KernelImage := ⟨0xC0028000, by decide, by decide⟩

/-- The memory map of that machine: low RAM, the BIOS hole, extended RAM. -/
def smallMap : List E820Entry :=
  [⟨0, 0x9FC00, 1⟩, ⟨0x9FC00, 0x400, 2⟩, ⟨0x100000, 0x1F00000, 1⟩]

theorem reach_pmm_consistent_small :
    Reach smallImage smallMap Held (pmmAlloc (pmmInit smallImage smallMap Pmm.bss)).2 ∧
      pageIsFree (pmmAlloc (pmmInit smallImage smallMap Pmm.bss)).2 0 = false :=
  have h : Reach smallImage smallMap Held _ := .alloc .init
  ⟨h, (reach_pmm_consistent h).2.2.2.2.1⟩

end AliOS
