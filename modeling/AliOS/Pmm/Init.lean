import AliOS.Pmm
import Mathlib.Data.Set.Card
import Mathlib.Order.Interval.Finset.Nat

/-!
# AliOS.Pmm.Init

What `pmm_init` leaves behind.  `Counted` is the accounting half of the
manager's invariant (the free counter is the number of clear bits); every
routine that touches the bitmap keeps it.  `pageIsFree_pmmInit` says exactly
which pages are free after boot, for any memory map: the pages `range_free`
visits for a usable entry, less the first megabyte and the kernel image.
With addresses up to 2⁴⁴ no sum wraps, and `pmm_init_exact` says the same
about the bytes of a page.
-/

namespace AliOS

open Lib List

variable {s t : Pmm} {p n q : Nat}

/-! ## accounting -/

/-- The pages whose bit is clear. -/
def freeSet (s : Pmm) : Finset Nat := (Finset.range pagesMax).filter fun p => pageIsFree s p = true

/-- The free counter is the number of clear bits. -/
def Counted (s : Pmm) : Prop := s.freeCount = (freeSet s).card

@[simp] theorem mem_freeSet :
    p ∈ freeSet s ↔ p < pagesMax ∧ pageIsFree s p := by
  simp [freeSet]

theorem card_freeSet_le (s : Pmm) : (freeSet s).card ≤ pagesMax := by
  have h := Finset.card_filter_le (Finset.range pagesMax) fun p => pageIsFree s p = true
  rwa [Finset.card_range] at h

/-- How many of the pages below `n` are free. -/
def freeBelow (n : Nat) (s : Pmm) : Nat :=
  ((Finset.range n).filter fun p => pageIsFree s p = true).card

theorem card_freeSet (s : Pmm) : (freeSet s).card = freeBelow pagesMax s := rfl

/-- Setting the bit of a free page leaves one free page less. -/
theorem freeBelow_of_taken (hp : p < n) (hfree : pageIsFree s p)
    (ht : ∀ q, pageIsFree t q = (pageIsFree s q && !decide (q = p))) :
    freeBelow n t + 1 = freeBelow n s := by
  have hset : ((Finset.range n).filter fun q => pageIsFree t q = true) =
      ((Finset.range n).filter fun q => pageIsFree s q = true).erase p := by
    ext q
    simp only [Finset.mem_filter, Finset.mem_range, ht, Finset.mem_erase, Bool.and_eq_true,
      Bool.not_eq_true', decide_eq_false_iff_not]
    tauto
  unfold freeBelow
  rw [hset]
  exact Finset.card_erase_add_one (by simp [hp, hfree])

theorem freeBelow_grant (hp : p < n) (hfree : pageIsFree s p) :
    freeBelow n (s.grant p) + 1 = freeBelow n s :=
  freeBelow_of_taken hp hfree (pageIsFree_grant s p)

theorem card_freeSet_of_taken (hp : p < pagesMax) (hfree : pageIsFree s p)
    (ht : ∀ q, pageIsFree t q = (pageIsFree s q && !decide (q = p))) :
    (freeSet t).card + 1 = (freeSet s).card :=
  freeBelow_of_taken hp hfree ht

theorem freeBelow_mono (s : Pmm) {n' : Nat} (h : n ≤ n') : freeBelow n s ≤ freeBelow n' s :=
  Finset.card_le_card (Finset.filter_subset_filter _ (Finset.range_subset_range.mpr h))

/-- A range of free pages. -/
theorem sub_le_freeBelow {a b : Nat} (hb : b ≤ n) (h : ∀ p, a ≤ p → p < b → pageIsFree s p) :
    b - a ≤ freeBelow n s := by
  rw [← Nat.card_Ico]
  refine Finset.card_le_card fun p hp => ?_
  obtain ⟨hlo, hhi⟩ := Finset.mem_Ico.mp hp
  exact Finset.mem_filter.mpr ⟨Finset.mem_range.mpr (by omega), h p hlo hhi⟩

/-- While a page below `n` is free `pmm_alloc` hands one out. -/
theorem pmmAlloc_of_freeBelow (hn : n ≤ pagesMax) (h : 0 < freeBelow n s) :
    ∃ p < n, pageIsFree s p ∧ pmmAlloc s = (p * pageSize, s.grant p) := by
  obtain ⟨q, hq⟩ := Finset.card_pos.mp h
  obtain ⟨hqn, hqfree⟩ := Finset.mem_filter.mp hq
  rw [Finset.mem_range] at hqn
  obtain ⟨p, -, hfree, hmin, heq⟩ | ⟨hall, -⟩ := pmmAlloc_cases s
  · refine ⟨p, ?_, hfree, heq⟩
    by_contra hp
    rw [hmin q (by omega)] at hqfree
    cases hqfree
  · rw [hall q (by omega)] at hqfree
    cases hqfree

/-- If no page below `n` is free, but page `n` is, that is the one. -/
theorem pmmAlloc_of_freeBelow_eq_zero (hn : n < pagesMax) (h : freeBelow n s = 0)
    (hfree : pageIsFree s n) :
    pmmAlloc s = (n * pageSize, s.grant n) := by
  obtain ⟨p, -, hp, hmin, heq⟩ | ⟨hall, -⟩ := pmmAlloc_cases s
  · have hle : ¬n < p := fun hlt => by
      rw [hmin n hlt] at hfree
      cases hfree
    have hge : ¬p < n := fun hlt => by
      have hcount := freeBelow_grant hlt hp
      omega
    rw [heq, show p = n by omega]
  · rw [hall n hn] at hfree
    cases hfree

/-- Clearing the bit of a used page puts one page into the free set. -/
theorem card_freeSet_of_released (hp : p < pagesMax) (hused : pageIsFree s p = false)
    (ht : ∀ q, pageIsFree t q = (pageIsFree s q || decide (q = p))) :
    (freeSet t).card = (freeSet s).card + 1 := by
  have hset : freeSet t = insert p (freeSet s) := by
    ext q
    simp only [mem_freeSet, ht, Finset.mem_insert, Bool.or_eq_true, decide_eq_true_eq]
    constructor
    · rintro ⟨hq, hf | rfl⟩
      · exact .inr ⟨hq, hf⟩
      · exact .inl rfl
    · rintro (rfl | ⟨hq, hf⟩)
      · exact ⟨hp, .inr rfl⟩
      · exact ⟨hq, .inl hf⟩
  rw [hset]
  exact Finset.card_insert_of_notMem (by simp [hused])

/-- Taking a free page keeps the counter exact: it is positive, so the guarded
decrement really decrements. -/
theorem Counted.taken (h : Counted s) (hp : p < pagesMax) (hfree : pageIsFree s p)
    (ht : ∀ q, pageIsFree t q = (pageIsFree s q && !decide (q = p)))
    (hcount : t.freeCount = decFreeCount s.freeCount) : Counted t := by
  have hcard := card_freeSet_of_taken hp hfree ht
  unfold Counted at *
  rw [hcount, decFreeCount, if_pos (by omega)]
  omega

/-- Releasing a used page keeps the counter exact: at most 65536 pages are
free, so the 32-bit increment does not wrap. -/
theorem Counted.released (h : Counted s) (hp : p < pagesMax) (hused : pageIsFree s p = false)
    (ht : ∀ q, pageIsFree t q = (pageIsFree s q || decide (q = p)))
    (hcount : t.freeCount = incFreeCount s.freeCount) : Counted t := by
  have hcard := card_freeSet_of_released hp hused ht
  have hle := card_freeSet_le s
  unfold Counted at *
  rw [hcount, incFreeCount, hcard, h, Nat.mod_eq_of_lt]
  exact Nat.lt_of_le_of_lt (Nat.succ_le_succ hle) (by decide)

theorem Counted.grant (h : Counted s) (hp : p < pagesMax) (hfree : pageIsFree s p) :
    Counted (s.grant p) :=
  h.taken hp hfree (pageIsFree_grant s p) rfl

theorem Counted.release (h : Counted s) (hp : p < pagesMax) (hused : pageIsFree s p = false) :
    Counted (s.release p) :=
  h.released hp hused (pageIsFree_release s p) rfl

theorem Counted.rangeFreeStep (h : Counted s) (addr : Nat) :
    Counted (rangeFreeStep addr s) := by
  unfold AliOS.rangeFreeStep
  by_cases hc : addr / pageSize % 2 ^ 32 < pagesMax ∧
      pageIsFree s (addr / pageSize % 2 ^ 32) = false
  · simp only [hc, and_self, if_true]
    exact h.released hc.1 hc.2 (pageIsFree_pageSetFree s _) rfl
  · simpa only [hc, if_false] using h

theorem Counted.rangeUsedStep (h : Counted s) (hp : p < pagesMax) :
    Counted (rangeUsedStep p s) := by
  unfold AliOS.rangeUsedStep
  by_cases hc : pageIsFree s p = true
  · rw [if_pos hc]
    exact h.taken hp hc (pageIsFree_pageSetUsed s p) rfl
  · rw [if_neg hc]
    exact h

/-! ## the range helpers -/

/-- The page numbers `range_free` visits for an entry. -/
def E820Entry.Covers (e : E820Entry) (p : Nat) : Prop :=
  ∃ n, e.start / pageSize ≤ n ∧ n < e.stop / pageSize ∧ n % 2 ^ 32 = p

theorem pageIsFree_rangeFreeStep (n : Nat) (s : Pmm) (hq : q < pagesMax) :
    pageIsFree (rangeFreeStep (n * pageSize) s) q ↔
      pageIsFree s q ∨ n % 2 ^ 32 = q := by
  unfold rangeFreeStep
  simp only [mul_pageSize_div]
  by_cases hc : n % 2 ^ 32 < pagesMax ∧ pageIsFree s (n % 2 ^ 32) = false
  · rw [if_pos hc]
    simp only [pageIsFree_freeCount, pageIsFree_pageSetFree, Bool.or_eq_true, decide_eq_true_eq]
    tauto
  · rw [if_neg hc]
    constructor
    · exact .inl
    · rintro (h | rfl)
      · exact h
      · rw [not_and, Bool.not_eq_false] at hc
        exact hc hq

/-- `range_free` frees what it visits and nothing else. -/
theorem pageIsFree_rangeFree (e : E820Entry) (s : Pmm) (hq : q < pagesMax) :
    pageIsFree (rangeFree e s) q ↔ pageIsFree s q ∨ e.Covers q := by
  by_cases hle : e.start / pageSize ≤ e.stop / pageSize
  · have h := forRange_induct
      (fun i t => pageIsFree t q = true ↔ pageIsFree s q = true ∨
        ∃ n, e.start / pageSize ≤ n ∧ n < i ∧ n % 2 ^ 32 = q)
      (a := e.start / pageSize) (n := e.stop / pageSize - e.start / pageSize) (s := s)
      (by simp; omega)
      (fun i t hi _ ht => by
        rw [pageIsFree_rangeFreeStep i t hq, ht]
        constructor
        · rintro ((h | ⟨n, hn⟩) | h)
          · exact .inl h
          · exact .inr ⟨n, hn.1, by omega, hn.2.2⟩
          · exact .inr ⟨i, hi, by omega, h⟩
        · rintro (h | ⟨n, hn, hlt, hmod⟩)
          · exact .inl (.inl h)
          · by_cases hni : n = i
            · exact .inr (hni ▸ hmod)
            · exact .inl (.inr ⟨n, hn, by omega, hmod⟩))
    rwa [show e.start / pageSize + (e.stop / pageSize - e.start / pageSize) =
      e.stop / pageSize by omega] at h
  · have hnone : ¬e.Covers q := fun ⟨n, hn⟩ => by omega
    rw [rangeFree, show e.stop / pageSize - e.start / pageSize = 0 by omega, forRange_zero]
    simp [hnone]

theorem Counted.rangeFree (h : Counted s) (e : E820Entry) : Counted (rangeFree e s) :=
  forRange_induct (fun _ t => Counted t) h fun i _ _ _ ht => ht.rangeFreeStep (i * pageSize)

theorem pageIsFree_rangeUsedStep (p : Nat) (s : Pmm) (q : Nat) :
    pageIsFree (rangeUsedStep p s) q ↔ pageIsFree s q ∧ q ≠ p := by
  unfold rangeUsedStep
  by_cases hc : pageIsFree s p = true
  · rw [if_pos hc]
    simp only [pageIsFree_freeCount, pageIsFree_pageSetUsed, Bool.and_eq_true, Bool.not_eq_true',
      decide_eq_false_iff_not, ne_eq]
  · rw [if_neg hc]
    constructor
    · exact fun h => ⟨h, fun hqp => hc (hqp ▸ h)⟩
    · exact And.left

/-- `range_used` marks every tracked page it touches and nothing else. -/
theorem pageIsFree_rangeUsed (base stop : Nat) (s : Pmm) (hq : q < pagesMax) :
    pageIsFree (rangeUsed base stop s) q ↔
      pageIsFree s q ∧
        ¬(base / pageSize ≤ q ∧ q < (stop + pageSize - 1) % 2 ^ 32 / pageSize) := by
  unfold rangeUsed
  generalize base / pageSize = p
  generalize (stop + pageSize - 1) % 2 ^ 32 / pageSize = e
  have h := forRange_induct
    (fun i t => pageIsFree t q = true ↔ pageIsFree s q = true ∧ ¬(p ≤ q ∧ q < i))
    (f := rangeUsedStep) (a := p) (n := min e pagesMax - p) (s := s)
    (by simp)
    (fun i t hi _ ht => by
      rw [pageIsFree_rangeUsedStep, ht]
      constructor
      · rintro ⟨⟨hs, hno⟩, hne⟩
        exact ⟨hs, by omega⟩
      · rintro ⟨hs, hno⟩
        exact ⟨⟨hs, by omega⟩, by omega⟩)
  rw [h]
  have hiff : (p ≤ q ∧ q < p + (min e pagesMax - p)) ↔ (p ≤ q ∧ q < e) := by omega
  rw [hiff]

theorem Counted.rangeUsed (h : Counted s) (base stop : Nat) :
    Counted (rangeUsed base stop s) :=
  forRange_induct (fun _ t => Counted t) h fun _ _ _ hi ht => ht.rangeUsedStep (by omega)

/-! ## boot -/

theorem pageIsFree_rangeFreeUsable (map : List E820Entry) (s : Pmm) (hq : q < pagesMax) :
    pageIsFree (rangeFreeUsable map s) q ↔
      pageIsFree s q ∨ ∃ e ∈ map, e.type = e820Usable ∧ e.Covers q := by
  induction map generalizing s with
  | nil => simp [rangeFreeUsable]
  | cons e map ih =>
    rw [rangeFreeUsable, foldl_cons, ← rangeFreeUsable, ih]
    by_cases hu : e.type = e820Usable
    · rw [if_pos hu, pageIsFree_rangeFree e s hq]
      simp [hu, or_assoc]
    · simp [hu]

theorem Counted.rangeFreeUsable (h : Counted s) (map : List E820Entry) :
    Counted (rangeFreeUsable map s) := by
  induction map generalizing s with
  | nil => exact h
  | cons e map ih =>
    rw [AliOS.rangeFreeUsable, foldl_cons]
    by_cases hu : e.type = e820Usable
    · rw [if_pos hu]
      exact ih (h.rangeFree e)
    · rw [if_neg hu]
      exact ih h

/-- The tracked pages `pmm_init` protects: the first megabyte and the pages
the kernel image touches. -/
def KernelImage.Reserved (k : KernelImage) (p : Nat) : Prop :=
  p < 256 ∨ (1 ≤ p ∧ p * pageSize < k.physEnd)

/-- The kernel image ends below 1 GB, so rounding its end up to a page does
not wrap. -/
theorem KernelImage.roundUp_physEnd (k : KernelImage) :
    (k.physEnd + pageSize - 1) % 2 ^ 32 = k.physEnd + pageSize - 1 := by
  have h2 := k.addressable
  unfold KernelImage.physEnd kernelOffset pageSize
  omega

theorem pageIsFree_allUsed (s : Pmm) (p : Nat) : pageIsFree s.allUsed p = false := by
  have hall : ∀ i < 8, (0xFF#8).getLsbD i := by decide
  rw [pageIsFree_eq]
  simp only [Pmm.allUsed]
  rw [hall _ (by omega)]
  rfl

/-- **Free pages after boot**: page `p` is free exactly when `range_free`
visits it for a usable entry and `pmm_init` does not protect it again. -/
theorem pageIsFree_pmmInit (k : KernelImage) (map : List E820Entry) (s : Pmm) (hp : p < pagesMax) :
    pageIsFree (pmmInit k map s) p ↔
      (∃ e ∈ map, e.type = e820Usable ∧ e.Covers p) ∧ ¬k.Reserved p := by
  have hused := pageIsFree_allUsed s p
  unfold pmmInit
  rw [pageIsFree_rangeUsed _ _ _ hp, pageIsFree_rangeUsed _ _ _ hp,
    pageIsFree_rangeFreeUsable map _ hp, k.roundUp_physEnd, hused]
  have hlow : (0 / pageSize ≤ p ∧ p < (0x100000 + pageSize - 1) % 2 ^ 32 / pageSize) ↔ p < 256 := by
    unfold pageSize; omega
  have himg : (0x1000 / pageSize ≤ p ∧ p < (k.physEnd + pageSize - 1) / pageSize) ↔
      (1 ≤ p ∧ p * pageSize < k.physEnd) := by
    unfold pageSize; omega
  rw [hlow, himg]
  simp [KernelImage.Reserved, and_assoc]

theorem pageRefs_forRange {f : Nat → Pmm → Pmm} (hf : ∀ i t, (f i t).pageRefs = t.pageRefs)
    (lo n : Nat) (s : Pmm) : (forRange f lo n s).pageRefs = s.pageRefs :=
  forRange_induct (fun _ t => t.pageRefs = s.pageRefs) rfl fun i t _ _ ht => (hf i t).trans ht

theorem pageRefs_rangeUsed (base stop : Nat) (s : Pmm) :
    (rangeUsed base stop s).pageRefs = s.pageRefs :=
  pageRefs_forRange (fun i t => by simp only [rangeUsedStep]; split <;> rfl) _ _ s

theorem pageRefs_rangeFreeUsable (map : List E820Entry) (s : Pmm) :
    (rangeFreeUsable map s).pageRefs = s.pageRefs := by
  induction map generalizing s with
  | nil => rfl
  | cons e map ih =>
    rw [rangeFreeUsable, foldl_cons, ← rangeFreeUsable, ih]
    split
    · exact pageRefs_forRange (fun i t => by simp only [rangeFreeStep]; split <;> rfl) _ _ s
    · rfl

/-- `pmm_init` does not touch the reference counts. -/
@[simp] theorem pageRefs_pmmInit (k : KernelImage) (map : List E820Entry) (s : Pmm) :
    (pmmInit k map s).pageRefs = s.pageRefs := by
  unfold pmmInit
  rw [pageRefs_rangeUsed, pageRefs_rangeUsed, pageRefs_rangeFreeUsable]
  rfl

theorem counted_allUsed (s : Pmm) : Counted s.allUsed := by
  have hempty : freeSet s.allUsed = ∅ := by
    ext q
    simp [pageIsFree_allUsed]
  rw [Counted, hempty]
  rfl

theorem counted_pmmInit (k : KernelImage) (map : List E820Entry) (s : Pmm) :
    Counted (pmmInit k map s) :=
  (((counted_allUsed s).rangeFreeUsable map).rangeUsed _ _).rangeUsed _ _

/-! ## the pages and their bytes -/

/-- The bytes of page `p` lie in the entry. -/
def E820Entry.Holds (e : E820Entry) (p : Nat) : Prop :=
  e.base.toNat ≤ pageSize * p ∧ pageSize * (p + 1) ≤ e.base.toNat + e.length.toNat

/-- A byte of page `p` lies between `lo` and `hi`. -/
def Touched (lo hi p : Nat) : Prop := ∃ a, lo ≤ a ∧ a < hi ∧ a / pageSize = p

/-- The pages that are to be free after boot: behind the first megabyte, apart from the kernel
image, and inside one usable entry. -/
def BootFree (k : KernelImage) (map : List E820Entry) (p : Nat) : Prop :=
  256 ≤ p ∧ ¬Touched 0x1000 k.physEnd p ∧ ∃ e ∈ map, e.type = e820Usable ∧ e.Holds p

/-- Below 2⁴⁴ `range_free` visits the pages that lie in the entry. -/
theorem E820Entry.covers_iff {e : E820Entry} (he : e.base.toNat + e.length.toNat ≤ 2 ^ 44)
    (p : Nat) :
    e.Covers p ↔ e.Holds p := by
  simp only [E820Entry.Covers, E820Entry.Holds, E820Entry.start, E820Entry.stop, pageSize]
  constructor
  · omega
  · rintro ⟨hlo, hhi⟩
    exact ⟨p, by omega, by omega, by omega⟩

theorem KernelImage.reserved_iff (k : KernelImage) (p : Nat) :
    k.Reserved p ↔ p < 256 ∨ Touched 0x1000 k.physEnd p := by
  simp only [KernelImage.Reserved, Touched, pageSize]
  constructor
  · rintro (hp | ⟨hp, himg⟩)
    · exact .inl hp
    · exact .inr ⟨p * 4096, by omega, himg, by omega⟩
  · rintro (hp | ⟨a, hlo, hhi, rfl⟩)
    · exact .inl hp
    · exact .inr ⟨by omega, by omega⟩

/-- **The free pages after boot**, for any memory map of addresses up to 2⁴⁴, in any order and
with any overlaps: those that are to be free, and `free_count` is their number. -/
theorem pmm_init_exact (k : KernelImage) (map : List E820Entry) (s : Pmm)
    (hmap : ∀ e ∈ map, e.base.toNat + e.length.toNat ≤ 2 ^ 44) :
    (∀ p < pagesMax, pageIsFree (pmmInit k map s) p = true ↔ BootFree k map p) ∧
    (pmmInit k map s).freeCount = {p | p < pagesMax ∧ BootFree k map p}.ncard := by
  have hfree : ∀ p < pagesMax, pageIsFree (pmmInit k map s) p = true ↔ BootFree k map p := by
    intro p hp
    have hentry : (∃ e ∈ map, e.type = e820Usable ∧ e.Covers p) ↔ ∃ e ∈ map, e.type = e820Usable ∧
        e.Holds p :=
      exists_congr fun e => and_congr_right fun he => and_congr_right fun _ =>
        E820Entry.covers_iff (hmap e he) p
    rw [pageIsFree_pmmInit k map s hp, hentry, k.reserved_iff, BootFree, not_or, Nat.not_lt]
    tauto
  have hset : {p | p < pagesMax ∧ BootFree k map p} = ↑(freeSet (pmmInit k map s)) := by
    ext p
    simpa using fun hp => (hfree p hp).symm
  refine ⟨hfree, ?_⟩
  rw [hset, Set.ncard_coe_finset]
  exact counted_pmmInit k map s

/-- One entry of 40 KB, not aligned, and a kernel image that ends at 1 MB: nine whole pages. -/
theorem pmm_init_exact_nine :
    let k : KernelImage := ⟨0xC0100000, by decide, by decide⟩
    let s := pmmInit k [⟨0x100800, 0xA000, 1⟩] Pmm.bss
    (∀ p < pagesMax, pageIsFree s p = true ↔ 257 ≤ p ∧ p < 266) ∧ s.freeCount = 9 := by
  intro k s
  obtain ⟨hfree, hcount⟩ := pmm_init_exact k [⟨0x100800, 0xA000, 1⟩] Pmm.bss (by decide)
  have hboot : ∀ p, BootFree k [⟨0x100800, 0xA000, 1⟩] p ↔ 257 ≤ p ∧ p < 266 := by
    intro p
    have hlen : (0x100800 : UInt64).toNat = 0x100800 ∧ (0xA000 : UInt64).toNat = 0xA000 := by decide
    simp only [BootFree, E820Entry.Holds, mem_singleton, exists_eq_left, e820Usable,
      true_and, pageSize, hlen.1, hlen.2]
    constructor
    · omega
    · intro hp
      refine ⟨by omega, ?_, by omega, by omega⟩
      rintro ⟨a, -, hhi, ha⟩
      simp only [KernelImage.physEnd, kernelOffset, pageSize, k] at hhi ha
      omega
  have hset : {p | p < pagesMax ∧ BootFree k [⟨0x100800, 0xA000, 1⟩] p} =
      ↑(Finset.Ico 257 266) := by
    ext p
    simp only [hboot, Set.mem_ofPred_eq, Finset.coe_Ico, Set.mem_Ico, pagesMax]
    omega
  refine ⟨fun p hp => (hfree p hp).trans (hboot p), hcount.trans ?_⟩
  rw [hset, Set.ncard_coe_finset]
  rfl

end AliOS
