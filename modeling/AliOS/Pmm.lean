import AliOS.Lib.Loop
import Mathlib.Logic.Function.Basic
import Mathlib.Data.Finset.Card
import Mathlib.Algebra.Ring.Nat

/-!
# AliOS.Pmm

The physical memory manager (`kernel/pmm.c`): a bitmap with one bit per 4 KB
page (1 = used), a counter of free pages and one saturating reference count
per page.  `pmmInit` marks everything used, frees what the BIOS memory map
reports as usable and protects the first megabyte and the kernel image again;
`pmmAlloc` hands out the lowest free page; `pmmAddref` and `pmmFree` move the
reference count, and the last `pmmFree` releases the page.

Page numbers and addresses are natural numbers; the 64-bit sums of
`range_free` wrap explicitly.  The reference counts never wrap (`pmm_addref`
stops at 255, `pmm_free` decrements only above 1), so they are plain naturals.
-/

namespace AliOS

open Lib Function

/-! ## constants and state -/

/-- Bytes per page. -/
def pageSize : Nat := 4096

/-- Pages the manager tracks: 256 MB. -/
def pagesMax : Nat := 65536

/-- Virtual minus physical address of the kernel image. -/
def kernelOffset : Nat := 0xC0000000

/-- Usable RAM in the BIOS memory map. -/
def e820Usable : UInt32 := 1

/-- One entry of the BIOS memory map, as the bootloader stores it. -/
structure E820Entry where
  base : UInt64
  length : UInt64
  type : UInt32

/-- Where the linker put the end of the kernel: `kernel.ld` starts the image
at `0xC0008000` and defines `kernel_end` behind its last section. -/
structure KernelImage where
  kernelEnd : Nat
  linked : 0xC0008000 ≤ kernelEnd
  addressable : kernelEnd < 2 ^ 32

/-- Physical end of the kernel image. -/
def KernelImage.physEnd (k : KernelImage) : Nat := k.kernelEnd - kernelOffset

/-- The static variables of `pmm.c`. -/
structure Pmm where
  bitmap : Nat → BitVec 8
  freeCount : Nat
  pageRefs : Nat → Nat

/-- The variables as the boot code leaves them: zeroed BSS. -/
def Pmm.bss : Pmm := ⟨fun _ => 0, 0, fun _ => 0⟩

/-! ## bitmap access -/

def pageSetUsed (s : Pmm) (p : Nat) : Pmm :=
  { s with bitmap := update s.bitmap (p / 8) (s.bitmap (p / 8) ||| (1#8 <<< (p % 8))) }

def pageSetFree (s : Pmm) (p : Nat) : Pmm :=
  { s with bitmap := update s.bitmap (p / 8) (s.bitmap (p / 8) &&& ~~~(1#8 <<< (p % 8))) }

def pageIsFree (s : Pmm) (p : Nat) : Bool :=
  s.bitmap (p / 8) &&& (1#8 <<< (p % 8)) == 0#8

/-! ## range helpers -/

/-- `free_count++` on a 32-bit counter. -/
def incFreeCount (n : Nat) : Nat := (n + 1) % 2 ^ 32

/-- `if (free_count) free_count--`. -/
def decFreeCount (n : Nat) : Nat := if n ≠ 0 then n - 1 else n

/-- First address `range_free` looks at: `base` rounded up, in 64 bits. -/
def E820Entry.start (e : E820Entry) : Nat :=
  (e.base.toNat + pageSize - 1) % 2 ^ 64 / pageSize * pageSize

/-- End of the range `range_free` looks at: `base + length` rounded down, in
64 bits. -/
def E820Entry.stop (e : E820Entry) : Nat :=
  (e.base.toNat + e.length.toNat) % 2 ^ 64 / pageSize * pageSize

/-- Body of the loop in `range_free`: release one page that lies in range. -/
def rangeFreeStep (addr : Nat) (s : Pmm) : Pmm :=
  let page := addr / pageSize % 2 ^ 32
  if page < pagesMax ∧ pageIsFree s page = false then
    { pageSetFree s page with freeCount := incFreeCount s.freeCount }
  else s

/-- Mark every page that falls entirely within the entry as free.  The loop
counter is the page number; the C loop counts addresses in steps of a page
between the same two page boundaries. -/
def rangeFree (e : E820Entry) (s : Pmm) : Pmm :=
  forRange (fun n => rangeFreeStep (n * pageSize))
    (e.start / pageSize) (e.stop / pageSize - e.start / pageSize) s

/-- Body of the loop in `range_used`. -/
def rangeUsedStep (p : Nat) (s : Pmm) : Pmm :=
  if pageIsFree s p then
    { pageSetUsed s p with freeCount := decFreeCount s.freeCount }
  else s

/-- Mark every page touched by `[base, stop)` as used. -/
def rangeUsed (base stop : Nat) (s : Pmm) : Pmm :=
  let p := base / pageSize
  let e := (stop + pageSize - 1) % 2 ^ 32 / pageSize
  forRange rangeUsedStep p (min e pagesMax - p) s

/-! ## public functions -/

/-- The loop of `pmm_init` over the memory map. -/
def rangeFreeUsable (map : List E820Entry) (s : Pmm) : Pmm :=
  map.foldl (fun s e => if e.type = e820Usable then rangeFree e s else s) s

/-- `pmm_init` starts with every page marked used. -/
def Pmm.allUsed (s : Pmm) : Pmm := { s with bitmap := fun _ => 0xFF#8, freeCount := 0 }

/-- `pmm_init` leaves `page_refs` alone: it relies on zeroed BSS. -/
def pmmInit (k : KernelImage) (map : List E820Entry) (s : Pmm) : Pmm :=
  rangeUsed 0x1000 k.physEnd (rangeUsed 0 0x100000 (rangeFreeUsable map s.allUsed))

/-- The page `pmm_alloc` picks: the lowest free one. -/
def firstFree (s : Pmm) : Option Nat := (List.range' 0 pagesMax).find? (pageIsFree s)

/-- `page_refs[p] = n`. -/
def Pmm.setRefs (s : Pmm) (p n : Nat) : Pmm :=
  { s with pageRefs := update s.pageRefs p n }

/-- What `pmm_alloc` does to the page it picked. -/
def Pmm.grant (s : Pmm) (p : Nat) : Pmm :=
  ({ pageSetUsed s p with freeCount := decFreeCount s.freeCount }).setRefs p 1

/-- What `pmm_free` does to a page whose last reference goes. -/
def Pmm.release (s : Pmm) (p : Nat) : Pmm :=
  { pageSetFree (s.setRefs p 0) p with freeCount := incFreeCount s.freeCount }

/-- Physical address of a fresh page, or 0 when no page is free. -/
def pmmAlloc (s : Pmm) : Nat × Pmm :=
  match firstFree s with
  | some p => (p * pageSize, s.grant p)
  | none => (0, s)

def pmmFree (s : Pmm) (addr : Nat) : Pmm :=
  let p := addr / pageSize
  if p ≥ pagesMax ∨ pageIsFree s p then s
  else if s.pageRefs p > 1 then s.setRefs p (s.pageRefs p - 1)
  else s.release p

def pmmAddref (s : Pmm) (addr : Nat) : Pmm :=
  let p := addr / pageSize
  if p < pagesMax ∧ s.pageRefs p < 255 then s.setRefs p (s.pageRefs p + 1) else s

def pmmGetref (s : Pmm) (addr : Nat) : Nat :=
  let p := addr / pageSize
  if p < pagesMax then s.pageRefs p else 0

def pmmFreePages (s : Pmm) : Nat := s.freeCount

/-! ## the bitmap reads back -/

section

variable (s : Pmm)

theorem pageIsFree_eq (p : Nat) :
    pageIsFree s p = !(s.bitmap (p / 8)).getLsbD (p % 8) := by
  have hlt : p % 8 < 8 := Nat.mod_lt _ (by decide)
  have hne : BitVec.twoPow 8 (p % 8) ≠ 0#8 := by
    intro h
    have hbit := congrArg (fun x : BitVec 8 => x.getLsbD (p % 8)) h
    simp [hlt] at hbit
  unfold pageIsFree
  rw [← BitVec.twoPow_eq, BitVec.and_twoPow]
  cases (s.bitmap (p / 8)).getLsbD (p % 8) <;> simp [hne]

/-- Setting a bit makes that page used and no other. -/
@[simp] theorem pageIsFree_pageSetUsed (p q : Nat) :
    pageIsFree (pageSetUsed s p) q = (pageIsFree s q && !decide (q = p)) := by
  have hlt : p % 8 < 8 := Nat.mod_lt _ (by decide)
  simp only [pageIsFree_eq, pageSetUsed, ← BitVec.twoPow_eq]
  by_cases hw : q / 8 = p / 8
  · have hiff : p % 8 = q % 8 ↔ q = p := by omega
    rw [hw, update_self, BitVec.getLsbD_or, BitVec.getLsbD_twoPow]
    simp [hlt, hiff]
  · have hne : q ≠ p := fun h => hw (by rw [h])
    rw [update_of_ne hw]
    simp [hne]

/-- Clearing a bit makes that page free and no other. -/
@[simp] theorem pageIsFree_pageSetFree (p q : Nat) :
    pageIsFree (pageSetFree s p) q = (pageIsFree s q || decide (q = p)) := by
  have hlt : p % 8 < 8 := Nat.mod_lt _ (by decide)
  have hlt' : q % 8 < 8 := Nat.mod_lt _ (by decide)
  simp only [pageIsFree_eq, pageSetFree, ← BitVec.twoPow_eq]
  by_cases hw : q / 8 = p / 8
  · have hiff : p % 8 = q % 8 ↔ q = p := by omega
    rw [hw, update_self, BitVec.getLsbD_and, BitVec.getLsbD_not, BitVec.getLsbD_twoPow]
    simp [hlt, hlt', hiff]
  · have hne : q ≠ p := fun h => hw (by rw [h])
    rw [update_of_ne hw]
    simp [hne]

/-- The counter plays no role for the bitmap. -/
@[simp] theorem pageIsFree_freeCount (n p : Nat) :
    pageIsFree { s with freeCount := n } p = pageIsFree s p := rfl

@[simp] theorem pageIsFree_setRefs (p n q : Nat) :
    pageIsFree (s.setRefs p n) q = pageIsFree s q := rfl

@[simp] theorem pageIsFree_grant (p q : Nat) :
    pageIsFree (s.grant p) q = (pageIsFree s q && !decide (q = p)) := by
  simp [Pmm.grant]

@[simp] theorem pageIsFree_release (p q : Nat) :
    pageIsFree (s.release p) q = (pageIsFree s q || decide (q = p)) := by
  simp [Pmm.release]

@[simp] theorem pageRefs_pageSetUsed (p : Nat) :
    (pageSetUsed s p).pageRefs = s.pageRefs := rfl

@[simp] theorem pageRefs_pageSetFree (p : Nat) :
    (pageSetFree s p).pageRefs = s.pageRefs := rfl

@[simp] theorem pageRefs_setRefs (p n q : Nat) :
    (s.setRefs p n).pageRefs q = if q = p then n else s.pageRefs q := by
  simp [Pmm.setRefs, update_apply]

@[simp] theorem pageRefs_grant (p q : Nat) :
    (s.grant p).pageRefs q = if q = p then 1 else s.pageRefs q := by
  simp [Pmm.grant]

@[simp] theorem pageRefs_release (p q : Nat) :
    (s.release p).pageRefs q = if q = p then 0 else s.pageRefs q := by
  simp [Pmm.release]

end

/-! ## what each function can do -/

theorem firstFree_eq_some {s : Pmm} {p : Nat} :
    firstFree s = some p ↔
      p < pagesMax ∧ pageIsFree s p ∧ ∀ q < p, pageIsFree s q = false := by
  simp only [firstFree, List.find?_range'_eq_some, List.mem_range'_1, Nat.zero_le, true_and,
    Nat.zero_add, Bool.not_eq_true', forall_const]
  tauto

/-- `pmm_alloc` takes the lowest free page, or fails because there is none. -/
theorem pmmAlloc_cases (s : Pmm) :
    (∃ p, p < pagesMax ∧ pageIsFree s p ∧ (∀ q < p, pageIsFree s q = false) ∧
      pmmAlloc s = (p * pageSize, s.grant p)) ∨
    ((∀ p < pagesMax, pageIsFree s p = false) ∧ pmmAlloc s = (0, s)) := by
  cases h : firstFree s with
  | none => exact .inr ⟨by simpa [firstFree] using h, by simp [pmmAlloc, h]⟩
  | some p =>
    obtain ⟨hp, hfree, hmin⟩ := firstFree_eq_some.mp h
    exact .inl ⟨p, hp, hfree, hmin, by simp [pmmAlloc, h]⟩

/-- A page address names its page. -/
@[simp] theorem mul_pageSize_div (p : Nat) : p * pageSize / pageSize = p :=
  Nat.mul_div_cancel p (by decide)

/-- A successful `pmm_alloc`: the address is that of a free page other than
page 0, which is granted to the caller. -/
theorem pmmAlloc_ne_zero {s s' : Pmm} {addr : Nat} (h : pmmAlloc s = (addr, s')) (h0 : addr ≠ 0) :
    ∃ p, p < pagesMax ∧ pageIsFree s p ∧ (∀ q < p, pageIsFree s q = false) ∧
      addr = p * pageSize ∧ s' = s.grant p := by
  obtain ⟨p, hp, hfree, hmin, heq⟩ | ⟨_, heq⟩ := pmmAlloc_cases s
  · rw [h, Prod.mk.injEq] at heq
    exact ⟨p, hp, hfree, hmin, heq.1, heq.2⟩
  · rw [h, Prod.mk.injEq] at heq
    exact absurd heq.1 h0

/-- `pmm_free` ignores the address, drops one reference or releases the page. -/
theorem pmmFree_cases (s : Pmm) (addr : Nat) :
    ((addr / pageSize ≥ pagesMax ∨ pageIsFree s (addr / pageSize)) ∧ pmmFree s addr = s) ∨
    (addr / pageSize < pagesMax ∧ pageIsFree s (addr / pageSize) = false ∧
      ((1 < s.pageRefs (addr / pageSize) ∧
          pmmFree s addr = s.setRefs (addr / pageSize) (s.pageRefs (addr / pageSize) - 1)) ∨
        (s.pageRefs (addr / pageSize) ≤ 1 ∧ pmmFree s addr = s.release (addr / pageSize)))) := by
  unfold pmmFree
  by_cases hskip : addr / pageSize ≥ pagesMax ∨ pageIsFree s (addr / pageSize) = true
  · exact .inl ⟨hskip, if_pos hskip⟩
  · rw [not_or, Nat.not_le, Bool.not_eq_true] at hskip
    refine .inr ⟨hskip.1, hskip.2, ?_⟩
    have hno : ¬(addr / pageSize ≥ pagesMax ∨ pageIsFree s (addr / pageSize) = true) := by
      rw [not_or, Nat.not_le, Bool.not_eq_true]; exact hskip
    by_cases hmany : s.pageRefs (addr / pageSize) > 1
    · exact .inl ⟨hmany, by simp [hno, hmany]⟩
    · exact .inr ⟨by omega, by simp [hno, hmany]⟩

/-- `pmm_addref` raises the count by one, or leaves the state alone. -/
theorem pmmAddref_cases (s : Pmm) (addr : Nat) :
    (addr / pageSize < pagesMax ∧ s.pageRefs (addr / pageSize) < 255 ∧
      pmmAddref s addr = s.setRefs (addr / pageSize) (s.pageRefs (addr / pageSize) + 1)) ∨
    ((pagesMax ≤ addr / pageSize ∨ 255 ≤ s.pageRefs (addr / pageSize)) ∧ pmmAddref s addr = s) := by
  by_cases h : addr / pageSize < pagesMax ∧ s.pageRefs (addr / pageSize) < 255
  · exact .inl ⟨h.1, h.2, if_pos h⟩
  · exact .inr ⟨by omega, if_neg h⟩

end AliOS
