import AliOS.Paging.Boot
import AliOS.Uvm

/-!
# AliOS.Uvm.Build

`uvm_create` and `uvm_map` while the identity map is in place: which frame they
take and which words they store.  Both functions are used on frames below
128 MB only, so their loops are `IdMapped.clearTable` and
`IdMapped.copyKernelMappings`.
-/

namespace AliOS

open Lib Option

section Build

variable {m : Machine} {kt : Nat → Nat} {c : Nat}

/-- The new directory holds the kernel's entries and nothing else. -/
theorem IdMapped.uvmCreate (h : IdMapped m kt c) {d k : Nat} (hlow : Low d) (hd : d ≠ 0)
    (hout : Outside kt c d) (hk : m.pageDir = k * 4096) (hkd : k ≠ d)
    (halloc : m.alloc = (d * 4096, { m with pmm := m.pmm.grant d })) :
    ∃ mem', uvmCreate m = some (d * 4096, { m with mem := mem', pmm := m.pmm.grant d }) ∧
      OnlyFrame d m.mem mem' ∧
      ∀ j < 1024, word mem' d j = if j < 32 ∨ 768 ≤ j ∧ j < 800 then word m.mem k j else 0 := by
  have hid : IdMapped { m with pmm := m.pmm.grant d } kt c := ⟨h.cr3, h.dir, h.tables⟩
  obtain ⟨mem1, hclear, honly1, hzero⟩ := hid.clearTable hlow hout
  obtain ⟨mem2, hcopy, honly2, hwords⟩ :=
    (hid.onlyFrame hout honly1).copyKernelMappings hlow hout hk hkd
  refine ⟨mem2, ?_, honly1.trans honly2, fun j hj => ?_⟩
  · unfold AliOS.uvmCreate
    rw [halloc]
    rw [if_neg (by omega), hclear, bind_some, hcopy]
    rfl
  · rw [hwords j hj]
    rw [word_congr hj (honly1 k hkd), hzero j hj]

/-- A table that exists is used. -/
theorem IdMapped.uvmTable_present (h : IdMapped m kt c) {d i : Nat} (hd : Low d) (hi : i < 1024)
    (hp : hasFlag (word m.mem d i) pagePresent) :
    uvmTable m (d * 4096) i = some (some (word m.mem d i / 4096 * 4096), m) := by
  unfold uvmTable
  rw [h.kload32 hd hi, bind_some, if_pos hp, frameAddr_eq]

/-- A table that does not exist is made: cleared, and entered with all rights. -/
theorem IdMapped.uvmTable_absent (h : IdMapped m kt c) {d i f : Nat} (hd : Low d) (hi : i < 1024)
    (hp : ¬hasFlag (word m.mem d i) pagePresent) (hlow : Low f) (hf : f ≠ 0)
    (hout : Outside kt c f) (halloc : m.alloc = (f * 4096, { m with pmm := m.pmm.grant f })) :
    ∃ mem1, uvmTable m (d * 4096) i = some (some (f * 4096),
        { m with mem := setWord mem1 d i (f * 4096 ||| 7), pmm := m.pmm.grant f }) ∧
      OnlyFrame f m.mem mem1 ∧ ∀ j < 1024, word mem1 f j = 0 := by
  have hid : IdMapped { m with pmm := m.pmm.grant f } kt c := ⟨h.cr3, h.dir, h.tables⟩
  obtain ⟨mem1, hclear, honly, hzero⟩ := hid.clearTable hlow hout
  have hentry : f * 4096 ||| pagePresent ||| pageWrite ||| pageUser = f * 4096 ||| 7 := by
    rw [Nat.or_assoc, Nat.or_assoc]; rfl
  refine ⟨mem1, ?_, honly, hzero⟩
  unfold uvmTable
  rw [h.kload32 hd hi, bind_some, if_neg hp, halloc]
  rw [if_neg (by omega), hclear, bind_some, (hid.onlyFrame hout honly).kstore32 hd hi, hentry]
  rfl

/-- With the table at hand `uvm_map` stores one word. -/
theorem IdMapped.uvmMap {d t virt : Nat} {m₁ : Machine} (h : IdMapped m₁ kt c)
    (htab : uvmTable m (d * 4096) (virt / 2 ^ 22) = some (some (t * 4096), m₁)) (ht : Low t)
    (phys flags : Nat) :
    uvmMap m (d * 4096) virt phys flags =
      some (0, { m₁ with
        mem := setWord m₁.mem t (virt / 2 ^ 12 % 1024) (frameAddr phys ||| (flags ||| pagePresent))
          }) := by
  unfold AliOS.uvmMap
  rw [htab, bind_some]
  dsimp only
  rw [h.kstore32 ht (by omega)]
  rfl

end Build

/-! ## what the allocator sees -/

section

variable {m m' : Machine}

theorem kstore32_pmm {v w : Nat} (h : kstore32 m v w = some m') : m'.pmm = m.pmm := by
  obtain ⟨a, -, rfl⟩ := map_eq_some_iff.mp h
  rfl

/-- A loop of steps that leave the allocator alone. -/
theorem forRangeM_pmm {f : Nat → Machine → Option Machine} {lo n : Nat}
    (hf : ∀ i m m', f i m = some m' → m'.pmm = m.pmm)
    (h : forRangeM f lo n m = some m') : m'.pmm = m.pmm :=
  forRangeM_induct (fun _ t => t.pmm = m.pmm) h rfl fun i t t' _ _ ht hstep =>
    (hf i t t' hstep).trans ht

theorem clearTable_pmm {pt : Nat} (h : clearTable m pt = some m') : m'.pmm = m.pmm :=
  forRangeM_pmm (fun _ _ _ => kstore32_pmm) h

theorem pagingCopyKernelMappings_pmm {dst : Nat} (h : pagingCopyKernelMappings m dst = some m') :
    m'.pmm = m.pmm := by
  obtain ⟨m₁, h1, h2⟩ := bind_eq_some_iff.mp h
  exact (forRangeM_pmm (fun _ _ _ => kstore32_pmm) h2).trans
    (forRangeM_pmm (fun _ _ _ => kstore32_pmm) h1)

theorem uvmCreate_pmm {pd : Nat} (h : uvmCreate m = some (pd, m')) : m'.pmm = m.alloc.2.pmm := by
  unfold uvmCreate at h
  dsimp only at h
  split_ifs at h
  · obtain ⟨-, rfl⟩ := Prod.mk.inj (some.inj h)
    rfl
  · obtain ⟨m₁, h1, h⟩ := bind_eq_some_iff.mp h
    obtain ⟨m₂, h2, heq⟩ := map_eq_some_iff.mp h
    obtain ⟨-, rfl⟩ := Prod.mk.inj heq
    exact (pagingCopyKernelMappings_pmm h2).trans (clearTable_pmm h1)

/-- The table of `uvm_map` costs at most one frame. -/
theorem uvmTable_pmm {pd i : Nat} {r : Option Nat} (h : uvmTable m pd i = some (r, m')) :
    m'.pmm = m.pmm ∨ m'.pmm = m.alloc.2.pmm := by
  obtain ⟨pde, -, h⟩ := bind_eq_some_iff.mp h
  dsimp only at h
  split_ifs at h with hp h0
  · obtain ⟨-, rfl⟩ := Prod.mk.inj (some.inj h)
    exact .inl rfl
  · obtain ⟨-, rfl⟩ := Prod.mk.inj (some.inj h)
    exact .inr rfl
  · obtain ⟨m₁, h1, h⟩ := bind_eq_some_iff.mp h
    obtain ⟨m₂, h2, heq⟩ := map_eq_some_iff.mp h
    obtain ⟨-, rfl⟩ := Prod.mk.inj heq
    exact .inr ((kstore32_pmm h2).trans (clearTable_pmm h1))

theorem uvmMap_pmm {pd virt phys flags : Nat} {r : Int}
    (h : uvmMap m pd virt phys flags = some (r, m')) :
    m'.pmm = m.pmm ∨ m'.pmm = m.alloc.2.pmm := by
  obtain ⟨⟨t, m₁⟩, h1, h⟩ := bind_eq_some_iff.mp h
  cases t with
  | none =>
    obtain ⟨-, rfl⟩ := Prod.mk.inj (some.inj h)
    exact uvmTable_pmm h1
  | some pt =>
    obtain ⟨m₂, h2, heq⟩ := map_eq_some_iff.mp h
    obtain ⟨-, rfl⟩ := Prod.mk.inj heq
    rw [kstore32_pmm h2]
    exact uvmTable_pmm h1

/-- From `s` to `s'` no frame is freed, and the free counter stays right. -/
structure Takes (s s' : Pmm) : Prop where
  free : ∀ f, pageIsFree s' f = true → pageIsFree s f = true
  counted : Counted s → Counted s'

theorem Takes.refl (s : Pmm) : Takes s s := ⟨fun _ h => h, id⟩

theorem Takes.trans {s t u : Pmm} (h : Takes s t) (h' : Takes t u) : Takes s u :=
  ⟨fun f hf => h.free f (h'.free f hf), fun hc => h'.counted (h.counted hc)⟩

theorem takes_alloc (m : Machine) : Takes m.pmm m.alloc.2.pmm := by
  show Takes m.pmm (pmmAlloc m.pmm).2
  obtain ⟨f, hf, hfree, -, heq⟩ | ⟨-, heq⟩ := pmmAlloc_cases m.pmm
  · rw [heq]
    refine ⟨fun g hg => ?_, fun hc => hc.grant hf hfree⟩
    rw [pageIsFree_grant] at hg
    exact (Bool.and_eq_true _ _ ▸ hg).1
  · rw [heq]
    exact .refl _

theorem uvmMap_takes {m m' : Machine} {pd virt phys flags : Nat} {r : Int}
    (h : uvmMap m pd virt phys flags = some (r, m')) : Takes m.pmm m'.pmm := by
  obtain hpmm | hpmm := uvmMap_pmm h
  · rw [hpmm]
    exact .refl _
  · rw [hpmm]
    exact takes_alloc m

end

/-- Out of memory. -/
theorem Machine.alloc_none {m : Machine} (h : freeBelow pagesMax m.pmm = 0) : m.alloc = (0, m) := by
  obtain ⟨f, hf, hfree, -, -⟩ | ⟨-, heq⟩ := pmmAlloc_cases m.pmm
  · have hcount := freeBelow_grant hf hfree
    omega
  · unfold Machine.alloc
    rw [heq]

/-- `uvm_map` without a frame for the table. -/
theorem IdMapped.uvmMap_none {m : Machine} {kt : Nat → Nat} {c d virt : Nat} (h : IdMapped m kt c)
    (hd : Low d) (hi : virt / 2 ^ 22 < 1024)
    (hp : ¬hasFlag (word m.mem d (virt / 2 ^ 22)) pagePresent)
    (hnone : freeBelow pagesMax m.pmm = 0) (phys flags : Nat) :
    AliOS.uvmMap m (d * 4096) virt phys flags = some (-1, m) := by
  have htab : AliOS.uvmTable m (d * 4096) (virt / 2 ^ 22) = some (none, m) := by
    unfold AliOS.uvmTable
    rw [h.kload32 hd hi, bind_some, if_neg hp, Machine.alloc_none hnone]
    rfl
  unfold AliOS.uvmMap
  rw [htab]
  rfl

/-- No frame beyond the identity map is free. -/
def OnlyLow (s : Pmm) : Prop := ∀ f < pagesMax, pageIsFree s f = true → Low f

theorem freeBelow_pagesMax {s : Pmm} (h : OnlyLow s) :
    freeBelow pagesMax s = freeBelow 32768 s := by
  have hset : (Finset.range pagesMax).filter (fun f => pageIsFree s f = true) =
      (Finset.range 32768).filter fun f => pageIsFree s f = true := by
    ext f
    rw [Finset.mem_filter, Finset.mem_filter, Finset.mem_range, Finset.mem_range]
    refine and_congr_left fun hf => ⟨fun hlt => h f hlt hf, fun hlt => ?_⟩
    unfold pagesMax
    omega
  unfold freeBelow
  rw [hset]

/-! ## reference counts of free frames -/

/-- A free frame has no references. -/
def Tidy (s : Pmm) : Prop := ∀ p < pagesMax, pageIsFree s p = true → s.pageRefs p = 0

theorem Tidy.pageRefs_pmmFree {s : Pmm} (h : Tidy s) (f : Nat) {p : Nat} (hp : p < pagesMax) :
    (pmmFree s (f * 4096)).pageRefs p = s.pageRefs p - if f = p then 1 else 0 := by
  have hpage : f * 4096 / pageSize = f := mul_pageSize_div f
  obtain ⟨hskip, heq⟩ | ⟨-, -, ⟨-, heq⟩ | ⟨hlast, heq⟩⟩ := pmmFree_cases s (f * 4096)
  · rw [heq]
    split
    · rename_i hfp
      subst hfp
      rw [hpage] at hskip
      rw [h f hp (hskip.resolve_left (by omega))]
    · rfl
  · rw [heq, pageRefs_setRefs, hpage]
    by_cases hfp : f = p
    · rw [if_pos hfp.symm, if_pos hfp, hfp]
    · rw [if_neg (Ne.symm hfp), if_neg hfp, Nat.sub_zero]
  · rw [hpage] at hlast
    rw [heq, pageRefs_release, hpage]
    by_cases hfp : f = p
    · rw [if_pos hfp.symm, if_pos hfp, ← hfp]
      omega
    · rw [if_neg (Ne.symm hfp), if_neg hfp, Nat.sub_zero]

theorem Tidy.pmmFree {s : Pmm} (h : Tidy s) (addr : Nat) : Tidy (pmmFree s addr) :=
  fun p hp hfree => by
  obtain ⟨-, heq⟩ | ⟨-, hused, ⟨-, heq⟩ | ⟨-, heq⟩⟩ := pmmFree_cases s addr
  · rw [heq] at hfree ⊢
    exact h p hp hfree
  · rw [heq, pageIsFree_setRefs] at hfree
    rw [heq, pageRefs_setRefs, if_neg]
    · exact h p hp hfree
    · rintro rfl
      rw [hused] at hfree
      cases hfree
  · rw [heq, pageIsFree_release] at hfree
    rw [heq, pageRefs_release]
    by_cases hpa : p = addr / pageSize
    · rw [if_pos hpa]
    · rw [if_neg hpa]
      rw [decide_eq_false hpa, Bool.or_false] at hfree
      exact h p hp hfree

end AliOS
