import AliOS.Paging.Identity
import AliOS.Pmm.Invariant

/-!
# AliOS.Paging.Boot

What `paging_init` builds: with 64 free frames in the first 4 MB, the part of
memory the boot page directory maps, it returns with the identity map and the
kernel's high map in place and nothing else in `page_dir`.
-/

namespace AliOS

open Lib Function

/-! ## allocating a frame -/

/-- A successful allocation. -/
theorem Machine.alloc_spec {m : Machine} (h : m.alloc.1 ≠ 0) :
    ∃ f < pagesMax, f ≠ 0 ∧ pageIsFree m.pmm f ∧
      m.alloc = (f * 4096, { m with pmm := m.pmm.grant f }) := by
  obtain ⟨f, hf, hfree, -, haddr, hpmm⟩ :=
    pmmAlloc_ne_zero (Prod.mk.eta (p := pmmAlloc m.pmm)).symm h
  refine ⟨f, hf, ?_, hfree, ?_⟩
  · rintro rfl
    exact h haddr
  · unfold Machine.alloc
    rw [haddr, hpmm]
    rfl

/-- An allocation succeeds below `n` while a frame below `n` is free. -/
theorem Machine.alloc_below {m : Machine} {n : Nat} (hn : n ≤ pagesMax)
    (h0 : pageIsFree m.pmm 0 = false) (h : 0 < freeBelow n m.pmm) :
    ∃ f < n, f ≠ 0 ∧ pageIsFree m.pmm f ∧
      m.alloc = (f * 4096, { m with pmm := m.pmm.grant f }) := by
  obtain ⟨f, hf, hfree, heq⟩ := pmmAlloc_of_freeBelow hn h
  refine ⟨f, hf, ?_, hfree, ?_⟩
  · rintro rfl
    rw [h0] at hfree
    cases hfree
  · unfold Machine.alloc
    rw [heq]
    rfl

/-! ## the kernel's maps -/

/-- The kernel's maps as `paging_init` leaves them: `page_dir` (frame `k`) and
the directory in CR3 (frame `c`) start with the identity tables, and all these
frames are in use.  An address of a free frame beyond the identity map has no
translation: such a frame kills the kernel when it is touched. -/
structure KernelMaps (m : Machine) (kt : Nat → Nat) (c k : Nat) : Prop where
  pageDir : m.pageDir = k * 4096
  mapped : IdMapped m kt c
  kernelDir : IdDir m.mem kt k
  usedDir : pageIsFree m.pmm c = false ∧ pageIsFree m.pmm k = false
  usedTables : ∀ i < identityTables, Low (kt i) ∧ pageIsFree m.pmm (kt i) = false
  usedOther : ∀ i < 1024, hasFlag (word m.mem c i) pagePresent = true →
    pageIsFree m.pmm (word m.mem c i / 4096) = false
  high : ∀ f < pagesMax, ¬Low f → pageIsFree m.pmm f = true → walk m.mem m.cr3 (f * 4096) = none

section Boot

variable {m₀ m : Machine} {k : Nat} {kt : Nat → Nat}

/-- One table of `paging_init`: the frame `f` is filled and entered. -/
theorem pagingInitTable_spec {f base i : Nat} (hk : m.pageDir = k * 4096) (hf : f < 1024)
    (hf0 : f ≠ 0) (hfk : f ≠ k) (_hi : i < 32) (hb : base + i < 1024)
    (halloc : m.alloc = (f * 4096, { m with pmm := m.pmm.grant f })) :
    ∃ mem', pagingInitTable base i (false, m) =
        some (false, { m with mem := mem', pmm := m.pmm.grant f }) ∧
      (∀ j < 1024, Points (word mem' f j) (1024 * i + j)) ∧
      (∀ j < 1024, word mem' k j = if j = base + i then f * 4096 ||| 3 else word m.mem k j) ∧
      ∀ g, g ≠ f → g ≠ k → page mem' g = page m.mem g := by
  have hentry : ∀ j < 1024, i <<< 22 ||| j <<< 12 ||| pagePresent ||| pageWrite =
      (1024 * i + j) * 4096 ||| 3 := by
    intro j hj
    rw [shl_or_shl i hj, Nat.or_assoc]
    rfl
  obtain ⟨mem1, hrun, honly, hwords⟩ := storeLoop (m := { m with pmm := m.pmm.grant f }) (f := f)
    (g := fun j t => bootStore32 t (f * 4096 + 4 * j)
      ((i <<< 22 ||| j <<< 12) ||| pagePresent ||| pageWrite))
    (fun j hj => by rw [hentry j hj]; exact mul_or_lt (by omega) (by decide))
    (fun j hj mem' _ => if_pos (by omega)) (show 0 + 1024 ≤ 1024 by decide)
  refine ⟨setWord mem1 k (base + i) (f * 4096 ||| 3), ?_, fun j hj => ?_, fun j hj => ?_,
    fun g hgf hgk => ?_⟩
  · have hor : f * 4096 ||| pagePresent ||| pageWrite = f * 4096 ||| 3 := by rw [Nat.or_assoc]; rfl
    unfold pagingInitTable
    simp only [halloc, Bool.false_eq_true, if_false]
    rw [if_neg (by omega), hrun, Option.map_some, hor]
    rw [hk]
    rfl
  · rw [word_congr hj (page_setWord hb hfk), hwords j hj, if_pos (by omega), hentry j hj]
    exact points_mul_or (by decide) (by decide) (by decide)
  · rw [word_setWord hb hj (mul_or_lt (by omega) (by decide)),
      word_congr hj (honly k (Ne.symm hfk))]
    simp
  · rw [page_setWord hb hgk, honly g hgf]

/-- While `paging_init` runs: the entries in `D` are made, the others of
`page_dir` are zero, and `n` more frames are free. -/
structure Booting (m₀ m : Machine) (k : Nat) (kt : Nat → Nat) (D : Nat → Prop)
    (n : Nat) : Prop where
  regs : m = { m₀ with mem := m.mem, pmm := m.pmm }
  entry : ∀ e < 1024, D e → word m.mem k e = kt e * 4096 ||| 3
  table : ∀ e < 1024, D e → kt e < 1024 ∧ kt e ≠ k ∧ pageIsFree m.pmm (kt e) = false ∧
    ∀ j < 1024, Points (word m.mem (kt e) j) (1024 * (e % 32) + j)
  rest : ∀ e < 1024, ¬D e → word m.mem k e = 0
  used : ∀ g, pageIsFree m₀.pmm g = false →
    pageIsFree m.pmm g = false ∧ m.pmm.pageRefs g = m₀.pmm.pageRefs g
  pages : ∀ g, pageIsFree m₀.pmm g = false → g ≠ k → page m.mem g = page m₀.mem g
  free : n ≤ freeBelow 1024 m.pmm

theorem Booting.next {D E : Nat → Prop} {n base i : Nat} (h : Booting m₀ m k kt D (n + 1))
    (hk : m₀.pageDir = k * 4096) (hused : pageIsFree m₀.pmm k = false)
    (h0 : pageIsFree m₀.pmm 0 = false) (hi : i < 32) (hb : base + i < 1024)
    (hbase : (base + i) % 32 = i) (hD : ∀ e, E e ↔ D e ∨ e = base + i) :
    ∃ m' kt', pagingInitTable base i (false, m) = some (false, m') ∧ Booting m₀ m' k kt' E n := by
  obtain ⟨f, hf, hf0, hfree, halloc⟩ := Machine.alloc_below (n := 1024) (by decide) (h.used 0 h0).1
    (Nat.lt_of_lt_of_le (Nat.succ_pos n) h.free)
  -- `page_dir` and the tables made so far are in use, the frame is not
  have hne : ∀ {g}, pageIsFree m.pmm g = false → g ≠ f := by
    rintro g hg rfl
    rw [hg] at hfree
    cases hfree
  have hkf := hne (h.used k hused).1
  have hdir : m.pageDir = k * 4096 := by rw [h.regs]; exact hk
  obtain ⟨mem', hrun, htab, hdirw, hpages⟩ :=
    pagingInitTable_spec hdir hf hf0 (Ne.symm hkf) hi hb halloc
  refine ⟨_, update kt (base + i) f, hrun, ?_, fun e he hDe => ?_, fun e he hDe => ?_,
    fun e he hDe => ?_, fun g hg => ?_, fun g hg hgk => ?_, ?_⟩
  · rw [h.regs]
  · rw [hdirw e he, update_apply]
    by_cases heq : e = base + i
    · rw [if_pos heq, if_pos heq]
    · rw [if_neg heq, if_neg heq]
      exact h.entry e he (((hD e).mp hDe).resolve_right heq)
  · rw [update_apply]
    by_cases heq : e = base + i
    · rw [if_pos heq, heq, hbase]
      exact ⟨hf, Ne.symm hkf, by simp, htab⟩
    · rw [if_neg heq]
      obtain ⟨hlt, hnk, hin, hwords⟩ := h.table e he (((hD e).mp hDe).resolve_right heq)
      refine ⟨hlt, hnk, by simp [hin], fun j hj => ?_⟩
      rw [word_congr hj (hpages _ (hne hin) hnk)]
      exact hwords j hj
  · rw [hdirw e he, if_neg fun heq => hDe ((hD e).mpr (.inr heq))]
    exact h.rest e he fun hc => hDe ((hD e).mpr (.inl hc))
  · obtain ⟨hin, hrefs⟩ := h.used g hg
    simp [hin, hrefs, hne hin]
  · exact (hpages g (hne (h.used g hg).1) hgk).trans (h.pages g hg hgk)
  · have hcount := freeBelow_grant hf hfree
    have hn := h.free
    dsimp only
    omega

theorem booting_start (hk : m.pageDir = k * 4096) {n : Nat} (hn : n ≤ freeBelow 1024 m.pmm) :
    Booting m (forRange (fun i m => m.setPageDirEntry i 0) 0 1024 m) k kt (fun e => e < 0) n := by
  obtain ⟨mem', hrun, hzero, hpages⟩ := forRange_induct
    (fun i t => ∃ mem', t = { m with mem := mem' } ∧ (∀ e < i, word mem' k e = 0) ∧
      ∀ g ≠ k, page mem' g = page m.mem g)
    (f := fun i m => m.setPageDirEntry i 0) (a := 0) (n := 1024) (s := m)
    ⟨m.mem, rfl, fun e he => absurd he (Nat.not_lt_zero e), fun _ _ => rfl⟩
    (fun i t _ hi ⟨mem', ht, hzero, hpages⟩ => by
      subst ht
      refine ⟨setWord mem' k i 0, ?_, fun e he => ?_, fun g hg => ?_⟩
      · rw [hk]
        rfl
      · rw [word_setWord (by omega) (by omega) (by decide)]
        by_cases heq : e = i
        · rw [if_pos ⟨rfl, heq⟩]
        · rw [if_neg fun hc => heq hc.2, hzero e (by omega)]
      · rw [page_setWord (by omega) hg, hpages g hg])
  rw [hrun]
  exact ⟨rfl, fun e _ he => absurd he (Nat.not_lt_zero e),
    fun e _ he => absurd he (Nat.not_lt_zero e),
    fun e he _ => hzero e (by omega), fun _ hg => ⟨hg, rfl⟩, fun g _ hgk => hpages g hgk, hn⟩

/-- The entries of `page_dir` that `paging_init` fills. -/
def InKernelMap (e : Nat) : Prop := e < 32 ∨ (768 ≤ e ∧ e < 800)

/-- The finished directory, live in CR3. -/
theorem Booting.kernelMaps {n : Nat} (h : Booting m₀ m k kt InKernelMap n)
    (hk : m₀.pageDir = k * 4096) (hused : pageIsFree m₀.pmm k = false) :
    KernelMaps { m with cr3 := m.pageDir } kt k k := by
  have hdir : m.pageDir = k * 4096 := by rw [h.regs]; exact hk
  have hid : IdDir m.mem kt k := by
    intro i hi
    have hi' : i < 32 := hi
    rw [h.entry i (by omega) (.inl hi')]
    exact points_mul_or (by decide) (by decide) (by decide)
  have htables : IdTables m.mem kt := by
    intro i hi j hj
    have hi' : i < 32 := hi
    have hpts := (h.table i (by omega) (.inl hi')).2.2.2 j hj
    rwa [Nat.mod_eq_of_lt hi'] at hpts
  refine ⟨hdir, ⟨hdir, hid, htables⟩, hid, ⟨(h.used k hused).1, (h.used k hused).1⟩, fun i hi => ?_,
    fun i hi hp => ?_, fun f hf hlow _ => ?_⟩
  · have hi' : i < 32 := hi
    obtain ⟨hlt, -, hin, -⟩ := h.table i (by omega) (.inl hi')
    exact ⟨by unfold Low; omega, hin⟩
  · by_cases hD : InKernelMap i
    · rw [h.entry i hi hD, mul_or_div (by decide)]
      exact (h.table i hi hD).2.2.1
    · rw [h.rest i hi hD] at hp
      exact absurd hp (by decide)
  · unfold Low at hlow
    unfold pagesMax at hf
    have hzero := h.rest (f * 4096 / 2 ^ 22) (by omega) (by unfold InKernelMap; omega)
    rw [hdir, walk_eq, hzero, if_neg (by decide)]

/-- **`paging_init`**: with 64 free frames in the first 4 MB it completes, CR3
holds `page_dir`, the kernel's maps are in place and every other frame that was
in use is as it was. -/
theorem pagingInit_spec {n : Nat} (hk : m.pageDir = k * 4096) (hused : pageIsFree m.pmm k = false)
    (h0 : pageIsFree m.pmm 0 = false) (hn : 64 + n ≤ freeBelow 1024 m.pmm) :
    ∃ m' kt, pagingInit m = some (false, m') ∧ KernelMaps m' kt k k ∧
      n ≤ freeBelow 1024 m'.pmm ∧
      ∀ g, pageIsFree m.pmm g = false →
        (pageIsFree m'.pmm g = false ∧ m'.pmm.pageRefs g = m.pmm.pageRefs g) ∧
        (g ≠ k → page m'.mem g = page m.mem g) := by
  obtain ⟨st₁, hrun1, m₁, kt₁, rfl, h1⟩ := forRangeM_total
    (fun i st => ∃ t kt, st = (false, t) ∧ Booting m t k kt (fun e => e < i) (64 + n - i))
    (f := pagingInitTable 0) (a := 0) (n := identityTables)
    ⟨_, fun _ => 0, rfl, booting_start hk hn⟩
    (fun i st _ hi ⟨t, kt, hst, h⟩ => by
      have hi' : i < 32 := by simpa [identityTables] using hi
      subst hst
      rw [show 64 + n - i = 64 + n - (i + 1) + 1 by omega] at h
      obtain ⟨m', kt', hrun, h'⟩ := h.next hk hused h0 hi' (show 0 + i < 1024 by omega) (by omega)
        (E := fun e => e < i + 1) (fun e => by omega)
      exact ⟨_, hrun, m', kt', rfl, h'⟩)
  obtain ⟨st₂, hrun2, m₂, kt₂, rfl, h2⟩ := forRangeM_total
    (fun i st => ∃ t kt, st = (false, t) ∧
      Booting m t k kt (fun e => e < 32 ∨ (768 ≤ e ∧ e < 768 + i)) (32 + n - i))
    (f := pagingInitTable kernelHighIndex) (a := 0) (n := identityTables)
    ⟨m₁, kt₁, rfl, by
      have hD : (fun e => e < 0 + identityTables) = fun e => e < 32 ∨ (768 ≤ e ∧ e < 768 + 0) := by
        funext e
        simp only [identityTables, eq_iff_iff]
        omega
      rw [hD] at h1
      exact ⟨h1.regs, h1.entry, h1.table, h1.rest, h1.used, h1.pages, by
        have := h1.free
        unfold identityTables at this
        omega⟩⟩
    (fun i st _ hi ⟨t, kt, hst, h⟩ => by
      have hi' : i < 32 := by simpa [identityTables] using hi
      subst hst
      rw [show 32 + n - i = 32 + n - (i + 1) + 1 by omega] at h
      obtain ⟨m', kt', hrun, h'⟩ := h.next hk hused h0 hi' (show kernelHighIndex + i < 1024 by
          unfold kernelHighIndex; omega) (by unfold kernelHighIndex; omega)
        (E := fun e => e < 32 ∨ (768 ≤ e ∧ e < 768 + (i + 1)))
        (fun e => by unfold kernelHighIndex; omega)
      exact ⟨_, hrun, m', kt', rfl, h'⟩)
  refine ⟨{ m₂ with cr3 := m₂.pageDir }, kt₂, ?_, h2.kernelMaps hk hused, ?_, fun g hg =>
    ⟨h2.used g hg, h2.pages g hg⟩⟩
  · unfold pagingInit
    dsimp only
    rw [hrun1, Option.bind_some, hrun2]
    rfl
  · have hfree := h2.free
    unfold identityTables at hfree
    dsimp only
    omega

end Boot

/-! ## a concrete machine -/

/-- The small machine in front of `paging_init`; `page_dir` lies in the kernel
image. -/
def smallMachine : Machine where
  mem := fun _ => 0
  pmm := pmmInit smallImage smallMap Pmm.bss
  cr0 := 0x80000011
  cr3 := 0x11000
  pageDir := 0x10000

/-- It boots, with frames to spare. -/
theorem smallMachine_boots : ∃ m kt, pagingInit smallMachine = some (false, m) ∧
    KernelMaps m kt 16 16 ∧ 3 ≤ freeBelow 1024 m.pmm ∧
    ∀ p < 256, pageIsFree m.pmm p = false ∧ m.pmm.pageRefs p ≤ 1 := by
  have hpmm : smallMachine.pmm = pmmInit smallImage smallMap Pmm.bss := by
    dsimp only [smallMachine]
  have hres : ∀ p < 256, pageIsFree smallMachine.pmm p = false ∧ smallMachine.pmm.pageRefs p = 0 :=
    fun p hp => by
      rw [hpmm]
      exact (valid_pmmInit smallImage smallMap).reserved p (by unfold pagesMax; omega) (.inl hp)
  have hfree : 64 + 3 ≤ freeBelow 1024 smallMachine.pmm := by
    have hstart : (⟨0x100000, 0x1F00000, 1⟩ : E820Entry).start / pageSize = 256 := by decide
    have hstop : (⟨0x100000, 0x1F00000, 1⟩ : E820Entry).stop / pageSize = 8192 := by decide
    refine sub_le_freeBelow (a := 256) (b := 323) (by decide) fun p hlo hhi => ?_
    rw [hpmm]
    refine (pageIsFree_pmmInit _ _ _ (by unfold pagesMax; omega)).mpr
      ⟨⟨⟨0x100000, 0x1F00000, 1⟩, by simp [smallMap], rfl, p, by omega, by omega, by omega⟩, ?_⟩
    rintro (h | ⟨-, h⟩)
    · omega
    · have hend : smallImage.physEnd = 0x28000 := by decide
      unfold pageSize at h
      omega
  obtain ⟨m, kt, hrun, hmaps, hn, hkeep⟩ := pagingInit_spec (m := smallMachine) (k := 16) rfl
    (hres 16 (by decide)).1 (hres 0 (by decide)).1 hfree
  refine ⟨m, kt, hrun, hmaps, hn, fun p hp => ?_⟩
  obtain ⟨hused, hrefs⟩ := (hkeep p (hres p hp).1).1
  exact ⟨hused, by rw [hrefs, (hres p hp).2]; decide⟩

end AliOS
