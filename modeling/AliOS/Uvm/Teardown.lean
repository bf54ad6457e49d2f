import Mathlib.Algebra.BigOperators.Intervals
import Mathlib.Algebra.Order.BigOperators.Group.Finset
import AliOS.Uvm.Build

/-!
# AliOS.Uvm.Teardown

`uvm_free` against `uvm_create`.  The directory that `uvm_create` returns
starts with 32 entries copied from the kernel's directory; `uvm_clone` leaves
them alone, `uvm_free` does not: it walks entries 0 to 767, so it frees every
frame of the identity map, the kernel image included, and the 32 page tables
behind it.

`pageWeight` measures what the allocator still owes for a page.  Making an
address space and mapping pages never changes it for a page that was in use;
tearing the space down lowers it for every used page below 128 MB.
-/

namespace AliOS

open Lib Option Finset

variable {f i p d : Nat} {m₀ m m' : Machine}

/-! ## the weight of a page -/

/-- How many times a page must be freed until it is free. -/
def pageWeight (s : Pmm) (p : Nat) : Nat := if pageIsFree s p then 0 else max 1 (s.pageRefs p)

theorem pageWeight_pmmFree (s : Pmm) (addr p : Nat) :
    pageWeight (pmmFree s addr) p =
      if p = addr / pageSize ∧ p < pagesMax then pageWeight s p - 1 else pageWeight s p := by
  unfold pageWeight
  obtain ⟨hskip, heq⟩ | ⟨hp, hused, ⟨hmany, heq⟩ | ⟨hlast, heq⟩⟩ := pmmFree_cases s addr
  · rw [heq]
    by_cases hc : p = addr / pageSize ∧ p < pagesMax
    · have hfree : pageIsFree s p := by
        rw [hc.1]
        exact hskip.resolve_left (by have := hc.2; rw [hc.1] at this; omega)
      simp [hfree]
    · rw [if_neg hc]
  · rw [heq, pageIsFree_setRefs, pageRefs_setRefs]
    by_cases hc : p = addr / pageSize
    · subst hc
      simp only [hused, hp, and_self, if_true, Bool.false_eq_true, if_false]
      omega
    · simp [hc]
  · rw [heq, pageIsFree_release, pageRefs_release]
    by_cases hc : p = addr / pageSize
    · subst hc
      simp only [hused, hp, and_self, if_true, Bool.false_eq_true, if_false, decide_true,
        Bool.or_true]
      omega
    · simp [hc]

/-- Page `p` was freed at least once on the way from `m` to `t`. -/
def Lowered (m t : Machine) (p : Nat) : Prop :=
  pageWeight t.pmm p ≤ pageWeight m.pmm p - 1

/-! ## how often `uvm_free` frees a frame -/

/-- The entries among the first `n` of table `t` that lead to frame `p`. -/
def entryFrees (mem : Bytes) (t n p : Nat) : Nat :=
  ((Finset.range n).filter fun j => hasFlag (word mem t j) pagePresent = true ∧
    word mem t j / 4096 = p).card

/-- Entry `i` of directory `d`: its table and what it leads to. -/
def tableFrees (mem : Bytes) (d i p : Nat) : Nat :=
  if hasFlag (word mem d i) pagePresent then
    entryFrees mem (word mem d i / 4096) 1024 p + if word mem d i / 4096 = p then 1 else 0
  else 0

/-- The first `n` entries of directory `d`. -/
def spaceFrees (mem : Bytes) (d n p : Nat) : Nat := ∑ i ∈ Finset.range n, tableFrees mem d i p

theorem entryFrees_succ (mem : Bytes) (t n p : Nat) :
    entryFrees mem t (n + 1) p = entryFrees mem t n p +
    if hasFlag (word mem t n) pagePresent ∧ word mem t n / 4096 = p then 1 else 0 := by
  unfold entryFrees
  rw [range_add_one, filter_insert]
  split
  · exact card_insert_of_notMem (by simp)
  · rfl

theorem spaceFrees_succ (mem : Bytes) (d n p : Nat) :
    spaceFrees mem d (n + 1) p = spaceFrees mem d n p + tableFrees mem d n p := sum_range_succ _ n

/-- Freeing, with the counts. -/
structure Released (m : Machine) (count : Nat → Nat) (t : Machine) : Prop where
  same : t = { m with pmm := t.pmm }
  weight : ∀ p < pagesMax, pageWeight t.pmm p = pageWeight m.pmm p - count p
  refs : Tidy m.pmm → Tidy t.pmm ∧ ∀ p < pagesMax, t.pmm.pageRefs p = m.pmm.pageRefs p - count p

section

variable {m t : Machine} {kt : Nat → Nat} {c d : Nat}

theorem Released.free {count : Nat → Nat} (h : Released m count t) (f : Nat) :
    Released m (fun p => count p + if f = p then 1 else 0) (t.free (f * 4096)) where
  same := by
    rw [h.same]
    rfl
  weight := fun p hp => by
    have hw := pageWeight_pmmFree t.pmm (f * 4096) p
    rw [show f * 4096 / pageSize = f from mul_pageSize_div f, h.weight p hp] at hw
    rw [← Nat.sub_sub]
    show pageWeight (pmmFree t.pmm (f * 4096)) p = _
    rw [hw]
    by_cases hpf : p = f
    · rw [if_pos ⟨hpf, hp⟩, if_pos hpf.symm]
    · rw [if_neg fun hc => hpf hc.1, if_neg (Ne.symm hpf), Nat.sub_zero]
  refs := fun hm => by
    obtain ⟨htidy, hrefs⟩ := h.refs hm
    refine ⟨htidy.pmmFree _, fun p hp => ?_⟩
    show (pmmFree t.pmm (f * 4096)).pageRefs p = _
    rw [htidy.pageRefs_pmmFree f hp, hrefs p hp, Nat.sub_sub]

theorem Released.mem_eq {count : Nat → Nat} (h : Released m count t) : t.mem = m.mem := by
  rw [h.same]

theorem Released.idMapped {count : Nat → Nat} (h : Released m count t) (hid : IdMapped m kt c) :
    IdMapped t kt c := by
  rw [h.same]
  exact ⟨hid.cr3, hid.dir, hid.tables⟩

/-- One entry of a table. -/
theorem Released.uvmFreeEntry {count : Nat → Nat} {n : Nat} (hid : IdMapped m kt c) (hf : Low f)
    (hn : n < 1024) (h : Released m (fun p => count p + entryFrees m.mem f n p) t) :
    ∃ t', AliOS.uvmFreeEntry (f * 4096) n t = some t' ∧
      Released m (fun p => count p + entryFrees m.mem f (n + 1) p) t' := by
  unfold AliOS.uvmFreeEntry
  rw [(h.idMapped hid).kload32 hf hn, map_some, h.mem_eq]
  refine ⟨_, rfl, ?_⟩
  by_cases hp : hasFlag (word m.mem f n) pagePresent = true
  · have hcount : (fun p => count p + entryFrees m.mem f (n + 1) p) =
        fun p => count p + entryFrees m.mem f n p + if word m.mem f n / 4096 = p then 1 else 0 := by
      simp only [entryFrees_succ, hp, true_and, Nat.add_assoc]
    rw [if_pos hp, frameAddr_eq, hcount]
    exact h.free (word m.mem f n / 4096)
  · have hcount : (fun p => count p + entryFrees m.mem f (n + 1) p) = fun p =>
        count p + entryFrees m.mem f n p := by
      funext p
      rw [entryFrees_succ, if_neg fun hc => hp hc.1, Nat.add_zero]
    rw [if_neg hp, hcount]
    exact h

/-- One entry of the directory. -/
theorem Released.uvmFreeTable {n : Nat} (hid : IdMapped m kt c) (hd : Low d) (hn : n < 768)
    (htab : hasFlag (word m.mem d n) pagePresent → Low (word m.mem d n / 4096))
    (h : Released m (spaceFrees m.mem d n) t) :
    ∃ t', AliOS.uvmFreeTable (d * 4096) n t = some t' ∧
      Released m (spaceFrees m.mem d (n + 1)) t' := by
  unfold AliOS.uvmFreeTable
  rw [(h.idMapped hid).kload32 hd (show n < 1024 by omega), bind_some, h.mem_eq]
  by_cases hp : hasFlag (word m.mem d n) pagePresent = true
  · obtain ⟨u, hloop, hu⟩ := forRangeM_total
      (fun j u => Released m (fun p => spaceFrees m.mem d n p + entryFrees m.mem
        (word m.mem d n / 4096) j p) u)
      (f := AliOS.uvmFreeEntry (word m.mem d n / 4096 * 4096)) (a := 0) (n := 1024) (s := t)
      (by simpa [entryFrees] using h) fun j u _ hj hu => hu.uvmFreeEntry hid (htab hp) (by omega)
    rw [if_pos hp, frameAddr_eq, hloop, map_some]
    refine ⟨_, rfl, ?_⟩
    have hfree := hu.free (word m.mem d n / 4096)
    have hcount : spaceFrees m.mem d (n + 1) = fun p => spaceFrees m.mem d n p +
        entryFrees m.mem (word m.mem d n / 4096) (0 + 1024) p + if word m.mem d n / 4096 = p
          then 1 else 0 := by
      funext p
      rw [spaceFrees_succ, tableFrees, if_pos hp, Nat.add_assoc]
    rw [hcount]
    exact hfree
  · rw [if_neg hp]
    refine ⟨t, rfl, ?_⟩
    have hcount : spaceFrees m.mem d (n + 1) = spaceFrees m.mem d n := by
      funext p
      rw [spaceFrees_succ, tableFrees, if_neg hp, Nat.add_zero]
    rw [hcount]
    exact h

/-- **`uvm_free` counted**: each frame loses one reference for each entry that leads to it. -/
theorem uvmFree_released (hid : IdMapped m kt c) (hd : Low d)
    (htab : ∀ i < 768, hasFlag (word m.mem d i) pagePresent → Low (word m.mem d i / 4096)) :
    ∃ t, uvmFree m (d * 4096) = some t ∧
      Released m (fun p => spaceFrees m.mem d 768 p + if d = p then 1 else 0) t := by
  obtain ⟨u, hloop, hu⟩ := forRangeM_total (fun i u => Released m (spaceFrees m.mem d i) u)
    (f := uvmFreeTable (d * 4096)) (a := 0) (n := 768) (s := m)
    ⟨rfl, fun p _ => by simp [spaceFrees], fun hm => ⟨hm, fun p _ => by simp [spaceFrees]⟩⟩
    fun i u _ hi hu => hu.uvmFreeTable hid hd (by omega) (htab i (by omega))
  unfold uvmFree
  rw [hloop, map_some]
  exact ⟨_, rfl, hu.free d⟩

/-! ## the frames of a space -/

/-- An identity table leads to each frame of its 4 MB once. -/
theorem entryFrees_identity (h : IdTables m.mem kt) (hi : i < identityTables) (p : Nat) :
    entryFrees m.mem (kt i) 1024 p = if i = p / 1024 then 1 else 0 := by
  have hset : (Finset.range 1024).filter
      (fun j => hasFlag (word m.mem (kt i) j) pagePresent = true ∧ word m.mem (kt i) j / 4096 = p) =
      if i = p / 1024 then {p % 1024} else ∅ := by
    ext j
    rw [mem_filter, mem_range]
    have hmem : (j < 1024 ∧ hasFlag (word m.mem (kt i) j) pagePresent = true ∧
        word m.mem (kt i) j / 4096 = p) ↔
        j < 1024 ∧ 1024 * i + j = p :=
      and_congr_right fun hj => by
        rw [(h i hi j hj).frame]
        exact and_iff_right (h i hi j hj).present
    rw [hmem]
    split
    · rw [mem_singleton]
      omega
    · simp only [notMem_empty, iff_false]
      omega
  unfold entryFrees
  rw [hset]
  split <;> rfl

/-- The identity tables free every frame below 128 MB, and themselves. -/
theorem tableFrees_identity (h : IdTables m.mem kt) (hdir : IdDir m.mem kt d)
    (hi : i < identityTables) (p : Nat) :
    tableFrees m.mem d i p = (if i = p / 1024 then 1 else 0) + if kt i = p then 1 else 0 := by
  unfold tableFrees
  rw [if_pos (hdir i hi).present, (hdir i hi).frame, entryFrees_identity h hi]

/-- Every frame below 128 MB is freed. -/
theorem one_le_spaceFrees (h : IdTables m.mem kt) (hdir : IdDir m.mem kt d) (hp : Low p) :
    1 ≤ spaceFrees m.mem d 768 p := by
  have hi : p / 1024 < 32 := by
    unfold Low at hp
    omega
  have hone := tableFrees_identity h hdir hi p
  rw [if_pos rfl] at hone
  calc 1 ≤ tableFrees m.mem d (p / 1024) p := by omega
    _ ≤ spaceFrees m.mem d 768 p :=
      single_le_sum (f := fun i => tableFrees m.mem d i p) (fun _ _ => Nat.zero_le _)
        (mem_range.mpr (by omega))

/-- **Teardown**: freeing a directory that starts with the identity tables
lowers every page below 128 MB. -/
theorem uvmFree_lowers (hid : IdMapped m kt c) (hd : Low d)
    (htab : ∀ i < 768, hasFlag (word m.mem d i) pagePresent → Low (word m.mem d i / 4096))
    (hdir : IdDir m.mem kt d) (h : uvmFree m (d * 4096) = some t) (hp : Low p) : Lowered m t p := by
  obtain ⟨t', ht', hrel⟩ := uvmFree_released hid hd htab
  obtain rfl := some.inj (h.symm.trans ht')
  have hone := one_le_spaceFrees hid.tables hdir hp
  unfold Lowered
  rw [hrel.weight p (Nat.lt_of_lt_of_le hp (by decide))]
  omega

end

/-! ## making the space -/

/-- What building an address space leaves alone: everything that was in use. -/
structure Untouched (m₀ m : Machine) : Prop where
  regs : m.cr3 = m₀.cr3 ∧ m.pageDir = m₀.pageDir
  pages : ∀ g, pageIsFree m₀.pmm g = false → page m.mem g = page m₀.mem g
  used : ∀ g, pageIsFree m₀.pmm g = false →
    pageIsFree m.pmm g = false ∧ m.pmm.pageRefs g = m₀.pmm.pageRefs g

theorem Untouched.refl (m : Machine) : Untouched m m :=
  ⟨⟨rfl, rfl⟩, fun _ _ => rfl, fun _ h => ⟨h, rfl⟩⟩

theorem Untouched.free (h : Untouched m₀ m) (hf : pageIsFree m.pmm f) :
    pageIsFree m₀.pmm f := by
  by_contra hno
  have := (h.used f (by simpa using hno)).1
  rw [hf] at this
  contradiction

theorem Untouched.alloc (h : Untouched m₀ m) (hf : pageIsFree m.pmm f) :
    Untouched m₀ { m with pmm := m.pmm.grant f } where
  regs := h.regs
  pages := h.pages
  used := fun g hg => by
    obtain ⟨hused, hrefs⟩ := h.used g hg
    have hne : g ≠ f := by rintro rfl; rw [hused] at hf; contradiction
    simp [hused, hrefs, hne]

theorem Untouched.write (h : Untouched m₀ m) {mem' : Bytes} (hf : pageIsFree m₀.pmm f)
    (hmem : OnlyFrame f m.mem mem') :
    Untouched m₀ { m with mem := mem' } where
  regs := h.regs
  pages := fun g hg => by
    have hne : g ≠ f := by rintro rfl; rw [hg] at hf; contradiction
    exact (hmem g hne).trans (h.pages g hg)
  used := h.used

section Build

variable {m₀ m : Machine} {kt : Nat → Nat} {c k : Nat}

theorem KernelMaps.idMapped (hk : KernelMaps m₀ kt c k) (h : Untouched m₀ m) : IdMapped m kt c where
  cr3 := h.regs.1.trans hk.mapped.cr3
  dir := hk.mapped.dir.congr (h.pages c hk.usedDir.1)
  tables := hk.mapped.tables.congr fun i hi => h.pages _ (hk.usedTables i hi).2

theorem KernelMaps.outside (hk : KernelMaps m₀ kt c k) (hf : pageIsFree m₀.pmm f) :
    Outside kt c f where
  dir := by rintro rfl; rw [hk.usedDir.1] at hf; contradiction
  tables := fun i hi => by rintro rfl; rw [(hk.usedTables i hi).2] at hf; contradiction

/-- A free frame that the kernel can store to lies in the identity map. -/
theorem KernelMaps.low_of_kwrite (hk : KernelMaps m₀ kt c k) (h : Untouched m₀ m)
    (hf : f < pagesMax)
    (hfree : pageIsFree m₀.pmm f) (hw : m.kwrite (f * 4096) ≠ none) : Low f := by
  by_contra hhigh
  -- the walk reads the directory in CR3 and one of its tables, both still as they were
  have hwalk : walk m.mem m.cr3 (f * 4096) = none := by
    have hpde : f * 4096 / 2 ^ 22 < 1024 := by unfold pagesMax at hf; omega
    have hold := hk.high f hf hhigh hfree
    rw [hk.mapped.cr3] at hold
    rw [h.regs.1, hk.mapped.cr3, walk_congr hpde (h.pages c hk.usedDir.1)
      fun hp => h.pages _ (hk.usedOther _ hpde hp)]
    exact hold
  unfold Machine.kwrite at hw
  rw [hwalk] at hw
  exact hw rfl

/-- A table in a frame beyond the identity map cannot be cleared. -/
theorem KernelMaps.low_of_clear (hk : KernelMaps m₀ kt c k) (h : Untouched m₀ m) (hf : f < pagesMax)
    (hfree : pageIsFree m₀.pmm f) {t : Machine} (hclear : clearTable m (f * 4096) = some t) :
    Low f := by
  refine hk.low_of_kwrite h hf hfree fun hw => ?_
  unfold clearTable at hclear
  rw [forRangeM_succ] at hclear
  unfold kstore32 at hclear
  rw [Nat.mul_zero, Nat.add_zero, hw] at hclear
  cases hclear

/-- A directory under construction: made since `m₀`, starting with the identity
tables, its own tables made since `m₀`, too. -/
structure NewSpace (m₀ m : Machine) (kt : Nat → Nat) (d : Nat) : Prop where
  untouched : Untouched m₀ m
  low : Low d
  fresh : pageIsFree m₀.pmm d = true
  used : pageIsFree m.pmm d = false
  dir : IdDir m.mem kt d
  tables : ∀ i, 32 ≤ i → i < 768 → hasFlag (word m.mem d i) pagePresent = true →
    word m.mem d i / 4096 ≠ d ∧ Low (word m.mem d i / 4096) ∧
      pageIsFree m₀.pmm (word m.mem d i / 4096) = true

/-- `uvm_create`, given that the frame it takes lies in the identity map. -/
theorem KernelMaps.uvmCreate (hk : KernelMaps m₀ kt c k) (hd : d ≠ 0) (hlow : Low d)
    (hfree : pageIsFree m₀.pmm d)
    (halloc : m₀.alloc = (d * 4096, { m₀ with pmm := m₀.pmm.grant d })) :
    ∃ m, m.pmm = m₀.pmm.grant d ∧ AliOS.uvmCreate m₀ = some (d * 4096, m) ∧ NewSpace m₀ m kt d ∧
      ∀ j < 1024, word m.mem d j = if j < 32 ∨ 768 ≤ j ∧ j < 800 then word m₀.mem k j else 0 := by
  have hun := (Untouched.refl m₀).alloc hfree
  have hkd : k ≠ d := by rintro rfl; rw [hk.usedDir.2] at hfree; contradiction
  obtain ⟨mem', hcreate, honly, hwords⟩ :=
    hk.mapped.uvmCreate hlow hd (hk.outside hfree) hk.pageDir hkd halloc
  refine ⟨_, rfl, hcreate, ⟨hun.write hfree honly, hlow, hfree, by simp, fun i hi => ?_,
    fun i hlo hhi hp => ?_⟩, hwords⟩
  · have hi' : i < 32 := hi
    rw [hwords i (by omega), if_pos (.inl hi')]
    exact hk.kernelDir i hi
  · rw [hwords i (by omega), if_neg (by omega)] at hp
    exact absurd hp (by decide)

theorem newSpace_uvmCreate (hk : KernelMaps m₀ kt c k) {pd : Nat} (hpd : pd ≠ 0)
    (h : uvmCreate m₀ = some (pd, m)) : ∃ d, pd = d * 4096 ∧ NewSpace m₀ m kt d ∧
      ∀ j < 1024, word m.mem d j = if j < 32 ∨ 768 ≤ j ∧ j < 800 then word m₀.mem k j else 0 := by
  by_cases h0 : m₀.alloc.1 = 0
  · unfold uvmCreate at h
    rw [if_pos h0] at h
    cases h
    exact absurd rfl hpd
  · obtain ⟨d, hd, hd0, hfree, halloc⟩ := Machine.alloc_spec h0
    have hlow : Low d := by
      unfold uvmCreate at h
      rw [if_neg h0, halloc] at h
      obtain ⟨m₁, hclear, -⟩ := bind_eq_some_iff.mp h
      exact hk.low_of_clear ((Untouched.refl m₀).alloc hfree) hd hfree hclear
    obtain ⟨m', -, hcreate, hnew⟩ := hk.uvmCreate hd0 hlow hfree halloc
    rw [hcreate] at h
    cases h
    exact ⟨d, rfl, hnew⟩

/-- The table `uvm_map` stores into is one of the new space's own. -/
theorem NewSpace.uvmTable (hk : KernelMaps m₀ kt c k) (h : NewSpace m₀ m kt d) (hlo : 32 ≤ i)
    (hhi : i < 768) {pt : Nat} (htab : uvmTable m (d * 4096) i = some (some pt, m')) :
    NewSpace m₀ m' kt d ∧ (∀ j < 1024, j ≠ i → word m'.mem d j = word m.mem d j) ∧
      ∃ t, pt = t * 4096 ∧ t ≠ d ∧ Low t ∧ pageIsFree m₀.pmm t := by
  have hid := hk.idMapped h.untouched
  by_cases hp : hasFlag (word m.mem d i) pagePresent = true
  · rw [hid.uvmTable_present h.low (by omega) hp] at htab
    cases htab
    exact ⟨h, fun _ _ _ => rfl, _, rfl, h.tables i hlo hhi hp⟩
  · have hload := hid.kload32 h.low (show i < 1024 by omega)
    by_cases h0 : m.alloc.1 = 0
    · unfold AliOS.uvmTable at htab
      rw [hload, bind_some, if_neg hp, if_pos h0] at htab
      cases htab
    · obtain ⟨t, ht, ht0, hfree, halloc⟩ := Machine.alloc_spec h0
      have hfree0 := h.untouched.free hfree
      have htd : t ≠ d := by rintro rfl; rw [h.used] at hfree; contradiction
      have hun := h.untouched.alloc hfree
      have hlow : Low t := by
        unfold AliOS.uvmTable at htab
        rw [hload, bind_some, if_neg hp, if_neg h0, halloc] at htab
        obtain ⟨m₁, hclear, -⟩ := bind_eq_some_iff.mp htab
        exact hk.low_of_clear hun ht hfree0 hclear
      obtain ⟨mem1, htab', honly, -⟩ :=
        hid.uvmTable_absent h.low (by omega) hp hlow ht0 (hk.outside hfree0) halloc
      rw [htab'] at htab
      cases htab
      have hlt : t * 4096 ||| 7 < 2 ^ 32 := mul_or_lt (by unfold pagesMax at ht; omega) (by decide)
      -- the words of the directory: the new entry, and the others as before
      have hwords : ∀ j < 1024, word (setWord mem1 d i (t * 4096 ||| 7)) d j =
          if j = i then t * 4096 ||| 7 else word m.mem d j := by
        intro j hj
        rw [word_setWord (by omega) hj hlt, word_congr hj (honly d (Ne.symm htd))]
        simp
      refine ⟨⟨(hun.write hfree0 honly).write h.fresh (onlyFrame_setWord mem1 d (by omega) _),
        h.low,
        h.fresh, by simp [h.used], fun j hj => ?_, fun j hlo' hhi' hpj => ?_⟩, fun j hj hne => ?_,
        t, rfl, htd, hlow, hfree0⟩
      · have hj' : j < 32 := hj
        rw [hwords j (by omega), if_neg (by omega)]
        exact h.dir j hj
      · dsimp only at hpj ⊢
        rw [hwords j (by omega)] at hpj ⊢
        by_cases hji : j = i
        · rw [if_pos hji, mul_or_div (by decide)]
          exact ⟨htd, hlow, hfree0⟩
        · rw [if_neg hji] at hpj ⊢
          exact h.tables j hlo' hhi' hpj
      · dsimp only
        rw [hwords j hj, if_neg hne]

theorem NewSpace.uvmMap (hk : KernelMaps m₀ kt c k) (h : NewSpace m₀ m kt d) {virt phys flags : Nat}
    (hlo : 0x08000000 ≤ virt) (hhi : virt < 0xC0000000)
    (hmap : uvmMap m (d * 4096) virt phys flags = some (0, m')) :
    NewSpace m₀ m' kt d ∧ ∀ j < 1024, j ≠ virt / 2 ^ 22 → word m'.mem d j = word m.mem d j := by
  unfold AliOS.uvmMap at hmap
  obtain ⟨⟨pt, m₁⟩, htab, hmap⟩ := bind_eq_some_iff.mp hmap
  cases pt with
  | none => simp at hmap
  | some pt =>
    obtain ⟨h1, hwords, t, rfl, htd, hlow, hfree⟩ := h.uvmTable hk (by omega) (by omega) htab
    dsimp only at hmap
    rw [(hk.idMapped h1.untouched).kstore32 hlow (by omega)] at hmap
    cases hmap
    have honly := onlyFrame_setWord m₁.mem t (Nat.mod_lt (virt / 2 ^ 12) (show 0 < 1024 by decide))
      (frameAddr phys ||| (flags ||| pagePresent))
    have hdir := honly d (Ne.symm htd)
    refine ⟨⟨h1.untouched.write hfree honly, h1.low, h1.fresh, h1.used, h1.dir.congr hdir,
      fun i hlo' hhi' hp => ?_⟩, fun j hj hne => ?_⟩
    · dsimp only at hp ⊢
      rw [word_congr (by omega) hdir] at hp ⊢
      exact h1.tables i hlo' hhi' hp
    · exact (word_congr hj hdir).trans (hwords j hj hne)

/-- `uvm_map` of a page whose table has to be made. -/
theorem NewSpace.uvmMap_absent (hk : KernelMaps m₀ kt c k) (h : NewSpace m₀ m kt d) (va : Nat)
    (hlo : 0x08000000 ≤ va) (hhi : va < 0xC0000000) (h0 : pageIsFree m.pmm 0 = false)
    (hroom : 0 < freeBelow 32768 m.pmm) (habsent : word m.mem d (va / 2 ^ 22) = 0)
    (phys flags : Nat) :
    ∃ m', AliOS.uvmMap m (d * 4096) va phys flags = some (0, m') ∧ pageIsFree m'.pmm 0 = false ∧
      freeBelow 32768 m'.pmm + 1 = freeBelow 32768 m.pmm := by
  obtain ⟨f, hlow, hf0, hfree, halloc⟩ := Machine.alloc_below (by decide) h0 hroom
  obtain ⟨mem1, htab, -, -⟩ := (hk.idMapped h.untouched).uvmTable_absent h.low
    (show va / 2 ^ 22 < 1024 by omega) (by rw [habsent]; decide) hlow hf0
    (hk.outside (h.untouched.free hfree)) halloc
  have hnew := (h.uvmTable hk (by omega) (by omega) htab).1
  exact ⟨_, (hk.idMapped hnew.untouched).uvmMap htab hlow phys flags, by simp [h0],
    freeBelow_grant hlow hfree⟩

/-! ## create, map, free -/

/-- A call between `uvm_create` and `uvm_free`. -/
inductive UvmStep where
  | alloc
  | map (virt phys flags : Nat)

/-- Run a call; `none` if it fails. -/
def UvmStep.run (pd : Nat) : UvmStep → Machine → Option Machine
  | .alloc, m => if m.alloc.1 = 0 then none else some m.alloc.2
  | .map virt phys flags, m => (AliOS.uvmMap m pd virt phys flags).bind fun r =>
    if r.1 = 0 then some r.2 else none

def runSteps (pd : Nat) : List UvmStep → Machine → Option Machine
  | [], m => some m
  | s :: ss, m => (s.run pd m).bind (runSteps pd ss)

/-- `pd = uvm_create(); …; uvm_free(pd)`, all calls succeeding. -/
def createMapFree (steps : List UvmStep) (m : Machine) : Option Machine :=
  (uvmCreate m).bind fun r =>
    if r.1 = 0 then none else (runSteps r.1 steps r.2).bind fun m => uvmFree m r.1

/-- Mappings lie in the user range. -/
def UvmStep.InUser : UvmStep → Prop
  | .alloc => True
  | .map virt _ _ => 0x08000000 ≤ virt ∧ virt < 0xC0000000

theorem NewSpace.run (hk : KernelMaps m₀ kt c k) (h : NewSpace m₀ m kt d) {s : UvmStep}
    (hs : s.InUser) (hrun : s.run (d * 4096) m = some m') : NewSpace m₀ m' kt d := by
  cases s with
  | alloc =>
    by_cases h0 : m.alloc.1 = 0
    · simp [UvmStep.run, h0] at hrun
    · obtain ⟨f, -, -, hfree, halloc⟩ := Machine.alloc_spec h0
      simp only [UvmStep.run, h0, if_false] at hrun
      rw [halloc] at hrun
      cases hrun
      exact ⟨h.untouched.alloc hfree, h.low, h.fresh, by simp [h.used], h.dir, h.tables⟩
  | map virt phys flags =>
    obtain ⟨⟨ret, m₁⟩, hmap, hrun⟩ := bind_eq_some_iff.mp hrun
    by_cases hret : ret = 0
    · subst hret
      cases hrun
      exact (h.uvmMap hk hs.1 hs.2 hmap).1
    · simp [hret] at hrun

theorem NewSpace.runSteps (hk : KernelMaps m₀ kt c k) {steps : List UvmStep}
    (hs : ∀ s ∈ steps, s.InUser)
    (h : NewSpace m₀ m kt d) (hrun : runSteps (d * 4096) steps m = some m') :
    NewSpace m₀ m' kt d := by
  induction steps generalizing m with
  | nil =>
    cases hrun
    exact h
  | cons s ss ih =>
    obtain ⟨m₁, hstep, hrun⟩ := bind_eq_some_iff.mp hrun
    exact ih (fun t ht => hs t (List.mem_cons_of_mem _ ht))
      (h.run hk (hs s List.mem_cons_self) hstep) hrun

theorem NewSpace.weight (h : NewSpace m₀ m kt d) (hp : pageIsFree m₀.pmm p = false) :
    pageWeight m.pmm p = pageWeight m₀.pmm p := by
  obtain ⟨hused, hrefs⟩ := h.untouched.used p hp
  unfold pageWeight
  rw [hused, hp, hrefs]

theorem NewSpace.table_low (h : NewSpace m₀ m kt d) (hk : KernelMaps m₀ kt c k) (i : Nat)
    (hi : i < 768) (hp : hasFlag (word m.mem d i) pagePresent) : Low (word m.mem d i / 4096) := by
  by_cases hshared : i < 32
  · rw [(h.dir i hshared).frame]
    exact (hk.usedTables i hshared).1
  · exact (h.tables i (by omega) hi hp).2.1

/-- Over the whole sequence every used page below 128 MB loses a reference. -/
theorem createMapFree_lowers (hk : KernelMaps m₀ kt c k) {steps : List UvmStep}
    (hs : ∀ s ∈ steps, s.InUser)
    (h : createMapFree steps m₀ = some m) (hlow : Low p) (hp : pageIsFree m₀.pmm p = false) :
    Lowered m₀ m p := by
  obtain ⟨⟨pd, m₁⟩, hcreate, h⟩ := bind_eq_some_iff.mp h
  by_cases hpd : pd = 0
  · simp [hpd] at h
  · obtain ⟨d, rfl, hnew, -⟩ := newSpace_uvmCreate hk hpd hcreate
    simp only [hpd, if_false] at h
    obtain ⟨m₂, hrun, hfree⟩ := bind_eq_some_iff.mp h
    have hnew2 := hnew.runSteps hk hs hrun
    have hlowered := uvmFree_lowers (hk.idMapped hnew2.untouched) hnew2.low (hnew2.table_low hk)
      hnew2.dir hfree hlow
    unfold Lowered at *
    rwa [hnew2.weight hp] at hlowered

/-- The sequence without mappings, and with one, succeeds while there are frames below 128 MB. -/
theorem createMapFree_total (hk : KernelMaps m₀ kt c k) (h0 : pageIsFree m₀.pmm 0 = false)
    (hfree : 3 ≤ freeBelow 32768 m₀.pmm) {virt : Nat} (hlo : 0x08000000 ≤ virt)
    (hhi : virt < 0xC0000000) (phys flags : Nat) : (∃ m, createMapFree [] m₀ = some m) ∧
      ∃ m, createMapFree [.alloc, .map virt phys flags] m₀ = some m := by
  obtain ⟨d, hlow, hd, hdfree, halloc⟩ := Machine.alloc_below (by decide) h0
    (show 0 < freeBelow 32768 m₀.pmm by omega)
  obtain ⟨m₁, hpmm, hcreate, hnew, hwords⟩ := hk.uvmCreate hd hlow hdfree halloc
  have hcount := freeBelow_grant hlow hdfree
  have h1 : pageIsFree m₁.pmm 0 = false := by simp [hpmm, h0]
  rw [← hpmm] at hcount
  have hfrees : ∀ {m}, NewSpace m₀ m kt d → ∃ m', uvmFree m (d * 4096) = some m' := fun h => by
    obtain ⟨m', hm', -⟩ := uvmFree_released (hk.idMapped h.untouched) h.low (h.table_low hk)
    exact ⟨m', hm'⟩
  obtain ⟨f, hflow, hf0, hffree, halloc1⟩ := Machine.alloc_below (by decide) h1
    (show 0 < freeBelow 32768 m₁.pmm by omega)
  have hcount1 := freeBelow_grant hflow hffree
  have hstep : UvmStep.run (d * 4096) .alloc m₁ = some { m₁ with pmm := m₁.pmm.grant f } := by
    simp [UvmStep.run, halloc1, hf0]
  have hnew1 := hnew.run hk (s := .alloc) trivial hstep
  obtain ⟨m₂, hmap, -, -⟩ :=
    hnew1.uvmMap_absent hk virt hlo hhi (by simp [h1]) (by dsimp only; omega)
    (by rw [hwords _ (by omega), if_neg (by omega)]) phys flags
  unfold createMapFree
  simp only [hcreate, bind_some, if_neg (show d * 4096 ≠ 0 by omega), runSteps, hstep]
  refine ⟨hfrees hnew, ?_⟩
  simp only [UvmStep.run, hmap, bind_some, if_true]
  exact hfrees (hnew1.uvmMap hk hlo hhi hmap).1

/-- Page 0 is in use: the address 0 is not a successful allocation. -/
theorem createMapFree_zero_used {steps : List UvmStep} (h : createMapFree steps m₀ = some m) :
    pageIsFree m₀.pmm 0 = false := by
  obtain ⟨⟨pd, m₁⟩, hcreate, h⟩ := bind_eq_some_iff.mp h
  by_contra hfree
  have h0 : m₀.alloc.1 = 0 := by
    obtain ⟨p, -, -, hmin, heq⟩ | ⟨-, heq⟩ := pmmAlloc_cases m₀.pmm
    · have hp : p = 0 := by
        by_contra hp
        exact hfree (hmin 0 (by omega))
      unfold Machine.alloc
      rw [heq, hp, Nat.zero_mul]
    · unfold Machine.alloc
      rw [heq]
  unfold uvmCreate at hcreate
  rw [if_pos h0] at hcreate
  cases hcreate
  simp at h

/-- **Teardown frees the kernel's pages**: whatever is mapped in between,
`uvm_create` followed by `uvm_free` never restores the allocator.  Every page
below 128 MB that was in use with at most one reference, whether it belongs to
the kernel image, to its page tables or to another process, is free afterwards. -/
theorem teardown_frees_kernel (hk : KernelMaps m₀ kt c k) {steps : List UvmStep}
    (hs : ∀ s ∈ steps, s.InUser) (h : createMapFree steps m₀ = some m) :
    m.pmm ≠ m₀.pmm ∧
      ∀ p, Low p → pageIsFree m₀.pmm p = false → m₀.pmm.pageRefs p ≤ 1 →
        pageIsFree m.pmm p = true := by
  constructor
  · intro heq
    have h0 := createMapFree_zero_used h
    have hlowered := createMapFree_lowers hk hs h (show 0 < 32768 by decide) h0
    unfold Lowered at hlowered
    rw [heq] at hlowered
    unfold pageWeight at hlowered
    simp only [h0, Bool.false_eq_true, if_false] at hlowered
    omega
  · intro p hlow hp hrefs
    have hlowered := createMapFree_lowers hk hs h hlow hp
    unfold Lowered pageWeight at hlowered
    by_contra hno
    simp only [hp, Bool.false_eq_true, if_false, hno] at hlowered
    omega

end Build

/-- The small machine after boot: `uvm_create(); uvm_free()` succeeds, also with a page that is
mapped in between. -/
theorem createMapFree_smallMachine : ∃ m₀ kt, pagingInit smallMachine = some (false, m₀) ∧
    KernelMaps m₀ kt 16 16 ∧ ((∃ m, createMapFree [] m₀ = some m) ∧
      ∃ m, createMapFree [.alloc, .map 0x08048000 0x141000 7] m₀ = some m) ∧
    ∀ p < 256, pageIsFree m₀.pmm p = false ∧ m₀.pmm.pageRefs p ≤ 1 := by
  obtain ⟨m₀, kt, hboot, hk, hfree, hres⟩ := smallMachine_boots
  exact ⟨m₀, kt, hboot, hk, createMapFree_total hk (hres 0 (by decide)).1
    (hfree.trans (freeBelow_mono _ (by decide))) (by decide) (by decide) _ _, hres⟩

theorem teardown_frees_kernel_small : ∃ m₀ m, pagingInit smallMachine = some (false, m₀) ∧
    createMapFree [.alloc, .map 0x08048000 0x141000 7] m₀ = some m ∧ m.pmm ≠ m₀.pmm := by
  obtain ⟨m₀, kt, hboot, hk, ⟨-, m, hm⟩, -⟩ := createMapFree_smallMachine
  exact ⟨m₀, m, hboot, hm, (teardown_frees_kernel hk (by simp [UvmStep.InUser]) hm).1⟩

/-- On the small machine one such pair of calls gives the first page of the
kernel image, used before, to the allocator. -/
theorem teardown_frees_kernel_image : ∃ m₀ m, pagingInit smallMachine = some (false, m₀) ∧
    createMapFree [] m₀ = some m ∧ pageIsFree m₀.pmm 8 = false ∧ pageIsFree m.pmm 8 = true := by
  obtain ⟨m₀, kt, hboot, hk, ⟨⟨m, hm⟩, -⟩, hres⟩ := createMapFree_smallMachine
  obtain ⟨hused, hrefs⟩ := hres 8 (by decide)
  have hlowered := createMapFree_lowers hk (by simp) hm (show 8 < 32768 by decide) hused
  refine ⟨m₀, m, hboot, hm, hused, ?_⟩
  unfold Lowered pageWeight at hlowered
  by_contra hno
  simp only [hused, Bool.false_eq_true, if_false, hno] at hlowered
  omega

end AliOS
