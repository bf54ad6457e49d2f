import AliOS.Paging

/-!
# AliOS.Paging.Identity

What the identity map is good for: while CR3 holds a directory whose entries 0
to 31 lead to the identity tables, a ring-0 access to an address below 128 MB
is an access to that physical address, and the kernel's loops over page tables
are plain loops over the words of a frame.
-/

namespace AliOS

open Lib Option

variable {f b d v k i : Nat} {mem mem' : Bytes}

/-! ## entries -/

theorem mul_or_div (hb : b < 4096) : (f * 4096 ||| b) / 4096 = f := by
  rw [Nat.mul_comm, ← Nat.two_pow_add_eq_or_of_lt (i := 12) hb]
  omega

theorem mul_or_lt (hf : f < 2 ^ 20) (hb : b < 4096) : f * 4096 ||| b < 2 ^ 32 := by
  rw [Nat.mul_comm, ← Nat.two_pow_add_eq_or_of_lt (i := 12) hb]
  omega

theorem hasFlag_mul_or (f b : Nat) {flag : Nat} (hflag : flag < 4096) :
    hasFlag (f * 4096 ||| b) flag = hasFlag b flag := by
  have hzero : f * 4096 &&& flag = 0 := by
    rw [Nat.mul_comm, show (4096 : Nat) = 2 ^ 12 from rfl]
    apply Nat.eq_of_testBit_eq
    intro i
    rw [Nat.testBit_and, Nat.testBit_two_pow_mul, Nat.zero_testBit]
    by_cases hi : 12 ≤ i
    · have hlt : flag < 2 ^ i :=
        Nat.lt_of_lt_of_le hflag (Nat.pow_le_pow_right (show 2 > 0 by decide) hi)
      simp [Nat.testBit_lt_two_pow hlt]
    · simp [hi]
  unfold hasFlag
  rw [Nat.and_or_distrib_right, hzero, Nat.zero_or]

theorem frameAddr_mul (f : Nat) : frameAddr (f * 4096) = f * 4096 := by
  unfold frameAddr
  omega

theorem frameAddr_eq (w : Nat) : frameAddr w = w / 4096 * 4096 := rfl

/-- The entry is present, writable and leads to frame `f`. -/
structure Points (w f : Nat) : Prop where
  present : hasFlag w pagePresent = true
  write : hasFlag w pageWrite = true
  frame : w / 4096 = f

/-- The address of page `j` of the 4 MB region `i`. -/
theorem shl_or_shl (i : Nat) {j : Nat} (hj : j < 1024) :
    i <<< 22 ||| j <<< 12 = (1024 * i + j) * 4096 := by
  have hlt : j * 2 ^ 12 < 2 ^ 22 := by omega
  rw [Nat.shiftLeft_eq, Nat.shiftLeft_eq, Nat.mul_comm i, ← Nat.two_pow_add_eq_or_of_lt hlt]
  omega

theorem points_mul_or (hb : b < 4096) (hp : hasFlag b pagePresent) (hw : hasFlag b pageWrite) :
    Points (f * 4096 ||| b) f where
  present := by rw [hasFlag_mul_or f b (by decide), hp]
  write := by rw [hasFlag_mul_or f b (by decide), hw]
  frame := mul_or_div hb

/-! ## control registers -/

/-- A step that leaves the control registers alone. -/
structure SameRegs (m m' : Machine) : Prop where
  cr0 : m'.cr0 = m.cr0
  cr3 : m'.cr3 = m.cr3

theorem SameRegs.refl (m : Machine) : SameRegs m m := ⟨rfl, rfl⟩

theorem SameRegs.trans {m₁ m₂ m3 : Machine} (h : SameRegs m₁ m₂) (h' : SameRegs m₂ m3) :
    SameRegs m₁ m3 :=
  ⟨h'.cr0.trans h.cr0, h'.cr3.trans h.cr3⟩

/-! ## the identity map -/

/-- End of the identity map: 32 tables of 4 MB. -/
def identityEnd : Nat := identityTables * 2 ^ 22

/-- The tables `kt` map the first 128 MB to themselves. -/
def IdTables (mem : Bytes) (kt : Nat → Nat) : Prop :=
  ∀ i < identityTables, ∀ j < 1024, Points (word mem (kt i) j) (1024 * i + j)

/-- The directory in frame `d` starts with the identity tables. -/
def IdDir (mem : Bytes) (kt : Nat → Nat) (d : Nat) : Prop :=
  ∀ i < identityTables, Points (word mem d i) (kt i)

theorem IdTables.congr {kt : Nat → Nat} (h : IdTables mem kt)
    (hsame : ∀ i < identityTables, page mem' (kt i) = page mem (kt i)) : IdTables mem' kt := by
  intro i hi j hj
  rw [word_congr hj (hsame i hi)]
  exact h i hi j hj

theorem IdDir.congr {kt : Nat → Nat} (h : IdDir mem kt d) (hsame : page mem' d = page mem d) :
    IdDir mem' kt d := by
  intro i hi
  rw [word_congr (by unfold identityTables at hi; omega) hsame]
  exact h i hi

/-- The walk, in terms of the words of the two tables. -/
theorem walk_eq (mem : Bytes) (d v : Nat) : walk mem (d * 4096) v =
    if hasFlag (word mem d (v / 2 ^ 22)) pagePresent then
      if hasFlag (word mem (word mem d (v / 2 ^ 22) / 4096) (v / 2 ^ 12 % 1024)) pagePresent then
        some (word mem d (v / 2 ^ 22),
          word mem (word mem d (v / 2 ^ 22) / 4096) (v / 2 ^ 12 % 1024))
      else none
    else none := rfl

/-- The walk depends on the directory and on the one table it reads. -/
theorem walk_congr (hv : v / 2 ^ 22 < 1024) (hdir : page mem' d = page mem d)
    (htab : hasFlag (word mem d (v / 2 ^ 22)) pagePresent →
      page mem' (word mem d (v / 2 ^ 22) / 4096) = page mem (word mem d (v / 2 ^ 22) / 4096)) :
    walk mem' (d * 4096) v = walk mem (d * 4096) v := by
  rw [walk_eq, walk_eq, word_congr hv hdir]
  by_cases hp : hasFlag (word mem d (v / 2 ^ 22)) pagePresent = true
  · rw [if_pos hp, if_pos hp, word_congr (by omega) (htab hp)]
  · rw [if_neg hp, if_neg hp]

/-- The walk of an address in the identity map. -/
theorem walk_identity {kt : Nat → Nat} (ht : IdTables mem kt) (hd : IdDir mem kt d)
    (hv : v < identityEnd) :
    ∃ pde pte, walk mem (d * 4096) v = some (pde, pte) ∧ Points pte (v / 4096) ∧
      hasFlag pde pageWrite := by
  unfold identityEnd identityTables at hv
  have hi : v / 2 ^ 22 < identityTables := by unfold identityTables; omega
  have hpde := hd _ hi
  have hpte := ht _ hi (v / 2 ^ 12 % 1024) (by omega)
  refine ⟨word mem d (v / 2 ^ 22), word mem (kt (v / 2 ^ 22)) (v / 2 ^ 12 % 1024), ?_, ?_,
    hpde.write⟩
  · rw [walk_eq, if_pos hpde.present, hpde.frame, if_pos hpte.present]
  · rwa [show 1024 * (v / 2 ^ 22) + v / 2 ^ 12 % 1024 = v / 4096 by omega] at hpte

section Access

variable {m : Machine} {kt : Nat → Nat} {c : Nat}

/-- CR3 holds the directory in frame `c`, and the identity map is in place. -/
structure IdMapped (m : Machine) (kt : Nat → Nat) (c : Nat) : Prop where
  cr3 : m.cr3 = c * 4096
  dir : IdDir m.mem kt c
  tables : IdTables m.mem kt

theorem IdMapped.kread (h : IdMapped m kt c) (hv : v < identityEnd) :
    m.kread v = some v := by
  obtain ⟨pde, pte, hwalk, hpte, -⟩ := walk_identity h.tables h.dir hv
  unfold Machine.kread
  rw [h.cr3, hwalk, map_some, physOf, frameAddr_eq, hpte.frame, Nat.mul_comm,
    Nat.div_add_mod]

theorem IdMapped.kwrite (h : IdMapped m kt c) (hv : v < identityEnd) :
    m.kwrite v = some v := by
  obtain ⟨pde, pte, hwalk, hpte, hw⟩ := walk_identity h.tables h.dir hv
  unfold Machine.kwrite
  rw [h.cr3, hwalk, bind_some, hw, hpte.write, physOf, frameAddr_eq, hpte.frame,
    Nat.mul_comm, Nat.div_add_mod]
  simp

/-- A frame below the end of the identity map. -/
def Low (f : Nat) : Prop := f < 32768

theorem Low.addr_lt (h : Low f) (hk : k < 4096) : f * 4096 + k < identityEnd := by
  unfold Low at h
  unfold identityEnd identityTables
  omega

theorem IdMapped.kload32 (h : IdMapped m kt c) (hf : Low f) (hi : i < 1024) :
    kload32 m (f * 4096 + 4 * i) = some (word m.mem f i) := by
  unfold AliOS.kload32
  rw [h.kread (hf.addr_lt (by omega)), map_some]
  rfl

theorem IdMapped.kstore32 (h : IdMapped m kt c) (hf : Low f) (hi : i < 1024) (w : Nat) :
    kstore32 m (f * 4096 + 4 * i) w = some { m with mem := setWord m.mem f i w } := by
  unfold AliOS.kstore32
  rw [h.kwrite (hf.addr_lt (by omega)), map_some]
  rfl

theorem IdMapped.kload8 (h : IdMapped m kt c) (hf : Low f) (hk : k < 4096) :
    kload8 m (f * 4096 + k) = some (m.mem (f * 4096 + k)) := by
  unfold AliOS.kload8
  rw [h.kread (hf.addr_lt hk), map_some]

theorem IdMapped.kstore8 (h : IdMapped m kt c) (hf : Low f) (hk : k < 4096) (b : UInt8) :
    kstore8 m (f * 4096 + k) b = some { m with mem := Function.update m.mem (f * 4096 + k) b } := by
  unfold AliOS.kstore8
  rw [h.kwrite (hf.addr_lt hk), map_some]

/-! ## loops over one frame -/

/-- Only frame `f` has changed. -/
def OnlyFrame (f : Nat) (mem mem' : Bytes) : Prop := ∀ g ≠ f, page mem' g = page mem g

theorem OnlyFrame.refl (f : Nat) (mem : Bytes) : OnlyFrame f mem mem := fun _ _ => rfl

theorem OnlyFrame.trans {mem'' : Bytes} (h : OnlyFrame f mem mem') (h' : OnlyFrame f mem' mem'') :
    OnlyFrame f mem mem'' :=
  fun g hg => (h' g hg).trans (h g hg)

theorem onlyFrame_setWord (mem : Bytes) (f : Nat) (hi : i < 1024) (w : Nat) :
    OnlyFrame f mem (setWord mem f i w) := fun _ hg => page_setWord hi hg

theorem onlyFrame_update (mem : Bytes) (f : Nat) (hi : i < 4096) (b : UInt8) :
    OnlyFrame f mem (Function.update mem (f * 4096 + i) b) := fun g hg => by
  have hpage := page_update mem f g ⟨i, hi⟩ b
  rwa [if_neg hg] at hpage

/-- The frame is none of those the identity map rests on. -/
structure Outside (kt : Nat → Nat) (c f : Nat) : Prop where
  dir : f ≠ c
  tables : ∀ i < identityTables, kt i ≠ f

theorem IdMapped.onlyFrame (h : IdMapped m kt c) (hf : Outside kt c f)
    (hmem : OnlyFrame f m.mem mem') :
    IdMapped { m with mem := mem' } kt c where
  cr3 := h.cr3
  dir := h.dir.congr (hmem c (Ne.symm hf.dir))
  tables := h.tables.congr fun i hi => hmem _ (hf.tables i hi)

/-- A loop that stores the words `a` to `a + n - 1` of one frame. -/
theorem storeLoop {m : Machine} {g : Nat → Machine → Option Machine} {w : Nat → Nat}
    (hw : ∀ i < 1024, w i < 2 ^ 32)
    (hg : ∀ i < 1024, ∀ mem', OnlyFrame f m.mem mem' →
      g i { m with mem := mem' } = some { m with mem := setWord mem' f i (w i) })
    {a n : Nat} (han : a + n ≤ 1024) :
    ∃ mem', forRangeM g a n m = some { m with mem := mem' } ∧ OnlyFrame f m.mem mem' ∧
      ∀ j < 1024, word mem' f j = if a ≤ j ∧ j < a + n then w j else word m.mem f j := by
  obtain ⟨t, hrun, mem', rfl, honly, hwords⟩ := forRangeM_total
    (fun i t => ∃ mem', t = { m with mem := mem' } ∧ OnlyFrame f m.mem mem' ∧
      ∀ j < 1024, word mem' f j = if a ≤ j ∧ j < i then w j else word m.mem f j)
    (f := g) (a := a) (n := n) (s := m)
    ⟨m.mem, rfl, .refl f _, fun j _ => (if_neg (by omega)).symm⟩
    (fun i t hlo hhi ⟨mem', ht, honly, hwords⟩ => by
      subst ht
      refine ⟨_, hg i (by omega) mem' honly, setWord mem' f i (w i), rfl,
        honly.trans (onlyFrame_setWord mem' f (by omega) _), fun j hj => ?_⟩
      rw [word_setWord (by omega) hj (hw i (by omega)), hwords j hj]
      by_cases hji : j = i
      · rw [if_pos ⟨rfl, hji⟩, if_pos (by omega), hji]
      · rw [if_neg fun hc => hji hc.2]
        by_cases hin : a ≤ j ∧ j < i
        · rw [if_pos hin, if_pos (by omega)]
        · rw [if_neg hin, if_neg (by omega)])
  exact ⟨mem', hrun, honly, hwords⟩

/-- The same for the kernel's stores through the identity map. -/
theorem IdMapped.storeLoop (h : IdMapped m kt c) (hlow : Low f) (hf : Outside kt c f)
    {g : Nat → Machine → Nat} {w : Nat → Nat} (hw : ∀ i, w i < 2 ^ 32)
    (hg : ∀ i < 1024, ∀ mem', OnlyFrame f m.mem mem' → g i { m with mem := mem' } = w i) {a n : Nat}
    (han : a + n ≤ 1024) :
    ∃ mem', forRangeM (fun i t => AliOS.kstore32 t (f * 4096 + 4 * i) (g i t)) a n m =
        some { m with mem := mem' } ∧ OnlyFrame f m.mem mem' ∧
      ∀ j < 1024, word mem' f j = if a ≤ j ∧ j < a + n then w j else word m.mem f j := by
  refine AliOS.storeLoop (fun i _ => hw i) (fun i hi mem' honly => ?_) han
  rw [hg i hi mem' honly]
  exact (h.onlyFrame hf honly).kstore32 hlow hi _

theorem IdMapped.clearTable (h : IdMapped m kt c) (hlow : Low f) (hf : Outside kt c f) :
    ∃ mem', clearTable m (f * 4096) = some { m with mem := mem' } ∧ OnlyFrame f m.mem mem' ∧
      ∀ j < 1024, word mem' f j = 0 := by
  obtain ⟨mem', hrun, honly, hwords⟩ := h.storeLoop hlow hf (g := fun _ _ => 0) (w := fun _ => 0)
    (fun _ => by decide) (fun _ _ _ _ => rfl) (show 0 + 1024 ≤ 1024 by decide)
  refine ⟨mem', hrun, honly, fun j hj => ?_⟩
  rw [hwords j hj, if_pos (by omega)]

/-- `paging_copy_kernel_mappings` copies the two ranges of `page_dir`. -/
theorem IdMapped.copyKernelMappings (h : IdMapped m kt c) (hlow : Low f) (hf : Outside kt c f)
    (hk : m.pageDir = k * 4096) (hkf : k ≠ f) :
    ∃ mem', pagingCopyKernelMappings m (f * 4096) = some { m with mem := mem' } ∧
      OnlyFrame f m.mem mem' ∧
      ∀ j < 1024, word mem' f j =
        if j < 32 ∨ 768 ≤ j ∧ j < 800 then word m.mem k j else word m.mem f j := by
  have hentry : ∀ mem1, OnlyFrame f m.mem mem1 → ∀ i < 1024, ∀ mem2, OnlyFrame f mem1 mem2 →
      ({ m with mem := mem2 } : Machine).pageDirEntry i = word m.mem k i := by
    intro mem1 h1 i hi mem2 h2
    rw [hk]
    exact word_congr hi ((h1.trans h2) k hkf)
  obtain ⟨mem1, hrun1, honly1, hwords1⟩ := h.storeLoop hlow hf (g := fun i t => t.pageDirEntry i)
    (fun i => word_lt m.mem k i) (hentry m.mem (.refl f _)) (show 0 + 32 ≤ 1024 by decide)
  obtain ⟨mem2, hrun2, honly2, hwords2⟩ := (h.onlyFrame hf honly1).storeLoop hlow hf
    (g := fun i t => t.pageDirEntry i) (fun i => word_lt m.mem k i) (hentry mem1 honly1)
    (show 768 + 32 ≤ 1024 by decide)
  refine ⟨mem2, ?_, honly1.trans honly2, fun j hj => ?_⟩
  · unfold pagingCopyKernelMappings
    rw [hrun1, bind_some]
    exact hrun2
  · rw [hwords2 j hj]
    rw [hwords1 j hj]
    by_cases hhigh : 768 ≤ j ∧ j < 768 + 32
    · rw [if_pos hhigh, if_pos (by omega)]
    · rw [if_neg hhigh]
      by_cases hfirst : 0 ≤ j ∧ j < 0 + 32
      · rw [if_pos hfirst, if_pos (by omega)]
      · rw [if_neg hfirst, if_neg (by omega)]

end Access

end AliOS
