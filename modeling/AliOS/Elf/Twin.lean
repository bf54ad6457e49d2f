import AliOS.Elf.Range

/-!
# AliOS.Elf.Twin

Two runs of the segment loop, on machines that may differ in everything the loader does not
look at: other memory, another directory in CR3.  What the loop reads of the memory is the
page directory it fills and the tables behind it.  `LoadReady` describes one machine: the
kernel's stores reach the frames `F` (the directory, its tables and the frames handed out by
the loader) where they lie.  `Twins` says that two such machines agree on the allocator and
on `F`; each part of the loop keeps it, with the new frames added to `F`.
-/

namespace AliOS

open Lib Option Set

variable {f v i t c va : Nat} {m : Machine} {st₁ st₂ : Image}

/-! ## one machine -/

/-- The frames that ring-0 accesses below 3 GB are translated by. -/
def Walked (mem : Bytes) (c f : Nat) : Prop :=
  f = c ∨ ∃ i < 768, hasFlag (word mem c i) pagePresent = true ∧ f = word mem c i / 4096

/-- The directory `d` can be filled under the directory `c`. -/
structure LoadReady (m : Machine) (kt : Nat → Nat) (c d : Nat) (F : Set Nat) : Prop where
  mapped : IdMapped m kt c
  live : ∀ f, Walked m.mem c f → pageIsFree m.pmm f = false
  frames : ∀ f ∈ F, Low f ∧ pageIsFree m.pmm f = false ∧ ¬Walked m.mem c f
  dir : d ∈ F
  tables : ∀ i, 32 ≤ i → i < 1024 → hasFlag (word m.mem d i) pagePresent = true →
    word m.mem d i / 4096 ∈ F ∧ word m.mem d i / 4096 ≠ d
  /-- a frame beyond the identity map cannot be stored to -/
  high : ∀ f < pagesMax, ¬Low f → pageIsFree m.pmm f = true → m.kwrite (f * 4096) = none

section

variable {m : Machine} {kt : Nat → Nat} {c d : Nat} {F : Set Nat}

theorem walked_congr {mem mem' : Bytes} (h : page mem' c = page mem c) (f : Nat) :
    Walked mem' c f ↔ Walked mem c f := by
  have hword : ∀ i < 768, word mem' c i = word mem c i := fun i hi => word_congr (by omega) h
  refine or_congr_right (exists_congr fun i => and_congr_right fun hi => ?_)
  rw [hword i hi]

section

variable (h : LoadReady m kt c d F)

include h

theorem LoadReady.outside (hf : ¬Walked m.mem c f) : Outside kt c f where
  dir := fun hc => hf (.inl hc)
  tables i hi := by
    rintro rfl
    have hp := h.mapped.dir i hi
    unfold identityTables at hi
    exact hf (.inr ⟨i, by omega, hp.present, hp.frame.symm⟩)

theorem LoadReady.not_walked (hf : pageIsFree m.pmm f) :
    ¬Walked m.mem c f := fun hw => by
  rw [h.live f hw] at hf
  cases hf

theorem LoadReady.not_mem (hf : pageIsFree m.pmm f) : f ∉ F :=
  fun hmem => by
    rw [(h.frames f hmem).2.1] at hf
    cases hf

/-- A store to a frame that nothing is translated by.  If it is the directory, its entries
have to be looked at again. -/
theorem LoadReady.store (hf : ¬Walked m.mem c f) {mem' : Bytes}
    (honly : OnlyFrame f m.mem mem')
    (htables : ∀ i, 32 ≤ i → i < 1024 → hasFlag (word mem' d i) pagePresent →
      word mem' d i / 4096 ∈ F ∧ word mem' d i / 4096 ≠ d) :
    LoadReady { m with mem := mem' } kt c d F := by
  have hc : page mem' c = page m.mem c := honly c fun heq => hf (.inl heq.symm)
  refine ⟨h.mapped.onlyFrame (h.outside hf) honly, fun g hg => h.live g ((walked_congr hc g).mp hg),
    fun g hg => ?_, h.dir, htables, fun g hg hlow hfree => ?_⟩
  · obtain ⟨hlow, hused, hno⟩ := h.frames g hg
    exact ⟨hlow, hused, fun hw => hno ((walked_congr hc g).mp hw)⟩
  · have hlt : g * 4096 / 2 ^ 22 < 768 := by
      unfold pagesMax at hg
      omega
    have hold := h.high g hg hlow hfree
    unfold Machine.kwrite at hold ⊢
    rw [h.mapped.cr3] at hold
    rw [h.mapped.cr3, walk_congr (by omega) hc fun hp => honly _ ?_]
    · exact hold
    · rintro heq
      exact hf (heq ▸ .inr ⟨_, hlt, hp, rfl⟩)

/-- A store to a frame other than the directory. -/
theorem LoadReady.onlyFrame (hf : ¬Walked m.mem c f) (hfd : f ≠ d) {mem' : Bytes}
    (honly : OnlyFrame f m.mem mem') : LoadReady { m with mem := mem' } kt c d F :=
  h.store hf honly fun i hlo hhi hp => by
    rw [word_congr hhi (honly d (Ne.symm hfd))] at hp ⊢
    exact h.tables i hlo hhi hp

/-- A frame is handed out. -/
theorem LoadReady.grant (hlow : Low f) (hfree : pageIsFree m.pmm f) :
    LoadReady { m with pmm := m.pmm.grant f } kt c d (insert f F) where
  mapped := ⟨h.mapped.cr3, h.mapped.dir, h.mapped.tables⟩
  live g hg := by simp [h.live g hg]
  frames g hg := by
    rcases mem_insert_iff.mp hg with rfl | hg
    · exact ⟨hlow, by simp, h.not_walked hfree⟩
    · exact ⟨(h.frames g hg).1, by simp [(h.frames g hg).2.1], (h.frames g hg).2.2⟩
  dir := mem_insert_of_mem f h.dir
  tables i hlo hhi hp := ⟨mem_insert_of_mem f (h.tables i hlo hhi hp).1, (h.tables i hlo hhi hp).2⟩
  high g hg hno hfree' := by
    refine h.high g hg hno ?_
    simp only [pageIsFree_grant, Bool.and_eq_true] at hfree'
    exact hfree'.1

/-- The entries of the directory after a store elsewhere. -/
theorem LoadReady.pteAt_onlyFrame (hf : f ∉ F) {mem' : Bytes}
    (honly : OnlyFrame f m.mem mem') (hv : 32768 ≤ v ∧ v < 2 ^ 20) :
    pteAt mem' d v = pteAt m.mem d v := by
  have hne : ∀ g ∈ F, g ≠ f := fun g hg heq => hf (heq ▸ hg)
  exact pteAt_congr (word_congr (by omega) (honly d (hne d h.dir))) fun hp =>
    honly _ (hne _ (h.tables _ (by omega) (by omega) hp).1)

end

end

/-! ## two machines -/

/-- Two machines that agree on the frame allocator and on the frames `F`. -/
structure Twins (kt₁ kt₂ : Nat → Nat) (c₁ c₂ d : Nat) (F : Set Nat) (m₁ m₂ : Machine) : Prop where
  left : LoadReady m₁ kt₁ c₁ d F
  right : LoadReady m₂ kt₂ c₂ d F
  pmm : m₂.pmm = m₁.pmm
  pages : ∀ f ∈ F, page m₂.mem f = page m₁.mem f

section

variable {kt₁ kt₂ : Nat → Nat} {c₁ c₂ d : Nat} {F : Set Nat} {m₁ m₂ : Machine}

section

variable (h : Twins kt₁ kt₂ c₁ c₂ d F m₁ m₂)

include h

theorem Twins.word_eq (hf : f ∈ F) (hi : i < 1024) :
    word m₂.mem f i = word m₁.mem f i := word_congr hi (h.pages f hf)

/-- Both hand out the same frame and fill it with the same bytes. -/
theorem Twins.fill (hlow : Low f) (hfree : pageIsFree m₁.pmm f)
    {mem1 mem2 : Bytes} (honly1 : OnlyFrame f m₁.mem mem1) (honly2 : OnlyFrame f m₂.mem mem2)
    (hpage : page mem2 f = page mem1 f) : Twins kt₁ kt₂ c₁ c₂ d (insert f F)
      { m₁ with mem := mem1, pmm := m₁.pmm.grant f }
      { m₂ with mem := mem2, pmm := m₂.pmm.grant f } := by
  have hfree2 : pageIsFree m₂.pmm f := by rw [h.pmm]; exact hfree
  have hne : ∀ g ∈ F, g ≠ f := fun g hg heq => h.left.not_mem hfree (heq ▸ hg)
  have hleft := (h.left.grant hlow hfree).onlyFrame (h.left.not_walked hfree)
    (Ne.symm (hne d h.left.dir)) honly1
  have hright := (h.right.grant hlow hfree2).onlyFrame (h.right.not_walked hfree2)
    (Ne.symm (hne d h.left.dir)) honly2
  refine ⟨hleft, hright, ?_, fun g hg => ?_⟩
  · rw [h.pmm]
  · rcases mem_insert_iff.mp hg with rfl | hg
    · exact hpage
    · exact (honly2 g (hne g hg)).trans ((h.pages g hg).trans (honly1 g (hne g hg)).symm)

/-- The frame of a page, zeroed and filled. -/
theorem Twins.freshPage (hlow : Low f)
    (hfree : pageIsFree m₁.pmm f) {off : Nat} {bs : List UInt8} (hlen : off + bs.length ≤ 4096) :
    ∃ mem1 mem2,
      ((zeroPage { m₁ with pmm := m₁.pmm.grant f } (f * 4096)).bind fun m =>
        storeBytes m (f * 4096 + off) bs) =
        some { m₁ with mem := mem1, pmm := m₁.pmm.grant f } ∧
      ((zeroPage { m₂ with pmm := m₂.pmm.grant f } (f * 4096)).bind fun m =>
        storeBytes m (f * 4096 + off) bs) =
        some { m₂ with mem := mem2, pmm := m₂.pmm.grant f } ∧
      OnlyFrame f m₁.mem mem1 ∧ Twins kt₁ kt₂ c₁ c₂ d (insert f F)
        { m₁ with mem := mem1, pmm := m₁.pmm.grant f }
        { m₂ with mem := mem2, pmm := m₂.pmm.grant f } := by
  have hfree2 : pageIsFree m₂.pmm f := by rw [h.pmm]; exact hfree
  obtain ⟨mem1, hrun1, honly1, hbytes1⟩ :=
    h.left.mapped.freshPage hlow (h.left.outside (h.left.not_walked hfree)) hlen (m₁.pmm.grant f)
  obtain ⟨mem2, hrun2, honly2, hbytes2⟩ :=
    h.right.mapped.freshPage hlow (h.right.outside (h.right.not_walked hfree2)) hlen
      (m₂.pmm.grant f)
  refine ⟨mem1, mem2, hrun1, hrun2, honly1, h.fill hlow hfree honly1 honly2 (funext fun j => ?_)⟩
  exact (hbytes2 j j.isLt).trans (hbytes1 j j.isLt).symm

end

theorem zeroPage_none {p : Nat} (h : m.kwrite p = none) : zeroPage m p = none := by
  unfold zeroPage
  rw [forRangeM_succ]
  unfold kstore8
  rw [Nat.add_zero, h]
  rfl

theorem clearTable_none {p : Nat} (h : m.kwrite p = none) : clearTable m p = none := by
  unfold clearTable
  rw [forRangeM_succ]
  unfold kstore32
  rw [Nat.mul_zero, Nat.add_zero, h]
  rfl

/-! ## uvm_map -/

/-- A word of a table is changed. -/
theorem Twins.setPte (h : Twins kt₁ kt₂ c₁ c₂ d F m₁ m₂) {j w : Nat} (ht : t ∈ F) (htd : t ≠ d)
    (hj : j < 1024) :
    Twins kt₁ kt₂ c₁ c₂ d F { m₁ with mem := setWord m₁.mem t j w }
      { m₂ with mem := setWord m₂.mem t j w } := by
  refine ⟨h.left.onlyFrame (h.left.frames t ht).2.2 htd (onlyFrame_setWord _ t hj w),
    h.right.onlyFrame (h.right.frames t ht).2.2 htd (onlyFrame_setWord _ t hj w), h.pmm,
    fun g hg => ?_⟩
  exact page_setWord_congr (h.pages g hg) t j w

/-- A table is entered into the directory. -/
theorem LoadReady.link {kt : Nat → Nat} (h : LoadReady m kt c d F) (ht : t ∈ F) (htd : t ≠ d)
    (hi : i < 1024) :
    LoadReady { m with mem := setWord m.mem d i (t * 4096 ||| 7) } kt c d F ∧
      ∀ j < 1024, word (setWord m.mem d i (t * 4096 ||| 7)) d j = if j = i then t * 4096 ||| 7
        else word m.mem d j := by
  have hlow := (h.frames t ht).1
  have hw : t * 4096 ||| 7 < 2 ^ 32 := mul_or_lt (by unfold Low at hlow; omega) (by decide)
  have hwords : ∀ j < 1024, word (setWord m.mem d i (t * 4096 ||| 7)) d j =
      if j = i then t * 4096 ||| 7 else word m.mem d j := by
    intro j hj
    rw [word_setWord hi hj hw]
    simp
  refine ⟨h.store (h.frames d h.dir).2.2 (onlyFrame_setWord _ d hi _) fun j hlo hj hp => ?_, hwords⟩
  rw [hwords j hj] at hp ⊢
  by_cases hji : j = i
  · rw [if_pos hji, mul_or_div (by decide)]
    exact ⟨ht, htd⟩
  · rw [if_neg hji] at hp ⊢
    exact h.tables j hlo hj hp

theorem Twins.link (h : Twins kt₁ kt₂ c₁ c₂ d F m₁ m₂) (ht : t ∈ F) (htd : t ≠ d) (hi : i < 1024) :
    Twins kt₁ kt₂ c₁ c₂ d F { m₁ with mem := setWord m₁.mem d i (t * 4096 ||| 7) }
      { m₂ with mem := setWord m₂.mem d i (t * 4096 ||| 7) } :=
  ⟨(h.left.link ht htd hi).1, (h.right.link ht htd hi).1, h.pmm,
    fun g hg => page_setWord_congr (h.pages g hg) _ _ _⟩

/-- An empty table changes no entry. -/
theorem LoadReady.pteAt_link {kt : Nat → Nat} (h : LoadReady m kt c d F) (ht : t ∈ F) (htd : t ≠ d)
    (hi : i < 1024) (habsent : ¬hasFlag (word m.mem d i) pagePresent)
    (hzero : ∀ j < 1024, word m.mem t j = 0) (hv : 32768 ≤ v ∧ v < 2 ^ 20) :
    pteAt (setWord m.mem d i (t * 4096 ||| 7)) d v = pteAt m.mem d v := by
  have hwords := (h.link ht htd hi).2
  by_cases hvi : v / 1024 = i
  · have hword := hwords (v / 1024) (by omega)
    rw [if_pos hvi] at hword
    unfold pteAt
    rw [hword, if_pos (by rw [hasFlag_mul_or _ _ (by decide)]; decide), mul_or_div (by decide), hvi,
      if_neg habsent, word_congr (by omega) (page_setWord hi htd), hzero _ (by omega)]
  · refine pteAt_congr ?_ fun hp => page_setWord hi (h.tables _ (by omega) (by omega) hp).2
    rw [hwords _ (by omega), if_neg hvi]

/-- Both hand out the same frame. -/
theorem Twins.alloc (h : Twins kt₁ kt₂ c₁ c₂ d F m₁ m₂) : m₂.alloc.1 = m₁.alloc.1 ∧ ∀ f,
    m₁.alloc = (f * 4096, { m₁ with pmm := m₁.pmm.grant f }) →
      m₂.alloc = (f * 4096, { m₂ with pmm := m₂.pmm.grant f }) := by
  unfold Machine.alloc
  rw [h.pmm]
  refine ⟨rfl, fun f hf => ?_⟩
  simp only [Prod.mk.injEq, Machine.mk.injEq, true_and, and_true] at hf ⊢
  exact hf

/-- What `uvm_map` gets for a page table: none in both machines, or the same one. -/
theorem Twins.uvmTable (h : Twins kt₁ kt₂ c₁ c₂ d F m₁ m₂) (hlo : 32 ≤ i) (hhi : i < 1024) :
    Option.Rel (fun r1 r2 : Option Nat × Machine =>
      (r1.1 = none ∧ r2.1 = none ∧ r1.2.mem = m₁.mem ∧ r2.2.mem = m₂.mem) ∨
      ∃ t F', F ⊆ F' ∧ t ∈ F' ∧ t ≠ d ∧ r1.1 = some (t * 4096) ∧ r2.1 = some (t * 4096) ∧
        Twins kt₁ kt₂ c₁ c₂ d F' r1.2 r2.2 ∧ hasFlag (word r1.2.mem d i) pagePresent ∧
        word r1.2.mem d i / 4096 = t ∧ ∀ v, 32768 ≤ v ∧ v < 2 ^ 20 →
          pteAt r1.2.mem d v = pteAt m₁.mem d v)
      (uvmTable m₁ (d * 4096) i) (uvmTable m₂ (d * 4096) i) := by
  have hlowd := (h.left.frames d h.left.dir).1
  unfold AliOS.uvmTable
  rw [h.left.mapped.kload32 hlowd hhi, h.right.mapped.kload32 hlowd hhi, bind_some, bind_some,
    h.word_eq h.left.dir hhi]
  by_cases hp : hasFlag (word m₁.mem d i) pagePresent = true
  · rw [if_pos hp, if_pos hp, frameAddr_eq]
    obtain ⟨hmem, hne⟩ := h.left.tables i hlo hhi hp
    exact .some (.inr ⟨_, F, subset_rfl, hmem, hne, rfl, rfl, h, hp, rfl, fun _ _ => rfl⟩)
  rw [if_neg hp, if_neg hp]
  obtain ⟨halloc1, halloc⟩ := h.alloc
  rw [halloc1]
  by_cases h0 : m₁.alloc.1 = 0
  · rw [if_pos h0, if_pos h0]
    exact .some (.inl ⟨rfl, rfl, rfl, rfl⟩)
  obtain ⟨f, hf, -, hfree, halloc₁⟩ := Machine.alloc_spec h0
  have hfree2 : pageIsFree m₂.pmm f := by rw [h.pmm]; exact hfree
  rw [if_neg h0, if_neg h0, halloc₁, halloc f halloc₁]
  by_cases hlow : Low f
  · -- what one machine does
    have hone : ∀ {m : Machine} {kt : Nat → Nat} {c : Nat}, LoadReady m kt c d F →
        pageIsFree m.pmm f = true →
        ∃ mem', clearTable { m with pmm := m.pmm.grant f } (f * 4096) =
          some { m with mem := mem', pmm := m.pmm.grant f } ∧ OnlyFrame f m.mem mem' ∧
          ∀ j < 1024, word mem' f j = 0 := by
      intro m kt c hm hfree
      have hid : IdMapped { m with pmm := m.pmm.grant f } kt c :=
        ⟨hm.mapped.cr3, hm.mapped.dir, hm.mapped.tables⟩
      exact hid.clearTable hlow (hm.outside (hm.not_walked hfree))
    obtain ⟨mem1, hclear1, honly1, hzero1⟩ := hone h.left hfree
    obtain ⟨mem2, hclear2, honly2, hzero2⟩ := hone h.right hfree2
    have hfd : f ≠ d := fun heq => h.left.not_mem hfree (heq ▸ h.left.dir)
    have htwins :=
      h.fill hlow hfree honly1 honly2 ((page_eq_zero hzero2).trans (page_eq_zero hzero1).symm)
    have hentry : f * 4096 ||| pagePresent ||| pageWrite ||| pageUser = f * 4096 ||| 7 := by
      rw [Nat.or_assoc, Nat.or_assoc]
      rfl
    rw [hclear1, hclear2, bind_some, bind_some, hentry, htwins.left.mapped.kstore32 hlowd hhi,
      htwins.right.mapped.kstore32 hlowd hhi]
    have hmem := mem_insert f F
    have hself := (htwins.left.link hmem hfd hhi).2 i hhi
    rw [if_pos rfl] at hself
    refine .some (.inr ⟨f, insert f F, subset_insert f F, hmem, hfd, rfl, rfl,
      htwins.link hmem hfd hhi, ?_, ?_, fun v hv => ?_⟩)
    · dsimp only
      rw [hself, hasFlag_mul_or _ _ (by decide)]
      decide
    · dsimp only
      rw [hself, mul_or_div (by decide)]
    · refine (htwins.left.pteAt_link hmem hfd hhi ?_ hzero1 hv).trans
        (h.left.pteAt_onlyFrame (h.left.not_mem hfree) honly1 hv)
      rwa [word_congr hhi (honly1 d (Ne.symm hfd))]
  · have hnone : ∀ {m : Machine} {kt : Nat → Nat} {c : Nat}, LoadReady m kt c d F →
        pageIsFree m.pmm f = true →
        clearTable { m with pmm := m.pmm.grant f } (f * 4096) = none := fun hm hfree =>
      clearTable_none (hm.high f hf hlow hfree)
    rw [hnone h.left hfree, hnone h.right hfree2]
    exact .none

/-- The entries after a word of table `t` was set: the new one, and the old ones. -/
theorem pteAt_setPte {mem : Bytes} {j w : Nat} (htd : t ≠ d) (hj : j < 1024) (hw : w < 2 ^ 32)
    (hv : v < 2 ^ 20) : pteAt (setWord mem t j w) d v =
      if hasFlag (word mem d (v / 1024)) pagePresent ∧ word mem d (v / 1024) / 4096 = t ∧
        v % 1024 = j then w
      else pteAt mem d v := by
  have hmod : v % 1024 < 1024 := Nat.mod_lt _ (by decide)
  unfold pteAt
  rw [word_congr (show v / 1024 < 1024 by omega) (page_setWord hj (Ne.symm htd))]
  by_cases hp : hasFlag (word mem d (v / 1024)) pagePresent = true
  · rw [if_pos hp, if_pos hp]
    by_cases ht : word mem d (v / 1024) / 4096 = t
    · rw [ht, word_setWord hj hmod hw]
      by_cases hvj : v % 1024 = j
      · rw [if_pos ⟨rfl, hvj⟩, if_pos ⟨hp, rfl, hvj⟩]
      · rw [if_neg fun hc => hvj hc.2, if_neg fun hc => hvj hc.2.2]
    · rw [word_congr hmod (page_setWord hj ht), if_neg fun hc => ht hc.2.1]
  · rw [if_neg hp, if_neg hp, if_neg fun hc => hp hc.1]

/-- `uvm_map` fails in both machines, or enters the same page in both. -/
theorem Twins.uvmMap (h : Twins kt₁ kt₂ c₁ c₂ d F m₁ m₂) {flags : Nat} (hlo : 0x08000000 ≤ va)
    (hhi : va < 2 ^ 32) (hf : f ∈ F) (hflags : flags < 4096) :
    Option.Rel (fun r1 r2 : Int × Machine =>
      (r1.1 = -1 ∧ r2.1 = -1 ∧ r1.2.mem = m₁.mem ∧ r2.2.mem = m₂.mem) ∨
      (r1.1 = 0 ∧ r2.1 = 0 ∧ ∃ F', F ⊆ F' ∧ Twins kt₁ kt₂ c₁ c₂ d F' r1.2 r2.2 ∧
        pteAt r1.2.mem d (va / 4096) / 4096 = f ∧
        ∀ v, 32768 ≤ v ∧ v < 2 ^ 20 → pteAt r1.2.mem d v / 4096 = f ∨
          pteAt r1.2.mem d v = pteAt m₁.mem d v))
      (uvmMap m₁ (d * 4096) va (f * 4096) flags) (uvmMap m₂ (d * 4096) va (f * 4096) flags) := by
  have hor : flags ||| pagePresent < 4096 := Nat.or_lt_two_pow (n := 12) hflags (by decide)
  have hlow := (h.left.frames f hf).1
  have hw : f * 4096 ||| (flags ||| pagePresent) < 2 ^ 32 :=
    mul_or_lt (by unfold Low at hlow; omega) hor
  refine rel_bind (h.uvmTable (show 32 ≤ va / 2 ^ 22 by omega) (by omega)) ?_
  rintro ⟨pt1, n1⟩ ⟨pt2, n2⟩ hr
  obtain ⟨rfl, rfl, hmem1, hmem2⟩ | ⟨t, F', hsub, ht, htd, rfl, rfl, htwins, hp, htab, hpte⟩ := hr
  · exact .some (.inl ⟨rfl, rfl, hmem1, hmem2⟩)
  · have hj : va / 2 ^ 12 % 1024 < 1024 := Nat.mod_lt _ (by decide)
    have hlowt := (htwins.left.frames t ht).1
    dsimp only
    rw [htwins.left.mapped.kstore32 hlowt hj, htwins.right.mapped.kstore32 hlowt hj, frameAddr_mul]
    refine .some (.inr ⟨rfl, rfl, F', hsub, htwins.setPte ht htd hj, ?_, fun v hv => ?_⟩)
    · dsimp only
      rw [pteAt_setPte htd hj hw (by omega), if_pos, mul_or_div hor]
      rw [show va / 4096 / 1024 = va / 2 ^ 22 by omega]
      exact ⟨hp, htab, by omega⟩
    · dsimp only
      rw [pteAt_setPte htd hj hw hv.2]
      split
      · rw [mul_or_div hor]
        exact .inl rfl
      · exact .inr (hpte v hv)

/-! ## the segment loop -/

/-- Two states of the segment loop.  As long as the load goes on, the pages mapped so far lie
in frames on which the machines agree. -/
structure TwinImages (kt₁ kt₂ : Nat → Nat) (c₁ c₂ d : Nat) (st₁ st₂ : Image) : Prop where
  failed : st₂.failed = st₁.failed
  fs : st₂.fs = st₁.fs
  mapped : st₂.mapped = st₁.mapped
  same : ∀ va ∈ st₁.mapped, pteAt st₂.machine.mem d (va / 4096) =
    pteAt st₁.machine.mem d (va / 4096) ∧
    page st₂.machine.mem (pteAt st₁.machine.mem d (va / 4096) / 4096) =
      page st₁.machine.mem (pteAt st₁.machine.mem d (va / 4096) / 4096)
  twins : st₁.failed = false → ∃ F, Twins kt₁ kt₂ c₁ c₂ d F st₁.machine st₂.machine ∧
    ∀ va ∈ st₁.mapped, 0x08000000 ≤ va ∧ va < 2 ^ 32 ∧
      pteAt st₁.machine.mem d (va / 4096) / 4096 ∈ F

/-- Twins with the mapped pages in their frames show the same image. -/
theorem Twins.same (h : Twins kt₁ kt₂ c₁ c₂ d F m₁ m₂) (hlo : 0x08000000 ≤ va) (hhi : va < 2 ^ 32)
    (hf : pteAt m₁.mem d (va / 4096) / 4096 ∈ F) :
    pteAt m₂.mem d (va / 4096) = pteAt m₁.mem d (va / 4096) ∧
      page m₂.mem (pteAt m₁.mem d (va / 4096) / 4096) =
        page m₁.mem (pteAt m₁.mem d (va / 4096) / 4096) :=
  ⟨pteAt_congr (h.word_eq h.left.dir (by omega)) fun hp =>
    h.pages _ (h.left.tables _ (by omega) (by omega) hp).1, h.pages _ hf⟩

theorem Phdr.pteFlags_lt (ph : Phdr) : ph.pteFlags < 4096 := by
  unfold Phdr.pteFlags
  split <;> decide

theorem elfPage_of_alloc_zero {pd : Nat} {idx : Int} {ph : Phdr} {st : Image}
    (hf : st.failed = false) (h0 : st.machine.alloc.1 = 0) :
    elfPage pd idx ph va st = some { st with failed := true, machine := st.machine.alloc.2 } := by
  unfold elfPage
  rw [if_neg (by simp [hf])]
  exact if_pos h0

/-- A page with its frame: filling it, and what comes then. -/
theorem elfPage_of_alloc {pd : Nat} {idx : Int} {ph : Phdr} {st : Image} (hf : st.failed = false)
    (hf0 : f ≠ 0) (halloc : st.machine.alloc = (f * 4096, m)) :
    elfPage pd idx ph va st =
      ((zeroPage m (f * 4096)).bind fun m =>
        storeBytes m (f * 4096 + (ph.copyLo va - va)) (ph.readPage st.fs idx va).1.2).bind fun m =>
          if (ph.readPage st.fs idx va).1.1 < 0 then
            some { st with failed := true, machine := m, fs := (ph.readPage st.fs idx va).2 }
          else (uvmMap m pd va (f * 4096) ph.pteFlags).map fun r =>
            if r.1 < 0 then
              { st with failed := true, machine := r.2, fs := (ph.readPage st.fs idx va).2 }
            else ⟨false, r.2, (ph.readPage st.fs idx va).2, st.mapped ++ [va]⟩ := by
  unfold elfPage
  rw [if_neg (by simp [hf]), halloc]
  rw [if_neg (by omega), bind_assoc]

/-- A page is loaded in both machines. -/
theorem TwinImages.elfPage (h : TwinImages kt₁ kt₂ c₁ c₂ d st₁ st₂) {idx : Int} {ph : Phdr}
    (hpage : ph.vaPage ≤ va) (hlo : 0x08000000 ≤ va) (hhi : va < 2 ^ 32) :
    Option.Rel (TwinImages kt₁ kt₂ c₁ c₂ d) (elfPage (d * 4096) idx ph va st₁)
      (elfPage (d * 4096) idx ph va st₂) := by
  cases hf : st₁.failed with
  | true =>
    rw [elfPage_failed hf, elfPage_failed (h.failed.trans hf)]
    exact .some h
  | false =>
    have hf2 := h.failed.trans hf
    obtain ⟨F, htwins, hframes⟩ := h.twins hf
    obtain ⟨halloc1, halloc⟩ := htwins.alloc
    by_cases h0 : st₁.machine.alloc.1 = 0
    · rw [elfPage_of_alloc_zero hf h0, elfPage_of_alloc_zero hf2 (halloc1.trans h0)]
      exact .some ⟨rfl, h.fs, h.mapped, h.same, fun hno => by cases hno⟩
    obtain ⟨f, hfmax, hf0, hfree, halloc₁⟩ := Machine.alloc_spec h0
    have hfree2 : pageIsFree st₂.machine.pmm f := by rw [htwins.pmm]; exact hfree
    rw [elfPage_of_alloc hf hf0 halloc₁, elfPage_of_alloc hf2 hf0 (halloc f halloc₁), h.fs]
    by_cases hlow : Low f
    · obtain ⟨mem1, mem2, hrun1, hrun2, honly1, htwins'⟩ :=
        htwins.freshPage hlow hfree (ph.length_readPage st₁.fs idx hpage)
      have hpte : ∀ v, 32768 ≤ v ∧ v < 2 ^ 20 → pteAt mem1 d v = pteAt st₁.machine.mem d v :=
        fun v hv =>
        htwins.left.pteAt_onlyFrame (htwins.left.not_mem hfree) honly1 hv
      -- the old pages, in the frames of the new state
      have hold : ∀ u ∈ st₁.mapped, 0x08000000 ≤ u ∧ u < 2 ^ 32 ∧
          pteAt mem1 d (u / 4096) / 4096 ∈ insert f F :=
        fun u hu => by
          obtain ⟨hulo, huhi, huF⟩ := hframes u hu
          rw [hpte _ (by omega)]
          exact ⟨hulo, huhi, mem_insert_of_mem f huF⟩
      have hsame := fun u hu => htwins'.same (hold u hu).1 (hold u hu).2.1 (hold u hu).2.2
      rw [hrun1, hrun2, bind_some, bind_some]
      split
      · exact .some ⟨rfl, rfl, h.mapped, hsame, fun hno => by cases hno⟩
      refine rel_map (htwins'.uvmMap hlo hhi (mem_insert f F) ph.pteFlags_lt) ?_
      rintro ⟨ret1, n1⟩ ⟨ret2, n2⟩
        (⟨hr1, hr2, hmem1, hmem2⟩ | ⟨hr1, hr2, F', hsub, htwins2, hnew, hother⟩)
      · dsimp only at hr1 hr2 hmem1 hmem2
        subst hr1 hr2
        refine ⟨rfl, rfl, h.mapped, fun u hu => ?_, fun hno => by cases hno⟩
        dsimp only
        rw [if_pos (by decide), if_pos (by decide)]
        rw [hmem1, hmem2]
        exact hsame u hu
      · dsimp only at hr1 hr2 htwins2 hnew hother
        subst hr1 hr2
        have hall : ∀ u ∈ st₁.mapped ++ [va], 0x08000000 ≤ u ∧ u < 2 ^ 32 ∧
            pteAt n1.mem d (u / 4096) / 4096 ∈ F' := by
          intro u hu
          rcases List.mem_append.mp hu with hu | hu
          · obtain ⟨hulo, huhi, huF⟩ := hold u hu
            refine ⟨hulo, huhi, ?_⟩
            obtain heq | heq := hother (u / 4096) (by omega)
            · rw [heq]
              exact hsub (mem_insert f F)
            · rw [heq]
              exact hsub huF
          · obtain rfl := List.mem_singleton.mp hu
            rw [hnew]
            exact ⟨hlo, hhi, hsub (mem_insert f F)⟩
        refine ⟨rfl, rfl, ?_, fun u hu => ?_, fun _ => ⟨F', htwins2, hall⟩⟩
        · dsimp only
          rw [if_neg (by decide), if_neg (by decide), h.mapped]
        · exact htwins2.same (hall u hu).1 (hall u hu).2.1 (hall u hu).2.2
    · have hnone : ∀ {m : Machine} {kt : Nat → Nat} {c : Nat}, LoadReady m kt c d F →
          pageIsFree m.pmm f = true →
          zeroPage { m with pmm := m.pmm.grant f } (f * 4096) = none := fun hm hfree =>
        zeroPage_none (hm.high f hfmax hlow hfree)
      rw [hnone htwins.left hfree, hnone htwins.right hfree2]
      exact .none

theorem TwinImages.elfSegment (h : TwinImages kt₁ kt₂ c₁ c₂ d st₁ st₂) {idx : Int}
    {phBuf1 phBuf2 : Bytes} (hph : phdr phBuf2 i = phdr phBuf1 i) :
    Option.Rel (TwinImages kt₁ kt₂ c₁ c₂ d) (elfSegment (d * 4096) idx phBuf1 i st₁)
      (elfSegment (d * 4096) idx phBuf2 i st₂) := by
  unfold AliOS.elfSegment
  dsimp only
  rw [hph, h.failed]
  generalize phdr phBuf1 i = ph
  split_ifs with hf htype hmem hstart
  · exact .some h
  · exact .some h
  · exact .some h
  · refine forRangeM_rel _ h fun n s t _ hn hst => hst.elfPage (Nat.le_add_right _ _) ?_ ?_
    · unfold UserAddr at hstart
      unfold Phdr.vaPage
      omega
    · have hlt := @Phdr.page_lt n ph (by unfold Phdr.pages; omega)
      have hend : ph.vaEnd ≤ 2 ^ 32 := by
        unfold Phdr.vaEnd
        omega
      omega
  · exact .some ⟨rfl, h.fs, h.mapped, h.same, fun hno => by cases hno⟩

end

/-! ## a new directory -/

/-- The tables of the kernel's high half. -/
def kernelTables (mem : Bytes) (k : Nat) : Set Nat :=
  {f | ∃ j, 768 ≤ j ∧ j < 800 ∧ hasFlag (word mem k j) pagePresent = true ∧ f = word mem k j / 4096}

/-- What `uvm_create` has made can be filled. -/
theorem KernelMaps.loadReady {m₀ : Machine} {kt : Nat → Nat} {k d : Nat} (hk : KernelMaps m₀ kt c k)
    (htables : ∀ f ∈ kernelTables m₀.mem k, Low f ∧ pageIsFree m₀.pmm f = false ∧
      ¬Walked m₀.mem c f)
    (hd : d ≠ 0) (h : AliOS.uvmCreate m₀ = some (d * 4096, m)) :
    LoadReady m kt c d (insert d (kernelTables m₀.mem k)) := by
  obtain ⟨d', hdd, hnew, hwords⟩ := newSpace_uvmCreate hk (by omega) h
  obtain rfl : d' = d := by omega
  have hused := hnew.untouched.used
  have hc := hnew.untouched.pages c hk.usedDir.1
  have hwalked : ∀ f, Walked m.mem c f → pageIsFree m₀.pmm f = false := fun f hf => by
    rcases (walked_congr hc f).mp hf with rfl | ⟨i, hi, hp, rfl⟩
    · exact hk.usedDir.1
    · exact hk.usedOther i (by omega) hp
  refine ⟨hk.idMapped hnew.untouched, fun f hf => (hused f (hwalked f hf)).1, fun f hf => ?_,
    mem_insert d' _, fun i hlo hhi hp => ?_, fun f hf hhigh hfree => ?_⟩
  · rcases mem_insert_iff.mp hf with rfl | hf
    · refine ⟨hnew.low, hnew.used, fun hw => ?_⟩
      have hfree := hnew.fresh
      rw [hwalked f hw] at hfree
      cases hfree
    · obtain ⟨hlow, huse, hno⟩ := htables f hf
      exact ⟨hlow, (hused f huse).1, fun hw => hno ((walked_congr hc f).mp hw)⟩
  · rw [hwords i hhi] at hp ⊢
    split_ifs at hp ⊢ with hkernel
    · have hmem : word m₀.mem k i / 4096 ∈ kernelTables m₀.mem k := ⟨i, by omega, by omega, hp, rfl⟩
      refine ⟨mem_insert_of_mem _ hmem, fun heq => ?_⟩
      have huse := (htables _ hmem).2.1
      rw [heq, hnew.fresh] at huse
      cases huse
    · exact absurd hp (by decide)
  · by_contra hw
    exact hhigh (hk.low_of_kwrite hnew.untouched hf (hnew.untouched.free hfree) hw)

end AliOS
