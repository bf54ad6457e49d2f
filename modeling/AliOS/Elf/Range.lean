import AliOS.Alfs.Transfer
import AliOS.Elf
import AliOS.Fault.Returns
import AliOS.Uvm.Teardown

/-!
# AliOS.Elf.Range

Where `elf_load` maps.  It checks where a segment starts, not where it ends.  The first page
of a segment lies in user space, but the loop over its pages goes on to the rounded end,
also past 3 GB, where the page tables are the kernel's.  With all ends in user space nothing
that was in use before is written: `NewSpace`, the invariant of a directory under
construction, is kept by each page.
-/

namespace AliOS

open Lib Function List Option

variable {n f va : Nat}

/-! ## one page -/

section

variable {pd : Nat} {idx : Int} {ph : Phdr} {va : Nat} {st st' : Image}

theorem uvmMap_ret {m m' : Machine} {virt phys flags : Nat} {ret : Int}
    (h : uvmMap m pd virt phys flags = some (ret, m')) : ret = 0 ∨ ret = -1 := by
  obtain ⟨⟨pt, m₁⟩, -, h⟩ := bind_eq_some_iff.mp h
  cases pt with
  | none =>
    simp only [some.injEq, Prod.mk.injEq] at h
    exact .inr h.1.symm
  | some pt =>
    obtain ⟨m₂, -, h⟩ := map_eq_some_iff.mp h
    simp only [Prod.mk.injEq] at h
    exact .inl h.1.symm

/-- The ways a page can go: out of memory, or the frame is filled and then the read has
failed, there is no memory for a page table, or the page is mapped. -/
theorem elfPage_cases (h : elfPage pd idx ph va st = some st') (hf : st.failed = false) :
    st.machine.alloc.1 = 0 ∧ st' = { st with failed := true, machine := st.machine.alloc.2 } ∨
    st.machine.alloc.1 ≠ 0 ∧ ∃ m₁ m₂, zeroPage st.machine.alloc.2 st.machine.alloc.1 = some m₁ ∧
      storeBytes m₁ (st.machine.alloc.1 + (ph.copyLo va - va)) (ph.readPage st.fs idx va).1.2 =
        some m₂ ∧
      (st' = { st with failed := true, machine := m₂, fs := (ph.readPage st.fs idx va).2 } ∨
        0 ≤ (ph.readPage st.fs idx va).1.1 ∧
        ∃ ret m3, uvmMap m₂ pd va st.machine.alloc.1 ph.pteFlags = some (ret, m3) ∧
          (ret = -1 ∧
            st' = { st with failed := true, machine := m3, fs := (ph.readPage st.fs idx va).2 } ∨
            ret = 0 ∧ st' = ⟨false, m3, (ph.readPage st.fs idx va).2, st.mapped ++ [va]⟩)) := by
  unfold elfPage at h
  rw [if_neg (by simp [hf])] at h
  by_cases h0 : st.machine.alloc.1 = 0
  · rw [if_pos h0] at h
    exact .inl ⟨h0, (some.inj h).symm⟩
  rw [if_neg h0] at h
  obtain ⟨m₁, hzero, h⟩ := bind_eq_some_iff.mp h
  obtain ⟨m₂, hstore, h⟩ := bind_eq_some_iff.mp h
  refine .inr ⟨h0, m₁, m₂, hzero, hstore, ?_⟩
  split at h
  · exact .inl (some.inj h).symm
  · next hread =>
    obtain ⟨⟨ret, m3⟩, hmap, h⟩ := map_eq_some_iff.mp h
    refine .inr ⟨Int.not_lt.mp hread, ret, m3, hmap, ?_⟩
    rcases uvmMap_ret hmap with rfl | rfl
    · exact .inr ⟨rfl, h.symm⟩
    · exact .inl ⟨rfl, h.symm⟩

theorem elfPage_failed (h : st.failed) : elfPage pd idx ph va st = some st := if_pos h

/-- A page is mapped, or the load has failed. -/
theorem elfPage_mapped (h : elfPage pd idx ph va st = some st') (hf : st.failed = false) :
    st'.failed ∧ st'.mapped = st.mapped ∨ st'.failed = false ∧ st'.mapped = st.mapped ++ [va] := by
  obtain ⟨-, rfl⟩ | ⟨-, m₁, m₂, -, -, rfl | ⟨-, ret, m3, -, ⟨-, rfl⟩ | ⟨-, rfl⟩⟩⟩ :=
    elfPage_cases h hf
  · exact .inl ⟨rfl, rfl⟩
  · exact .inl ⟨rfl, rfl⟩
  · exact .inl ⟨rfl, rfl⟩
  · exact .inr ⟨rfl, rfl⟩

/-! ## the pages of a segment -/

/-- A segment the loader takes pages for. -/
def Phdr.Loads (ph : Phdr) : Prop := ph.type = ptLoad ∧ ph.memsz ≠ 0

/-- How many. -/
def Phdr.pages (ph : Phdr) : Nat := (ph.vaEnd - ph.vaPage) / 4096

theorem Phdr.page_lt (h : n < ph.pages) : ph.vaPage + 4096 * n < ph.vaEnd := by
  unfold Phdr.pages at h
  omega

/-- A segment that starts below 3 GB and ends above has the page at 3 GB. -/
theorem Phdr.page_at_end (hlo : ph.vaddr < 0xC0000000) (hhi : 0xC0000000 < ph.vaEnd) :
    ∃ n < ph.pages, ph.vaPage + 4096 * n = 0xC0000000 := by
  unfold Phdr.pages
  refine ⟨(0xC0000000 - ph.vaPage) / 4096, ?_, ?_⟩
  · unfold Phdr.vaPage Phdr.vaEnd at *
    omega
  · unfold Phdr.vaPage
    omega

theorem userAddr_page (hstart : UserAddr ph.vaddr) (hend : ph.vaEnd ≤ 0xC0000000)
    (hn : n < ph.pages) :
    UserAddr (ph.vaPage + 4096 * n) := by
  have hlt := Phdr.page_lt hn
  unfold UserAddr at *
  unfold Phdr.vaPage at *
  omega

/-- The loop over the pages: what has been mapped, and that all have been if it did not
fail. -/
theorem elfPages_mapped (h : forRangeM (fun n => elfPage pd idx ph (ph.vaPage + 4096 * n)) 0 n st =
    some st') :
    (∀ a ∈ st'.mapped, a ∈ st.mapped ∨ ∃ j < n, a = ph.vaPage + 4096 * j) ∧
      (st'.failed = false → (∀ a ∈ st.mapped, a ∈ st'.mapped) ∧
        ∀ j < n, ph.vaPage + 4096 * j ∈ st'.mapped) := by
  have hrun := forRangeM_induct
    (fun i t => (∀ a ∈ t.mapped, a ∈ st.mapped ∨ ∃ j < i, a = ph.vaPage + 4096 * j) ∧
    (t.failed = false → (∀ a ∈ st.mapped, a ∈ t.mapped) ∧ ∀ j < i, ph.vaPage + 4096 * j ∈ t.mapped))
      h
    ⟨fun a ha => .inl ha, fun _ => ⟨fun a ha => ha, fun j hj => absurd hj (Nat.not_lt_zero j)⟩⟩
    fun i t t' _ _ ⟨hin, hall⟩ hstep => ?_
  · rwa [Nat.zero_add] at hrun
  have hin' : ∀ a ∈ t.mapped, a ∈ st.mapped ∨ ∃ j < i + 1, a = ph.vaPage + 4096 * j := fun a ha =>
    (hin a ha).imp_right fun ⟨j, _, heq⟩ => ⟨j, by omega, heq⟩
  cases hft : t.failed with
  | true =>
    obtain rfl : t = t' := some.inj ((elfPage_failed hft).symm.trans hstep)
    exact ⟨hin', fun hf' => by rw [hft] at hf'; cases hf'⟩
  | false =>
    obtain ⟨hf', hmapped⟩ | ⟨-, hmapped⟩ := elfPage_mapped hstep hft
    · rw [hmapped]
      exact ⟨hin', fun hno => by rw [hf'] at hno; cases hno⟩
    · rw [hmapped]
      refine ⟨fun a ha => ?_, fun _ => ⟨fun a ha => mem_append_left _ ((hall hft).1 a ha),
        fun j hj => ?_⟩⟩
      · rcases mem_append.mp ha with ha | ha
        · exact hin' a ha
        · exact .inr ⟨i, by omega, mem_singleton.mp ha⟩
      · rcases Nat.lt_succ_iff_lt_or_eq.mp hj with hlt | rfl
        · exact mem_append_left _ ((hall hft).2 j hlt)
        · exact mem_append_right _ (mem_singleton_self _)

/-- The ways a segment can go: the load has failed before, nothing is to be done, the start
is refused, or the pages are loaded. -/
theorem elfSegment_cases {phBuf : Bytes} {i : Nat} (h : elfSegment pd idx phBuf i st = some st') :
    st.failed ∧ st' = st ∨ st.failed = false ∧
      (¬(phdr phBuf i).Loads ∧ st' = st ∨ (phdr phBuf i).Loads ∧
        (¬UserAddr (phdr phBuf i).vaddr ∧ st' = { st with failed := true } ∨
          UserAddr (phdr phBuf i).vaddr ∧
          forRangeM (fun n => elfPage pd idx (phdr phBuf i) ((phdr phBuf i).vaPage + 4096 * n)) 0
            (phdr phBuf i).pages st = some st')) := by
  unfold elfSegment at h
  cases hf : st.failed with
  | true =>
    rw [if_pos hf] at h
    exact .inl ⟨rfl, (some.inj h).symm⟩
  | false =>
    refine .inr ⟨rfl, ?_⟩
    rw [if_neg (by simp [hf])] at h
    by_cases htype : (phdr phBuf i).type = ptLoad
    · rw [if_neg (not_not.mpr htype)] at h
      by_cases hmem : (phdr phBuf i).memsz = 0
      · rw [if_pos hmem] at h
        exact .inl ⟨fun hl => hl.2 hmem, (some.inj h).symm⟩
      · rw [if_neg hmem] at h
        refine .inr ⟨⟨htype, hmem⟩, ?_⟩
        by_cases hstart : UserAddr (phdr phBuf i).vaddr
        · rw [if_neg (not_not.mpr hstart)] at h
          exact .inr ⟨hstart, h⟩
        · rw [if_pos hstart] at h
          exact .inl ⟨hstart, (some.inj h).symm⟩
    · rw [if_pos htype] at h
      exact .inl ⟨fun hl => htype hl.1, (some.inj h).symm⟩

/-! ## the segments of a file -/

/-- Every segment the loader comes to ends in user space. -/
def SegmentsEnd (phBuf : Bytes) (phnum : Nat) : Prop :=
  ∀ i < phnum, (∀ j ≤ i, (phdr phBuf j).Loads → UserAddr (phdr phBuf j).vaddr) →
    (phdr phBuf i).Loads →
    (phdr phBuf i).vaEnd ≤ 0xC0000000

/-- What the loop over the program headers keeps: all mapped addresses are user addresses,
and the segments so far had good starts, or the load has failed. -/
theorem elfSegments_inside {phBuf : Bytes} (hend : SegmentsEnd phBuf n) (hst : st.mapped = [])
    (h : forRangeM (elfSegment pd idx phBuf) 0 n st = some st') : ∀ a ∈ st'.mapped, UserAddr a := by
  have hrun := forRangeM_induct (fun i t => (∀ a ∈ t.mapped, UserAddr a) ∧
    (t.failed = false → ∀ j < i, (phdr phBuf j).Loads → UserAddr (phdr phBuf j).vaddr)) h
    ⟨by simp [hst], fun _ j hj => absurd hj (Nat.not_lt_zero j)⟩ fun i t t' _ hi ⟨hin,
      hstart⟩ hstep => ?_
  · exact hrun.1
  rw [Nat.zero_add] at hi
  -- the starts up to this segment, given its own
  have hstart' : t.failed = false → ((phdr phBuf i).Loads → UserAddr (phdr phBuf i).vaddr) →
      ∀ j ≤ i, (phdr phBuf j).Loads → UserAddr (phdr phBuf j).vaddr := by
    intro hf hown j hj
    rcases Nat.lt_or_eq_of_le hj with hlt | rfl
    · exact hstart hf j hlt
    · exact hown
  obtain ⟨hf, rfl⟩ | ⟨hf, ⟨hno, rfl⟩ | ⟨hl, ⟨-, rfl⟩ | ⟨hown, hpages⟩⟩⟩ := elfSegment_cases hstep
  · exact ⟨hin, fun hno => by rw [hf] at hno; cases hno⟩
  · exact ⟨hin, fun hf j hj => hstart' hf (fun hl => absurd hl hno) j (Nat.le_of_lt_succ hj)⟩
  · exact ⟨hin, fun hno => by cases hno⟩
  · have hstarts := hstart' hf fun _ => hown
    refine ⟨fun a ha => ?_, fun _ j hj => hstarts j (Nat.le_of_lt_succ hj)⟩
    obtain hold | ⟨j, hj, rfl⟩ := (elfPages_mapped hpages).1 a ha
    · exact hin a hold
    · exact userAddr_page hown (hend i hi hstarts hl) hj

/-- A load that did not fail has mapped all pages of all segments. -/
theorem elfSegments_complete {phBuf : Bytes}
    (h : forRangeM (elfSegment pd idx phBuf) 0 n st = some st') (hf' : st'.failed = false) :
    ∀ i < n, (phdr phBuf i).Loads → UserAddr (phdr phBuf i).vaddr ∧
      ∀ j < (phdr phBuf i).pages, (phdr phBuf i).vaPage + 4096 * j ∈ st'.mapped := by
  have hrun := forRangeM_induct (fun i t => t.failed = false → ∀ i' < i, (phdr phBuf i').Loads →
    UserAddr (phdr phBuf i').vaddr ∧ ∀ j < (phdr phBuf i').pages,
    (phdr phBuf i').vaPage + 4096 * j ∈ t.mapped) h
    (fun _ j hj => absurd hj (Nat.not_lt_zero j)) fun i t t' _ _ hall hstep => ?_
  · rw [Nat.zero_add] at hrun
    exact hrun hf'
  obtain ⟨hf, rfl⟩ | ⟨hf, ⟨hno, rfl⟩ | ⟨-, ⟨-, rfl⟩ | ⟨hown, hpages⟩⟩⟩ := elfSegment_cases hstep
  · exact fun hno => by rw [hf] at hno; cases hno
  · intro _ i' hi' hl
    rcases Nat.lt_succ_iff_lt_or_eq.mp hi' with hlt | rfl
    · exact hall hf i' hlt hl
    · exact absurd hl hno
  · exact fun hno => by cases hno
  · intro hft i' hi' hl
    obtain ⟨hold, hnew⟩ := (elfPages_mapped hpages).2 hft
    rcases Nat.lt_succ_iff_lt_or_eq.mp hi' with hlt | rfl
    · exact ⟨(hall hf i' hlt hl).1, fun j hj => hold _ ((hall hf i' hlt hl).2 j hj)⟩
    · exact ⟨hown, hnew⟩

end

/-! ## the tables shared with the kernel -/

/-- The entries of directory `d` that are shared with the kernel, and the tables behind them, are in
`m'` as in `m`. -/
def SharedKept (m m' : Machine) (d : Nat) : Prop :=
  ∀ i < 1024, i < 32 ∨ 768 ≤ i → word m'.mem d i = word m.mem d i ∧
    (hasFlag (word m.mem d i) pagePresent = true →
      page m'.mem (word m.mem d i / 4096) = page m.mem (word m.mem d i / 4096))

section

variable {m₀ m m' : Machine} {kt : Nat → Nat} {c k d : Nat}

/-- The zeroing of a frame in the identity map. -/
theorem IdMapped.zeroPage (h : IdMapped m kt c) (hlow : Low f) (hout : Outside kt c f) :
    ∃ mem', AliOS.zeroPage m (f * 4096) = some { m with mem := mem' } ∧ OnlyFrame f m.mem mem' ∧
      ∀ j < 4096, mem' (f * 4096 + j) = 0 := by
  obtain ⟨t, hrun, mem', rfl, honly, hzero⟩ := forRangeM_total
    (fun i t => ∃ mem', t = { m with mem := mem' } ∧ OnlyFrame f m.mem mem' ∧
      ∀ j < i, mem' (f * 4096 + j) = 0)
    (f := fun i m => AliOS.kstore8 m (f * 4096 + i) 0) (a := 0) (n := 4096) (s := m)
    ⟨m.mem, rfl, .refl f _, fun j hj => absurd hj (Nat.not_lt_zero j)⟩
    fun i t _ hi ⟨mem', ht, honly, hzero⟩ => by
      subst ht
      refine ⟨_, (h.onlyFrame hout honly).kstore8 hlow (by omega) 0, _, rfl,
        honly.trans (onlyFrame_update mem' f (by omega) 0), fun j hj => ?_⟩
      rcases Nat.lt_succ_iff_lt_or_eq.mp hj with hlt | rfl
      · rw [update_of_ne (by omega)]
        exact hzero j hlt
      · rw [update_self]
  exact ⟨mem', hrun, honly, hzero⟩

/-- The filling of a frame in the identity map. -/
theorem IdMapped.storeBytes (h : IdMapped m kt c) {off : Nat} (hlow : Low f) (hout : Outside kt c f)
    {bs : List UInt8} (hlen : off + bs.length ≤ 4096) :
    ∃ mem', AliOS.storeBytes m (f * 4096 + off) bs = some { m with mem := mem' } ∧
      OnlyFrame f m.mem mem' ∧
      ∀ j < 4096, mem' (f * 4096 + j) =
        if off ≤ j ∧ j < off + bs.length then bs.getD (j - off) 0 else m.mem (f * 4096 + j) := by
  induction bs generalizing m off with
  | nil =>
    refine ⟨m.mem, rfl, .refl f _, fun j _ => ?_⟩
    rw [if_neg (by simp)]
  | cons b bs ih =>
    rw [length_cons] at hlen
    have hmod : (f * 4096 + off) % 2 ^ 32 = f * 4096 + off := by
      unfold Low at hlow
      exact Nat.mod_eq_of_lt (by omega)
    have honly := onlyFrame_update m.mem f (show off < 4096 by omega) b
    have hlen' : off + 1 + bs.length ≤ 4096 := by omega
    obtain ⟨mem', hrun, honly', hbytes⟩ := ih (h.onlyFrame hout honly) hlen'
    refine ⟨mem', ?_, honly.trans honly', fun j hj => ?_⟩
    · rw [AliOS.storeBytes, hmod, h.kstore8 hlow (by omega), bind_some, Nat.add_assoc]
      exact hrun
    · rw [hbytes j hj, length_cons]
      dsimp only
      by_cases hj0 : j = off
      · subst hj0
        rw [if_neg (by omega), update_self, if_pos (by omega), Nat.sub_self]
        rfl
      · rw [update_of_ne (by omega)]
        by_cases hin : off + 1 ≤ j ∧ j < off + 1 + bs.length
        · rw [if_pos hin, if_pos (by omega), show j - off = j - (off + 1) + 1 by omega,
            getD_cons_succ]
        · rw [if_neg hin, if_neg (by omega)]

/-- Both: the frame holds the bytes, and zeros around them. -/
theorem IdMapped.freshPage (h : IdMapped m kt c) {off : Nat} (hlow : Low f) (hout : Outside kt c f)
    {bs : List UInt8} (hlen : off + bs.length ≤ 4096) (s : Pmm) :
    ∃ mem', ((AliOS.zeroPage { m with pmm := s } (f * 4096)).bind fun m => AliOS.storeBytes m
      (f * 4096 + off) bs) =
        some { m with mem := mem', pmm := s } ∧ OnlyFrame f m.mem mem' ∧
      ∀ j < 4096, mem' (f * 4096 + j) = if off ≤ j ∧
        j < off + bs.length then bs.getD (j - off) 0 else 0 := by
  have hid : IdMapped { m with pmm := s } kt c := ⟨h.cr3, h.dir, h.tables⟩
  obtain ⟨mem1, hzero, honly, hbytes⟩ := hid.zeroPage hlow hout
  obtain ⟨mem2, hstore, honly', hbytes'⟩ := (hid.onlyFrame hout honly).storeBytes hlow hout hlen
  refine ⟨mem2, ?_, honly.trans honly', fun j hj => ?_⟩
  · rw [hzero, bind_some, hstore]
  · rw [hbytes' j hj]
    dsimp only
    rw [hbytes j hj]

/-- A frame is taken, which is not the directory. -/
theorem NewSpace.grant (h : NewSpace m₀ m kt d) (hfree : pageIsFree m.pmm f) :
    f ≠ d ∧ NewSpace m₀ { m with pmm := m.pmm.grant f } kt d := by
  refine ⟨?_, h.untouched.alloc hfree, h.low, h.fresh, by simp [h.used], h.dir, h.tables⟩
  rintro rfl
  rw [h.used] at hfree
  cases hfree

/-- A fresh frame is written. -/
theorem NewSpace.fill (h : NewSpace m₀ m kt d) (hf : pageIsFree m₀.pmm f) (hfd : f ≠ d)
    {mem' : Bytes} (honly : OnlyFrame f m.mem mem') : NewSpace m₀ { m with mem := mem' } kt d where
  untouched := h.untouched.write hf honly
  low := h.low
  fresh := h.fresh
  used := h.used
  dir := h.dir.congr (honly d (Ne.symm hfd))
  tables i hlo hhi hp := by
    rw [word_congr (by omega) (honly d (Ne.symm hfd))] at hp ⊢
    exact h.tables i hlo hhi hp

theorem uvmMap_failed {pd virt phys flags : Nat} (h : uvmMap m pd virt phys flags = some (-1, m')) :
    m'.mem = m.mem := by
  obtain ⟨⟨pt, m₁⟩, htab, h⟩ := bind_eq_some_iff.mp h
  cases pt with
  | some pt =>
    simp at h
  | none =>
    obtain rfl : m₁ = m' := congrArg Prod.snd (some.inj h)
    obtain ⟨pde, -, htab⟩ := bind_eq_some_iff.mp htab
    split at htab
    · simp at htab
    · dsimp only at htab
      split at htab
      · obtain rfl : m.alloc.2 = m₁ := congrArg Prod.snd (some.inj htab)
        rfl
      · obtain ⟨m₂, -, htab⟩ := bind_eq_some_iff.mp htab
        simp at htab

theorem Phdr.length_readPage (ph : Phdr) (fs : Fs) (idx : Int) (hpage : ph.vaPage ≤ va) :
    ph.copyLo va - va + (ph.readPage fs idx va).1.2.length ≤ 4096 := by
  have hlo : va ≤ ph.copyLo va ∧ ph.copyLo va - va < 4096 := by
    unfold Phdr.copyLo
    unfold Phdr.vaPage at hpage
    split <;> omega
  have hhi : ph.copyHi va ≤ va + 4096 := by
    unfold Phdr.copyHi
    split <;> omega
  unfold Phdr.readPage
  split
  · have := length_alfsPread_le fs idx (ph.copyHi va - ph.copyLo va)
      ((ph.offset + (ph.copyLo va - ph.vaddr)) % 2 ^ 32)
    omega
  · simp only [length_nil]
    omega

/-- What loading leaves alone: the frames in use before the directory was made, and the
entries of the directory that it shares with the kernel. -/
structure Kept (m₀ m₁ m : Machine) (d : Nat) : Prop where
  pages : ∀ g, pageIsFree m₀.pmm g = false → page m.mem g = page m₀.mem g
  words : ∀ i < 1024, i < 32 ∨ 768 ≤ i → word m.mem d i = word m₁.mem d i

/-- One page in user space. -/
theorem NewSpace.elfPage {m₁ : Machine} {idx : Int} {ph : Phdr} {st st' : Image}
    (hk : KernelMaps m₀ kt c k)
    (h : NewSpace m₀ st.machine kt d) (hkept : Kept m₀ m₁ st.machine d) (hpage : ph.vaPage ≤ va)
    (hva : UserAddr va) (hf : st.failed = false)
    (hrun : elfPage (d * 4096) idx ph va st = some st') :
    (st'.failed = false → NewSpace m₀ st'.machine kt d) ∧ Kept m₀ m₁ st'.machine d := by
  obtain ⟨-, rfl⟩ | ⟨h0, m₂, m3, hzero, hstore, hrest⟩ := elfPage_cases hrun hf
  · exact ⟨by simp, hkept.pages, hkept.words⟩
  obtain ⟨f, hfmax, hf0, hfree, halloc⟩ := Machine.alloc_spec h0
  have hfree0 := h.untouched.free hfree
  obtain ⟨hfd, hnew⟩ := h.grant hfree
  rw [halloc] at hzero hstore hrest
  -- the frame lies in the identity map, or zeroing it would have faulted
  have hlow : Low f := by
    refine hk.low_of_kwrite hnew.untouched hfmax hfree0 fun hw => ?_
    unfold zeroPage at hzero
    rw [forRangeM_succ] at hzero
    unfold kstore8 at hzero
    rw [Nat.add_zero, hw] at hzero
    cases hzero
  obtain ⟨mem2, hzero', honly2, -⟩ :=
    (hk.idMapped hnew.untouched).zeroPage hlow (hk.outside hfree0)
  obtain rfl := some.inj (hzero'.symm.trans hzero)
  have hnew2 := hnew.fill hfree0 hfd honly2
  obtain ⟨mem3, hstore', honly3, -⟩ :=
    (hk.idMapped hnew2.untouched).storeBytes hlow (hk.outside hfree0)
    (ph.length_readPage st.fs idx hpage)
  obtain rfl := some.inj (hstore'.symm.trans hstore)
  have hnew3 := hnew2.fill hfree0 hfd honly3
  have hkept3 : Kept m₀ m₁ { st.machine with mem := mem3, pmm := st.machine.pmm.grant f } d :=
    ⟨hnew3.untouched.pages, fun i hi hshare =>
      (word_congr hi ((honly2.trans honly3) d (Ne.symm hfd))).trans (hkept.words i hi hshare)⟩
  obtain rfl | ⟨-, ret, m4, hmap, ⟨rfl, rfl⟩ | ⟨rfl, rfl⟩⟩ := hrest
  · exact ⟨by simp, hkept3⟩
  · have hmem := uvmMap_failed hmap
    refine ⟨by simp, fun g hg => ?_, fun i hi hshare => ?_⟩
    · dsimp only
      rw [hmem]
      exact hkept3.pages g hg
    · dsimp only
      rw [hmem]
      exact hkept3.words i hi hshare
  · obtain ⟨hnew4, hwords⟩ := hnew3.uvmMap hk hva.1 hva.2 hmap
    refine ⟨fun _ => hnew4, hnew4.untouched.pages, fun i hi hshare => ?_⟩
    refine (hwords i hi ?_).trans (hkept3.words i hi hshare)
    unfold UserAddr at hva
    omega

theorem NewSpace.elfSegments {m₁ : Machine} {idx : Int} {phBuf : Bytes} {fs : Fs} {st' : Image}
    (hk : KernelMaps m₀ kt c k) (h : NewSpace m₀ m₁ kt d) (hend : SegmentsEnd phBuf n)
    (hrun : forRangeM (elfSegment (d * 4096) idx phBuf) 0 n ⟨false, m₁, fs, []⟩ = some st') :
    Kept m₀ m₁ st'.machine d := by
  have hinv := forRangeM_induct (fun i t => Kept m₀ m₁ t.machine d ∧ (t.failed = false →
    NewSpace m₀ t.machine kt d ∧ ∀ j < i, (phdr phBuf j).Loads → UserAddr (phdr phBuf j).vaddr))
      hrun
    ⟨⟨h.untouched.pages, fun _ _ _ => rfl⟩, fun _ => ⟨h, fun j hj => absurd hj (Nat.not_lt_zero j)⟩⟩
    fun i t t' _ hi ⟨hkept, hnew⟩ hstep => ?_
  · exact hinv.1
  rw [Nat.zero_add] at hi
  obtain ⟨hf, rfl⟩ | ⟨hf, ⟨hno, rfl⟩ | ⟨hl, ⟨-, rfl⟩ | ⟨hown, hpages⟩⟩⟩ := elfSegment_cases hstep
  · exact ⟨hkept, fun hno => by rw [hf] at hno; cases hno⟩
  · refine ⟨hkept, fun hf => ⟨(hnew hf).1, fun j hj hl => ?_⟩⟩
    rcases Nat.lt_succ_iff_lt_or_eq.mp hj with hlt | rfl
    · exact (hnew hf).2 j hlt hl
    · exact absurd hl hno
  · exact ⟨hkept, fun hno => by cases hno⟩
  · have hstarts : ∀ j ≤ i, (phdr phBuf j).Loads → UserAddr (phdr phBuf j).vaddr := by
      intro j hj hlj
      rcases Nat.lt_or_eq_of_le hj with hlt | rfl
      · exact (hnew hf).2 j hlt hlj
      · exact hown
    -- the loop over the pages
    have hpage := forRangeM_induct (fun _ u => Kept m₀ m₁ u.machine d ∧
      (u.failed = false → NewSpace m₀ u.machine kt d)) hpages ⟨hkept, fun hf => (hnew hf).1⟩
      fun n u u' _ hn ⟨hkept, hnew⟩ hstep => by
        cases hfu : u.failed with
        | true =>
          obtain rfl := some.inj ((elfPage_failed hfu).symm.trans hstep)
          exact ⟨hkept, hnew⟩
        | false =>
          have hva := userAddr_page hown (hend i hi hstarts hl)
            (show n < (phdr phBuf i).pages by omega)
          exact ((hnew hfu).elfPage hk hkept (by omega) hva hfu hstep).symm
    exact ⟨hpage.1, fun hf => ⟨hpage.2 hf, fun j hj => hstarts j (Nat.le_of_lt_succ hj)⟩⟩

/-! ## elf_load -/

/-- The segments that `elf_load` finds in the file end in user space. -/
def SegmentsInside (fs : Fs) (b : ElfBufs) (filename : CStr) : Prop :=
  ∀ idx fs' b', elfHeaders fs b filename = (some idx, fs', b') →
    SegmentsEnd b'.phBuf (ePhnum b'.hdrBuf)

/-- However it ends, `elf_load` has mapped pages in user space only, and the tables that are
shared with the kernel are as before. -/
def LoadsInside (s : Loader) (d : Nat) (filename : CStr) : Prop :=
  ∀ r s', elfLoad s (d * 4096) filename = some (r, s') →
    (∀ va ∈ r.mapped, UserAddr va) ∧ SharedKept s.machine s'.machine d

/-- `elf_load` is done after the headers, or it is the loop over the segments. -/
theorem elfLoad_cases {s s' : Loader} {pd : Nat} {filename : CStr} {r : ElfResult}
    (h : elfLoad s pd filename = some (r, s')) :
    ((elfHeaders s.fs s.bufs filename).1 = none ∧ r = ⟨none, []⟩ ∧ s'.machine = s.machine) ∨
    ∃ idx fs b st, elfHeaders s.fs s.bufs filename = (some idx, fs, b) ∧
      forRangeM (elfSegment pd idx b.phBuf) 0 (ePhnum b.hdrBuf) ⟨false, s.machine, fs, []⟩ =
        some st ∧
      r = ⟨if st.failed then none else some (eEntry b.hdrBuf), st.mapped⟩ ∧
        s' = ⟨st.machine, st.fs, b⟩ := by
  unfold elfLoad at h
  split at h
  · next fs b heq =>
    obtain ⟨rfl, rfl⟩ := h
    exact .inl ⟨by rw [heq], rfl, rfl⟩
  · next idx fs b heq =>
    obtain ⟨st, hrun, h⟩ := map_eq_some_iff.mp h
    simp only [Prod.mk.injEq] at h
    exact .inr ⟨idx, fs, b, st, heq, hrun, h.1.symm, h.2.symm⟩

theorem elfLoad_succeeded {s s' : Loader} {pd entry : Nat} {filename : CStr} {mapped : List Nat}
    (h : elfLoad s pd filename = some (⟨some entry, mapped⟩, s')) :
    ∃ idx fs b st, elfHeaders s.fs s.bufs filename = (some idx, fs, b) ∧
      forRangeM (elfSegment pd idx b.phBuf) 0 (ePhnum b.hdrBuf) ⟨false, s.machine, fs, []⟩ =
        some st ∧
      st.failed = false ∧ entry = eEntry b.hdrBuf ∧ mapped = st.mapped ∧
        s' = ⟨st.machine, st.fs, b⟩ := by
  obtain ⟨-, hr, -⟩ | ⟨idx, fs, b, st, hhdr, hrun, hr, hs'⟩ := elfLoad_cases h
  · simp at hr
  simp only [ElfResult.mk.injEq] at hr
  obtain ⟨hentry, hmapped⟩ := hr
  cases hf : st.failed with
  | true => simp [hf] at hentry
  | false => exact ⟨idx, fs, b, st, hhdr, hrun, hf, by simpa [hf] using hentry, hmapped, hs'⟩

/-- The tables behind the shared entries of a new directory were in use before it was
made. -/
theorem NewSpace.sharedKept {m₁ : Machine} (h : NewSpace m₀ m₁ kt d)
    (hwords : ∀ j < 1024, word m₁.mem d j = if j < 32 ∨ 768 ≤ j ∧
      j < 800 then word m₀.mem k j else 0)
    (hused : ∀ i < 1024, hasFlag (word m₀.mem k i) pagePresent →
      pageIsFree m₀.pmm (word m₀.mem k i / 4096) = false) (hkept : Kept m₀ m₁ m d) :
        SharedKept m₁ m d := by
  refine fun i hi hshare => ⟨hkept.words i hi hshare, fun hp => ?_⟩
  rw [hwords i hi] at hp ⊢
  split at hp
  · next hin =>
    rw [if_pos hin]
    have := hused i hi hp
    exact (hkept.pages _ this).trans (h.untouched.pages _ this).symm
  · exact absurd hp (by decide)

/-- **Where `elf_load` maps**: into user space, if the segments end there; and a load that
succeeds has kept to user space only if they do. -/
theorem elfLoad_inside_iff {m₁ : Machine} (hk : KernelMaps m₀ kt c k)
    (hused : ∀ i < 1024, hasFlag (word m₀.mem k i) pagePresent = true →
      pageIsFree m₀.pmm (word m₀.mem k i / 4096) = false)
    (hd : d ≠ 0) (hcreate : uvmCreate m₀ = some (d * 4096, m₁)) (fs : Fs) (b : ElfBufs)
    (filename : CStr) :
    (SegmentsInside fs b filename → LoadsInside ⟨m₁, fs, b⟩ d filename) ∧
    ∀ entry mapped s', elfLoad ⟨m₁, fs, b⟩ (d * 4096) filename = some (⟨some entry, mapped⟩, s') →
      (LoadsInside ⟨m₁, fs, b⟩ d filename ↔ SegmentsInside fs b filename) := by
  obtain ⟨d', hdd, hnew, hwords⟩ := newSpace_uvmCreate hk (by omega) hcreate
  obtain rfl : d = d' := by omega
  have hinside : SegmentsInside fs b filename → LoadsInside ⟨m₁, fs, b⟩ d filename := by
    intro hseg r s' hload
    obtain ⟨-, rfl, hm⟩ | ⟨idx, fs', b', st, hhdr, hrun, rfl, rfl⟩ := elfLoad_cases hload
    · refine ⟨by simp, ?_⟩
      rw [hm]
      exact fun i _ _ => ⟨rfl, fun _ => rfl⟩
    · have hend := hseg idx fs' b' hhdr
      exact ⟨elfSegments_inside hend rfl hrun,
        hnew.sharedKept hwords hused (hnew.elfSegments hk hend hrun)⟩
  refine ⟨hinside, fun entry mapped s' hload => ⟨fun hin => ?_, hinside⟩⟩
  -- all pages have been mapped, so the page at 3 GB would be among them
  obtain ⟨idx, fs', b', st, hhdr, hrun, hf, rfl, rfl, rfl⟩ := elfLoad_succeeded hload
  intro idx1 fs₁ b1 hhdr1 i hi hstarts hl
  have heq := hhdr.symm.trans hhdr1
  obtain ⟨rfl, rfl, rfl⟩ := heq
  obtain ⟨hstart, hpages⟩ := elfSegments_complete hrun hf i hi hl
  by_contra hpast
  obtain ⟨n, hn, hat⟩ := Phdr.page_at_end hstart.2 (Nat.lt_of_not_le hpast)
  have huser := (hin _ _ hload).1 _ (hpages n hn)
  rw [hat] at huser
  exact absurd huser (by decide)

/-! ## a segment across 3 GB -/

/-- The kernel of the two-page process with four free frames, under `page_dir`. -/
def loaderMachine : Machine := { pairOn 16 with pmm := (pairOn 16).pmm.release 403 }

theorem pageIsFree_loaderMachine (p : Nat) :
    pageIsFree loaderMachine.pmm p = decide (p = 400 ∨ p = 401 ∨ p = 402 ∨ p = 403) := by
  have hpair : pageIsFree (pairOn 16).pmm p = decide (p = 400 ∨ p = 401 ∨ p = 402) :=
    pageIsFree_pairMachine p
  simp [loaderMachine, hpair, Bool.or_assoc]

theorem four_le_freeBelow_loaderMachine : 4 ≤ freeBelow 32768 loaderMachine.pmm :=
  sub_le_freeBelow (a := 400) (b := 404) (by decide) fun p hlo hhi => by
    rw [pageIsFree_loaderMachine, decide_eq_true_eq]
    omega

theorem loaderMachine_used {i : Nat} (hi : i < 1024)
    (hp : hasFlag (word loaderMachine.mem 16 i) pagePresent) :
    pageIsFree loaderMachine.pmm (word loaderMachine.mem 16 i / 4096) = false := by
  obtain ⟨-, hf⟩ := present_pairOn (c := 16) (.inl rfl) hi hp
  rw [pageIsFree_loaderMachine, decide_eq_false_iff_not]
  change 256 ≤ word loaderMachine.mem 16 i / 4096 ∧ word loaderMachine.mem 16 i / 4096 < 320 ∨
    word loaderMachine.mem 16 i / 4096 = 321 ∧ 16 = 320 at hf
  omega

theorem kernelMaps_loaderMachine : KernelMaps loaderMachine (256 + ·) 16 16 where
  pageDir := rfl
  mapped :=
    have h := (liveTables_pairOn (c := 16) (.inl rfl)).mapped
    ⟨h.cr3, h.dir, h.tables⟩
  kernelDir := (liveTables_pairOn (.inl rfl)).mapped.dir
  usedDir := by simp [pageIsFree_loaderMachine]
  usedTables i hi := by
    unfold identityTables at hi
    refine ⟨by unfold Low; omega, ?_⟩
    rw [pageIsFree_loaderMachine, decide_eq_false_iff_not]
    omega
  usedOther _ hi hp := loaderMachine_used hi hp
  high f _ hhigh hfree := by
    rw [pageIsFree_loaderMachine, decide_eq_true_eq] at hfree
    unfold Low at hhigh
    omega

/-- It can make a page directory. -/
theorem loaderMachine_creates : ∃ d mem1, Low d ∧ d ≠ 0 ∧ pageIsFree loaderMachine.pmm d ∧
    uvmCreate loaderMachine =
      some (d * 4096, { loaderMachine with mem := mem1, pmm := loaderMachine.pmm.grant d }) := by
  have hk := kernelMaps_loaderMachine
  have h0 : pageIsFree loaderMachine.pmm 0 = false := by rw [pageIsFree_loaderMachine]; decide
  have hroom := four_le_freeBelow_loaderMachine
  obtain ⟨d, hlow, hd0, hfree, halloc⟩ := Machine.alloc_below (by decide) h0
    (show 0 < freeBelow 32768 loaderMachine.pmm by omega)
  have hkd : 16 ≠ d := by
    rintro rfl
    exact absurd hfree (by decide)
  obtain ⟨mem1, hcreate, -, -⟩ := hk.mapped.uvmCreate hlow hd0 (hk.outside hfree) rfl hkd halloc
  exact ⟨d, mem1, hlow, hd0, hfree, hcreate⟩

/-- A program with one segment at the last page of user space. -/
def elfFile (memsz : Nat) : Bytes :=
  let b : Bytes := fun k => [0x7F, 0x45, 0x4C, 0x46, 1].getD k 0
  let b := store32 b 16 0x00030002
  let b := store32 b 24 0xBFFFF000
  let b := store32 b 28 52
  let b := store32 b 42 0x00010020
  let b := store32 b 52 1
  let b := store32 b 60 0xBFFFF000
  store32 b 72 memsz

/-- `/p` -/
def elfName : CStr := CStr.ofBytes [0x2F, 0x70]

/-- A file system with one file. -/
def elfFs (file : Bytes) (size : Nat) : Fs where
  ready := true
  super := fun _ => 0
  dir := setEntry (fun _ => 0) 0 elfName alfsDataStart size alfsFlagUsed
  disk := ⟨blit (fun _ => 0) (512 * alfsDataStart) size file, []⟩

/-- The buffers before the first load. -/
def ElfBufs.bss : ElfBufs := ⟨fun _ => 0, fun _ => 0⟩

/-- The headers of a program, as the loader finds them in an otherwise empty file system. -/
def OneSegment (memsz : Nat) : Prop :=
  let r := elfHeaders (elfFs (elfFile memsz) 84) .bss elfName
  r.1 = some 0 ∧ ePhnum r.2.2.hdrBuf = 1 ∧ phdr r.2.2.phBuf 0 = ⟨1, 0, 0xBFFFF000, 0, memsz, 0⟩

instance (memsz : Nat) : Decidable (OneSegment memsz) := inferInstanceAs (Decidable (_ ∧ _ ∧ _))

/-- The program that ends at 3 GB is loaded into user space. -/
theorem elfLoad_inside_last_page : ∃ d m₁, uvmCreate loaderMachine = some (d * 4096, m₁) ∧
    SegmentsInside (elfFs (elfFile 0x1000) 84) .bss elfName ∧
    LoadsInside ⟨m₁, elfFs (elfFile 0x1000) 84, .bss⟩ d elfName := by
  obtain ⟨d, mem1, -, hd0, -, hcreate⟩ := loaderMachine_creates
  have hseg : SegmentsInside (elfFs (elfFile 0x1000) 84) .bss elfName := by
    intro idx fs b hhdr i hi _ _
    obtain ⟨-, hnum, hph⟩ : OneSegment 0x1000 := by decide +kernel
    rw [hhdr] at hnum hph
    dsimp only at hnum hph
    obtain rfl : i = 0 := by omega
    rw [hph]
    decide
  exact ⟨d, _, hcreate, hseg,
    (elfLoad_inside_iff kernelMaps_loaderMachine (fun i hi hp => loaderMachine_used hi hp)
    hd0 hcreate _ _ _).1 hseg⟩

/-- A page without a part of the file, up to `uvm_map`. -/
theorem NewSpace.elfPage_bss (hk : KernelMaps m₀ kt c k) (idx : Int) (ph : Phdr)
    (va : Nat) (st : Image)
    (h : NewSpace m₀ st.machine kt d) (h0 : pageIsFree st.machine.pmm 0 = false)
    (hroom : 0 < freeBelow 32768 st.machine.pmm) (hf : st.failed = false)
    (hread : ph.readPage st.fs idx va = ((0, []), st.fs)) : ∃ f mem', f ≠ 0 ∧ Low f ∧
      pageIsFree st.machine.pmm f ∧ OnlyFrame f st.machine.mem mem' ∧
      NewSpace m₀ { st.machine with mem := mem', pmm := st.machine.pmm.grant f } kt d ∧
      ∀ m', AliOS.uvmMap { st.machine with mem := mem', pmm := st.machine.pmm.grant f }
        (d * 4096) va (f * 4096)
          ph.pteFlags = some (0, m') →
        AliOS.elfPage (d * 4096) idx ph va st = some ⟨false, m', st.fs, st.mapped ++ [va]⟩ := by
  obtain ⟨f, hlow, hf0, hfree, halloc⟩ := Machine.alloc_below (by decide) h0 hroom
  have hfree0 := h.untouched.free hfree
  obtain ⟨hfd, hnew⟩ := h.grant hfree
  obtain ⟨mem', hzero, honly, -⟩ := (hk.idMapped hnew.untouched).zeroPage hlow (hk.outside hfree0)
  refine ⟨f, mem', hf0, hlow, hfree, honly, hnew.fill hfree0 hfd honly, fun m' hmap => ?_⟩
  unfold AliOS.elfPage
  rw [if_neg (by simp [hf]), halloc]
  rw [if_neg (by omega), hzero, hread]
  dsimp only [bind_some, AliOS.storeBytes]
  rw [if_neg (by decide), hmap]
  rfl

/-- The segment of `elfFile 0x2000`: one page below 3 GB, one above. -/
def acrossPh : Phdr := ⟨1, 0, 0xBFFFF000, 0, 0x2000, 0⟩

theorem acrossPh_readPage (fs : Fs) (idx : Int) (hva : 0xBFFFF000 ≤ va) :
    acrossPh.readPage fs idx va = ((0, []), fs) := by
  have hhi : acrossPh.copyHi va ≤ 0xBFFFF000 := by
    have hfile : acrossPh.fileVaHi = 0xBFFFF000 := by decide
    unfold Phdr.copyHi
    split <;> omega
  have hlo : 0xBFFFF000 ≤ acrossPh.copyLo va := by
    have haddr : acrossPh.vaddr = 0xBFFFF000 := rfl
    unfold Phdr.copyLo
    split <;> omega
  exact if_neg (by omega)

/-- The two pages of this segment, the second one in a table `t` of the kernel. -/
theorem NewSpace.acrossPages (idx : Int) (fs : Fs) {t : Nat} (hk : KernelMaps m₀ kt c k)
    (h : NewSpace m₀ m kt d)
    (h0 : pageIsFree m.pmm 0 = false) (hroom : 3 ≤ freeBelow 32768 m.pmm)
    (hlast : word m.mem d 767 = 0)
    (hshared : word m.mem d 768 = t * 4096 ||| 3) (ht : Low t) : ∃ m' f,
      forRangeM (fun n => AliOS.elfPage (d * 4096) idx acrossPh (acrossPh.vaPage + 4096 * n)) 0 2
        ⟨false, m, fs, []⟩ = some ⟨false, m', fs, [0xBFFFF000, 0xC0000000]⟩ ∧
      word m'.mem t 0 = f * 4096 ||| 5 := by
  -- the page below
  obtain ⟨f1, mem1, -, hlow1, hfree1, honly1, hnew1, hpage1⟩ := NewSpace.elfPage_bss hk idx acrossPh
    0xBFFFF000 ⟨false, m, fs, []⟩ h h0 (show 0 < freeBelow 32768 m.pmm by omega) rfl
    (acrossPh_readPage fs idx (by decide))
  dsimp only at hfree1 hnew1 hpage1 honly1
  have hcount1 := freeBelow_grant hlow1 hfree1
  have hne1 : d ≠ f1 := by
    rintro rfl
    rw [h.used] at hfree1
    cases hfree1
  obtain ⟨m₂, hmap2, h02, hcount2⟩ :=
    hnew1.uvmMap_absent hk 0xBFFFF000 (by decide) (by decide) (by simp [h0])
    (by dsimp only; omega) ((word_congr (by decide) (honly1 d hne1)).trans hlast)
      (f1 * 4096) acrossPh.pteFlags
  obtain ⟨hnew2, hwords2⟩ := hnew1.uvmMap hk (by decide) (by decide) hmap2
  dsimp only at hcount2 hwords2
  -- the page above
  obtain ⟨f3, mem3, -, hlow3, hfree3, honly3, hnew3, hpage3⟩ := NewSpace.elfPage_bss hk idx acrossPh
    0xC0000000 ⟨false, m₂, fs, [0xBFFFF000]⟩ hnew2 h02 (show 0 < freeBelow 32768 m₂.pmm by omega)
      rfl
    (acrossPh_readPage fs idx (by decide))
  have hne3 : d ≠ f3 := by
    rintro rfl
    rw [hnew2.used] at hfree3
    cases hfree3
  have hword : word mem3 d 768 = t * 4096 ||| 3 := by
    rw [word_congr (by decide) (honly3 d hne3), hwords2 768 (by decide) (by decide),
      word_congr (by decide) (honly1 d hne1), hshared]
  have hid := hk.idMapped hnew3.untouched
  have htab := hid.uvmTable_present hnew3.low (show 768 < 1024 by decide)
    (by dsimp only; rw [hword, hasFlag_mul_or _ _ (by decide)]; decide)
  rw [hword, mul_or_div (by decide)] at htab
  have hmap3 := @IdMapped.uvmMap _ _ _ d t 0xC0000000 _ hid htab ht (f3 * 4096) acrossPh.pteFlags
  rw [show 0xC0000000 / 2 ^ 12 % 1024 = 0 by decide,
    show acrossPh.pteFlags ||| pagePresent = 5 by decide, frameAddr_mul] at hmap3
  refine ⟨{ m₂ with mem := setWord mem3 t 0 (f3 * 4096 ||| 5), pmm := m₂.pmm.grant f3 }, f3, ?_, ?_⟩
  · rw [forRangeM_succ, show acrossPh.vaPage + 4096 * 0 = 0xBFFFF000 by decide,
      hpage1 _ hmap2, bind_some,
      forRangeM_succ, show acrossPh.vaPage + 4096 * (0 + 1) = 0xC0000000 by decide]
    dsimp only [nil_append]
    rw [hpage3 _ hmap3, bind_some, forRangeM_zero]
    rfl
  · rw [word_setWord (by decide) (by decide)
      (mul_or_lt (by unfold Low at hlow3; omega) (by decide)), if_pos ⟨rfl, rfl⟩]

/-- A program whose segment ends above 3 GB: the page at 3 GB becomes a page of the program,
in the kernel's own page table. -/
theorem elfLoad_past_user : ∃ d m₁ r s', d ≠ 0 ∧ uvmCreate loaderMachine = some (d * 4096, m₁) ∧
    elfLoad ⟨m₁, elfFs (elfFile 0x2000) 84, .bss⟩ (d * 4096) elfName = some (r, s') ∧
    0xC0000000 ∈ r.mapped ∧ word m₁.mem d 768 / 4096 = 288 ∧
      word s'.machine.mem 288 0 ≠ word m₁.mem 288 0 ∧
    ¬LoadsInside ⟨m₁, elfFs (elfFile 0x2000) 84, .bss⟩ d elfName := by
  have hk := kernelMaps_loaderMachine
  have h0 : pageIsFree loaderMachine.pmm 0 = false := by rw [pageIsFree_loaderMachine]; decide
  obtain ⟨d, mem1, hlow, hd0, hfree, hcreate⟩ := loaderMachine_creates
  obtain ⟨d', hdd, hnew, hwords⟩ := newSpace_uvmCreate hk (by omega) hcreate
  obtain rfl : d = d' := by omega
  have hroom := four_le_freeBelow_loaderMachine
  have hroom1 := freeBelow_grant hlow hfree
  have hshared : word mem1 d 768 = 288 * 4096 ||| 3 := by
    rw [hwords 768 (by decide), if_pos (by decide)]
    exact word_pairOn_dir (c := 16) (.inl rfl) (by decide)
  -- the headers, and then the two pages
  obtain ⟨hidx, hnum, hph⟩ : OneSegment 0x2000 := by decide +kernel
  generalize hhdr : elfHeaders (elfFs (elfFile 0x2000) 84) .bss elfName = hdr at hidx hnum hph
  obtain ⟨idx, fs, b⟩ := hdr
  subst hidx
  obtain ⟨m', f, hpages, hword⟩ := hnew.acrossPages 0 fs hk (by simp [h0])
    (by dsimp only; omega) (by rw [hwords 767 (by decide), if_neg (by decide)]) hshared
    (show 288 < 32768 by decide)
  have hseg : elfSegment (d * 4096) 0 b.phBuf 0
      ⟨false, { loaderMachine with mem := mem1, pmm := loaderMachine.pmm.grant d }, fs, []⟩ =
        some ⟨false, m', fs, [0xBFFFF000, 0xC0000000]⟩ := by
    unfold elfSegment
    rw [hph]
    exact hpages
  have hload : elfLoad ⟨{ loaderMachine with mem := mem1, pmm := loaderMachine.pmm.grant d },
      elfFs (elfFile 0x2000) 84, .bss⟩ (d * 4096) elfName =
        some (⟨some (eEntry b.hdrBuf), [0xBFFFF000, 0xC0000000]⟩, ⟨m', fs, b⟩) := by
    unfold elfLoad
    rw [hhdr]
    dsimp only
    rw [hnum, forRangeM_succ, hseg]
    rfl
  refine ⟨d, _, _, _, hd0, hcreate, hload, by simp, ?_, ?_, fun hin => ?_⟩
  · rw [hshared, mul_or_div (by decide)]
  · have hold : word mem1 288 0 = 3 := by
      rw [word_congr (by decide)
        (hnew.untouched.pages 288 (by rw [pageIsFree_loaderMachine]; decide))]
      exact @word_pairMachine 402 288 0 (by decide)
    rw [hword, hold]
    intro heq
    have hflag := congrArg (hasFlag · pageUser) heq
    rw [hasFlag_mul_or _ _ (by decide)] at hflag
    exact absurd hflag (by decide)
  · exact absurd ((hin _ _ hload).1 0xC0000000 (by simp)) (by decide)

end

end AliOS
