import AliOS.Uvm.Share

/-!
# AliOS.Uvm.Clone

`uvm_clone`, from its loops to the whole call.  `Sharing` is the state after the
pages below `n`; one iteration carries it to `n + 1`, a table of the source that
does not exist carries it over 1024 pages, and a page whose table has no frame
stops the loops.  `Cloned` is what the call does when there are frames: parent
and child have the same frames at the same pages, none of them writable in
place, each counted once more; it takes one frame for the directory and one for
each table with a page.
-/

namespace AliOS

open Lib List Option

variable {mem mem' : Bytes} {d i v f u x : Nat} {s s' : Pmm}

/-! ## counting tables -/

/-- Table `i` of the space `d` has a page. -/
def tableUsed (mem : Bytes) (d i : Nat) : Bool :=
  (List.range 1024).any fun j => hasFlag (pteAt mem d (1024 * i + j)) pagePresent

/-- How many of the `n` tables from `i` on have a page. -/
def tablesUsed (mem : Bytes) (d i n : Nat) : Nat := (List.range' i n).countP (tableUsed mem d)

theorem tableUsed_iff : tableUsed mem d i ↔
    ∃ v, v / 1024 = i ∧ hasFlag (pteAt mem d v) pagePresent := by
  unfold tableUsed
  rw [List.any_eq_true]
  constructor
  · rintro ⟨j, hj, hp⟩
    rw [mem_range] at hj
    exact ⟨1024 * i + j, by omega, hp⟩
  · rintro ⟨v, rfl, hp⟩
    refine ⟨v % 1024, mem_range.mpr (by omega), ?_⟩
    rwa [Nat.div_add_mod]

theorem present_dir_of_present (hp : hasFlag (pteAt mem d v) pagePresent) :
    hasFlag (word mem d (v / 1024)) pagePresent := by
  by_contra hno
  unfold pteAt at hp
  rw [if_neg hno] at hp
  exact absurd hp (by decide)

/-- The frame at page `v` of space `d`. -/
def frameAt (mem : Bytes) (d v : Nat) : Option Nat := (entryOf (pteAt mem d v)).map Entry.frame

theorem frameAt_eq_some : frameAt mem d v = some f ↔
    hasFlag (pteAt mem d v) pagePresent ∧ pteAt mem d v / 4096 = f := by
  unfold frameAt entryOf
  split
  · rename_i hp
    simp [hp]
  · rename_i hp
    simp [hp]

theorem frameAt_eq_none :
    frameAt mem d v = none ↔ ¬hasFlag (pteAt mem d v) pagePresent := by
  unfold frameAt entryOf
  split
  · rename_i hp
    simp [hp]
  · rename_i hp
    simp [hp]

/-- The tables of user space that space `d` has. -/
def tablesMade (mem : Bytes) (d : Nat) : Finset Nat :=
  (Finset.Ico 32 768).filter fun i => hasFlag (word mem d i) pagePresent = true

theorem mem_tablesMade :
    i ∈ tablesMade mem d ↔ (32 ≤ i ∧ i < 768) ∧ hasFlag (word mem d i) pagePresent := by
  unfold tablesMade
  rw [Finset.mem_filter, Finset.mem_Ico]

theorem tablesUsed_eq_card (mem : Bytes) (d : Nat) :
    tablesUsed mem d 32 736 = ((Finset.Ico 32 768).filter fun i => tableUsed mem d i).card := by
  have hset : ((List.range' 32 736).filter (tableUsed mem d)).toFinset =
      (Finset.Ico 32 768).filter fun i => tableUsed mem d i = true := by
    ext i
    rw [List.mem_toFinset, mem_filter, mem_range'_1, Finset.mem_filter, Finset.mem_Ico]
  unfold tablesUsed
  rw [countP_eq_length_filter, ← hset,
    toFinset_card_of_nodup (List.Nodup.filter _ nodup_range')]

theorem tableUsed_of_frameAt (h : frameAt mem d u ≠ none) :
    tableUsed mem d (u / 1024) :=
  tableUsed_iff.mpr ⟨u, rfl, by_contra fun hp => h (frameAt_eq_none.mpr hp)⟩

/-- One table is there now, the others are what they were. -/
theorem tablesMade_insert (hi : 32 ≤ i ∧ i < 768) (hpres : hasFlag (word mem' d i) pagePresent)
    (hwords : ∀ j < 1024, j ≠ i → word mem' d j = word mem d j) :
    tablesMade mem' d = insert i (tablesMade mem d) := by
  ext j
  rw [Finset.mem_insert, mem_tablesMade, mem_tablesMade]
  by_cases hj : j = i
  · subst hj
    simp [hpres, hi]
  · rw [or_iff_right hj]
    exact and_congr_right fun hj' => by rw [hwords j (by omega) hj]

/-- The tables of `t` are those that pages of `s` below `n` need. -/
theorem tablesMade_subset {s t n : Nat}
    (hmade : ∀ i ∈ tablesMade mem' t, ∃ u, UserPage u ∧ u < n ∧ u / 1024 = i ∧
      frameAt mem s u ≠ none) :
    tablesMade mem' t ⊆ (Finset.Ico 32 768).filter fun i => tableUsed mem s i := fun i hi => by
  obtain ⟨u, hu, -, rfl, hu'⟩ := hmade i hi
  exact Finset.mem_filter.mpr ⟨Finset.mem_Ico.mpr hu.table, tableUsed_of_frameAt hu'⟩

/-- A page still to be shared, in a table that is still to be made. -/
theorem card_tablesMade_lt {s t n : Nat}
    (hmade : ∀ i ∈ tablesMade mem' t, ∃ u, UserPage u ∧ u < n ∧ u / 1024 = i ∧
      frameAt mem s u ≠ none)
    (hn : UserPage n) (hne : frameAt mem s n ≠ none) (hlast : n / 1024 ∉ tablesMade mem' t) :
    (tablesMade mem' t).card < tablesUsed mem s 32 736 := by
  rw [tablesUsed_eq_card]
  refine Finset.card_lt_card ⟨tablesMade_subset hmade, fun hsub => hlast (hsub ?_)⟩
  exact Finset.mem_filter.mpr ⟨Finset.mem_Ico.mpr hn.table, tableUsed_of_frameAt hne⟩

/-! ## reference counts -/

/-- What `pmm_addref` makes of a count. -/
def raised (n : Nat) : Nat := if n < 255 then n + 1 else n

theorem pageRefs_pmmAddref (s : Pmm) (hf : f < pagesMax) (p : Nat) :
    (pmmAddref s (f * 4096)).pageRefs p = if p = f then raised (s.pageRefs f)
      else s.pageRefs p := by
  have hpage : f * 4096 / pageSize = f := mul_pageSize_div f
  unfold raised
  obtain ⟨-, hlt, heq⟩ | ⟨hmany, heq⟩ := pmmAddref_cases s (f * 4096)
  · rw [heq, pageRefs_setRefs, hpage]
    rw [hpage] at hlt
    rw [if_pos hlt]
  · rw [hpage] at hmany
    rw [heq, if_neg (show ¬s.pageRefs f < 255 by omega)]
    split
    · rename_i hpf
      rw [hpf]
    · rfl

/-- The allocator since `s`: frames have been taken and have one reference each. -/
structure Since (s s' : Pmm) : Prop where
  free : ∀ f, pageIsFree s' f = true → pageIsFree s f = true
  fresh : ∀ f, pageIsFree s f = true → pageIsFree s' f = false → s'.pageRefs f = 1
  tidy : Tidy s'

theorem Since.refl (h : Tidy s) : Since s s :=
  ⟨fun _ hf => hf, fun f hf hf' => absurd (hf.symm.trans hf') (by decide), h⟩

theorem Since.grant (h : Since s s') (f : Nat) : Since s (s'.grant f) where
  free := fun g hg => by
    rw [pageIsFree_grant, Bool.and_eq_true] at hg
    exact h.free g hg.1
  fresh := fun g hg hg' => by
    rw [pageRefs_grant]
    by_cases hgf : g = f
    · rw [if_pos hgf]
    · rw [pageIsFree_grant, decide_eq_false hgf, Bool.not_false, Bool.and_true] at hg'
      rw [if_neg hgf]
      exact h.fresh g hg hg'
  tidy := fun g hlt hg => by
    rw [pageIsFree_grant, Bool.and_eq_true, Bool.not_eq_true', decide_eq_false_iff_not] at hg
    rw [pageRefs_grant, if_neg hg.2]
    exact h.tidy g hlt hg.1

theorem Since.alloc (h : Since s s') : Since s (pmmAlloc s').2 := by
  obtain ⟨f, -, -, -, heq⟩ | ⟨-, heq⟩ := pmmAlloc_cases s'
  · rw [heq]
    exact h.grant f
  · rw [heq]
    exact h

theorem Since.addref (h : Since s s') (hlt : f < pagesMax) (hf : pageIsFree s f = false) :
    Since s (pmmAddref s' (f * 4096)) where
  free := fun g hg => h.free g (by rwa [pageIsFree_pmmAddref] at hg)
  fresh := fun g hg hg' => by
    rw [pageIsFree_pmmAddref] at hg'
    rw [pageRefs_pmmAddref s' hlt, if_neg]
    · exact h.fresh g hg hg'
    · rintro rfl
      rw [hf] at hg
      cases hg
  tidy := fun g hg hfree => by
    rw [pageIsFree_pmmAddref] at hfree
    rw [pageRefs_pmmAddref s' hlt, if_neg]
    · exact h.tidy g hg hfree
    · rintro rfl
      have hgfree := h.free g hfree
      rw [hf] at hgfree
      cases hgfree

/-! ## the loops -/

section Clone

variable {m m' : Machine} {ds : Finset Nat} {kt : Nat → Nat} {k s t n : Nat}
  {owner : Nat → Option Role}

/-- `uvm_clone` after the pages below `n`: from `m`, the new space is `t`. -/
structure Sharing (m : Machine) (ds : Finset Nat) (kt : Nat → Nat) (k s t n : Nat)
    (m' : Machine) : Prop where
  layout : ∃ owner, Layout m' (insert t ds) kt k owner ∧
    ∀ x ∈ ds, ∀ u f, UserPage u → frameAt m.mem x u = some f → owner f = some (.data u)
  regs : SameRegs m m'
  src : page m'.mem s = page m.mem s
  entry : ∀ x ∈ insert t ds, ∀ u, UserPage u → entryOf (pteAt m'.mem x u) =
    if (x = s ∨ x = t) ∧ u < n then (entryOf (pteAt m.mem s u)).map Entry.downgrade
    else if x = t then none else entryOf (pteAt m.mem x u)
  content : ∀ x ∈ ds, ∀ u f, UserPage u → frameAt m.mem x u = some f → page m'.mem f = page m.mem f
  refs : ∀ x ∈ ds, ∀ u f, UserPage u → frameAt m.mem x u = some f → m'.pmm.pageRefs f =
    if frameAt m.mem s u = some f ∧ u < n then raised (m.pmm.pageRefs f) else m.pmm.pageRefs f
  high : ∀ f, ¬Low f → pageIsFree m'.pmm f = pageIsFree m.pmm f
  since : Tidy m.pmm → Since m.pmm m'.pmm
  made : ∀ i ∈ tablesMade m'.mem t, ∃ u, UserPage u ∧ u < n ∧ u / 1024 = i ∧
    frameAt m.mem s u ≠ none
  room : freeBelow 32768 m'.pmm + (tablesMade m'.mem t).card + 1 = freeBelow 32768 m.pmm

/-- The frames of `s` stay where they are. -/
theorem Sharing.parent (h : Sharing m ds kt k s t n m') (hs : s ∈ ds) (hst : s ≠ t)
    (hu : UserPage u) :
    frameAt m'.mem s u = frameAt m.mem s u := by
  unfold frameAt
  rw [h.entry s (Finset.mem_insert_of_mem hs) u hu, if_neg hst]
  split
  · rw [Option.map_map]
    rfl
  · rfl

theorem Sharing.child (h : Sharing m ds kt k s t n m') (hu : UserPage u) :
    frameAt m'.mem t u = if u < n then frameAt m.mem s u else none := by
  unfold frameAt
  rw [h.entry t (Finset.mem_insert_self t ds) u hu, if_pos rfl]
  by_cases hun : u < n
  · rw [if_pos ⟨.inr rfl, hun⟩, if_pos hun, Option.map_map]
    rfl
  · rw [if_neg fun hc => hun hc.2, if_neg hun]
    rfl

theorem Layout.role_of_frameAt (h : Layout m ds kt k owner) (hx : x ∈ ds) (hu : UserPage u)
    (hf : frameAt m.mem x u = some f) : owner f = some (.data u) := by
  obtain ⟨hp, rfl⟩ := frameAt_eq_some.mp hf
  exact (h.pages x hx u hu hp).1

/-- `uvm_create`. -/
theorem Layout.sharing_start (h : Layout m ds kt k owner) (hs : s ∈ ds)
    (hroom : 0 < freeBelow 32768 m.pmm) :
    ∃ t m₁, AliOS.uvmCreate m = some (t * 4096, m₁) ∧ t ≠ 0 ∧ t ∉ ds ∧
      Sharing m ds kt k s t 32768 m₁ := by
  obtain ⟨t, m₁, owner1, hcreate, ht0, ht, hlay, hgrow, hpte, hzero, hcount⟩ := h.uvmCreate hroom
  have hnone : tablesMade m₁.mem t = ∅ := by
    refine Finset.filter_eq_empty_iff.mpr fun i hi hp => ?_
    obtain ⟨hlo, hhi⟩ := Finset.mem_Ico.mp hi
    rw [hzero i hlo hhi] at hp
    cases hp
  refine ⟨t, m₁, hcreate, ht0, ht,
    ⟨owner1, hlay, fun x hx u f hu hf => hgrow.role f _ (h.role_of_frameAt hx hu hf)⟩,
    hgrow.regs, hgrow.dirs s (h.dirs s hs).1 (by rintro rfl; exact ht hs), fun x hx u hu => ?_,
    fun x hx u f hu hf => hgrow.data f u (h.role_of_frameAt hx hu hf), fun x hx u f hu hf => ?_,
    hgrow.high,
    fun hm => ?_, fun i hi => ?_, ?_⟩
  · rw [if_neg fun hc => Nat.not_lt.mpr hu.1 hc.2]
    by_cases hxt : x = t
    · unfold entryOf pteAt
      rw [if_pos hxt, hxt, hzero _ hu.table.1 hu.table.2,
        if_neg (show ¬hasFlag 0 pagePresent = true by decide)]
      rfl
    · rw [if_neg hxt, hpte x (Finset.mem_of_mem_insert_of_ne hx hxt) u hu]
  · rw [if_neg fun hc => Nat.not_lt.mpr hu.1 hc.2, hgrow.refs f _ (h.role_of_frameAt hx hu hf)]
  · rw [uvmCreate_pmm hcreate]
    exact (Since.refl hm).alloc
  · rw [hnone] at hi
    cases hi
  · rw [hnone, Finset.card_empty, Nat.add_zero]
    exact hcount

/-- Pages that `s` does not have are skipped. -/
theorem Sharing.skip (h : Sharing m ds kt k s t n m') {n' : Nat} (hle : n ≤ n')
    (hs : ∀ u, UserPage u → n ≤ u → u < n' → frameAt m.mem s u = none) :
    Sharing m ds kt k s t n' m' := by
  refine ⟨h.layout, h.regs, h.src, fun x hx u hu => ?_, h.content, fun x hx u f hu hf => ?_,
    h.high, h.since, fun i hi => ?_, h.room⟩
  · rw [h.entry x hx u hu]
    by_cases hun : n ≤ u ∧ u < n'
    · have hnone : entryOf (pteAt m.mem s u) = none := map_eq_none_iff.mp (hs u hu hun.1 hun.2)
      have hno : ¬((x = s ∨ x = t) ∧ u < n) := fun hc => Nat.not_lt.mpr hun.1 hc.2
      rw [if_neg hno]
      by_cases hxt : x = t
      · rw [if_pos hxt, hnone]
        exact (ite_self _).symm
      · rw [if_neg hxt]
        split
        · rename_i hc
          rw [hc.1.resolve_right hxt, hnone]
          rfl
        · rfl
    · simp only [show u < n' ↔ u < n by omega]
  · rw [h.refs x hx u f hu hf]
    by_cases hun : n ≤ u ∧ u < n'
    · rw [hs u hu hun.1 hun.2, if_neg (by simp), if_neg (by simp)]
    · simp only [show u < n' ↔ u < n by omega]
  · obtain ⟨u, hu, hun, hui, hf⟩ := h.made i hi
    exact ⟨u, hu, by omega, hui, hf⟩

/-- The frames of `s` are in use. -/
theorem Layout.frameAt_used (h : Layout m ds kt k owner) (hs : s ∈ ds) (hu : UserPage u)
    (hf : frameAt m.mem s u = some f) : f < pagesMax ∧ pageIsFree m.pmm f = false := by
  obtain ⟨hlow, hused⟩ := h.owned _ _ (h.role_of_frameAt hs hu hf)
  exact ⟨Nat.lt_of_lt_of_le hlow (by decide), hused⟩

/-- The reference counts with page `n` counted. -/
theorem Sharing.addref (h₀ : Layout m ds kt k owner) (hs : s ∈ ds) (h : Sharing m ds kt k s t n m')
    (hv : UserPage n) (hf : frameAt m.mem s n = some f) (x : Nat) (hx : x ∈ ds) (u g : Nat)
    (hu : UserPage u) (hg : frameAt m.mem x u = some g) : (pmmAddref m'.pmm (f * 4096)).pageRefs g =
      if frameAt m.mem s u = some g ∧ u < n + 1 then raised (m.pmm.pageRefs g)
        else m.pmm.pageRefs g := by
  obtain ⟨owner', -, hrole⟩ := h.layout
  rw [pageRefs_pmmAddref m'.pmm (h₀.frameAt_used hs hv hf).1]
  by_cases hgf : g = f
  · -- the same frame, so the same page
    subst hgf
    obtain rfl : u = n := by
      have hrole' := (hrole x hx u g hu hg).symm.trans (hrole s hs n g hv hf)
      simpa using hrole'
    rw [if_pos rfl, if_pos ⟨hf, Nat.lt_succ_self u⟩, h.refs s hs u g hu hf,
      if_neg fun hc => Nat.lt_irrefl u hc.2]
  · rw [if_neg hgf, h.refs x hx u g hu hg]
    by_cases hun : u = n
    · subst hun
      rw [if_neg fun hc => Nat.lt_irrefl u hc.2, if_neg]
      rintro ⟨hsg, -⟩
      exact hgf (some.inj (hsg.symm.trans hf))
    · simp only [show u < n + 1 ↔ u < n by omega]

/-- One page more. -/
theorem Sharing.next (h₀ : Layout m ds kt k owner) (hs : s ∈ ds) (ht : t ∉ ds)
    (h : Sharing m ds kt k s t n m') (hv : UserPage n)
    (hdir : hasFlag (word m.mem s (n / 1024)) pagePresent) (hf : frameAt m.mem s n = some f)
    (hroom : ¬hasFlag (word m'.mem t (n / 1024)) pagePresent → 0 < freeBelow 32768 m'.pmm) :
    ∃ m'', uvmCloneEntry (t * 4096) (n / 1024) (word m.mem s (n / 1024) / 4096 * 4096)
      (n % 1024) (false, m') =
        some (false, m'') ∧ Sharing m ds kt k s t (n + 1) m'' := by
  obtain ⟨owner', hlay, hrole⟩ := h.layout
  obtain ⟨hlo, hhi⟩ := hv.table
  obtain ⟨hflt, hused⟩ := h₀.frameAt_used hs hv hf
  have hst : s ≠ t := by
    rintro rfl
    exact ht hs
  have hs' : s ∈ insert t ds := Finset.mem_insert_of_mem hs
  have ht' : t ∈ insert t ds := Finset.mem_insert_self t ds
  have hword : word m'.mem s (n / 1024) = word m.mem s (n / 1024) := word_congr (by omega) h.src
  obtain ⟨hp, hpf⟩ := frameAt_eq_some.mp ((h.parent hs hst hv).trans hf)
  obtain ⟨m'', owner'', hrun, hlay', hgrow, hpmm, hentry, hsrc, hwords, hcount⟩ :=
    hlay.shareEntry hs' ht' hst hv (by rw [hword]; exact hdir) hp hroom
  -- the entry that is shared is still the one of `m`
  have hshared : some ⟨pteAt m'.mem s n / 4096, (modeOf (pteAt m'.mem s n)).downgrade⟩ =
      (entryOf (pteAt m.mem s n)).map Entry.downgrade := by
    have hent := h.entry s hs' n hv
    rw [if_neg fun hc => Nat.lt_irrefl n hc.2, if_neg hst] at hent
    rw [← hent, entryOf, if_pos hp]
    rfl
  rw [hword] at hrun
  rw [hpf] at hgrow hpmm
  have hchild : hasFlag (pteAt m''.mem t n) pagePresent := by
    have hent := hentry t ht' n hv
    rw [if_pos ⟨.inr rfl, rfl⟩] at hent
    by_contra hno
    rw [entryOf, if_neg hno] at hent
    cases hent
  have hmade : tablesMade m''.mem t = insert (n / 1024) (tablesMade m'.mem t) :=
    tablesMade_insert ⟨hlo, hhi⟩ (present_dir_of_present hchild) hwords
  refine ⟨m'', hrun, ⟨owner'', hlay', fun x hx u g hu hg => hgrow.role g _ (hrole x hx u g hu hg)⟩,
    ⟨hgrow.regs.cr0.trans h.regs.cr0, hgrow.regs.cr3.trans h.regs.cr3⟩, hsrc.trans h.src,
    fun x hx u hu => ?_,
    fun x hx u g hu hg => (hgrow.data g u (hrole x hx u g hu hg)).trans (h.content x hx u g hu hg),
    fun x hx u g hu hg => ?_, fun g hg => ?_, fun hm => ?_, fun i hi => ?_, ?_⟩
  · rw [hentry x hx u hu, h.entry x hx u hu]
    by_cases hun : u = n
    · subst hun
      by_cases hx' : x = s ∨ x = t
      · rw [if_pos ⟨hx', rfl⟩, if_pos ⟨hx', Nat.lt_succ_self u⟩, hshared]
      · simp only [hx', false_and, if_false]
    · rw [if_neg fun hc => hun hc.2]
      simp only [show u < n + 1 ↔ u < n by omega]
  · rw [hgrow.refs g _ (hrole x hx u g hu hg)]
    exact h.addref h₀ hs hv hf x hx u g hu hg
  · rw [hgrow.high g hg]
    exact (pageIsFree_pmmAddref _ _ _).trans (h.high g hg)
  · have hadd := (h.since hm).addref hflt hused
    obtain hpmm | hpmm := hpmm
    · rw [hpmm]
      exact hadd
    · rw [hpmm]
      exact hadd.alloc
  · rw [hmade] at hi
    obtain rfl | hi := Finset.mem_insert.mp hi
    · exact ⟨n, hv, Nat.lt_succ_self n, rfl, by simp [hf]⟩
    · obtain ⟨u, hu, hun, hui, hne⟩ := h.made i hi
      exact ⟨u, hu, by omega, hui, hne⟩
  · have hroom' := h.room
    rw [hmade]
    by_cases hpres : hasFlag (word m'.mem t (n / 1024)) pagePresent = true
    · rw [if_pos hpres] at hcount
      rw [Finset.insert_eq_of_mem (mem_tablesMade.mpr ⟨⟨hlo, hhi⟩, hpres⟩)]
      omega
    · rw [if_neg hpres] at hcount
      rw [Finset.card_insert_of_notMem fun hmem => hpres (mem_tablesMade.mp hmem).2]
      omega

section Loops

-- what becomes of the loops at a page that `uvm_map` has no table for
variable (h₀ : Layout m ds kt k owner) (hs : s ∈ ds) (ht : t ∉ ds) (Halts : Machine → Prop)
  (hstuck : ∀ n m' f, Sharing m ds kt k s t n m' → UserPage n →
    hasFlag (word m.mem s (n / 1024)) pagePresent = true → frameAt m.mem s n = some f →
    ¬hasFlag (word m'.mem t (n / 1024)) pagePresent = true → freeBelow 32768 m'.pmm = 0 →
    ∃ m'', uvmCloneEntry (t * 4096) (n / 1024) (word m.mem s (n / 1024) / 4096 * 4096)
      (n % 1024) (false, m') =
      some (true, m'') ∧ Halts m'')

include h₀ hs ht hstuck

/-- One entry, with or without a frame for its table. -/
theorem Sharing.entry_or (h : Sharing m ds kt k s t n m') (hv : UserPage n)
    (hdir : hasFlag (word m.mem s (n / 1024)) pagePresent) :
    ∃ st, uvmCloneEntry (t * 4096) (n / 1024) (word m.mem s (n / 1024) / 4096 * 4096)
      (n % 1024) (false, m') =
        some st ∧ (st.1 = false ∧ Sharing m ds kt k s t (n + 1) st.2 ∨ st.1 ∧ Halts st.2) := by
  have hst : s ≠ t := by
    rintro rfl
    exact ht hs
  cases hf : frameAt m.mem s n with
  | none =>
    obtain ⟨owner', hlay, -⟩ := h.layout
    have hword : word m'.mem s (n / 1024) = word m.mem s (n / 1024) :=
      word_congr (by have := hv.table.2; omega) h.src
    have hp := frameAt_eq_none.mp ((h.parent hs hst hv).trans hf)
    have hrun := hlay.cloneEntry_skip (t := t) (Finset.mem_insert_of_mem hs) hv
      (by rw [hword]; exact hdir) hp
    rw [hword] at hrun
    refine ⟨_, hrun, .inl ⟨rfl, h.skip (Nat.le_succ n) fun u _ hlo hhi => ?_⟩⟩
    obtain rfl : u = n := by omega
    exact hf
  | some f =>
    by_cases hroom : hasFlag (word m'.mem t (n / 1024)) pagePresent = true ∨
      0 < freeBelow 32768 m'.pmm
    · obtain ⟨m'', hrun, hnext⟩ := h.next h₀ hs ht hv hdir hf hroom.resolve_left
      exact ⟨_, hrun, .inl ⟨rfl, hnext⟩⟩
    · obtain ⟨habs, -⟩ := not_or.mp hroom
      obtain ⟨m'', hrun, hhalt⟩ := hstuck n m' f h hv hdir hf habs (by omega)
      exact ⟨_, hrun, .inr ⟨rfl, hhalt⟩⟩

/-- One table. -/
theorem Sharing.table (h : Sharing m ds kt k s t (1024 * i) m') (hlo : 32 ≤ i) (hhi : i < 768) :
    ∃ st, uvmCloneTable (s * 4096) (t * 4096) i (false, m') = some st ∧
      (st.1 = false ∧ Sharing m ds kt k s t (1024 * (i + 1)) st.2 ∨ st.1 ∧ Halts st.2) := by
  obtain ⟨owner', hlay, -⟩ := h.layout
  obtain ⟨c, hid, -⟩ := hlay.idMapped
  have hword : word m'.mem s i = word m.mem s i := word_congr (by omega) h.src
  have hload := hid.kload32 (hlay.dir_low (Finset.mem_insert_of_mem hs)) (show i < 1024 by omega)
  rw [hword] at hload
  unfold uvmCloneTable
  rw [hload, bind_some]
  by_cases hdir : hasFlag (word m.mem s i) pagePresent = true
  · rw [if_pos hdir]
    exact forRangeM_total
      (fun j st => st.1 = false ∧ Sharing m ds kt k s t (1024 * i + j) st.2 ∨
        st.1 = true ∧ Halts st.2)
      (f := uvmCloneEntry (t * 4096) i (frameAddr (word m.mem s i))) (a := 0) (n := 1024)
        (s := (false, m'))
      (.inl ⟨rfl, h⟩) fun j st _ hj hst => by
        obtain ⟨b, m''⟩ := st
        obtain ⟨rfl, hsh⟩ | ⟨rfl, hhalt⟩ := hst
        · have hstep := hsh.entry_or h₀ hs ht Halts hstuck (by unfold UserPage; omega)
          rw [show (1024 * i + j) / 1024 = i by omega,
            show (1024 * i + j) % 1024 = j by omega] at hstep
          exact hstep hdir
        · exact ⟨(true, m''), rfl, .inr ⟨rfl, hhalt⟩⟩
  · rw [if_neg hdir]
    refine ⟨_, rfl,
      .inl ⟨rfl, h.skip (by omega) fun u _ hlo' hhi' => frameAt_eq_none.mpr fun hp => hdir ?_⟩⟩
    have hpres := present_dir_of_present hp
    rwa [show u / 1024 = i by omega] at hpres

/-- **The loops of `uvm_clone`**: all pages are shared, or it stops at one. -/
theorem Sharing.loop (h : Sharing m ds kt k s t 32768 m') :
    ∃ st, forRangeM (uvmCloneTable (s * 4096) (t * 4096)) 32 736 (false, m') = some st ∧
      (st.1 = false ∧ Sharing m ds kt k s t 786432 st.2 ∨ st.1 ∧ Halts st.2) :=
  forRangeM_total
    (fun i st => st.1 = false ∧ Sharing m ds kt k s t (1024 * i) st.2 ∨ st.1 = true ∧ Halts st.2)
    (f := uvmCloneTable (s * 4096) (t * 4096)) (a := 32) (n := 736) (s := (false, m'))
    (.inl ⟨rfl, h⟩) fun i st hlo hhi hst => by
      obtain ⟨b, m''⟩ := st
      obtain ⟨rfl, hsh⟩ | ⟨rfl, hhalt⟩ := hst
      · exact hsh.table h₀ hs ht Halts hstuck hlo (by omega)
      · exact ⟨(true, m''), rfl, .inr ⟨rfl, hhalt⟩⟩

end Loops

/-- A clone that has gone through has made a table for each used one. -/
theorem Sharing.tables (h : Sharing m ds kt k s t 786432 m') :
    (tablesMade m'.mem t).card = tablesUsed m.mem s 32 736 := by
  rw [tablesUsed_eq_card]
  refine congrArg Finset.card (Finset.Subset.antisymm (tablesMade_subset h.made) fun i hi => ?_)
  obtain ⟨hi, hused⟩ := Finset.mem_filter.mp hi
  obtain ⟨hlo, hhi⟩ := Finset.mem_Ico.mp hi
  obtain ⟨u, rfl, hp⟩ := tableUsed_iff.mp hused
  have hu : UserPage u := by
    unfold UserPage
    omega
  have hchild := h.child hu
  rw [if_pos hu.2, frameAt_eq_some.mpr ⟨hp, rfl⟩] at hchild
  exact mem_tablesMade.mpr ⟨⟨hlo, hhi⟩, present_dir_of_present (frameAt_eq_some.mp hchild).1⟩

/-! ## the call -/

/-- What a successful `uvm_clone` does to the spaces `ds`: `t` is new, and every
page of `s` is shared with it. -/
structure Cloned (m m' : Machine) (ds : Finset Nat) (s t : Nat) : Prop where
  regs : SameRegs m m'
  entry : ∀ x ∈ insert t ds, ∀ u, (toStore m' (insert t ds)).entry x u =
    if x = s ∨ x = t then ((toStore m ds).entry s u).map Entry.downgrade
    else (toStore m ds).entry x u
  content : ∀ x ∈ ds, ∀ u e, (toStore m ds).entry x u = some e →
    page m'.mem e.frame = page m.mem e.frame
  refs : ∀ u e, (toStore m ds).entry s u = some e →
    m'.pmm.pageRefs e.frame = m.pmm.pageRefs e.frame + 1
  high : ∀ f, ¬Low f → pageIsFree m'.pmm f = pageIsFree m.pmm f
  free : freeBelow 32768 m'.pmm + tablesUsed m.mem s 32 736 + 1 = freeBelow 32768 m.pmm

/-- The spaces see what they would see after an eager copy. -/
theorem Cloned.view {m' : Machine} (h : Cloned m m' ds s t) (hs : s ∈ ds) (hx : x ∈ insert t ds)
    (u : Nat) :
    (toStore m' (insert t ds)).view x u = eagerClone (toStore m ds).view s t x u := by
  -- what is seen through an entry, shared or not, is what was seen through the old one
  have hsee : ∀ y ∈ ds, ((toStore m ds).entry y u).map
      (fun e => (e.mode.mayWrite, page m'.mem e.frame)) =
      (toStore m ds).view y u := by
    intro y hy
    unfold Store.view
    cases he : (toStore m ds).entry y u with
    | none => rfl
    | some e =>
      rw [map_some, map_some, h.content y hy u e he]
      rfl
  unfold eagerClone
  rw [Store.view, h.entry x hx u]
  by_cases hxs : x = s ∨ x = t
  · have hsame : (if x = t then (toStore m ds).view s u else (toStore m ds).view x u) =
        (toStore m ds).view s u := by
      obtain rfl | rfl := hxs
      · split <;> rfl
      · rw [if_pos rfl]
    rw [if_pos hxs, hsame, ← hsee s hs, Option.map_map]
    refine congrArg (fun f => Option.map f _) (funext fun e => ?_)
    simp [toStore]
  · have hxds : x ∈ ds := Finset.mem_of_mem_insert_of_ne hx fun hxt => hxs (.inr hxt)
    rw [if_neg hxs, if_neg fun hxt => hxs (.inr hxt)]
    exact hsee x hxds

/-- An entry of the store, as a frame at a page. -/
theorem frameAt_of_entry {e : Entry Nat} (he : (toStore m ds).entry x u = some e) :
    UserPage u ∧ frameAt m.mem x u = some e.frame := by
  obtain ⟨hu, hp, rfl⟩ := entry_toStore.mp he
  exact ⟨hu, frameAt_eq_some.mpr ⟨hp, rfl⟩⟩

/-- When all pages are shared and none was counted 255 times. -/
theorem Sharing.cloned (h : Sharing m ds kt k s t 786432 m') (hs : s ∈ ds)
    (hshare : ∀ u e, (toStore m ds).entry s u = some e → m.pmm.pageRefs e.frame < 255) :
    Cloned m m' ds s t ∧ Store.Forked (toStore m ds) (toStore m' (insert t ds)) s t := by
  have hentry : ∀ x ∈ insert t ds, ∀ u, (toStore m' (insert t ds)).entry x u =
      if x = s ∨ x = t then ((toStore m ds).entry s u).map Entry.downgrade
        else (toStore m ds).entry x u := by
    intro x hx u
    dsimp only [toStore]
    by_cases hu : UserPage u
    · rw [if_pos hu, if_pos hu, if_pos hu, h.entry x hx u hu]
      by_cases hx' : x = s ∨ x = t
      · rw [if_pos ⟨hx', hu.2⟩, if_pos hx']
      · rw [if_neg fun hc => hx' hc.1, if_neg hx', if_neg fun hxt => hx' (.inr hxt)]
    · rw [if_neg hu, if_neg hu, if_neg hu]
      split <;> rfl
  -- a frame that `s` has is counted once more
  have hraised : ∀ u e, (toStore m ds).entry s u = some e →
      m'.pmm.pageRefs e.frame = m.pmm.pageRefs e.frame + 1 := by
    intro u e he
    obtain ⟨hu, hf⟩ := frameAt_of_entry he
    rw [h.refs s hs u _ hu hf, if_pos ⟨hf, hu.2⟩, raised, if_pos (hshare u e he)]
  refine ⟨⟨h.regs, hentry, fun x hx u e he => ?_, hraised, h.high, ?_⟩, rfl, hentry,
    fun x hx u e he => ?_⟩
  · obtain ⟨hu, hf⟩ := frameAt_of_entry he
    exact h.content x hx u _ hu hf
  · rw [← h.tables]
    exact h.room
  · by_cases hm : (toStore m ds).Maps s u e.frame
    · obtain ⟨e', he', hf⟩ := hm
      rw [if_pos ⟨e', he', hf⟩, ← hf]
      exact hraised u e' he'
    · obtain ⟨hu, hf⟩ := frameAt_of_entry he
      rw [if_neg hm, Nat.add_zero]
      show m'.pmm.pageRefs e.frame = m.pmm.pageRefs e.frame
      rw [h.refs x hx u _ hu hf, if_neg]
      rintro ⟨hsf, -⟩
      obtain ⟨hp, hpf⟩ := frameAt_eq_some.mp hsf
      exact hm ⟨_, entry_toStore.mpr ⟨hu, hp, rfl⟩, hpf⟩

/-- **`uvm_clone`** succeeds while there are frames below 128 MB for a directory
and a table for each used table of `s`, and no page of `s` is counted 255 times. -/
theorem Layout.uvmClone (h : Layout m ds kt k owner)
    (hok : (toStore m ds).Ok) (hs : s ∈ ds)
    (hshare : ∀ u e, (toStore m ds).entry s u = some e → m.pmm.pageRefs e.frame < 255)
    (hroom : tablesUsed m.mem s 32 736 + 1 ≤ freeBelow 32768 m.pmm) :
    ∃ t m' owner', uvmClone m (s * 4096) = some (t * 4096, m') ∧ t ≠ 0 ∧ t ∉ ds ∧
      Layout m' (insert t ds) kt k owner' ∧ (toStore m' (insert t ds)).Ok ∧ Cloned m m' ds s t := by
  obtain ⟨t, m₁, hcreate, ht0, ht, hstart⟩ :=
    h.sharing_start hs (Nat.lt_of_lt_of_le (Nat.succ_pos _) hroom)
  -- there is a frame for each table
  obtain ⟨⟨b, m'⟩, hloop, ⟨rfl, hsh⟩ | ⟨-, hno⟩⟩ := hstart.loop h hs ht (fun _ => False)
    fun n m' f hsh hn _ hf habs hzero => by
      have hlt := card_tablesMade_lt hsh.made hn (by simp [hf]) fun hmem =>
        habs (mem_tablesMade.mp hmem).2
      have hroom' := hsh.room
      omega
  · obtain ⟨owner', hlay, -⟩ := hsh.layout
    obtain ⟨hcloned, hfork⟩ := hsh.cloned hs hshare
    refine ⟨t, m', owner', ?_, ht0, ht, hlay, hok.forked hs ht hfork, hcloned⟩
    unfold AliOS.uvmClone
    rw [hcreate, bind_some]
    rw [if_neg (by omega), hloop]
    rfl
  · exact hno.elim

end Clone

end AliOS
