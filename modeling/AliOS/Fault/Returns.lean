import AliOS.Cow

/-!
# AliOS.Fault.Returns

When `page_fault` returns, the processor tries the access again.  The copy-on-write branch
has changed the directory of the running task, so the access goes through.  The branch for
kernel addresses changes `page_dir`; a user directory has only copies of some of its
entries, made by `uvm_create`, so a new page table of `page_dir` does not show there, and
the access faults again.

`LiveTables` says what the handler relies on: tables lie in the identity map, are marked
used and are no user pages.  Then its stores change no table but the one it means to.
-/

namespace AliOS

open Lib Option

variable {f v i g w err cr2 c d : Nat}

/-! ## the tables in use -/

/-- The directory `d` or one of its page tables. -/
def TableOf (mem : Bytes) (d f : Nat) : Prop :=
  f = d ∨ ∃ i < 1024, hasFlag (word mem d i) pagePresent = true ∧ f = word mem d i / 4096

/-- The state in which the handler runs: the directory `c` is in CR3, `page_dir` is in
frame `k`, and the frames `kt` hold the identity tables. -/
structure LiveTables (m : Machine) (kt : Nat → Nat) (c k : Nat) : Prop where
  mapped : IdMapped m kt c
  pageDir : m.pageDir = k * 4096
  zero : pageIsFree m.pmm 0 = false
  used : ∀ f, TableOf m.mem c f ∨ TableOf m.mem k f → Low f ∧ pageIsFree m.pmm f = false
  apart : ∀ d i, d = c ∨ d = k → i < 1024 → hasFlag (word m.mem d i) pagePresent = true →
    word m.mem d i / 4096 ≠ c ∧ word m.mem d i / 4096 ≠ k
  write : ∀ i < 1024, hasFlag (word m.mem c i) pagePresent = true →
    hasFlag (word m.mem c i) pageWrite = true
  data : ∀ v, UserPage v → hasFlag (pteAt m.mem c v) pagePresent = true →
    ¬TableOf m.mem c (pteAt m.mem c v / 4096)
  /-- only user pages are shared copy-on-write -/
  cow : ∀ v < 786432, hasFlag (pteAt m.mem c v) pagePresent = true →
    hasFlag (pteAt m.mem c v) pageCow = true →
    hasFlag (word m.mem c (v / 1024)) pageUser = true ∧ hasFlag (pteAt m.mem c v) pageUser = true
  /-- `page_dir` has no user pages -/
  kernel : ∀ i, 32 ≤ i → i < 768 → ¬hasFlag (word m.mem k i) pagePresent = true

/-- The directory `c` and its tables are in `t` as in `m`. -/
structure SameTables (m : Machine) (c : Nat) (t : Machine) : Prop where
  cr0 : t.cr0 = m.cr0
  cr3 : t.cr3 = m.cr3
  pageDir : t.pageDir = m.pageDir
  pages : ∀ f, TableOf m.mem c f → page t.mem f = page m.mem f

section

variable {m t t' : Machine} {kt : Nat → Nat} {c k : Nat}

theorem SameTables.refl (m : Machine) (c : Nat) : SameTables m c m :=
  ⟨rfl, rfl, rfl, fun _ _ => rfl⟩

/-- The tables do not depend on the frame allocator. -/
theorem SameTables.pmm (h : SameTables m c t) (s : Pmm) : SameTables m c { t with pmm := s } :=
  ⟨h.cr0, h.cr3, h.pageDir, h.pages⟩

theorem SameTables.onlyFrame (h : SameTables m c t) (hf : ¬TableOf m.mem c f) {mem' : Bytes}
    (hmem : OnlyFrame f t.mem mem') : SameTables m c { t with mem := mem' } where
  cr0 := h.cr0
  cr3 := h.cr3
  pageDir := h.pageDir
  pages g hg := (hmem g (by rintro rfl; exact hf hg)).trans (h.pages g hg)

theorem SameTables.walk_same (h : SameTables m c t) (hv : v < 2 ^ 32) :
    walk t.mem (c * 4096) v = walk m.mem (c * 4096) v :=
  walk_congr (by omega) (h.pages c (.inl rfl)) fun hp =>
    h.pages _ (.inr ⟨v / 2 ^ 22, by omega, hp, rfl⟩)

theorem SameTables.word_same (h : SameTables m c t) (hi : i < 1024) :
    word t.mem c i = word m.mem c i := word_congr hi (h.pages c (.inl rfl))

theorem IdMapped.tableOf (h : IdMapped m kt c) (hi : i < identityTables) :
    TableOf m.mem c (kt i) := by
  have hp := h.dir i hi
  unfold identityTables at hi
  exact .inr ⟨i, by omega, hp.present, hp.frame.symm⟩

theorem SameTables.idMapped (h : SameTables m c t) (hid : IdMapped m kt c) : IdMapped t kt c where
  cr3 := h.cr3.trans hid.cr3
  dir := hid.dir.congr (h.pages c (.inl rfl))
  tables := hid.tables.congr fun _ hi => h.pages _ (hid.tableOf hi)

/-! ## stores that change no table -/

/-- A free frame is no table. -/
theorem LiveTables.not_tableOf (hl : LiveTables m kt c k) (hg : pageIsFree m.pmm g) :
    ¬TableOf m.mem c g := by
  intro ht
  rw [(hl.used g (.inl ht)).2] at hg
  cases hg

/-- A store to the address of a free frame reaches that frame, or a user page. -/
theorem LiveTables.kwrite_free (hl : LiveTables m kt c k) (h : SameTables m c t) {off p : Nat}
    (hg : g < pagesMax) (hfree : pageIsFree m.pmm g) (hoff : off < 4096)
    (hw : t.kwrite (g * 4096 + off) = some p) : ∃ f, p = f * 4096 + off ∧ ¬TableOf m.mem c f := by
  unfold pagesMax at hg
  by_cases hlow : Low g
  · rw [(h.idMapped hl.mapped).kwrite (hlow.addr_lt hoff)] at hw
    exact ⟨g, (some.inj hw).symm, hl.not_tableOf hfree⟩
  · have huser : UserPage g := by unfold Low at hlow; unfold UserPage; omega
    have hwalk := h.walk_same (v := g * 4096 + off) (by omega)
    unfold Machine.kwrite at hw
    rw [h.cr3, hl.mapped.cr3, hwalk, walk_eq_pteAt, show (g * 4096 + off) / 4096 = g by omega] at hw
    by_cases hp : hasFlag (pteAt m.mem c g) pagePresent = true
    · rw [if_pos hp, bind_some] at hw
      split at hw
      · cases hw
      · refine ⟨pteAt m.mem c g / 4096, ?_, hl.data g huser hp⟩
        rw [← some.inj hw]
        unfold physOf frameAddr
        omega
    · rw [if_neg hp] at hw
      cases hw

theorem LiveTables.kstore32_free (hl : LiveTables m kt c k) (h : SameTables m c t)
    (hg : g < pagesMax)
    (hfree : pageIsFree m.pmm g) (hi : i < 1024) (hs : kstore32 t (g * 4096 + 4 * i) w = some t') :
    SameTables m c t' := by
  obtain ⟨p, hw, rfl⟩ := map_eq_some_iff.mp hs
  obtain ⟨f, rfl, hf⟩ := hl.kwrite_free h hg hfree (by omega) hw
  exact h.onlyFrame hf (onlyFrame_setWord t.mem f hi w)

theorem LiveTables.copyPage_free (hl : LiveTables m kt c k) (h : SameTables m c t) {src : Nat}
    (hg : g < pagesMax) (hfree : pageIsFree m.pmm g) (hs : copyPage t (g * 4096) src = some t') :
    SameTables m c t' :=
  forRangeM_induct (fun _ u => SameTables m c u) hs h fun _ _ _ _ hi hu hstep => by
    obtain ⟨b, -, hstore⟩ := bind_eq_some_iff.mp hstep
    obtain ⟨p, hw, rfl⟩ := map_eq_some_iff.mp hstore
    obtain ⟨f, rfl, hf⟩ := hl.kwrite_free hu hg hfree (by omega) hw
    exact hu.onlyFrame hf (onlyFrame_update _ f (by omega) b)

/-! ## the access after the handler -/

/-- The access of a fault with the error code `err` at `cr2` goes through: the page is
present and, for a write, may be written to from where the access came. -/
def Resolved (m : Machine) (err cr2 : Nat) : Prop :=
  ∃ e, walk m.mem m.cr3 cr2 = some e ∧ (hasFlag err pfWrite = true →
    if hasFlag err pfUser then
      (hasFlag e.1 pageUser && hasFlag e.2 pageUser && hasFlag e.1 pageWrite &&
        hasFlag e.2 pageWrite) = true
    else (m.kwrite cr2).isSome = true)

theorem resolved_congr (hwalk : walk t.mem t.cr3 cr2 = walk m.mem m.cr3 cr2)
    (hcr0 : t.cr0 = m.cr0) :
    Resolved t err cr2 ↔ Resolved m err cr2 := by
  unfold Resolved Machine.kwrite Machine.writeProtect
  rw [hwalk, hcr0]

theorem SameTables.resolved_iff (h : SameTables m c t) (hcr3 : m.cr3 = c * 4096)
    (hcr2 : cr2 < 2 ^ 32) :
    Resolved t err cr2 ↔ Resolved m err cr2 :=
  resolved_congr (by rw [h.cr3, hcr3, h.walk_same hcr2]) h.cr0

/-- The walk after a store into a page table, of `c` or another. -/
theorem SameTables.walk_setWord (h : SameTables m c t) (hv : v < 2 ^ 32) (hf : f ≠ c)
    (hw : w < 2 ^ 32) :
    walk (setWord t.mem f (v / 2 ^ 12 % 1024) w) (c * 4096) v =
      if hasFlag (word m.mem c (v / 2 ^ 22)) pagePresent ∧ word m.mem c (v / 2 ^ 22) / 4096 = f then
        if hasFlag w pagePresent then some (word m.mem c (v / 2 ^ 22), w) else none
      else walk m.mem (c * 4096) v := by
  have hpt : v / 2 ^ 12 % 1024 < 1024 := Nat.mod_lt _ (by decide)
  have hdir : word (setWord t.mem f (v / 2 ^ 12 % 1024) w) c (v / 2 ^ 22) =
      word m.mem c (v / 2 ^ 22) := by
    rw [word_setWord hpt (by omega) hw, if_neg fun hc => hf hc.1.symm, h.word_same (by omega)]
  split
  · next hin =>
      have hword : word (setWord t.mem f (v / 2 ^ 12 % 1024) w) f (v / 2 ^ 12 % 1024) = w := by
        rw [word_setWord hpt hpt hw, if_pos ⟨rfl, rfl⟩]
      rw [walk_eq, hdir, if_pos hin.1, hin.2, hword]
  · next hout =>
      rw [← h.walk_same hv]
      refine walk_congr (by omega) (page_setWord hpt (Ne.symm hf)) fun hp =>
        page_setWord hpt fun heq => hout ?_
      rw [h.word_same (by omega)] at hp heq
      exact ⟨hp, heq⟩

/-! ## the copy-on-write branch -/

/-- The branch leaves the tables as they are, but for the entry of the page, which it makes
writable. -/
theorem LiveTables.resolveCow (hl : LiveTables m kt c k) {j pte : Nat} (hlow : Low f)
    (hj : j < 1024) (hpte : pte < 2 ^ 32) (hs : resolveCow m (f * 4096 + 4 * j) pte = some t') :
    ∃ t g, SameTables m c t ∧ g < 2 ^ 20 ∧ t'.cr3 = m.cr3 ∧ t'.cr0 = m.cr0 ∧
      t'.mem = setWord t.mem f j (g * 4096 ||| (pte &&& 0xDFF ||| pageWrite)) := by
  unfold AliOS.resolveCow at hs
  dsimp only at hs
  split at hs
  · rw [hl.mapped.kstore32 hlow hj] at hs
    cases hs
    exact ⟨m, pte / 4096, .refl m c, by omega, rfl, rfl, rfl⟩
  · split at hs
    · cases hs
    · rename_i hne
      obtain ⟨g, hg, -, hfree, halloc⟩ := Machine.alloc_spec hne
      rw [halloc] at hs
      obtain ⟨u, hcopy, hstore⟩ := bind_eq_some_iff.mp hs
      have hsame := hl.copyPage_free ((SameTables.refl m c).pmm _) hg hfree hcopy
      have hid : IdMapped (u.free (frameAddr pte)) kt c := (hsame.pmm _).idMapped hl.mapped
      rw [hid.kstore32 hlow hj] at hstore
      cases hstore
      exact ⟨u, g, hsame, by unfold pagesMax at hg; omega, hsame.cr3, hsame.cr0, rfl⟩

theorem LiveTables.cowFault_resolved (hl : LiveTables m kt c k) (hcr2 : cr2 < kernelVirtBase)
    (huser : hasFlag err pfUser) (hs : cowFault m (c * 4096) cr2 = some t') :
    Resolved t' err cr2 := by
  unfold kernelVirtBase at hcr2
  have hi : cr2 / 2 ^ 22 < 1024 := by omega
  have hj : cr2 / 2 ^ 12 % 1024 < 1024 := Nat.mod_lt _ (by decide)
  unfold cowFault at hs
  rw [hl.mapped.kload32 (hl.used c (.inl (.inl rfl))).1 hi, bind_some] at hs
  split at hs
  swap
  · cases hs
  rename_i hpde
  obtain ⟨hlow, -⟩ := hl.used _ (.inl (.inr ⟨_, hi, hpde, rfl⟩))
  dsimp only at hs
  rw [frameAddr_eq, hl.mapped.kload32 hlow hj, bind_some] at hs
  split at hs
  swap
  · cases hs
  rename_i hflags
  -- the entry of the page
  have hpteAt : pteAt m.mem c (cr2 / 4096) =
      word m.mem (word m.mem c (cr2 / 2 ^ 22) / 4096) (cr2 / 2 ^ 12 % 1024) := by
    unfold pteAt
    rw [show cr2 / 4096 / 1024 = cr2 / 2 ^ 22 by omega, if_pos hpde]
    rfl
  rw [← hpteAt] at hs hflags
  simp only [Bool.and_eq_true] at hflags
  obtain ⟨hup, hpu⟩ := hl.cow _ (by omega) hflags.1 hflags.2
  rw [show cr2 / 4096 / 1024 = cr2 / 2 ^ 22 by omega] at hup
  obtain ⟨t, g, hsame, hg, hcr3, -, hmem⟩ :=
    hl.resolveCow hlow hj (by rw [hpteAt]; exact word_lt _ _ _) hs
  have hlt := cowFlags_lt (pteAt m.mem c (cr2 / 4096))
  have hflag : ∀ flag, flag < 4096 → 0xDFF &&& flag = flag →
      hasFlag (pteAt m.mem c (cr2 / 4096)) flag = true →
      hasFlag (g * 4096 ||| (pteAt m.mem c (cr2 / 4096) &&& 0xDFF ||| pageWrite)) flag = true := by
    intro flag hflag hmask hset
    rw [hasFlag_mul_or _ _ hflag, hasFlag_or, hasFlag_and _ hmask, hset, Bool.true_or]
  have hwalk := hsame.walk_setWord (v := cr2) (by omega) (hl.apart c _ (.inl rfl) hi hpde).1
    (mul_or_lt hg hlt)
  rw [if_pos ⟨hpde, rfl⟩, if_pos (hflag pagePresent (by decide) (by decide) hflags.1)] at hwalk
  refine ⟨_, by rw [hcr3, hl.mapped.cr3, hmem, hwalk], fun _ => ?_⟩
  rw [if_pos huser]
  simp only [Bool.and_eq_true]
  refine ⟨⟨⟨hup, hflag pageUser (by decide) (by decide) hpu⟩, hl.write _ hi hpde⟩, ?_⟩
  rw [hasFlag_mul_or _ _ (by decide), hasFlag_or, Bool.or_eq_true]
  exact .inr (by decide)

/-! ## the branch for kernel addresses -/

/-- `paging_map` as `page_fault` calls it. -/
theorem pagingMap_fault (m : Machine) (cr2 f : Nat) :
    pagingMap m (frameAddr cr2) (f * 4096) (pagePresent ||| pageWrite) =
      if hasFlag (m.pageDirEntry (cr2 / 2 ^ 22)) pagePresent then
        kstore32 m (frameAddr (m.pageDirEntry (cr2 / 2 ^ 22)) + 4 * (cr2 / 2 ^ 12 % 1024))
          (f * 4096 ||| 3)
      else if m.alloc.1 = 0 then some m.alloc.2
      else (clearTable m.alloc.2 m.alloc.1).bind fun t =>
        kstore32 (t.setPageDirEntry (cr2 / 2 ^ 22) (m.alloc.1 ||| 3))
          (m.alloc.1 + 4 * (cr2 / 2 ^ 12 % 1024)) (f * 4096 ||| 3) := by
  have hpte : frameAddr (f * 4096) ||| (pagePresent ||| pageWrite ||| pagePresent) =
      f * 4096 ||| 3 := by
    rw [frameAddr_mul]
    rfl
  have hpde : m.alloc.1 ||| pagePresent ||| pageWrite = m.alloc.1 ||| 3 := by rw [Nat.or_assoc]; rfl
  unfold pagingMap
  rw [show frameAddr cr2 / 2 ^ 22 = cr2 / 2 ^ 22 by unfold frameAddr; omega,
    show frameAddr cr2 / 2 ^ 12 % 1024 = cr2 / 2 ^ 12 % 1024 by unfold frameAddr; omega]
  dsimp only
  rw [hpte, hpde]

/-- A page that is present and writable for the kernel. -/
theorem resolved_of_walk {pde : Nat} (huser : hasFlag err pfUser = false)
    (hwalk : walk m.mem m.cr3 cr2 = some (pde, f * 4096 ||| 3)) (hpde : hasFlag pde pageWrite) :
    Resolved m err cr2 := by
  have hpte : hasFlag (f * 4096 ||| 3) pageWrite := by rw [hasFlag_mul_or _ _ (by decide)]; decide
  refine ⟨_, hwalk, fun _ => ?_⟩
  rw [if_neg (by simp [huser])]
  unfold Machine.kwrite
  rw [hwalk, bind_some]
  simp [hpde, hpte]

/-- What the branch needs for the access to go through: a page table of `page_dir` for the
address, and the same in the directory in CR3; or else that this is `page_dir`, and a
second free frame for a new table. -/
def MappingShows (m : Machine) (cr2 : Nat) : Prop :=
  let pde := m.pageDirEntry (cr2 / 2 ^ 22)
  let live := load32 m.mem (m.cr3 + 4 * (cr2 / 2 ^ 22))
  if hasFlag pde pagePresent then hasFlag live pagePresent = true ∧ live / 4096 = pde / 4096
  else m.cr3 = m.pageDir ∧ 2 ≤ freeBelow pagesMax m.pmm

theorem LiveTables.mappingShows_iff (hl : LiveTables m kt c k) (cr2 : Nat) : MappingShows m cr2 ↔
    if hasFlag (word m.mem k (cr2 / 2 ^ 22)) pagePresent then
      hasFlag (word m.mem c (cr2 / 2 ^ 22)) pagePresent ∧
        word m.mem c (cr2 / 2 ^ 22) / 4096 = word m.mem k (cr2 / 2 ^ 22) / 4096
    else c = k ∧ 2 ≤ freeBelow pagesMax m.pmm := by
  have hdir : m.cr3 = m.pageDir ↔ c = k := by rw [hl.mapped.cr3, hl.pageDir]; omega
  unfold MappingShows Machine.pageDirEntry
  rw [hdir, hl.mapped.cr3, hl.pageDir]
  rfl

theorem LiveTables.pageDirEntry (hl : LiveTables m kt c k) (s : Pmm) (i : Nat) :
    ({ m with pmm := s } : Machine).pageDirEntry i = word m.mem k i := by
  rw [hl.pageDir]
  rfl

/-- A frame that the running kernel directory does not map kills the kernel. -/
theorem LiveTables.clearTable_low (hl : LiveTables m kt c k) (hck : c = k) {s : Pmm}
    (hg : g < pagesMax) (hs : clearTable { m with pmm := s } (g * 4096) = some t') : Low g := by
  by_contra hhigh
  unfold pagesMax at hg
  unfold Low at hhigh
  have hpde := hl.kernel (g * 4096 / 2 ^ 22) (by omega) (by omega)
  have hfirst : kstore32 { m with pmm := s } (g * 4096 + 4 * 0) 0 = none := by
    unfold kstore32 Machine.kwrite
    rw [hl.mapped.cr3, hck, walk_eq, show (g * 4096 + 4 * 0) / 2 ^ 22 = g * 4096 / 2 ^ 22 by omega,
      if_neg hpde]
    rfl
  rw [clearTable, show 1024 = 1023 + 1 from rfl, forRangeM_succ, hfirst] at hs
  cases hs

/-- A new page table in a frame of the identity map: it is cleared, and stores to it go
through once it is in `page_dir`. -/
theorem LiveTables.newTable (hl : LiveTables m kt c k) (hlow : Low g) (hfree : pageIsFree m.pmm g)
    (s : Pmm) (hi : 32 ≤ i) (hi' : i < 1024) (hw : w < 2 ^ 32) :
    ∃ mem1, clearTable { m with pmm := s } (g * 4096) = some { m with mem := mem1, pmm := s } ∧
      OnlyFrame g m.mem mem1 ∧ ∀ {j w'}, j < 1024 →
        kstore32 (({ m with mem := mem1, pmm := s } : Machine).setPageDirEntry i w)
          (g * 4096 + 4 * j) w' =
          some { m with mem := setWord (setWord mem1 k i w) g j w', pmm := s } := by
  have hgt := hl.not_tableOf hfree
  have hout : Outside kt c g :=
    ⟨fun heq => hgt (.inl heq), fun i hi heq => hgt (heq ▸ hl.mapped.tableOf hi)⟩
  have hid : IdMapped { m with pmm := s } kt c := ⟨hl.mapped.cr3, hl.mapped.dir, hl.mapped.tables⟩
  obtain ⟨mem1, hclear, honly, -⟩ := hid.clearTable hlow hout
  refine ⟨mem1, hclear, honly, fun {j w'} hj => ?_⟩
  -- the new entry is none of those of the identity map
  have hid1 : IdMapped { m with mem := setWord mem1 k i w, pmm := s } kt c := by
    have hmap := hid.onlyFrame hout honly
    refine ⟨hl.mapped.cr3, fun i' hlt => ?_,
      hmap.tables.congr fun i' hlt => page_setWord hi' fun heq => ?_⟩
    · unfold identityTables at hlt
      rw [word_setWord hi' (by omega) hw, if_neg (by omega)]
      exact hmap.dir i' hlt
    · have hp := hl.mapped.dir i' hlt
      unfold identityTables at hlt
      refine (hl.apart c i' (.inl rfl) (by omega) hp.present).2 ?_
      rw [hp.frame, heq]
  have hdir : ({ m with mem := mem1, pmm := s } : Machine).setPageDirEntry i w =
      { m with mem := setWord mem1 k i w, pmm := s } := by
    unfold Machine.setPageDirEntry setWord
    rw [hl.pageDir]
  rw [hdir, hid1.kstore32 hlow hj]

section

variable {err cr2 f : Nat} (hl : LiveTables m kt c k) (hlt : cr2 < 2 ^ 32)
  (huser : hasFlag err pfUser = false) (hf : f < pagesMax)
include hl hlt huser hf

/-- `page_dir` has a table for the address. -/
theorem LiveTables.pagingMap_present (s : Pmm)
    (hpde : hasFlag (word m.mem k (cr2 / 2 ^ 22)) pagePresent)
    (hs : pagingMap { m with pmm := s } (frameAddr cr2) (f * 4096) (pagePresent ||| pageWrite) =
      some t') :
    Resolved t' err cr2 ↔ Resolved m err cr2 ∨ hasFlag (word m.mem c (cr2 / 2 ^ 22)) pagePresent ∧
      word m.mem c (cr2 / 2 ^ 22) / 4096 = word m.mem k (cr2 / 2 ^ 22) / 4096 := by
  have hi : cr2 / 2 ^ 22 < 1024 := by omega
  have hj : cr2 / 2 ^ 12 % 1024 < 1024 := Nat.mod_lt _ (by decide)
  have hsame : SameTables m c { m with pmm := s } := (SameTables.refl m c).pmm s
  have hentry := hl.pageDirEntry s (cr2 / 2 ^ 22)
  obtain ⟨hlow, -⟩ := hl.used _ (.inr (.inr ⟨_, hi, hpde, rfl⟩))
  have hmul : f * 4096 ||| 3 < 2 ^ 32 := mul_or_lt (by unfold pagesMax at hf; omega) (by decide)
  rw [pagingMap_fault, hentry, if_pos hpde, frameAddr_eq,
    (hsame.idMapped hl.mapped).kstore32 hlow hj] at hs
  cases hs
  have hwalk := hsame.walk_setWord hlt (hl.apart k _ (.inr rfl) hi hpde).1 hmul
  rw [← hl.mapped.cr3] at hwalk
  split at hwalk
  · next hin =>
      rw [if_pos (by rw [hasFlag_mul_or _ _ (by decide)]; decide)] at hwalk
      exact iff_of_true (resolved_of_walk huser hwalk (hl.write _ hi hin.1)) (.inr hin)
  · next hout =>
      rw [or_iff_left hout]
      exact resolved_congr hwalk rfl

/-- A new page table, in the directory in CR3. -/
theorem LiveTables.pagingMap_own {s : Pmm} (hcr2 : kernelVirtBase ≤ cr2) (hck : c = k)
    (hg : g < pagesMax) (hg0 : g ≠ 0) (hfree : pageIsFree m.pmm g)
    (hpde : ¬hasFlag (word m.mem k (cr2 / 2 ^ 22)) pagePresent)
    (halloc : ({ m with pmm := s } : Machine).alloc = (g * 4096, { m with pmm := s.grant g }))
    (hs : pagingMap { m with pmm := s } (frameAddr cr2) (f * 4096) (pagePresent ||| pageWrite) =
      some t') :
    Resolved t' err cr2 := by
  have hi : cr2 / 2 ^ 22 < 1024 := by omega
  have hj : cr2 / 2 ^ 12 % 1024 < 1024 := Nat.mod_lt _ (by decide)
  have hpde' : g * 4096 ||| 3 < 2 ^ 32 := mul_or_lt (by unfold pagesMax at hg; omega) (by decide)
  have hpte' : f * 4096 ||| 3 < 2 ^ 32 := mul_or_lt (by unfold pagesMax at hf; omega) (by decide)
  rw [pagingMap_fault, hl.pageDirEntry, if_neg hpde, halloc] at hs
  rw [if_neg (by omega)] at hs
  obtain ⟨u, hclear, hstore⟩ := bind_eq_some_iff.mp hs
  have hlow := hl.clearTable_low hck hg hclear
  have hhigh : 32 ≤ cr2 / 2 ^ 22 := by unfold kernelVirtBase at hcr2; omega
  obtain ⟨mem1, hclear', -, hstores⟩ := hl.newTable hlow hfree (s.grant g) hhigh hi hpde'
  obtain rfl := some.inj (hclear.symm.trans hclear')
  have hgc : g ≠ c := fun heq => hl.not_tableOf hfree (.inl heq)
  subst hck
  rw [hstores hj] at hstore
  cases hstore
  have hflag : ∀ x flag, flag < 4096 → hasFlag 3 flag = true → hasFlag (x * 4096 ||| 3) flag := by
    intro x flag hflag hset
    rw [hasFlag_mul_or _ _ hflag, hset]
  have hentry : word (setWord (setWord mem1 c (cr2 / 2 ^ 22) (g * 4096 ||| 3)) g
      (cr2 / 2 ^ 12 % 1024)
      (f * 4096 ||| 3)) c (cr2 / 2 ^ 22) = g * 4096 ||| 3 := by
    rw [word_setWord hj hi hpte', if_neg fun hc => hgc hc.1.symm, word_setWord hi hi hpde',
      if_pos ⟨rfl, rfl⟩]
  have hword : word (setWord (setWord mem1 c (cr2 / 2 ^ 22) (g * 4096 ||| 3)) g
      (cr2 / 2 ^ 12 % 1024)
      (f * 4096 ||| 3)) g (cr2 / 2 ^ 12 % 1024) = f * 4096 ||| 3 := by
    rw [word_setWord hj hj hpte', if_pos ⟨rfl, rfl⟩]
  refine resolved_of_walk (f := f) huser ?_ (hflag g pageWrite (by decide) (by decide))
  rw [hl.mapped.cr3, walk_eq, hentry, if_pos (hflag g pagePresent (by decide) (by decide)),
    mul_or_div (by decide), hword, if_pos (hflag f pagePresent (by decide) (by decide))]

/-- `page_dir` has no table for the address. -/
theorem LiveTables.pagingMap_absent (hcr2 : kernelVirtBase ≤ cr2) (hfree : pageIsFree m.pmm f)
    (hpde : ¬hasFlag (word m.mem k (cr2 / 2 ^ 22)) pagePresent)
    (hs : pagingMap { m with pmm := m.pmm.grant f } (frameAddr cr2) (f * 4096)
      (pagePresent ||| pageWrite) =
      some t') :
    Resolved t' err cr2 ↔ Resolved m err cr2 ∨ c = k ∧ 2 ≤ freeBelow pagesMax m.pmm := by
  have hi : cr2 / 2 ^ 22 < 1024 := by omega
  have hj : cr2 / 2 ^ 12 % 1024 < 1024 := Nat.mod_lt _ (by decide)
  have hcount := freeBelow_grant hf hfree
  have hsame : SameTables m c { m with pmm := m.pmm.grant f } := (SameTables.refl m c).pmm _
  by_cases hne : ({ m with pmm := m.pmm.grant f } : Machine).alloc.1 = 0
  · -- no frame for the table: the handler returns all the same
    have hcount' : ¬0 < freeBelow pagesMax (m.pmm.grant f) := fun hpos => by
      obtain ⟨g, -, hg0, -, halloc⟩ :=
        Machine.alloc_below (m := { m with pmm := m.pmm.grant f }) (n := pagesMax)
        le_rfl (by simp [hl.zero]) hpos
      rw [halloc] at hne
      omega
    rw [pagingMap_fault, hl.pageDirEntry, if_neg hpde, if_pos hne] at hs
    cases hs
    rw [or_iff_left fun hc => by omega]
    exact (hsame.pmm _).resolved_iff hl.mapped.cr3 hlt
  · obtain ⟨g, hg, hg0, hgfree, halloc⟩ := Machine.alloc_spec hne
    have hcount' := freeBelow_grant hg hgfree
    have hgfree' : pageIsFree m.pmm g := by
      rw [pageIsFree_grant] at hgfree
      exact (Bool.and_eq_true _ _ ▸ hgfree).1
    by_cases hck : c = k
    · exact iff_of_true (hl.pagingMap_own hlt huser hf hcr2 hck hg hg0 hgfree' hpde halloc hs)
        (.inr ⟨hck, by dsimp only at hcount'; omega⟩)
    · -- the directory in CR3 does not change
      rw [or_iff_left fun hc => hck hc.1]
      rw [pagingMap_fault, hl.pageDirEntry, if_neg hpde, halloc] at hs
      rw [if_neg (by omega)] at hs
      obtain ⟨u, hclear, hstore⟩ := bind_eq_some_iff.mp hs
      have hu := forRangeM_induct (fun _ u => SameTables m c u) hclear ((SameTables.refl m c).pmm _)
        fun _ _ _ _ hi hu hstep => hl.kstore32_free hu hg hgfree' (by omega) hstep
      have hk : ¬TableOf m.mem c k := by
        rintro (heq | ⟨i, hi, hp, heq⟩)
        · exact hck heq.symm
        · exact (hl.apart c i (.inl rfl) hi hp).2 heq.symm
      have hv : SameTables m c (u.setPageDirEntry (cr2 / 2 ^ 22) (g * 4096 ||| 3)) := by
        refine hu.onlyFrame hk ?_
        rw [hu.pageDir, hl.pageDir]
        exact onlyFrame_setWord u.mem k hi _
      exact (hl.kstore32_free hv hg hgfree' hj hstore).resolved_iff hl.mapped.cr3 hlt

end

/-- The branch returns while there are frames in the identity map. -/
theorem LiveTables.pageFault_returns (hl : LiveTables m kt c k) (task : Option Nat)
    (hpresent : hasFlag err pfPresent = false) (huser : hasFlag err pfUser = false)
    (hreserved : hasFlag err pfReserved = false) (hcr2 : kernelVirtBase ≤ cr2) (hlt : cr2 < 2 ^ 32)
    (hroom : 2 ≤ freeBelow 32768 m.pmm) : ∃ t', pageFault m task err cr2 = some t' := by
  have hi : cr2 / 2 ^ 22 < 1024 := by omega
  have hj : cr2 / 2 ^ 12 % 1024 < 1024 := Nat.mod_lt _ (by decide)
  obtain ⟨f, hf, hf0, hfree, halloc⟩ := Machine.alloc_below (by decide) hl.zero
    (show 0 < freeBelow 32768 m.pmm by omega)
  have hcount := freeBelow_grant hf hfree
  unfold pageFault
  rw [if_pos (by simp [hpresent, huser, hreserved, hcr2, halloc, hf0]), halloc]
  rw [pagingMap_fault, hl.pageDirEntry]
  split
  · next hpde =>
      have hid : IdMapped { m with pmm := m.pmm.grant f } kt c :=
        ((SameTables.refl m c).pmm _).idMapped hl.mapped
      obtain ⟨hlow, -⟩ := hl.used _ (.inr (.inr ⟨_, hi, hpde, rfl⟩))
      exact ⟨_, hid.kstore32 hlow hj _⟩
  · obtain ⟨g, hg, hg0, hgfree, halloc'⟩ :=
      Machine.alloc_below (m := { m with pmm := m.pmm.grant f }) (by decide)
      (by simp [hl.zero]) (show 0 < freeBelow 32768 (m.pmm.grant f) by omega)
    have hgfree' : pageIsFree m.pmm g := by
      rw [pageIsFree_grant] at hgfree
      exact (Bool.and_eq_true _ _ ▸ hgfree).1
    obtain ⟨mem1, hclear, -, hstores⟩ :=
      hl.newTable (i := cr2 / 2 ^ 22) (w := g * 4096 ||| 3) hg hgfree'
      ((m.pmm.grant f).grant g) (by unfold kernelVirtBase at hcr2; omega) hi
      (mul_or_lt (by omega) (by decide))
    rw [halloc']
    rw [if_neg (by omega), hclear, bind_some, hstores hj]
    exact ⟨_, rfl⟩

/-- The handler after a fault on a page that is not present. -/
theorem LiveTables.pageFault_demand {task : Option Nat} (hl : LiveTables m kt c k)
    (hlt : cr2 < 2 ^ 32)
    (hpresent : hasFlag err pfPresent = false) (hs : pageFault m task err cr2 = some t') :
    Resolved t' err cr2 ↔ Resolved m err cr2 ∨ MappingShows m cr2 := by
  unfold pageFault at hs
  dsimp only at hs
  split at hs
  · rename_i hdemand
    simp only [Bool.and_eq_true, Bool.not_eq_true', decide_eq_true_eq] at hdemand
    obtain ⟨⟨⟨⟨-, huser⟩, -⟩, hcr2⟩, hne⟩ := hdemand
    obtain ⟨f, hf, -, hfree, halloc⟩ := Machine.alloc_spec hne
    rw [halloc] at hs
    rw [hl.mappingShows_iff]
    split
    · next hpde => exact hl.pagingMap_present hlt huser hf _ hpde hs
    · next hpde => exact hl.pagingMap_absent hlt huser hf hcr2 hfree hpde hs
  · rw [hpresent] at hs
    cases task <;> simp at hs

/-- The handler after a protection violation. -/
theorem LiveTables.pageFault_protection {task : Option Nat} (hl : LiveTables m kt c k)
    (htask : ∀ pd, task = some pd → m.cr3 = pd) (hpresent : hasFlag err pfPresent)
    (hs : pageFault m task err cr2 = some t') : Resolved t' err cr2 := by
  unfold pageFault at hs
  simp only [hpresent, Bool.not_true, Bool.false_and, Bool.false_eq_true, if_false,
    Bool.true_and] at hs
  cases task with
  | none => cases hs
  | some pd =>
    dsimp only at hs
    split at hs
    swap
    · cases hs
    rename_i hcow
    simp only [Bool.and_eq_true, decide_eq_true_eq] at hcow
    obtain ⟨⟨-, huser⟩, hcr2⟩ := hcow
    rw [← htask pd rfl, hl.mapped.cr3] at hs
    exact hl.cowFault_resolved hcr2 huser hs

/-- **The access after `page_fault`.**  When the handler returns, the access goes through
if it did so before, if the fault was a protection violation (a page shared copy-on-write),
or if the page that has been mapped shows in the directory in CR3; and in no other case. -/
theorem pageFault_resolves_iff {task : Option Nat} {err cr2 : Nat} (hl : LiveTables m kt c k)
    (htask : ∀ pd, task = some pd → m.cr3 = pd) (hlt : cr2 < 2 ^ 32)
    (hs : pageFault m task err cr2 = some t') :
    Resolved t' err cr2 ↔ Resolved m err cr2 ∨ hasFlag err pfPresent = true ∨
      MappingShows m cr2 := by
  cases hpresent : hasFlag err pfPresent with
  | true => exact iff_of_true (hl.pageFault_protection htask hpresent hs) (.inr (.inl rfl))
  | false =>
    rw [hl.pageFault_demand hlt hpresent hs]
    simp

end

/-! ## a page that does not show -/

/-- The process of `pairMachine`, or the kernel in its place. -/
def pairOn (c : Nat) : Machine := { pairMachine 402 with cr3 := c * 4096 }

theorem word_pairOn_dir (hd : d = 16 ∨ d = 320) (hi : i < 1024) :
    word (pairOn c).mem d i = if d = 320 ∧ i = 32 then 321 * 4096 ||| 7 else pairDirEntry i := by
  rw [show (pairOn c).mem = (pairMachine 402).mem from rfl, word_pairMachine hi]
  unfold pairWord
  rcases hd with rfl | rfl <;> simp

theorem present_pairDirEntry (hp : hasFlag (pairDirEntry i) pagePresent) :
    (i < 32 ∨ 768 ≤ i ∧ i < 800) ∧ 256 ≤ pairDirEntry i / 4096 ∧ pairDirEntry i / 4096 < 320 ∧
      hasFlag (pairDirEntry i) pageWrite := by
  unfold pairDirEntry at *
  split_ifs at * with hlow hhigh
  · rw [mul_or_div (by decide), hasFlag_mul_or _ _ (by decide)]
    exact ⟨.inl hlow, by omega, by omega, by decide⟩
  · rw [mul_or_div (by decide), hasFlag_mul_or _ _ (by decide)]
    exact ⟨.inr hhigh, by omega, by omega, by decide⟩
  · exact absurd hp (by decide)

/-- The directory entries that are present. -/
theorem present_pairOn (hd : d = 16 ∨ d = 320) (hi : i < 1024)
    (hp : hasFlag (word (pairOn c).mem d i) pagePresent) :
    hasFlag (word (pairOn c).mem d i) pageWrite ∧
      (256 ≤ word (pairOn c).mem d i / 4096 ∧ word (pairOn c).mem d i / 4096 < 320 ∨
        word (pairOn c).mem d i / 4096 = 321 ∧ d = 320) := by
  rw [word_pairOn_dir hd hi] at hp ⊢
  split_ifs at * with h
  · exact ⟨by decide, .inr ⟨by decide, h.1⟩⟩
  · obtain ⟨-, hlo, hhi, hw⟩ := present_pairDirEntry hp
    exact ⟨hw, .inl ⟨hlo, hhi⟩⟩

theorem tableOf_pairOn (hd : d = 16 ∨ d = 320) (ht : TableOf (pairOn c).mem d f) :
    f = 16 ∨ 256 ≤ f ∧ f < 322 := by
  rcases ht with rfl | ⟨i, hi, hp, rfl⟩
  · omega
  · obtain ⟨-, hf | hf⟩ := present_pairOn hd hi hp <;> omega

theorem pteAt_pairOn_low (hd : d = 16 ∨ d = 320) (hv : v < 32768) :
    pteAt (pairOn c).mem d v = v * 4096 ||| 3 := by
  have hdir : word (pairOn c).mem d (v / 1024) = (256 + v / 1024) * 4096 ||| 3 := by
    rw [word_pairOn_dir hd (by omega), if_neg (by omega), pairDirEntry, if_pos (by omega)]
  unfold pteAt
  rw [hdir, if_pos (by rw [hasFlag_mul_or _ _ (by decide)]; decide), mul_or_div (by decide),
    show (pairOn c).mem = (pairMachine 402).mem from rfl, word_pairMachine (by omega), pairWord,
    if_neg (by omega), if_pos (by omega),
    show 1024 * ((256 + v / 1024 - 256) % 32) + v % 1024 = v by omega]

/-- The entries of user pages: two in the process, none in `page_dir`. -/
theorem pteAt_pairOn_user (hd : d = 16 ∨ d = 320) (hv : UserPage v)
    (hp : hasFlag (pteAt (pairOn c).mem d v) pagePresent) :
    pteAt (pairOn c).mem d v = 322 * 4096 ||| 7 ∨ pteAt (pairOn c).mem d v = 323 * 4096 ||| 7 := by
  rcases hd with rfl | rfl
  · have hdir : ¬hasFlag (word (pairOn c).mem 16 (v / 1024)) pagePresent := by
      obtain ⟨hlo, hhi⟩ := hv.table
      rw [word_pairOn_dir (.inl rfl) (by omega), if_neg (by omega)]
      intro hpresent
      have := (present_pairDirEntry hpresent).1
      omega
    unfold pteAt at hp
    rw [if_neg hdir] at hp
    exact absurd hp (by decide)
  · rw [show (pairOn c).mem = (pairMachine 402).mem from rfl, pteAt_pairMachine hv] at hp ⊢
    split_ifs at * with h0 h1
    · exact .inl rfl
    · exact .inr rfl
    · exact absurd hp (by decide)

theorem liveTables_pairOn (hc : c = 16 ∨ c = 320) : LiveTables (pairOn c) (256 + ·) c 16 where
  mapped := ⟨rfl, @idDir_pairMachine 402 c hc, @idTables_pairMachine 402⟩
  pageDir := rfl
  zero := by
    rw [show (pairOn c).pmm = (pairMachine 402).pmm from rfl, pageIsFree_pairMachine]
    simp
  used f hf := by
    have hrange : f = 16 ∨ 256 ≤ f ∧ f < 322 :=
      hf.elim (tableOf_pairOn hc) (tableOf_pairOn (.inl rfl))
    refine ⟨by unfold Low; omega, ?_⟩
    rw [show (pairOn c).pmm = (pairMachine 402).pmm from rfl, pageIsFree_pairMachine]
    simp
    omega
  apart d i hd hi hp := by
    have hd' : d = 16 ∨ d = 320 := by omega
    obtain ⟨-, hf | hf⟩ := present_pairOn hd' hi hp
    · constructor <;> omega
    · constructor <;> omega
  write i hi hp := (present_pairOn hc hi hp).1
  data v hv hp ht := by
    have hf := tableOf_pairOn hc ht
    rcases pteAt_pairOn_user hc hv hp with heq | heq <;> rw [heq, mul_or_div (by decide)] at hf <;>
      omega
  cow v hv hp hcow := by
    by_cases hlow : v < 32768
    · rw [pteAt_pairOn_low hc hlow, hasFlag_mul_or _ _ (by decide)] at hcow
      exact absurd hcow (by decide)
    · rcases pteAt_pairOn_user hc ⟨by omega, hv⟩ hp with heq | heq <;> rw [heq] at hcow <;>
        exact absurd hcow (by decide)
  kernel i hlo hhi hp := by
    rw [word_pairOn_dir (.inl rfl) (by omega), if_neg (by omega)] at hp
    have := (present_pairDirEntry hp).1
    omega

theorem two_le_freeBelow_pairOn {n : Nat} (hn : 402 < n) : 2 ≤ freeBelow n (pairOn c).pmm := by
  refine sub_le_freeBelow (a := 400) (b := 402) (by omega) fun p hlo hhi => ?_
  rw [show (pairOn c).pmm = (pairMachine 402).pmm from rfl, pageIsFree_pairMachine]
  simp
  omega

theorem pairOn_returns (hc : c = 16 ∨ c = 320) :
    ∃ t, pageFault (pairOn c) (some (c * 4096)) 2 0xE0000000 = some t :=
  (liveTables_pairOn hc).pageFault_returns _ rfl rfl rfl (by decide) (by decide)
    (two_le_freeBelow_pairOn (by decide))

/-- In `page_dir` itself a write to `0xE0000000` goes through after the fault. -/
theorem pageFault_resolves_kernel :
    ∃ t, pageFault (pairOn 16) (some (16 * 4096)) 2 0xE0000000 = some t ∧
    Resolved t 2 0xE0000000 := by
  have hl := liveTables_pairOn (.inl rfl)
  obtain ⟨t, ht⟩ := pairOn_returns (.inl rfl)
  refine ⟨t, ht, (pageFault_resolves_iff hl (fun pd hpd => some.inj hpd) (by decide) ht).mpr
    (.inr (.inr ((hl.mappingShows_iff _).mpr ?_)))⟩
  exact ⟨rfl, two_le_freeBelow_pairOn (by decide)⟩

/-- In the process the same fault is handled, and the write faults again. -/
theorem pageFault_unresolved :
    ∃ t, pageFault (pairOn 320) (some (320 * 4096)) 2 0xE0000000 = some t ∧
    ¬Resolved t 2 0xE0000000 := by
  have hl := liveTables_pairOn (.inr rfl)
  obtain ⟨t, ht⟩ := pairOn_returns (.inr rfl)
  refine ⟨t, ht, fun hres => ?_⟩
  obtain ⟨e, hwalk, -⟩ | hshows := (hl.pageFault_demand (by decide) rfl ht).mp hres
  · cases hwalk
  · exact absurd hshows.1 (by decide)

end AliOS
